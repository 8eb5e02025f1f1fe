import Plinth.Ledger.Peers
import Plinth.Runs.Waits

/-!
# `Plinth.Runs.Peers`: no waiter is stranded

A process that is Blocked at an endpoint waits for a peer: a receiver for somebody who can send,
and a sender for somebody who can receive. `ipc_send` and `ipc_recv` refuse to block without a
peer, and an exit wakes the waiters whose last peer it takes.

`cap_release` of an endpoint capability does not look at the waiters. `no_stranded_waiter` says
that this is the only gap: in every run without a release that takes the last peer of a waiter, no
waiter is stranded. `releaseRun` is a run with such a release.
-/

set_option autoImplicit false

namespace Plinth

open Transition

namespace Kernel

variable {s t : Kernel} {ℓ : Label} {p : ProcSlot} {id : EndpointId}

/-- The right that the peers of the waiters at `id` have. -/
def peerSide (s : Kernel) (id : EndpointId) : Rights :=
  peerRight (s.ipc.endpoints id).queue.areSenders

/-- The capability is the last one that the waiters at its endpoint wait for. -/
def isLastPeer (s : Kernel) (cap : Capability) : Bool :=
  match cap.object with
  | .endpoint id =>
    let ep := s.ipc.endpoints id
    !ep.queue.isEmpty &&
      if ep.queue.areSenders then cap.rights.has rightRecv && ep.receivers == 1
      else cap.rights.has rightSend && ep.senders == 1
  | _ => false

/-- The entry releases the last peer of a waiter. -/
def strandsWaiters (s : Kernel) : Label → Bool
  | .capRelease core slot =>
    match s.procs.current core with
    | none => false
    | some proc => ((proc.caps.peek slot).map s.isLastPeer).getD false
  | _ => false

/-- The guard of the runs without such a release. -/
def leavesPeers (s : Kernel) (ℓ : Label) : Prop := s.strandsWaiters ℓ = false

instance : ∀ s ℓ, Decidable (leavesPeers s ℓ) := fun s ℓ =>
  inferInstanceAs (Decidable (s.strandsWaiters ℓ = false))

/-- The actions of these runs. -/
def peerGuard : Guard :=
  { Guard.any with
    take := fun v p k => ∀ proc cap id, v.proc p = some proc → proc.caps.slots k = some cap →
      cap.object = .endpoint id → v.doomed = false ∧ (v.queue id ≠ [] →
        reachWeight id (peerRight (v.sendersWait id)) cap
          < v.total (reachWeight id (peerRight (v.sendersWait id)))) }

theorem peerGuard_keeps : peerGuard.KeepsPeers :=
  fun _ _ _ proc cap id htake hp hk hobj => htake proc cap id hp hk hobj

/-- An endpoint with a waiter has a queue that is not empty. -/
theorem isEmpty_of_waiting (h : s.ipc.waiting id ≠ []) :
    (s.ipc.endpoints id).queue.isEmpty = false := by
  cases hhead : (s.ipc.endpoints id).queue.head with
  | none =>
    unfold Ipc.waiting at h
    rw [hhead] at h
    exact absurd rfl h
  | some p => simp [WaitQueue.isEmpty, hhead]

/-- A capability that is not the last peer leaves a peer when it goes. -/
theorem Good.peer_left (hgood : s.Good) (hpeers : s.ledger.Peered) {cap : Capability}
    (hobj : cap.object = .endpoint id) (hlast : s.isLastPeer cap = false)
    (hne : s.ipc.waiting id ≠ []) :
    reachWeight id (s.peerSide id) cap < s.reaching id (s.peerSide id) := by
  have hpos : 0 < s.ledger.backing (reachWeight id (s.peerSide id)) := hpeers id hne
  rw [Ledger.backing_of_calm rfl] at hpos
  have hpos' : 0 < s.reaching id (s.peerSide id) := hpos
  have hsenders : (s.ipc.endpoints id).senders = s.reaching id rightSend := hgood.rep.ipc.senders id
  have hreceivers : (s.ipc.endpoints id).receivers = s.reaching id rightRecv :=
    hgood.rep.ipc.receivers id
  simp only [isLastPeer, hobj, isEmpty_of_waiting hne, Bool.not_false, Bool.true_and] at hlast
  unfold peerSide peerRight at hpos' ⊢
  cases hside : (s.ipc.endpoints id).queue.areSenders with
  | true =>
    simp only [hside, if_true, Bool.and_eq_false_iff, beq_eq_false_iff_ne] at hlast hpos' ⊢
    by_cases hhas : cap.rights.has rightRecv = true
    · have hone : reachWeight id rightRecv cap = 1 := by simp [reachWeight, reaches, hobj, hhas]
      have hmore := hlast.resolve_left (by simp [hhas])
      omega
    · have hzero : reachWeight id rightRecv cap = 0 := by simp [reachWeight, reaches, hhas]
      omega
  | false =>
    simp only [hside, Bool.false_eq_true, if_false, Bool.and_eq_false_iff,
      beq_eq_false_iff_ne] at hlast hpos' ⊢
    by_cases hhas : cap.rights.has rightSend = true
    · have hone : reachWeight id rightSend cap = 1 := by simp [reachWeight, reaches, hobj, hhas]
      have hmore := hlast.resolve_left (by simp [hhas])
      omega
    · have hzero : reachWeight id rightSend cap = 0 := by simp [reachWeight, reaches, hhas]
      omega

/-- The guard of the runs allows its entries. -/
theorem leavesPeers.permits (hgood : s.Good) (hpeers : s.ledger.Peered) (hok : leavesPeers s ℓ) :
    s.Permits peerGuard ℓ := by
  have hany := s.permits_any ℓ
  refine ⟨hany.give, ?_, hany.leave, hany.strand, hany.grant, hany.post, hany.register, hany.park,
    hany.serve, hany.forget, hany.wake⟩
  intro p k htaken proc cap id hp hk hobj
  refine ⟨rfl, fun hne => ?_⟩
  show reachWeight id (s.peerSide id) cap < s.ledger.total (reachWeight id (s.peerSide id))
  unfold leavesPeers at hok
  cases ℓ with
  | capRelease core slot =>
    obtain ⟨x, hc, hrest⟩ := Option.bind_eq_some_iff.mp htaken
    obtain ⟨k', hslot, heq⟩ := Option.map_eq_some_iff.mp hrest
    cases heq
    have hx := hgood.proc_of_current hc
    have heq : x = proc := by simpa using hx.symm.trans hp
    subst heq
    have hpeek : x.caps.peek slot = some cap := by simp [CapTable.peek, hslot, hk]
    refine hgood.peer_left hpeers hobj ?_ hne
    simpa [strandsWaiters, hc, hpeek] using hok
  | reply core slot msg =>
    obtain ⟨x, hc, hrest⟩ := Option.bind_eq_some_iff.mp htaken
    obtain ⟨k', hslot, hrest⟩ := Option.bind_eq_some_iff.mp hrest
    obtain ⟨c, hk', hrest⟩ := Option.bind_eq_some_iff.mp hrest
    split at hrest
    · rename_i hrefuse
      cases hrest
      have hx := hgood.proc_of_current hc
      have heq : x = proc := by simpa using hx.symm.trans hp
      subst heq
      have hcap : c = cap := by simpa using hk'.symm.trans hk
      subst hcap
      simp [releaseAction, hobj, isReclaimableKind, CapObject.dropAction] at hrefuse
    · cases hrest
  | _ => cases htaken

/-- In the runs without such a release, waiters have peers. -/
theorem peered_of_reachable (hs : Reachable system leavesPeers s) : s.ledger.Peered := by
  refine invariant (g := peerGuard) ?_ (fun _ _ h => h) ?_ ?_ hs
  · intro s hinit id hne
    exact absurd (hinit.waiting_nil id) hne
  · intro v v' act hbase h
    exact act.peered hbase peerGuard_keeps h
  · intro s ℓ hgood hpeers hok
    exact leavesPeers.permits hgood hpeers hok

/-! ### The wake of a waiter that loses its last peer -/

/-- An entry that reclaims no process and takes no endpoint capability leaves the peers. -/
theorem Good.peers_stay (hgood : s.Good) (hnext : s.step ℓ = some t)
    (hg : (s.stepGuard ℓ).KeepsEndpoints) (id : EndpointId) (right : Rights) :
    s.reaching id right ≤ t.reaching id right := by
  obtain ⟨-, spent, hpath⟩ := hgood.step_path hnext
  exact (Path.keeps_endpoints hpath hgood.base hg fun cap hcap => by cases hcap).2 id right

/-- An entry that neither reclaims a process nor releases a capability. -/
theorem keepsEndpoints_of_none (hleave : ∀ v p, ¬ s.Reclaims ℓ v p) (htake : s.taken ℓ = none) :
    (s.stepGuard ℓ).KeepsEndpoints := by
  refine ⟨hleave, ?_⟩
  intro v p k proc cap htaken
  have hsome : s.taken ℓ = some (p, k) := htaken.2
  rw [htake] at hsome
  cases hsome

/-- A reply takes a reply capability. -/
theorem Good.reply_keepsEndpoints (hgood : s.Good) (core : Core) (slot msg : Nat) :
    (s.stepGuard (.reply core slot msg)).KeepsEndpoints := by
  refine ⟨fun v p h => h, ?_⟩
  rintro v p k proc cap ⟨rfl, htaken⟩ hp hk id hobj
  obtain ⟨x, hc, hrest⟩ := Option.bind_eq_some_iff.mp htaken
  obtain ⟨k', hslot, hrest⟩ := Option.bind_eq_some_iff.mp hrest
  obtain ⟨c, hk', hrest⟩ := Option.bind_eq_some_iff.mp hrest
  split at hrest
  · rename_i hrefuse
    cases hrest
    have hx := hgood.proc_of_current hc
    have heq : x = proc := by simpa using hx.symm.trans hp
    subst heq
    have hcap : c = cap := by simpa using hk'.symm.trans hk
    subst hcap
    simp [releaseAction, hobj, isReclaimableKind, CapObject.dropAction] at hrefuse
  · cases hrest

/-- An entry that takes the last peer of a waiter wakes the waiter with `IPC_PEER_DIED`. -/
theorem Good.told_of_unpeered (hgood : s.Good) (ht : t.ledger.Peered)
    (hnext : s.step ℓ = some t) (hpeer : 0 < s.reaching id (s.peerSide id))
    (hmem : p ∈ s.ipc.waiting id) (hlast : t.reaching id (s.peerSide id) = 0) :
    t.procs.state p ≠ .blocked ∧ (t.procs.table p).result.status = ipcPeerDied := by
  have hlose : ¬ (s.stepGuard ℓ).KeepsEndpoints := by
    intro hg
    have hle := hgood.peers_stay hnext hg id (s.peerSide id)
    omega
  have hrecv : ∀ core slot, ℓ ≠ .recv core slot := by
    rintro core slot rfl
    exact hlose (keepsEndpoints_of_none (fun v p h => h) rfl)
  have hunpeered : p ∈ t.ipc.waiting id →
      (t.ipc.endpoints id).queue.areSenders = (s.ipc.endpoints id).queue.areSenders → False := by
    intro hstill hside
    have hpos := ht id (List.ne_nil_of_mem hstill)
    rw [Ledger.backing_of_calm rfl] at hpos
    have hpos' : 0 < t.reaching id (t.peerSide id) := hpos
    unfold peerSide at hpos' hlast
    rw [hside] at hpos'
    omega
  have hplace : ∃ place, s.ParkedAt p place ∧ ¬ t.ParkedAt p place := by
    rcases hgood.queued_parked hmem with ⟨mail, hparked⟩ | hparked
    · refine ⟨_, hparked, fun hstill => ?_⟩
      exact hunpeered hstill.2.1 (hstill.2.2.1.trans hparked.2.2.1.symm)
    · refine ⟨_, hparked, fun hstill => ?_⟩
      exact hunpeered hstill.2.1 (hstill.2.2.trans hparked.2.2.symm)
  obtain ⟨place, hparked, hleft⟩ := hplace
  rcases hgood.parked_next hnext hparked with hstill | ⟨-, -, -, -, hserved, -⟩ | ⟨hforgot, -⟩ |
    ⟨hout, hsignal, htells⟩
  · exact absurd hstill hleft
  · cases ℓ with
    | recv core slot => exact absurd rfl (hrecv core slot)
    | _ => cases hserved
  · cases ℓ with
    | recv core slot => exact absurd rfl (hrecv core slot)
    | _ => cases hforgot
  · refine ⟨hout, ?_⟩
    cases ℓ with
    | exit core => exact htells.1
    | cpuCharge core slot amount => exact htells.1
    | send core epSlot msg capSlot =>
      exact (hlose (keepsEndpoints_of_none (fun v p h => h) rfl)).elim
    | recv core slot => exact absurd rfl (hrecv core slot)
    | call core epSlot req => exact (hlose (keepsEndpoints_of_none (fun v p h => h) rfl)).elim
    | reply core slot msg => exact absurd (hgood.reply_keepsEndpoints core slot msg) hlose
    | completeIrq dev used => exact (hlose (keepsEndpoints_of_none (fun v p h => h) rfl)).elim
    | deliverEvent source event =>
      exact (hlose (keepsEndpoints_of_none (fun v p h => h) rfl)).elim
    | _ => exact hsignal.elim

/-- Every waiter at an endpoint has a peer, and a waiter that loses its last peer is told. -/
structure NoStrandedWaiter (s : Kernel) : Prop where
  /-- A waiter at an endpoint is Blocked, the endpoint is in use, and a live capability can use
  the other side of it. -/
  peer : ∀ id p, p ∈ s.ipc.waiting id → s.procs.state p = .blocked ∧
    (s.ipc.endpoints id).inUse = true ∧
      0 < s.reaching id (if (s.ipc.endpoints id).queue.areSenders then rightRecv else rightSend)
  /-- A waiter whose last peer goes in an entry is woken with `IPC_PEER_DIED`. -/
  told : ∀ ℓ t, leavesPeers s ℓ → s.step ℓ = some t → ∀ id p, p ∈ s.ipc.waiting id →
    t.reaching id (if (s.ipc.endpoints id).queue.areSenders then rightRecv else rightSend) = 0 →
      t.procs.state p ≠ .blocked ∧ (t.procs.table p).result.status = ipcPeerDied

/-- In every run without a release that takes the last peer of a waiter, no waiter is
stranded. -/
theorem no_stranded_waiter (hs : Reachable system leavesPeers s) : s.NoStrandedWaiter := by
  have hgood := good_of_reachable hs.forget
  have hpeers := peered_of_reachable hs
  have hreach : ∀ id p, p ∈ s.ipc.waiting id → 0 < s.reaching id (s.peerSide id) := by
    intro id p hmem
    have hpos := hpeers id (List.ne_nil_of_mem hmem)
    rwa [Ledger.backing_of_calm rfl] at hpos
  refine ⟨fun id p hmem => ⟨?_, (hgood.base.holders id p hmem).1, hreach id p hmem⟩, ?_⟩
  · rcases hgood.queued_parked hmem with ⟨mail, hparked⟩ | hparked
    · exact hparked.blocked
    · exact hparked.blocked
  · intro ℓ t hok hnext id p hmem hlast
    exact hgood.told_of_unpeered (peered_of_reachable (hs.next hok hnext)) hnext
      (hreach id p hmem) hmem hlast

/-- A receiver waits, and the only process that can send releases its capability. -/
def releaseRun : List Label :=
  [.createEndpoint,
    .run 0 [some smallImage, some smallImage]
      [some ⟨.endpoint 0, rightRecv, none⟩, some ⟨.endpoint 0, rightSend, none⟩],
    .recv 0 1, .resume 0 1, .capRelease 0 1]

/-- The same, but the sender exits. -/
def exitRun : List Label :=
  [.createEndpoint,
    .run 0 [some smallImage, some smallImage]
      [some ⟨.endpoint 0, rightRecv, none⟩, some ⟨.endpoint 0, rightSend, none⟩],
    .recv 0 1, .resume 0 1, .exit 0]

theorem no_stranded_waiter_exitRun :
    (smallMachine.runFrom exitRun).NoStrandedWaiter ∧
      (smallMachine.runFrom exitRun).procs.state 0 = .ready ∧
      ((smallMachine.runFrom exitRun).procs.table 0).result.status = ipcPeerDied := by
  refine ⟨no_stranded_waiter (reachable_small_of ?_), ?_, ?_⟩ <;> decide +kernel

/-- After the release the receiver waits for nobody. -/
theorem releaseRun_strands : ∃ s, Reachable system always s ∧ 0 ∈ s.ipc.waiting 0 ∧
    (s.ipc.endpoints 0).inUse = true ∧ (s.ipc.endpoints 0).queue.areSenders = false ∧
    s.reaching 0 rightSend = 0 :=
  ⟨_, reachable_small releaseRun, by decide +kernel⟩

end Kernel

end Plinth
