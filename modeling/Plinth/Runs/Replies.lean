import Plinth.Runs.Standing

/-!
# `Plinth.Runs.Replies`: reply capabilities and the callers that they name

A reply capability names the process-table slot of a caller. In every state of a run, at most
one reply capability names a slot. The process there is Blocked since its own call, and it is on
no wait queue (`reply_sound`). So a reply answers the call that the capability was minted for.

The converse needs room at the server. `ipc_recv` and `ipc_call` hand a request over also when
the server's capability table is full, and then nothing names the caller.
`calls_answerable` says what holds when every server that takes a request has a free slot, and
`lostRun` is a run in which the server has none.
-/

set_option autoImplicit false

namespace Plinth

open Transition

namespace Kernel

variable {s t : Kernel} {ℓ : Label} {p : ProcSlot} {core : Core}

/-- The number of live reply capabilities that name the process in slot `p`. -/
def replies (s : Kernel) (p : ProcSlot) : Nat := liveTotal (objWeight (.reply p)) s.procs.proc

theorem replies_eq_total (s : Kernel) (p : ProcSlot) :
    s.ledger.total (objWeight (.reply p)) = s.replies p := rfl

/-- The entry is a call by the process in slot `p`. -/
def Calls (s : Kernel) (p : ProcSlot) : Label → Prop
  | .call core _ _ => (s.procs.current core).isSome = true ∧ s.procs.currentSlot core = p
  | _ => False

/-- The same process is in slot `p` before and after a step, and it is Blocked. -/
structure StaysBlocked (s t : Kernel) (p : ProcSlot) : Prop where
  before : s.procs.state p = .blocked
  after : t.procs.state p = .blocked
  same : SameProcess s.procs.proc t.procs.proc p

/-- The process in slot `p` called, and it has been Blocked in that call since. -/
def BlockedInCall (hist : List (Kernel × Label)) (s : Kernel) (p : ProcSlot) : Prop :=
  s.procs.state p = .blocked ∧
    Since (fun s ℓ t => s.Calls p ℓ ∧ SameProcess s.procs.proc t.procs.proc p)
      (fun s _ t => s.StaysBlocked t p) hist s

/-- The process in slot `p` is Blocked in a call: its request waits in a queue, or a server took
the request and holds a reply capability. -/
def Calling (s : Kernel) (p : ProcSlot) : Prop :=
  s.ParkedAt p .reply ∨ ∃ id mail, mail.call = true ∧ s.ParkedAt p (.sender id mail)

theorem Calling.blocked (h : s.Calling p) : s.procs.state p = .blocked := by
  rcases h with h | ⟨id, mail, -, h⟩
  · exact h.blocked
  · exact h.blocked

/-- A process that parks as a caller makes a call. -/
theorem parking_calls {place : Place} (h : s.parking ℓ = some (p, place))
    (hplace : place = .reply ∨ place = .nowhere ∨ ∃ id mail, mail.call = true ∧
      place = .sender id mail) : s.Calls p ℓ := by
  have hother : place ≠ .reply → place ≠ .nowhere →
      (∀ id mail, mail.call = true → place ≠ .sender id mail) → s.Calls p ℓ := by
    intro hreply hnowhere hsender
    rcases hplace with heq | heq | ⟨id, mail, hcall, heq⟩
    · exact absurd heq hreply
    · exact absurd heq hnowhere
    · exact absurd heq (hsender id mail hcall)
  cases ℓ with
  | send core epSlot msg capSlot =>
    obtain ⟨id, hid, heq⟩ := Option.map_eq_some_iff.mp h
    cases heq
    refine hother (fun heq => by cases heq) (fun heq => by cases heq) fun id mail hcall heq => ?_
    cases heq
    cases hcall
  | recv core epSlot =>
    obtain ⟨id, hid, heq⟩ := Option.map_eq_some_iff.mp h
    cases heq
    exact hother (fun heq => by cases heq) (fun heq => by cases heq)
      fun id mail hcall heq => by cases heq
  | call core epSlot req =>
    obtain ⟨id, hid, heq⟩ := Option.map_eq_some_iff.mp h
    obtain ⟨-, proc, -, -, hc, -⟩ := endpointIdFor_some (by decide) hid
    cases heq
    exact ⟨by rw [hc]; rfl, rfl⟩
  | ringWait core slot =>
    obtain ⟨id, hid, heq⟩ := Option.map_eq_some_iff.mp h
    cases heq
    exact hother (fun heq => by cases heq) (fun heq => by cases heq)
      fun id mail hcall heq => by cases heq
  | bindWait core slot seen idx =>
    obtain ⟨proc, hc, hrest⟩ := Option.bind_eq_some_iff.mp h
    split at hrest
    · cases hrest
      exact hother (fun heq => by cases heq) (fun heq => by cases heq)
        fun id mail hcall heq => by cases heq
    · cases hrest
  | _ => cases h

/-- The process that calls is not reclaimed by the entry. -/
theorem Calls.same_process (hgood : s.Good) (hnext : s.step ℓ = some t) (h : s.Calls p ℓ) :
    SameProcess s.procs.proc t.procs.proc p := by
  obtain ⟨-, spent, hpath⟩ := hgood.step_path hnext
  cases ℓ with
  | call core epSlot req =>
    obtain ⟨hsome, rfl⟩ := h
    obtain ⟨proc, hc⟩ := Option.isSome_iff_exists.mp hsome
    exact Path.same_process hpath (fun v hv => hv.elim) (hgood.proc_of_current hc)
  | _ => exact h.elim

/-- A process that is Blocked is not reclaimed by an entry. -/
theorem Good.same_blocked (hgood : s.Good) (hnext : s.step ℓ = some t)
    (hblocked : s.procs.state p = .blocked) : SameProcess s.procs.proc t.procs.proc p := by
  obtain ⟨-, spent, hpath⟩ := hgood.step_path hnext
  obtain ⟨-, proc, -, hproc⟩ := hgood.rep.procs.table_of_blocked hblocked
  exact Path.same_process hpath
    (fun v hv => reclaims_not_blocked hgood hnext hv hblocked) hproc

/-- Where a caller stood before a step: it called in this step, or it was Blocked in its call. -/
theorem Good.calling_before (hgood : s.Good) (hnext : s.step ℓ = some t) (h : t.Calling p) :
    s.Calls p ℓ ∨ s.Calling p := by
  rcases h with hreply | ⟨id, mail, hcall, hsender⟩
  · obtain ⟨σ, hσ, hwalk⟩ := hgood.parked_before hnext hreply
    rcases hwalk.to_reply with rfl | hpark | ⟨id, mail, hcall, -, rfl | hpark⟩
    · exact Or.inr (Or.inl hσ)
    · exact Or.inl (parking_calls hpark (Or.inl rfl))
    · exact Or.inr (Or.inr ⟨id, mail, hcall, hσ⟩)
    · exact Or.inl (parking_calls hpark (Or.inr (Or.inr ⟨id, mail, hcall, rfl⟩)))
  · obtain ⟨σ, hσ, hwalk⟩ := hgood.parked_before hnext hsender
    rcases hwalk.to_at (fun heq => by cases heq) (fun heq => by cases heq) with rfl | hpark
    · exact Or.inr (Or.inr ⟨id, mail, hcall, hσ⟩)
    · exact Or.inl (parking_calls hpark (Or.inr (Or.inr ⟨id, mail, hcall, rfl⟩)))

theorem Booted.not_blocked (h : Booted s) (p : ProcSlot) : s.procs.state p ≠ .blocked := by
  unfold Procs.state
  rw [h.table p]
  decide

/-- A caller has been Blocked since its call. -/
theorem Calling.since {hist : List (Kernel × Label)} (run : Run system always hist s)
    (h : s.Calling p) : BlockedInCall hist s p := by
  refine ⟨h.blocked, run.since (R := fun s => s.Calling p)
    (fun s hinit hcalling => Booted.not_blocked hinit p hcalling.blocked)
    (fun s ℓ t hs _ hnext hcalling => ?_) h⟩
  have hgood := good_of_reachable hs
  rcases hgood.calling_before hnext hcalling with hcalls | hbefore
  · exact Or.inl ⟨hcalls, hcalls.same_process hgood hnext⟩
  · exact Or.inr ⟨hbefore, hbefore.blocked, hcalling.blocked,
      hgood.same_blocked hnext hbefore.blocked⟩

/-! ### The reply -/

/-- A reply to a Blocked caller: the caller's slot is Ready with the reply as its result, and no
other slot of the table changes. -/
theorem ipcReply_eq {proc : Process} {cap : Capability} {slot msg : Nat}
    (hc : s.procs.current core = some proc) (hlookup : proc.caps.lookup slot 0 = .ok cap)
    (hobj : cap.object = .reply p) (hblocked : s.procs.state p = .blocked) :
    (s.ipcReply core slot msg).1 = .value ipcOk ∧
      (s.ipcReply core slot msg).2.procs.table
        = Function.update s.procs.table p
          { s.procs.table p with state := .ready, result := ⟨ipcOk, msg, noCap⟩ } := by
  have hisBlocked : s.procs.isBlocked p = true := by
    unfold Procs.isBlocked
    rw [hblocked]
    rfl
  unfold ipcReply
  rw [hc]
  dsimp only
  rw [hlookup]
  dsimp only
  rw [hobj]
  dsimp only
  rw [if_pos hisBlocked]
  refine ⟨rfl, ?_⟩
  dsimp only
  split
  · rename_i a P' hsome
    obtain ⟨y, t, -, -, rfl⟩ := Procs.onCurrent_eq_some.mp hsome
    rfl
  · rfl

/-- What a live reply capability for the process in slot `p` means. -/
structure ReplySound (hist : List (Kernel × Label)) (s : Kernel) (p : ProcSlot) : Prop where
  /-- It is the only one. -/
  once : s.replies p = 1
  /-- The process there has been Blocked since its own call. -/
  inCall : BlockedInCall hist s p
  /-- Its request was received: a receive took it from the queue, or the call found a server that
  waits. The capability was minted then, and it has named the process since. -/
  received : Since (fun s ℓ _ => s.served ℓ = some p ∨ s.parking ℓ = some (p, .reply))
    (fun s _ t => s.replies p = 1 ∧ s.StaysBlocked t p) hist s
  /-- It waits in no queue. -/
  offQueue : ∀ id, p ∉ s.ipc.waiting id
  /-- A reply through the capability wakes the process with the reply, wakes nobody else, and
  consumes the capability. -/
  answers : ∀ core proc slot cap msg t, s.procs.current core = some proc →
    proc.caps.lookup slot 0 = .ok cap → cap.object = .reply p →
    s.step (.reply core slot msg) = some t →
      (s.ipcReply core slot msg).1 = .value ipcOk ∧
      t.procs.state p = .ready ∧ (t.procs.table p).result = ⟨ipcOk, msg, noCap⟩ ∧
      (∀ q, q ≠ p → t.procs.table q = s.procs.table q) ∧ t.replies p = 0

/-- A reply capability names a process that is parked for the reply. -/
theorem Good.parked_reply (hgood : s.Good) : 0 < s.replies p ↔ s.ParkedAt p .reply := by
  refine ⟨fun h => ⟨hgood.base.registered.blocked ?_, h⟩, fun h => h.2⟩
  unfold Ledger.regs
  rw [replies_eq_total]
  omega

/-- At most one reply capability names a process. -/
theorem Good.replies_le (hgood : s.Good) (p : ProcSlot) : s.replies p ≤ 1 := by
  have hone := hgood.base.registered.le_one p
  unfold Ledger.regs at hone
  rw [replies_eq_total] at hone
  omega

/-- A reply capability was minted when the request was received, and it has been the only one
since. -/
theorem replies_since {hist : List (Kernel × Label)} (run : Run system always hist s)
    (h : 0 < s.replies p) :
    Since (fun s ℓ _ => s.served ℓ = some p ∨ s.parking ℓ = some (p, .reply))
      (fun s _ t => s.replies p = 1 ∧ s.StaysBlocked t p) hist s := by
  refine run.since (R := fun s => 0 < s.replies p) (fun s hinit hpos => ?_)
    (fun s ℓ t hs _ hnext hpos => ?_) h
  · have hzero : s.replies p = 0 := by
      have htotal := Booted.total_zero hinit (objWeight (.reply p))
      rwa [replies_eq_total] at htotal
    omega
  · have hgood := good_of_reachable hs
    have hafter := (hgood.step_path hnext).1.parked_reply.mp hpos
    obtain ⟨σ, hσ, hwalk⟩ := hgood.parked_before hnext hafter
    rcases hwalk.to_reply with rfl | hpark | ⟨id, mail, hcall, hserve, -⟩
    · have hbefore := hgood.parked_reply.mpr hσ
      have hone := hgood.replies_le p
      exact Or.inr ⟨hbefore, by omega, ParkedAt.blocked hσ, hafter.blocked,
        hgood.same_blocked hnext (ParkedAt.blocked hσ)⟩
    · exact Or.inl (Or.inr hpark)
    · exact Or.inl (Or.inl hserve)

/-- In every state of a run, the live reply capabilities are sound. -/
theorem reply_sound {hist : List (Kernel × Label)} (run : Run system always hist s)
    (h : 0 < s.replies p) : s.ReplySound hist p := by
  have hgood := good_of_reachable run.reachable
  have hparked := hgood.parked_reply.mp h
  have hblocked := hparked.blocked
  refine ⟨?_, Calling.since run (Or.inl hparked), replies_since run h, fun id hmem => ?_, ?_⟩
  · have hone := hgood.replies_le p
    omega
  · have hone := hgood.base.registered.le_one p
    have hpos := count_pos_of_queue (v := s.ledger) hmem
    unfold Ledger.regs at hone
    rw [replies_eq_total] at hone
    omega
  · intro core proc slot cap msg t hc hlookup hobj hnext
    obtain ⟨hret, htable⟩ := ipcReply_eq hc hlookup hobj hblocked
    obtain ⟨-, rfl⟩ := onCore_some hnext
    have hready : (s.ipcReply core slot msg).2.procs.state p = .ready := by
      unfold Procs.state
      rw [htable, Function.update_self]
    refine ⟨hret, hready, by rw [htable, Function.update_self], fun q hq => ?_, ?_⟩
    · rw [htable, Function.update_of_ne hq]
    · have hgood' := (hgood.step_path hnext).1
      have hzero := hgood'.base.registered.regs_zero (p := p) (by
        change Procs.state _ p ≠ _
        rw [hready]
        decide)
      unfold Ledger.regs at hzero
      rw [replies_eq_total] at hzero
      omega

/-- A server and a client share an endpoint, and the server waits for a request. -/
def serverRun (before : List Label) : List Label :=
  [.createEndpoint,
    .run 0 [some smallImage, some smallImage]
      [some ⟨.endpoint 0, rightRecv, none⟩, some ⟨.endpoint 0, rightSend, none⟩]]
    ++ before ++ [.recv 0 1, .resume 0 1]

/-- A client calls a server. -/
def callRun : List Label := serverRun [] ++ [.call 0 1 42]

theorem reply_sound_callRun : ∃ hist,
    Run system always hist (smallMachine.runFrom callRun) ∧
      (smallMachine.runFrom callRun).ReplySound hist 1 := by
  obtain ⟨hist, run⟩ := reachable_small callRun
  exact ⟨hist, run, reply_sound run (by decide +kernel)⟩

/-! ### The caller -/

/-- A server that takes a request in this entry has a free slot for the reply capability. -/
def serverHasRoom (s : Kernel) : Label → Bool
  | .call core epSlot _ =>
    match s.endpointIdFor core epSlot rightSend with
    | none => true
    | some id =>
      match s.ipc.takeWaiting id false with
      | none => true
      | some (server, _) => s.hasRoom server
  | .recv core epSlot =>
    match s.endpointIdFor core epSlot rightRecv with
    | none => true
    | some id =>
      match s.ipc.takeWaiting id true with
      | none => true
      | some (caller, _) =>
        !(s.procs.table caller).pendingCall || s.hasRoom (s.procs.currentSlot core)
  | _ => true

/-- The guard of the runs in which servers have room. -/
def roomy (s : Kernel) (ℓ : Label) : Prop := s.serverHasRoom ℓ = true

instance : ∀ s ℓ, Decidable (roomy s ℓ) := fun s ℓ =>
  inferInstanceAs (Decidable (s.serverHasRoom ℓ = true))

theorem roomy.not_nowhere (h : roomy s ℓ) (p : ProcSlot) :
    s.parking ℓ ≠ some (p, .nowhere) := by
  intro hpark
  unfold roomy at h
  cases ℓ with
  | call core epSlot req =>
    obtain ⟨id, hid, heq⟩ := Option.map_eq_some_iff.mp hpark
    have hplace : s.callPlace core id req = .nowhere := (Prod.mk.inj heq).2
    unfold serverHasRoom at h
    dsimp only at h
    rw [hid] at h
    dsimp only at h
    unfold callPlace at hplace
    split at hplace
    · rename_i server ipc htake
      rw [htake] at h
      dsimp only at h
      rw [h] at hplace
      cases hplace
    · cases hplace
  | send core epSlot msg capSlot =>
    obtain ⟨id, hid, heq⟩ := Option.map_eq_some_iff.mp hpark
    cases heq
  | recv core epSlot =>
    obtain ⟨id, hid, heq⟩ := Option.map_eq_some_iff.mp hpark
    cases heq
  | ringWait core slot =>
    obtain ⟨id, hid, heq⟩ := Option.map_eq_some_iff.mp hpark
    cases heq
  | bindWait core slot seen idx =>
    obtain ⟨proc, hc, hrest⟩ := Option.bind_eq_some_iff.mp hpark
    split at hrest
    · cases hrest
    · cases hrest
  | _ => cases hpark

theorem roomy.not_forgotten (h : roomy s ℓ) : s.forgotten ℓ = none := by
  unfold roomy at h
  cases ℓ with
  | recv core epSlot =>
    unfold forgotten
    dsimp only
    split
    · rfl
    · rename_i id hid
      split
      · rfl
      · rename_i caller ipc htake
        refine if_neg ?_
        rintro ⟨hcall, hroom⟩
        unfold serverHasRoom at h
        dsimp only at h
        rw [hid] at h
        dsimp only at h
        rw [htake] at h
        dsimp only at h
        rw [hcall, Bool.not_true, Bool.false_or] at h
        exact hroom h
  | _ => rfl

/-- A caller stays in a queue or named while servers have room. -/
theorem Good.calling_next (hgood : s.Good) (hnext : s.step ℓ = some t)
    (hroom : roomy s ℓ) (h : s.Calling p) (hblocked : t.procs.state p = .blocked) :
    t.Calling p := by
  rcases h with hreply | ⟨id, mail, hcall, hsender⟩
  · rcases hgood.parked_next hnext hreply with hstay | ⟨id, mail, heq, -⟩ | ⟨hforget, -⟩ |
      ⟨hout, -⟩
    · exact Or.inl hstay
    · cases heq
    · rw [hroom.not_forgotten] at hforget
      cases hforget
    · exact absurd hblocked hout
  · rcases hgood.parked_next hnext hsender with hstay | ⟨-, -, -, -, -, hreply⟩ | ⟨hforget, -⟩ |
      ⟨hout, -⟩
    · exact Or.inr ⟨id, mail, hcall, hstay⟩
    · exact Or.inl hreply
    · rw [hroom.not_forgotten] at hforget
      cases hforget
    · exact absurd hblocked hout

theorem Calls.running (hgood : s.Good) (h : s.Calls p ℓ) : s.procs.state p = .running := by
  cases ℓ with
  | call core epSlot req =>
    obtain ⟨hsome, rfl⟩ := h
    obtain ⟨proc, hc⟩ := Option.isSome_iff_exists.mp hsome
    exact hgood.state_of_current hc
  | _ => exact h.elim

/-- A call parks the caller in a queue, or a server takes the request. -/
theorem Calls.place {place : Place} (h : s.Calls p ℓ) (hpark : s.parking ℓ = some (p, place)) :
    place = .reply ∨ place = .nowhere ∨
      ∃ id mail, mail.call = true ∧ place = .sender id mail := by
  cases ℓ with
  | call core epSlot req =>
    obtain ⟨id, hid, heq⟩ := Option.map_eq_some_iff.mp hpark
    have hplace : s.callPlace core id req = place := (Prod.mk.inj heq).2
    unfold callPlace at hplace
    split at hplace
    · split at hplace
      · exact Or.inl hplace.symm
      · exact Or.inr (Or.inl hplace.symm)
    · exact Or.inr (Or.inr ⟨_, _, rfl, hplace.symm⟩)
  | _ => exact h.elim

/-- A call that blocks leaves the caller in a queue or named, if the server has room. -/
theorem Good.call_blocks (hgood : s.Good) (hnext : s.step ℓ = some t)
    (hroom : roomy s ℓ) (h : s.Calls p ℓ) (hblocked : t.procs.state p = .blocked) :
    t.Calling p := by
  have hrun := h.running hgood
  obtain ⟨place, hplace⟩ := (stands_between t p).resolve_left fun hne => hne hblocked
  obtain ⟨σ, hσ, hwalk⟩ := hgood.parked_before hnext hplace
  have hout : ∀ place', σ ≠ .at place' := by
    rintro place' rfl
    have hstate := ParkedAt.blocked hσ
    rw [hrun] at hstate
    cases hstate
  have hnowhere : place ≠ .nowhere := by
    rintro rfl
    rcases hwalk.to_nowhere with heq | hpark | hforget
    · exact hout _ heq
    · exact hroom.not_nowhere p hpark
    · change s.forgotten ℓ = some p at hforget
      rw [hroom.not_forgotten] at hforget
      cases hforget
  by_cases hreply : place = .reply
  · subst hreply
    exact Or.inl hplace
  · rcases hwalk.to_at hreply hnowhere with heq | hpark
    · exact absurd heq (hout _)
    · rcases h.place hpark with heq | heq | ⟨id, mail, hcall, rfl⟩
      · exact absurd heq hreply
      · exact absurd heq hnowhere
      · exact Or.inr ⟨id, mail, hcall, hplace⟩

/-- While servers have room, a process that is Blocked in its call is queued or named. -/
theorem BlockedInCall.calling {hist : List (Kernel × Label)}
    (run : Run system roomy hist s) (h : BlockedInCall hist s p) : s.Calling p := by
  obtain ⟨hblocked, hsince⟩ := h
  induction run with
  | start => exact hsince.elim
  | step run hroom hnext ih =>
    have hgood := good_of_reachable run.reachable.forget
    rcases hsince with ⟨hcalls, -⟩ | ⟨hstay, hbefore⟩
    · exact hgood.call_blocks hnext hroom hcalls hblocked
    · exact hgood.calling_next hnext hroom (ih hstay.before hbefore) hblocked

/-- In every run whose servers have room for the reply capability when they take a request, a
process that is Blocked in a call is queued as a caller, or exactly one live reply capability
names it. -/
theorem calls_answerable {hist : List (Kernel × Label)}
    (run : Run system roomy hist s) (h : BlockedInCall hist s p) :
    (∃ id, p ∈ s.ipc.waiting id ∧ (s.ipc.endpoints id).queue.areSenders = true ∧
      (s.procs.table p).pendingCall = true) ∨ s.replies p = 1 := by
  rcases h.calling run with hreply | ⟨id, mail, hcall, hblocked, hqueue, hside, hmail⟩
  · right
    have hgood := good_of_reachable run.reachable.forget
    have hone := hgood.base.registered.le_one p
    have hpos : 0 < s.replies p := hreply.2
    unfold Ledger.regs at hone
    rw [replies_eq_total] at hone
    omega
  · left
    refine ⟨id, hqueue, hside, ?_⟩
    rw [← hmail] at hcall
    exact hcall

/-- The same call, but the server has filled its capability table. -/
def fullServerRun : List Label := serverRun (List.replicate 14 (.frameAlloc 0))

theorem calls_answerable_callRun :
    (∃ id, 1 ∈ (smallMachine.runFrom callRun).ipc.waiting id ∧
      ((smallMachine.runFrom callRun).ipc.endpoints id).queue.areSenders = true ∧
      ((smallMachine.runFrom callRun).procs.table 1).pendingCall = true) ∨
    (smallMachine.runFrom callRun).replies 1 = 1 := by
  obtain ⟨hist, run⟩ := reachable_small_of (show Follows roomy smallMachine (serverRun []) by
    decide +kernel)
  have hgood := good_of_reachable run.reachable.forget
  have hnext : (smallMachine.runFrom (serverRun [])).step (.call 0 1 42)
      = some (smallMachine.runFrom callRun) := rfl
  have hcalls : (smallMachine.runFrom (serverRun [])).Calls 1 (.call 0 1 42) :=
    ⟨by decide +kernel, by decide +kernel⟩
  exact calls_answerable (run.step (a := Label.call 0 1 42) (by decide +kernel) hnext)
    ⟨by decide +kernel, Or.inl ⟨hcalls, hcalls.same_process hgood hnext⟩⟩

/-- A server with a full capability table takes the request, and nothing names the caller. -/
theorem fullServerRun_unanswerable : ∃ hist t, Run system always hist t ∧
    BlockedInCall hist t 1 ∧ t.replies 1 = 0 ∧ ∀ id, 1 ∉ t.ipc.waiting id := by
  obtain ⟨hist, run⟩ := reachable_small fullServerRun
  have hgood := good_of_reachable run.reachable
  have hnext : (smallMachine.runFrom fullServerRun).step (.call 0 1 42)
      = some (smallMachine.runFrom (fullServerRun ++ [.call 0 1 42])) := rfl
  have hcalls : (smallMachine.runFrom fullServerRun).Calls 1 (.call 0 1 42) :=
    ⟨by decide +kernel, by decide +kernel⟩
  exact ⟨_, _, run.step (a := Label.call 0 1 42) trivial hnext,
    ⟨by decide +kernel, Or.inl ⟨hcalls, hcalls.same_process hgood hnext⟩⟩,
    by decide +kernel, by decide +kernel⟩

end Kernel

end Plinth
