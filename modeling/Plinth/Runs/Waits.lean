import Plinth.Runs.Replies

/-!
# `Plinth.Runs.Waits`: waits and wakes match

Five parts of the kernel keep a record of who waits: the queues of the endpoints, the reply
capabilities, the rings, and the bound devices. Each of them wakes a process by its slot number.
`waits_match` says that these records are right in every state of a run: a record names a process
that is Blocked there, a process has one record at most, and a Blocked process has one as long as
nobody forgot it. It also says that a wake finds its process Blocked on what the entry signals.
-/

set_option autoImplicit false

namespace Plinth

open Transition

namespace Kernel

variable {s t : Kernel} {ℓ : Label} {p : ProcSlot} {place : Place}

/-- The process in slot `p` parked at a place by its own entry, and it has been parked there
since. Every later step satisfies `K`. -/
def ParkedSince (K : Kernel → Label → Kernel → Prop) (hist : List (Kernel × Label)) (s : Kernel)
    (p : ProcSlot) (place : Place) : Prop :=
  s.ParkedAt p place ∧ Since (fun s ℓ _ => s.parking ℓ = some (p, place))
    (fun s ℓ t => s.ParkedAt p place ∧ s.StaysBlocked t p ∧ K s ℓ t) hist s

/-- Nothing is posted to the completion queue of the ring `id`. -/
def QuietRing (id : RingId) (s : Kernel) (_ : Label) (t : Kernel) : Prop :=
  (t.rings.rings id).cqTail = (s.rings.rings id).cqTail

/-- No interrupt of the device `dev` is delivered. -/
def QuietDevice (dev : DevId) (_ : Kernel) (ℓ : Label) (_ : Kernel) : Prop :=
  ∀ used, ℓ ≠ .completeIrq dev used

/-- What may happen while a process is parked at a place. -/
def Quiet : Place → Kernel → Label → Kernel → Prop
  | .ring id => QuietRing id
  | .bound dev => QuietDevice dev
  | _ => fun _ _ _ => True

/-- An interrupt of a bound device leaves no waiter. -/
theorem completeIrq_waiter (s : Kernel) (dev : DevId) (used : List (Nat × UInt8)) :
    waiterOf ((s.completeIrq dev used).devs.devices dev) = none := by
  unfold completeIrq
  split
  · rename_i hnone
    simp [waiterOf, hnone]
  · split
    · simp [waiterOf, Devices.setDevice]
    · rename_i hbound
      simp [waiterOf, Devices.setDevice, hbound]

/-- A process that is parked before and after a step was not disturbed. -/
theorem Good.quiet (hgood : s.Good) (hnext : s.step ℓ = some t) (hs : s.ParkedAt p place)
    (ht : t.ParkedAt p place) : Quiet place s ℓ t := by
  cases place with
  | ring id =>
    obtain ⟨-, spent, hpath⟩ := hgood.step_path hnext
    have hpark : ∀ place, ¬ (s.stepGuard ℓ).park p place := by
      intro place hg
      have hrun := parking_running hgood hg
      rw [hs.blocked] at hrun
      cases hrun
    exact (Path.ring_stays hpath hgood.base hpark ht).2
  | bound dev =>
    intro used heq
    subst heq
    have hafter : s.completeIrq dev used = t := by simpa [step] using hnext
    have hwaiter : waiterOf (t.devs.devices dev) = some p := ht.2
    rw [← hafter, completeIrq_waiter] at hwaiter
    cases hwaiter
  | _ => trivial

/-- A place where a process arrives only by its own entry. -/
def OwnEntry : Place → Prop
  | .reply => False
  | .nowhere => False
  | _ => True

/-- A process that is parked at a place parked there itself, and nothing disturbed it. -/
theorem ParkedAt.since {hist : List (Kernel × Label)} (run : Run system always hist s)
    (hplace : OwnEntry place) (h : s.ParkedAt p place) :
    ParkedSince (Quiet place) hist s p place := by
  refine ⟨h, run.since (R := fun s => s.ParkedAt p place) ?_ ?_ h⟩
  · intro s hinit hparked
    exact Booted.not_blocked hinit p hparked.blocked
  · intro s ℓ t hs _ hnext ht
    have hgood := good_of_reachable hs
    obtain ⟨σ, hσ, hwalk⟩ := hgood.parked_before hnext ht
    have hto := hwalk.to_at (by rintro rfl; exact hplace) (by rintro rfl; exact hplace)
    rcases hto with rfl | hpark
    · have hbefore : s.ParkedAt p place := hσ
      exact Or.inr ⟨hbefore, hbefore, ⟨hbefore.blocked, ht.blocked,
        hgood.same_blocked hnext hbefore.blocked⟩, hgood.quiet hnext hbefore ht⟩
    · exact Or.inl hpark

/-! ### A Blocked process is still registered -/

/-- The process that an operation takes from a queue is parked there. -/
theorem Good.taken_parked (hgood : s.Good) {id : EndpointId} {senders : Bool} {ipc : Ipc}
    (htake : s.ipc.takeWaiting id senders = some (p, ipc)) :
    p ∈ s.ipc.waiting id ∧ s.procs.state p = .blocked := by
  obtain ⟨rest, hqueue, -, -, -, hblocked, -⟩ := hgood.dequeues (g := Guard.any) htake
  have hmem : p ∈ s.ledger.queue id := by simp [hqueue]
  exact ⟨hmem, hblocked⟩

/-- A process in the queue of an endpoint is parked there. -/
theorem Good.queued_parked (hgood : s.Good) {id : EndpointId} (h : p ∈ s.ipc.waiting id) :
    (∃ mail, s.ParkedAt p (.sender id mail)) ∨ s.ParkedAt p (.receiver id) := by
  have hblocked : s.ledger.state p = .blocked := by
    apply hgood.base.registered.blocked
    have hpos := count_pos_of_queue (v := s.ledger) h
    simp only [Ledger.regs]
    omega
  cases hside : s.ledger.sendersWait id with
  | true => exact Or.inl ⟨s.ledger.mail p, hblocked, h, hside, rfl⟩
  | false => exact Or.inr ⟨hblocked, h, hside⟩

/-- A forgotten caller waited in a queue. -/
theorem Good.forgotten_queued (hgood : s.Good) (h : s.forgotten ℓ = some p) :
    ∃ id, p ∈ s.ipc.waiting id := by
  cases ℓ with
  | recv core epSlot =>
    simp only [forgotten] at h
    split at h
    · cases h
    · rename_i id hid
      split at h
      · cases h
      · rename_i caller ipc htake
        split at h
        · cases h
          exact ⟨id, (hgood.taken_parked htake).1⟩
        · cases h
  | _ => cases h

/-- A ring or a bound device. -/
def DevicePlace : Place → Prop
  | .ring _ => True
  | .bound _ => True
  | _ => False

/-- A process that parks on a ring or a device and is Blocked after the entry is parked there. -/
theorem Good.parks_at (hgood : s.Good) (hnext : s.step ℓ = some t) (hdev : DevicePlace place)
    (hpark : s.parking ℓ = some (p, place)) (hblocked : t.procs.state p = .blocked) :
    t.ParkedAt p place := by
  have hrun := parking_running hgood hpark
  obtain ⟨place', ht⟩ := (stands_between t p).resolve_left fun hne => hne hblocked
  suffices hsame : place' = place by rwa [← hsame]
  obtain ⟨σ, hσ, hwalk⟩ := hgood.parked_before hnext ht
  have hout : ∀ place, σ ≠ .at place := by
    rintro place rfl
    have hstate := ParkedAt.blocked hσ
    rw [hrun] at hstate
    cases hstate
  -- The entry names one place to park at.
  have hone : ∀ place', (s.stepGuard ℓ).park p place' → place' = place := by
    intro place' hpark'
    have heq := hpark.symm.trans hpark'
    simpa using heq.symm
  by_cases hreply : place' = .reply
  · subst hreply
    rcases hwalk.to_reply with heq | hpark' | ⟨id, mail, -, -, heq | hpark'⟩
    · exact absurd heq (hout _)
    · exact hone _ hpark'
    · exact absurd heq (hout _)
    · rw [← hone _ hpark'] at hdev
      exact hdev.elim
  · by_cases hnowhere : place' = .nowhere
    · subst hnowhere
      rcases hwalk.to_nowhere with heq | hpark' | hforget
      · exact absurd heq (hout _)
      · exact hone _ hpark'
      · obtain ⟨id, hmem⟩ := hgood.forgotten_queued hforget
        have hfree : s.ledger.Free p := by
          refine Or.inl ?_
          show s.procs.state p ≠ .blocked
          rw [hrun]
          decide
        exact absurd hmem (hgood.base.registered.not_queued hfree id)
    · rcases hwalk.to_at hreply hnowhere with heq | hpark'
      · exact absurd heq (hout _)
      · exact hone _ hpark'

/-- A process that is Blocked since it parked on a ring or a device is parked there. -/
theorem parked_of_blocked {hist : List (Kernel × Label)} (run : Run system always hist s)
    (hdev : DevicePlace place) (hblocked : s.procs.state p = .blocked)
    (h : Since (fun s ℓ _ => s.parking ℓ = some (p, place)) (fun s _ t => s.StaysBlocked t p)
      hist s) : s.ParkedAt p place := by
  induction run with
  | start => exact h.elim
  | step run _ hnext ih =>
    have hgood := good_of_reachable run.reachable
    rcases h with hpark | ⟨hstay, hsince⟩
    · exact hgood.parks_at hnext hdev hpark hblocked
    · have hbefore := ih hstay.before hsince
      rcases hgood.parked_next hnext hbefore with hstay | ⟨id, mail, heq, -⟩ | ⟨hforget, -⟩ |
        ⟨hout, -⟩
      · exact hstay
      · subst heq
        exact hdev.elim
      · -- A forgotten caller waits in a queue, and this process waits elsewhere.
        obtain ⟨id, hmem⟩ := hgood.forgotten_queued hforget
        rcases hgood.queued_parked hmem with ⟨mail, hqueue⟩ | hqueue
        · cases hbefore.unique hgood hqueue
          exact hdev.elim
        · cases hbefore.unique hgood hqueue
          exact hdev.elim
      · exact absurd hblocked hout

/-! ### The records of the waiters -/

/-- The number of records that name the process in slot `p`: queue entries, reply capabilities,
rings and bound devices. -/
def registrations (s : Kernel) (p : ProcSlot) : Nat :=
  queued s.ipc.waiting p + s.replies p + ringWaits s.rings.rings p +
    boundWaits s.devs.devices p

/-- The records of the waiters are right. -/
structure WaitsMatch (hist : List (Kernel × Label)) (s : Kernel) : Prop where
  /-- A process in a queue parked there by its own entry. -/
  queues : ∀ id p, p ∈ s.ipc.waiting id →
    (∃ mail, ParkedSince (Quiet (.sender id mail)) hist s p (.sender id mail)) ∨
      ParkedSince (Quiet (.receiver id)) hist s p (.receiver id)
  /-- A reply capability names a process that called and is Blocked in the call. -/
  replies : ∀ p, 0 < s.replies p → BlockedInCall hist s p
  /-- A ring that wakes its owner: the owner parked in `ring_wait`, and nothing was posted since. -/
  rings : ∀ id, (s.rings.rings id).waiting = true →
    ParkedSince (QuietRing id) hist s (s.rings.rings id).owner (.ring id)
  /-- A device that wakes a process: the process parked in `bind_wait`, and no interrupt of the
  device was delivered since. -/
  bounds : ∀ dev p, waiterOf (s.devs.devices dev) = some p →
    ParkedSince (QuietDevice dev) hist s p (.bound dev)
  /-- No process has two records. -/
  once : ∀ p, s.registrations p ≤ 1
  /-- A process that is Blocked since its `ring_wait` or `bind_wait` still has its record. -/
  registered : ∀ p place, DevicePlace place → s.procs.state p = .blocked →
    Since (fun s ℓ _ => s.parking ℓ = some (p, place)) (fun s _ t => s.StaysBlocked t p) hist s →
      ParkedSince (Quiet place) hist s p place
  /-- No wake has hit a slot that was not Blocked. -/
  noStray : s.procs.strayWakes = 0
  /-- A process that an entry wakes is parked on something that the entry signals. -/
  signalled : ∀ ℓ t p, s.step ℓ = some t → s.procs.state p = .blocked →
    t.procs.state p ≠ .blocked → s.Signals ℓ p

/-- In every state of a run, waits and wakes match. -/
theorem waits_match {hist : List (Kernel × Label)} (run : Run system always hist s) :
    s.WaitsMatch hist where
  queues := by
    intro id p hmem
    have hgood := good_of_reachable run.reachable
    rcases hgood.queued_parked hmem with ⟨mail, hparked⟩ | hparked
    · exact Or.inl ⟨mail, hparked.since run trivial⟩
    · exact Or.inr (hparked.since run trivial)
  replies := by
    intro p hpos
    have hgood := good_of_reachable run.reachable
    exact Calling.since run (Or.inl (hgood.parked_reply.mp hpos))
  rings := by
    intro id hwait
    have hgood := good_of_reachable run.reachable
    have hblocked : s.ledger.state (s.rings.rings id).owner = .blocked := by
      apply hgood.base.registered.blocked
      have hpos : 0 < ringWaits s.ledger.rings (s.rings.rings id).owner :=
        ringWaits_pos (v := s.ledger) hwait rfl
      simp only [Ledger.regs]
      omega
    have hparked : s.ParkedAt (s.rings.rings id).owner (.ring id) := ⟨hblocked, hwait, rfl⟩
    exact hparked.since run trivial
  bounds := by
    intro dev p hwait
    have hgood := good_of_reachable run.reachable
    have hblocked : s.ledger.state p = .blocked := by
      apply hgood.base.registered.blocked
      have hpos := boundWaits_pos (v := s.ledger) hwait
      simp only [Ledger.regs]
      omega
    have hparked : s.ParkedAt p (.bound dev) := ⟨hblocked, hwait⟩
    exact hparked.since run trivial
  once := by
    intro p
    have hgood := good_of_reachable run.reachable
    have hone := hgood.base.registered.le_one p
    simp only [Ledger.regs] at hone
    exact hone
  registered := by
    intro p place hdev hblocked hsince
    have hparked := parked_of_blocked run hdev hblocked hsince
    refine hparked.since run ?_
    cases place with
    | ring id => trivial
    | bound dev => trivial
    | _ => exact hdev.elim
  noStray := (good_of_reachable run.reachable).rep.procs.stray
  signalled := by
    intro ℓ t p hnext hblocked hout
    have hgood := good_of_reachable run.reachable
    obtain ⟨place, hparked⟩ := (stands_between s p).resolve_left fun hne => hne hblocked
    rcases hgood.parked_next hnext hparked with hstay | ⟨-, -, -, -, -, hreply⟩ | ⟨-, hnowhere⟩ |
      ⟨-, hsignal, -⟩
    · exact absurd hstay.blocked hout
    · exact absurd hreply.blocked hout
    · exact absurd hnowhere.blocked hout
    · exact hsignal

/-- A client waits for its reply and a second client waits in the queue. -/
def twoClientsRun : List Label :=
  [.createEndpoint,
    .run 0 [some smallImage, some smallImage, some smallImage]
      [some ⟨.endpoint 0, rightRecv, none⟩, some ⟨.endpoint 0, rightSend, none⟩,
        some ⟨.endpoint 0, rightSend, none⟩],
    .recv 0 1, .resume 0 1, .call 0 1 42, .resume 0 2, .send 0 1 7 noCap]

theorem waits_match_twoClientsRun : ∃ hist,
    Run system always hist (smallMachine.runFrom twoClientsRun) ∧
      (smallMachine.runFrom twoClientsRun).WaitsMatch hist ∧
      (smallMachine.runFrom twoClientsRun).registrations 1 = 1 ∧
      (smallMachine.runFrom twoClientsRun).registrations 2 = 1 := by
  obtain ⟨hist, run⟩ := reachable_small twoClientsRun
  exact ⟨hist, run, waits_match run, by decide +kernel, by decide +kernel⟩

end Kernel

end Plinth
