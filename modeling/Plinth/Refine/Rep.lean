import Plinth.Ledger.Endpoints
import Plinth.Refine.Endpoints
import Plinth.Refine.Placed

/-!
# `Plinth.Refine.Rep`: when a kernel state implements a ledger

`Rep s gone v` says that the kernel state `s` implements the ledger `v`. It consists of one
relation for the processes (`ProcsRep`) and one for the endpoints (`IpcRep`). The memory, the
rings and the devices are the same on both sides.

During an exit, the slot `gone` of the process table still says that its process runs. In the
ledger that process has left already.

Each section gives, for one relation, one lemma for each kind of change.
-/

set_option autoImplicit false

namespace Plinth

/-! ### Processes -/

/-- The process table and the running processes implement this part of a ledger. -/
structure ProcsRep (P : Procs) (gone : Option ProcSlot) (proc : ProcSlot → Option Process)
    (state : ProcSlot → ProcState) (boot : ProcSlot → List (Nat × Nat))
    (mail : ProcSlot → Mail) : Prop where
  placed : Placed P
  proc_eq : proc = P.proc
  slot : ∀ p, gone ≠ some p → state p = P.state p ∧ boot p = (P.table p).bootFrames ∧
    mail p = (P.table p).mail
  /-- A slot without a process is free. -/
  vacant : ∀ p, gone ≠ some p → P.proc p = none → P.table p = Slot.empty
  gone : ∀ p, gone = some p → P.proc p = none ∧ P.state p = .running ∧ state p = .empty ∧
    boot p = [] ∧ mail p = Slot.empty.mail
  stray : P.strayWakes = 0

namespace ProcsRep

variable {P P' : Procs} {gone : Option ProcSlot} {proc : ProcSlot → Option Process}
  {state : ProcSlot → ProcState} {boot : ProcSlot → List (Nat × Nat)}
  {mail : ProcSlot → Mail} {p : ProcSlot} {c : Core} {x : Process}

theorem ne_gone (h : ProcsRep P gone proc state boot mail) (hp : P.proc p ≠ none) :
    gone ≠ some p := fun hg => hp (h.gone p hg).1

theorem state_of_current (h : ProcsRep P gone proc state boot mail)
    (hc : P.current c = some x) : state (P.currentSlot c) = .running := by
  have hproc := h.placed.proc_of_current hc
  have hne : gone ≠ some (P.currentSlot c) := h.ne_gone (by rw [hproc]; exact Option.some_ne_none x)
  rw [(h.slot _ hne).1]
  exact h.placed.state_of_current hc

theorem proc_of_current (h : ProcsRep P gone proc state boot mail)
    (hc : P.current c = some x) : proc (P.currentSlot c) = some x := by
  rw [h.proc_eq]
  exact h.placed.proc_of_current hc

theorem proc_of_table (h : ProcsRep P gone proc state boot mail)
    (hp : (P.table p).process = some x) : proc p = some x := by
  rw [h.proc_eq]
  exact h.placed.proc_of_table hp

/-- A blocked process lies in the table. -/
theorem table_of_blocked (h : ProcsRep P gone proc state boot mail)
    (hp : state p = .blocked) :
    P.state p = .blocked ∧ ∃ x, (P.table p).process = some x ∧ proc p = some x := by
  have hne : gone ≠ some p := by
    intro hg
    rw [(h.gone p hg).2.2.1] at hp
    cases hp
  have hstate : P.state p = .blocked := by rw [← (h.slot p hne).1, hp]
  refine ⟨hstate, ?_⟩
  cases hproc : P.proc p with
  | none =>
    have hempty := h.vacant p hne hproc
    unfold Procs.state at hstate
    rw [hempty] at hstate
    cases hstate
  | some x =>
    rcases h.placed.proc_eq_some.mp hproc with htable | ⟨c, hslot, hc⟩
    · exact ⟨x, htable, h.proc_of_table htable⟩
    · have hrun := h.placed.state_of_current hc
      rw [hslot, hstate] at hrun
      cases hrun

/-- A write of a live process. -/
theorem write (h : ProcsRep P gone proc state boot mail) (hp : proc p ≠ none)
    (hw : Writes P p x P') :
    ProcsRep P' gone (Function.update proc p (some x)) state boot mail := by
  have hstate : ∀ q, P'.state q = P.state q := by
    intro q
    unfold Procs.state
    rw [hw.slots q]
  refine ⟨hw.placed, ?_, ?_, ?_, ?_, hw.stray.trans h.stray⟩
  · rw [hw.proc, h.proc_eq]
  · intro q hq
    rw [hstate q, hw.slots q]
    exact h.slot q hq
  · intro q hq hnone
    rw [hw.proc] at hnone
    by_cases hqp : q = p
    · subst hqp
      rw [Function.update_self] at hnone
      cases hnone
    · rw [Function.update_of_ne hqp] at hnone
      have hempty := h.vacant q hq hnone
      have hseat : (P'.table q).process = none := by
        by_contra hsome
        refine (hw.seats q).mp hsome ?_
        rw [hempty]
        rfl
      rw [hw.slots q, hseat, hempty]
      rfl
  · intro q hq
    have hqp : q ≠ p := by
      rintro rfl
      refine hp ?_
      rw [h.proc_eq]
      exact (h.gone q hq).1
    rw [hstate q, hw.proc, Function.update_of_ne hqp]
    exact h.gone q hq

/-- A change of a slot of a live process that keeps the process where it is. -/
theorem setSlot (h : ProcsRep P gone proc state boot mail) (hp : proc p ≠ none) {s : Slot}
    (hproc : s.process = (P.table p).process) (hplaced : Placed (P.setSlot p s))
    (hboot : s.bootFrames = (P.table p).bootFrames) :
    ProcsRep (P.setSlot p s) gone proc (Function.update state p s.state) boot
      (Function.update mail p s.mail) := by
  have hsame := P.setSlot_proc hproc
  refine ⟨hplaced, by rw [hsame, h.proc_eq], ?_, ?_, ?_, h.stray⟩
  · intro q hq
    by_cases hqp : q = p
    · subst hqp
      rw [Procs.setSlot_state, Function.update_self, Function.update_self, Function.update_self,
        Procs.setSlot_table_self, hboot]
      exact ⟨rfl, (h.slot q hq).2.1, rfl⟩
    · rw [Procs.setSlot_state, Function.update_of_ne hqp, Function.update_of_ne hqp,
        Function.update_of_ne hqp, Procs.setSlot_table_of_ne _ _ hqp]
      exact h.slot q hq
  · intro q hq hnone
    rw [hsame] at hnone
    have hqp : q ≠ p := by
      rintro rfl
      exact hp (by rw [h.proc_eq]; exact hnone)
    rw [Procs.setSlot_table_of_ne _ _ hqp]
    exact h.vacant q hq hnone
  · intro q hq
    have hqp : q ≠ p := by
      rintro rfl
      exact hp (by rw [h.proc_eq]; exact (h.gone q hq).1)
    rw [hsame, Procs.setSlot_state, Function.update_of_ne hqp, Function.update_of_ne hqp,
      Function.update_of_ne hqp]
    exact h.gone q hq

/-- A change of the pending message or of the result registers of a live process. -/
theorem note (h : ProcsRep P gone proc state boot mail) (hp : proc p ≠ none) {s : Slot}
    (hproc : s.process = (P.table p).process) (hstate : s.state = P.state p)
    (hboot : s.bootFrames = (P.table p).bootFrames) :
    ProcsRep (P.setSlot p s) gone proc state boot
      (Function.update mail p s.mail) := by
  have hne : gone ≠ some p := h.ne_gone (by rw [← h.proc_eq]; exact hp)
  have hplaced : Placed (P.setSlot p s) :=
    h.placed.setSlot_same hproc (fun hrun => hstate.trans hrun) fun hsus => by
      rw [hstate]
      exact h.placed.suspended p (hproc ▸ hsus)
  have hset := h.setSlot hp hproc hplaced hboot
  rw [hstate, ← (h.slot p hne).1, Function.update_eq_self] at hset
  exact hset

/-- The same, when the pending message stays what it is. -/
theorem note_same (h : ProcsRep P gone proc state boot mail) (hp : proc p ≠ none) {s : Slot}
    (hproc : s.process = (P.table p).process) (hstate : s.state = P.state p)
    (hboot : s.bootFrames = (P.table p).bootFrames)
    (hmail : s.mail = (P.table p).mail) :
    ProcsRep (P.setSlot p s) gone proc state boot mail := by
  have hne : gone ≠ some p := h.ne_gone (by rw [← h.proc_eq]; exact hp)
  have hnote := h.note hp hproc hstate hboot
  rw [hmail, ← (h.slot p hne).2.2, Function.update_eq_self] at hnote
  exact hnote

theorem setPending (h : ProcsRep P gone proc state boot mail) (hp : proc p ≠ none)
    (msg cap : Nat) (isCall : Bool) :
    ProcsRep (P.setPending p msg cap isCall) gone proc state boot
      (Function.update mail p ⟨msg, cap, isCall, (P.table p).result⟩) :=
  h.note hp rfl rfl rfl

theorem setReclaimLanding (h : ProcsRep P gone proc state boot mail) (hp : proc p ≠ none)
    (landing : Nat) : ProcsRep (P.setReclaimLanding p landing) gone proc state boot mail := by
  unfold Procs.setReclaimLanding
  split
  · exact h.note_same hp rfl rfl rfl rfl
  · exact h

theorem takeReclaimLanding (h : ProcsRep P gone proc state boot mail) (hp : proc p ≠ none) :
    ProcsRep (P.takeReclaimLanding p).2 gone proc state boot mail :=
  h.note_same hp rfl rfl rfl rfl

/-- A blocked process is made ready. -/
theorem wake (h : ProcsRep P gone proc state boot mail) (hstate : state p = .blocked)
    (status payload landing : Nat) :
    ProcsRep (P.wakeWith p status payload landing) gone proc (Function.update state p .ready)
      boot (Function.update mail p { mail p with result := ⟨status, payload, landing⟩ }) := by
  obtain ⟨hblocked, x, htable, hproc⟩ := h.table_of_blocked hstate
  rw [Procs.wakeWith_of_blocked hblocked]
  have hp : proc p ≠ none := by
    rw [hproc]
    exact Option.some_ne_none x
  have hne : gone ≠ some p := h.ne_gone (by rw [← h.proc_eq]; exact hp)
  have hplaced : Placed (P.setSlot p
      { P.table p with state := .ready, result := ⟨status, payload, landing⟩ }) := by
    refine h.placed.setSlot_same rfl (fun hrun => ?_) fun _ => Or.inl rfl
    rw [hblocked] at hrun
    cases hrun
  have hset := h.setSlot hp (s := { P.table p with
    state := .ready, result := ⟨status, payload, landing⟩ }) rfl hplaced rfl
  rw [(h.slot p hne).2.2]
  exact hset

/-- The running process is parked in its slot. -/
theorem park (h : ProcsRep P gone proc state boot mail) (hc : P.current c = some x)
    {s : Slot} (hproc : s.process = some x) (hstate : s.state = .ready ∨ s.state = .blocked)
    (hboot : s.bootFrames = (P.table (P.currentSlot c)).bootFrames)
    (hmail : s.mail = (P.table (P.currentSlot c)).mail) :
    ProcsRep ((P.setSlot (P.currentSlot c) s).setCurrent c none) gone proc
      (Function.update state (P.currentSlot c) s.state) boot mail := by
  obtain ⟨hplaced, hsame⟩ := h.placed.park hc hproc hstate
  have hlive := h.placed.proc_of_current hc
  have hne : ∀ q, gone = some q → q ≠ P.currentSlot c := by
    rintro q hq rfl
    rw [(h.gone _ hq).1] at hlive
    cases hlive
  refine ⟨hplaced, by rw [hsame, h.proc_eq], ?_, ?_, ?_, h.stray⟩
  · intro q hq
    rw [Procs.setCurrent_state, Procs.setSlot_state, Procs.setCurrent_table]
    by_cases hqp : q = P.currentSlot c
    · subst hqp
      rw [Function.update_self, Function.update_self, Procs.setSlot_table_self, hboot, hmail]
      exact ⟨rfl, (h.slot _ hq).2⟩
    · rw [Function.update_of_ne hqp, Function.update_of_ne hqp,
        Procs.setSlot_table_of_ne _ _ hqp]
      exact h.slot q hq
  · intro q hq hnone
    rw [hsame] at hnone
    have hqp : q ≠ P.currentSlot c := by
      rintro rfl
      rw [hlive] at hnone
      cases hnone
    rw [Procs.setCurrent_table, Procs.setSlot_table_of_ne _ _ hqp]
    exact h.vacant q hq hnone
  · intro q hq
    rw [hsame, Procs.setCurrent_state, Procs.setSlot_state, Function.update_of_ne (hne q hq),
      Function.update_of_ne (hne q hq)]
    exact h.gone q hq

/-- `block_current`. -/
theorem block (h : ProcsRep P gone proc state boot mail) (hc : P.current c = some x) :
    ProcsRep (P.blockCurrent c) gone proc (Function.update state (P.currentSlot c) .blocked)
      boot mail := by
  unfold Procs.blockCurrent
  rw [hc]
  exact h.park hc (s := { P.table (P.currentSlot c) with state := .blocked, process := some x })
    rfl (Or.inr rfl) rfl rfl

/-- The running process leaves its core for good. -/
theorem leave (h : ProcsRep P none proc state boot mail) (hc : P.current c = some x) :
    ProcsRep (P.setCurrent c none) (some (P.currentSlot c))
      (Function.update proc (P.currentSlot c) none)
      (Function.update state (P.currentSlot c) .empty)
      (Function.update boot (P.currentSlot c) [])
      (Function.update mail (P.currentSlot c) Slot.empty.mail) := by
  obtain ⟨hplaced, hproc⟩ := h.placed.clearCurrent hc
  refine ⟨hplaced, by rw [hproc, h.proc_eq], ?_, ?_, ?_, h.stray⟩
  · intro q hq
    have hqp : q ≠ P.currentSlot c := fun heq => hq (by rw [heq])
    rw [Function.update_of_ne hqp, Function.update_of_ne hqp, Function.update_of_ne hqp]
    exact h.slot q (Option.some_ne_none q).symm
  · intro q hq hnone
    have hqp : q ≠ P.currentSlot c := fun heq => hq (by rw [heq])
    rw [hproc, Function.update_of_ne hqp] at hnone
    exact h.vacant q (Option.some_ne_none q).symm hnone
  · intro q hq
    obtain rfl : P.currentSlot c = q := by simpa using hq
    rw [hproc, Function.update_self, Function.update_self, Function.update_self,
      Function.update_self]
    exact ⟨rfl, h.placed.state_of_current hc, rfl, rfl, rfl⟩

/-- The slot of the process that left becomes free. -/
theorem vacate (h : ProcsRep P (some p) proc state boot mail) :
    ProcsRep (P.setSlot p Slot.empty) none proc state boot mail := by
  obtain ⟨hproc, -, hstate, hboot, hmail⟩ := h.gone p rfl
  have hidle : ∀ c, P.current c ≠ none → P.currentSlot c ≠ p := by
    rintro c hc rfl
    obtain ⟨y, hy⟩ := Option.ne_none_iff_exists'.mp hc
    rw [h.placed.proc_of_current hy] at hproc
    cases hproc
  obtain ⟨hplaced, hset⟩ := h.placed.setSlot hidle (s := Slot.empty) fun hne => absurd rfl hne
  have hsame : (P.setSlot p Slot.empty).proc = P.proc := by
    rw [hset]
    change Function.update P.proc p none = P.proc
    rw [← hproc, Function.update_eq_self]
  refine ⟨hplaced, by rw [hsame, h.proc_eq], ?_, ?_, fun q hq => (by cases hq), h.stray⟩
  · intro q _
    rw [Procs.setSlot_state]
    by_cases hqp : q = p
    · subst hqp
      rw [Function.update_self, Procs.setSlot_table_self, hstate, hboot, hmail]
      exact ⟨rfl, rfl, rfl⟩
    · rw [Function.update_of_ne hqp, Procs.setSlot_table_of_ne _ _ hqp]
      exact h.slot q fun heq => hqp (by simpa using heq.symm)
  · intro q _ hnone
    by_cases hqp : q = p
    · subst hqp
      exact Procs.setSlot_table_self ..
    · rw [hsame] at hnone
      rw [Procs.setSlot_table_of_ne _ _ hqp]
      exact h.vacant q (fun heq => hqp (by simpa using heq.symm)) hnone

/-- A suspended process is removed from its slot. -/
theorem remove (h : ProcsRep P none proc state boot mail)
    (hp : (P.table p).process = some x) :
    ProcsRep (P.setSlot p Slot.empty) none (Function.update proc p none)
      (Function.update state p .empty) (Function.update boot p [])
      (Function.update mail p Slot.empty.mail) := by
  have hidle := h.placed.idle_of_table (p := p) (by rw [hp]; exact Option.some_ne_none x)
  obtain ⟨hplaced, hset⟩ := h.placed.setSlot hidle (s := Slot.empty) fun hne => absurd rfl hne
  refine ⟨hplaced, by rw [hset, h.proc_eq]; rfl, ?_, ?_, fun q hq => (by cases hq), h.stray⟩
  · intro q hq
    rw [Procs.setSlot_state]
    by_cases hqp : q = p
    · subst hqp
      rw [Function.update_self, Function.update_self, Function.update_self,
        Function.update_self, Procs.setSlot_table_self]
      exact ⟨rfl, rfl, rfl⟩
    · rw [Function.update_of_ne hqp, Function.update_of_ne hqp, Function.update_of_ne hqp,
        Function.update_of_ne hqp, Procs.setSlot_table_of_ne _ _ hqp]
      exact h.slot q hq
  · intro q hq hnone
    by_cases hqp : q = p
    · subst hqp
      exact Procs.setSlot_table_self ..
    · rw [hset, Function.update_of_ne hqp] at hnone
      rw [Procs.setSlot_table_of_ne _ _ hqp]
      exact h.vacant q hq hnone

/-- A new process enters a free slot. -/
theorem enter (h : ProcsRep P none proc state boot mail) (hp : P.state p = .empty)
    (frames : List (Nat × Nat)) :
    ProcsRep (P.setSlot p { P.table p with
        state := .ready, process := some x, bootFrames := frames }) none
      (Function.update proc p (some x)) (Function.update state p .ready)
      (Function.update boot p frames) mail := by
  have hidle := h.placed.idle_of_state (p := p) (by rw [hp]; intro hrun; cases hrun)
  obtain ⟨hplaced, hset⟩ := h.placed.setSlot hidle
    (s := { P.table p with state := .ready, process := some x, bootFrames := frames })
    fun _ => Or.inl rfl
  refine ⟨hplaced, by rw [hset, h.proc_eq], ?_, ?_, fun q hq => (by cases hq), h.stray⟩
  · intro q hq
    rw [Procs.setSlot_state]
    by_cases hqp : q = p
    · subst hqp
      rw [Function.update_self, Function.update_self, Function.update_self,
        Procs.setSlot_table_self]
      exact ⟨rfl, rfl, (h.slot q hq).2.2⟩
    · rw [Function.update_of_ne hqp, Function.update_of_ne hqp, Function.update_of_ne hqp,
        Procs.setSlot_table_of_ne _ _ hqp]
      exact h.slot q hq
  · intro q hq hnone
    have hqp : q ≠ p := by
      rintro rfl
      rw [hset, Function.update_self] at hnone
      cases hnone
    rw [hset, Function.update_of_ne hqp] at hnone
    rw [Procs.setSlot_table_of_ne _ _ hqp]
    exact h.vacant q hq hnone

/-- An idle core takes a ready process. -/
theorem resume (h : ProcsRep P none proc state boot mail) (hres : P.resume c p = some P') :
    state p = .ready ∧
      ProcsRep P' none proc (Function.update state p .running) boot mail := by
  obtain ⟨hready, ⟨y, htable, -⟩, -, hplaced, hproc, hstate, hfields⟩ := h.placed.resume hres
  have hgone : ∀ q : ProcSlot, (none : Option ProcSlot) ≠ some q := fun q =>
    (Option.some_ne_none q).symm
  refine ⟨by rw [(h.slot p (hgone p)).1]; exact hready, hplaced, by rw [hproc, h.proc_eq], ?_, ?_,
    fun q hq => (by cases hq), (Procs.resume_stray hres).trans h.stray⟩
  · intro q hq
    obtain ⟨hs, hb, hcall⟩ := h.slot q hq
    rw [hstate, (hfields q).1, (hfields q).2]
    refine ⟨?_, hb, hcall⟩
    by_cases hqp : q = p
    · subst hqp
      rw [Function.update_self, Function.update_self]
    · rw [Function.update_of_ne hqp, Function.update_of_ne hqp]
      exact hs
  · intro q hq hnone
    rw [hproc] at hnone
    have hqp : q ≠ p := by
      rintro rfl
      rw [h.placed.proc_of_table htable] at hnone
      cases hnone
    rw [← h.vacant q hq hnone]
    unfold Procs.resume at hres
    split at hres
    · rw [htable] at hres
      simp only [Option.some.injEq] at hres
      rw [← hres]
      exact Procs.setSlot_table_of_ne _ _ hqp
    · cases hres

/-- The origins that name a process are cleared. -/
theorem clearOrigins (h : ProcsRep P gone proc state boot mail) (p : ProcSlot) :
    ProcsRep (P.clearOriginsNaming p) gone
      (fun q => (proc q).map fun x => x.setCaps (x.caps.clearOrigin p)) state boot mail := by
  obtain ⟨hplaced, hproc⟩ := h.placed.clearOriginsNaming p
  refine ⟨hplaced, by rw [hproc, h.proc_eq], h.slot, ?_, ?_, h.stray⟩
  · intro q hq hnone
    rw [hproc] at hnone
    have hempty := h.vacant q hq (Option.map_eq_none_iff.mp hnone)
    unfold Procs.clearOriginsNaming
    dsimp only
    rw [hempty]
    rfl
  · intro q hq
    obtain ⟨hnone, hrest⟩ := h.gone q hq
    refine ⟨?_, hrest⟩
    rw [hproc]
    dsimp only
    rw [hnone]
    rfl

end ProcsRep

/-! ### Endpoints -/

/-- The number of capabilities with the right `right` that name the endpoint `id`. A capability
in transit does not count. -/
def peers (P : ProcSlot → Option Process) (held : List Capability) (id : EndpointId)
    (right : Rights) : Nat :=
  liveTotal (reachWeight id right) P + listTotal (reachWeight id right) held

/-- The endpoint table implements this part of a ledger. -/
structure IpcRep (ipc : Ipc) (queue : EndpointId → List ProcSlot) (side inUse : EndpointId → Bool)
    (proc : ProcSlot → Option Process) (held : List Capability) : Prop where
  queue_rep : ipc.QueueRep queue
  side : ∀ id, side id = (ipc.endpoints id).queue.areSenders
  inUse : ∀ id, inUse id = (ipc.endpoints id).inUse
  senders : ∀ id, (ipc.endpoints id).senders = peers proc held id rightSend
  receivers : ∀ id, (ipc.endpoints id).receivers = peers proc held id rightRecv
  asserts : ipc.failedAsserts = 0

namespace IpcRep

variable {ipc ipc' : Ipc} {queue : EndpointId → List ProcSlot} {side inUse : EndpointId → Bool}
  {proc proc' : ProcSlot → Option Process} {held held' : List Capability} {cap : Capability}
  {id : EndpointId} {p : ProcSlot}

/-- The counts stay the same. -/
theorem same (h : IpcRep ipc queue side inUse proc held)
    (hcount : ∀ id right, peers proc' held' id right = peers proc held id right) :
    IpcRep ipc queue side inUse proc' held' :=
  ⟨h.queue_rep, h.side, h.inUse, fun id => by rw [hcount, h.senders],
    fun id => by rw [hcount, h.receivers], h.asserts⟩

/-- A capability enters a table, and the counts are notified. -/
theorem added (h : IpcRep ipc queue side inUse proc held)
    (hcount : ∀ id right, peers proc' held' id right
      = peers proc held id right + reachWeight id right cap) :
    IpcRep (ipc.noteCapAdded cap) queue side inUse proc' held' := by
  refine ⟨h.queue_rep.congr (Ipc.noteCapAdded_links ipc cap) fun id => ?_, fun id => ?_,
    fun id => ?_, fun id => ?_, fun id => ?_, ?_⟩
  · rw [Ipc.noteCapAdded_endpoints]
  · rw [Ipc.noteCapAdded_endpoints]
    exact h.side id
  · rw [Ipc.noteCapAdded_endpoints]
    exact h.inUse id
  · rw [Ipc.noteCapAdded_endpoints, hcount, ← h.senders]
  · rw [Ipc.noteCapAdded_endpoints, hcount, ← h.receivers]
  · rw [Ipc.noteCapAdded_failedAsserts]
    exact h.asserts

/-- The counts cover a capability that is counted. -/
theorem covers (h : IpcRep ipc queue side inUse proc held)
    (hcount : ∀ id right, reachWeight id right cap ≤ peers proc held id right) :
    ipc.Covers cap := by
  intro id
  rw [h.senders, h.receivers]
  exact ⟨hcount id rightSend, hcount id rightRecv⟩

/-- A capability leaves a table, and the counts are notified. -/
theorem removed (h : IpcRep ipc queue side inUse proc held)
    (hcount : ∀ id right, peers proc' held' id right + reachWeight id right cap
      = peers proc held id right) :
    IpcRep (ipc.noteCapRemoved cap false) queue side inUse proc' held' := by
  have hcov : ipc.Covers cap := h.covers fun id right => by
    have hle := hcount id right
    omega
  refine ⟨h.queue_rep.congr (Ipc.noteCapRemoved_links ipc cap false) fun id => ?_, fun id => ?_,
    fun id => ?_, fun id => ?_, fun id => ?_, ?_⟩
  · rw [Ipc.noteCapRemoved_endpoints hcov]
  · rw [Ipc.noteCapRemoved_endpoints hcov]
    exact h.side id
  · rw [Ipc.noteCapRemoved_endpoints hcov]
    exact h.inUse id
  · rw [Ipc.noteCapRemoved_endpoints hcov]
    have hc := hcount id rightSend
    have hs := h.senders id
    dsimp only
    omega
  · rw [Ipc.noteCapRemoved_endpoints hcov]
    have hc := hcount id rightRecv
    have hr := h.receivers id
    dsimp only
    omega
  · rw [Ipc.noteCapRemoved_failedAsserts hcov]
    exact h.asserts

/-- An endpoint is replaced by one without waiters and without references. -/
theorem setEndpoint (h : IpcRep ipc queue side inUse proc held) (hnil : queue id = [])
    (hsend : peers proc held id rightSend = 0) (hrecv : peers proc held id rightRecv = 0)
    (b : Bool) :
    IpcRep (ipc.setEndpoint id { Endpoint.empty with inUse := b }) queue
      (Function.update side id false) (Function.update inUse id b) proc held := by
  have hrep : (ipc.setEndpoint id { Endpoint.empty with inUse := b }).QueueRep queue :=
    Ipc.setEndpoint_queueRep h.queue_rep hnil rfl rfl
  refine ⟨hrep, fun id' => ?_, fun id' => ?_, fun id' => ?_, fun id' => ?_, h.asserts⟩
  · by_cases hid : id' = id
    · subst hid
      rw [Function.update_self, Ipc.setEndpoint_self]
      rfl
    · rw [Function.update_of_ne hid, Ipc.setEndpoint_of_ne _ _ hid]
      exact h.side id'
  · by_cases hid : id' = id
    · subst hid
      rw [Function.update_self, Ipc.setEndpoint_self]
    · rw [Function.update_of_ne hid, Ipc.setEndpoint_of_ne _ _ hid]
      exact h.inUse id'
  · by_cases hid : id' = id
    · subst hid
      rw [Ipc.setEndpoint_self, hsend]
      rfl
    · rw [Ipc.setEndpoint_of_ne _ _ hid]
      exact h.senders id'
  · by_cases hid : id' = id
    · subst hid
      rw [Ipc.setEndpoint_self, hrecv]
      rfl
    · rw [Ipc.setEndpoint_of_ne _ _ hid]
      exact h.receivers id'

/-- An endpoint capability leaves for good. The endpoint becomes free if nothing names it any
more. `n` is the number of capabilities that still name it. -/
theorem settled (h : IpcRep ipc queue side inUse proc held) (hobj : cap.object = .endpoint id)
    (hcount : ∀ id right, peers proc' held' id right + reachWeight id right cap
      = peers proc held id right) {n : Nat}
    (hn : n = 0 ↔ peers proc' held' id rightSend = 0 ∧ peers proc' held' id rightRecv = 0)
    (hqueue : n = 0 → queue id = []) :
    IpcRep (ipc.noteCapRemoved cap true) queue
      (Function.update side id (side id && decide (0 < n)))
      (Function.update inUse id (inUse id && decide (0 < n))) proc' held' := by
  have hrem := h.removed hcount
  have hdef : ipc.noteCapRemoved cap true
      = (ipc.noteCapRemoved cap false).setEndpoint id
        (if ((ipc.noteCapRemoved cap false).endpoints id).isUnreferenced then Endpoint.empty
          else (ipc.noteCapRemoved cap false).endpoints id) := by
    have hfalse : ipc.noteCapRemoved cap false
        = (ipc.debugAssert ((ipc.endpoints id).removeAsserts cap.rights)).setEndpoint id
          ((ipc.endpoints id).removeCap cap.rights) := by
      unfold Ipc.noteCapRemoved
      rw [hobj]
      rfl
    rw [hfalse, Ipc.setEndpoint_self]
    unfold Ipc.noteCapRemoved Ipc.setEndpoint
    rw [hobj]
    dsimp only
    rw [Function.update_idem, Bool.true_and]
  have hunref : ((ipc.noteCapRemoved cap false).endpoints id).isUnreferenced = true ↔ n = 0 := by
    unfold Endpoint.isUnreferenced
    rw [Bool.and_eq_true, Bool.and_eq_true, beq_iff_eq, beq_iff_eq, hrem.senders, hrem.receivers,
      hrem.queue_rep.isEmpty_iff, ← hn]
    exact ⟨fun hand => hand.1, fun hzero => ⟨hzero, hqueue hzero⟩⟩
  rw [hdef]
  by_cases hzero : n = 0
  · rw [if_pos (hunref.mpr hzero)]
    obtain ⟨hsend, hrecv⟩ := hn.mp hzero
    have hset := hrem.setEndpoint (hqueue hzero) hsend hrecv false
    rw [hzero, decide_eq_false (lt_irrefl 0), Bool.and_false, Bool.and_false]
    exact hset
  · have hpos : 0 < n := Nat.pos_of_ne_zero hzero
    rw [if_neg fun hu => hzero (hunref.mp hu)]
    have hself : (ipc.noteCapRemoved cap false).setEndpoint id
        ((ipc.noteCapRemoved cap false).endpoints id) = ipc.noteCapRemoved cap false := by
      unfold Ipc.setEndpoint
      rw [Function.update_eq_self]
    rw [hself, decide_eq_true hpos, Bool.and_true, Bool.and_true, Function.update_eq_self,
      Function.update_eq_self]
    exact hrem

/-- The head waiter of a queue leaves it. -/
theorem dequeue (h : IpcRep ipc queue side inUse proc held)
    (hdeq : ipc.dequeueWaiter id = some (p, ipc')) :
    ∃ rest, queue id = p :: rest ∧
      IpcRep ipc' (Function.update queue id rest) side inUse proc held := by
  obtain ⟨rest, hq, hrep, -, hasserts, hsame⟩ := Ipc.dequeueWaiter_some h.queue_rep hdeq
  refine ⟨rest, hq, hrep, fun id' => ?_, fun id' => ?_, fun id' => ?_, fun id' => ?_, ?_⟩
  · rw [h.side, (hsame id').2.2.2]
  · rw [h.inUse, (hsame id').1]
  · rw [(hsame id').2.1, h.senders]
  · rw [(hsame id').2.2.1, h.receivers]
  · rw [hasserts, h.asserts]

/-- A process joins a queue. -/
theorem enqueue (h : IpcRep ipc queue side inUse proc held) (b : Bool)
    (hfree : ∀ id', p ∉ queue id') (hdisj : ∀ id', id' ≠ id → ∀ x ∈ queue id', x ∉ queue id) :
    IpcRep (ipc.enqueueWaiter id p b) (Function.update queue id (queue id ++ [p]))
      (Function.update side id b) inUse proc held := by
  have hsame := Ipc.enqueueWaiter_endpoints ipc id p b
  refine ⟨Ipc.enqueueWaiter_queueRep h.queue_rep b hfree hdisj, fun id' => ?_, fun id' => ?_,
    fun id' => ?_, fun id' => ?_, h.asserts⟩
  · rw [(hsame id').2.2.2, Function.update_apply]
    split
    · rfl
    · exact h.side id'
  · rw [h.inUse, (hsame id').1]
  · rw [(hsame id').2.1, h.senders]
  · rw [(hsame id').2.2.1, h.receivers]

theorem clearLink (h : IpcRep ipc queue side inUse proc held) (hfree : ∀ id, p ∉ queue id) :
    IpcRep (ipc.clearLink p) queue side inUse proc held :=
  ⟨Ipc.clearLink_queueRep h.queue_rep hfree, h.side, h.inUse, h.senders, h.receivers, h.asserts⟩

end IpcRep

/-! ### The whole state -/

/-- The kernel state `s` implements the ledger `v`. -/
structure Rep (s : Kernel) (gone : Option ProcSlot) (v : Ledger) : Prop where
  procs : ProcsRep s.procs gone v.proc v.state v.boot v.mail
  ipc : IpcRep s.ipc v.queue v.sendersWait v.inUse v.proc v.held
  mem : v.mem = s.mem
  rings : v.rings = s.rings.rings
  devs : v.devs = s.devs

end Plinth
