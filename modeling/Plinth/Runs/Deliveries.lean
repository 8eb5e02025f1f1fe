import Plinth.Runs.Waits

/-!
# `Plinth.Runs.Deliveries`: the messages of a run

A message passes from a sender to a receiver in one step: the side that comes second takes the side
that comes first from the queue. `meets` says which two processes meet in a step, and with which
word.

The number of a step is the number of steps before it. `outcomes` lists the operations of a run
that returned, with the step that started each one, the step in which it returned, and what it
returned. `deliveries` lists the messages that were passed, with the steps that started the two
operations. Both are computed from the history, newest first.

The lemmas relate what a step returns to what it passes.
-/

set_option autoImplicit false

namespace Plinth

open Transition

/-- An operation on an endpoint. -/
inductive Op where
  | send (id : EndpointId) (word : Nat)
  | call (id : EndpointId) (word : Nat)
  | recv (id : EndpointId)
  deriving DecidableEq, Repr

/-- The operation that puts a message in the queue. -/
def Op.post (call : Bool) (id : EndpointId) (word : Nat) : Op :=
  if call then .call id word else .send id word

/-- A process that is parked at the place is in the operation. -/
def Place.Fits : Place → Option Op → Prop
  | .sender id mail, o => o = some (.post mail.call id mail.msg)
  | .receiver id, o => o = some (.recv id)
  | .reply, o => ∃ id word, o = some (.call id word)
  | .nowhere, o => ∃ id word, o = some (.call id word)
  | .ring _, o => o = none
  | .bound _, o => o = none

/-- The status and the payload of an operation that returned at once. -/
def Ret.answer : Ret → Option (Nat × Option Nat)
  | .value rax => some (rax, none)
  | .message status payload _ => some (status, payload)
  | .parked => none
  | .exited => none

/-- A message that passes in a step. -/
structure Meeting where
  endpoint : EndpointId
  word : Nat
  call : Bool
  sender : ProcSlot
  receiver : ProcSlot
  deriving DecidableEq, Repr

/-- An operation that returned. -/
structure Outcome where
  proc : ProcSlot
  op : Op
  issued : Nat
  returned : Nat
  status : Nat
  payload : Option Nat
  deriving DecidableEq, Repr

/-- A message that was passed in step `time`. Step `sent` started the operation of the sender, and
step `taken` the one of the receiver. -/
structure Delivery where
  meeting : Meeting
  sent : Nat
  taken : Nat
  time : Nat
  deriving DecidableEq, Repr

namespace Kernel

variable {s t : Kernel} {ℓ : Label} {p : ProcSlot} {op : Op} {m : Meeting} {core : Core}
  {id : EndpointId}

/-- The operation that an entry starts, and the process that starts it. There is none if the slot
does not name an endpoint with the right. -/
def entry (s : Kernel) : Label → Option (ProcSlot × Op)
  | .send core epSlot msg _ =>
    (s.endpointIdFor core epSlot rightSend).map fun id =>
      (s.procs.currentSlot core, .send id msg)
  | .call core epSlot req =>
    (s.endpointIdFor core epSlot rightSend).map fun id =>
      (s.procs.currentSlot core, .call id req)
  | .recv core epSlot =>
    (s.endpointIdFor core epSlot rightRecv).map fun id => (s.procs.currentSlot core, .recv id)
  | _ => none

/-- What an entry returns at once. -/
def answer (s : Kernel) : Label → Option (Nat × Option Nat)
  | .send core epSlot msg capSlot => (s.ipcSend core epSlot msg capSlot).1.answer
  | .call core epSlot req => (s.ipcCall core epSlot req).1.answer
  | .recv core epSlot => (s.ipcRecv core epSlot).1.answer
  | _ => none

/-- The message that passes in a step. -/
def meets (s : Kernel) : Label → Option Meeting
  | .send core epSlot msg _ =>
    (s.endpointIdFor core epSlot rightSend).bind fun id =>
      (s.ipc.takeWaiting id false).map fun r =>
        ⟨id, msg, false, s.procs.currentSlot core, r.1⟩
  | .call core epSlot req =>
    (s.endpointIdFor core epSlot rightSend).bind fun id =>
      (s.ipc.takeWaiting id false).map fun r =>
        ⟨id, req, true, s.procs.currentSlot core, r.1⟩
  | .recv core epSlot =>
    (s.endpointIdFor core epSlot rightRecv).bind fun id =>
      (s.ipc.takeWaiting id true).map fun r =>
        ⟨id, (s.procs.table r.1).pendingMsg, (s.procs.table r.1).pendingCall, r.1,
          s.procs.currentSlot core⟩
  | _ => none

/-- The operation in which the process in slot `p` is Blocked after the history, and the step that
started it. -/
def pending (p : ProcSlot) : List (Kernel × Label) → Kernel → Option (Nat × Op)
  | [], _ => none
  | (s, ℓ) :: hist, t =>
    if t.procs.state p = .blocked then
      match s.entry ℓ with
      | some (q, op) => if q = p then some (hist.length, op) else pending p hist s
      | none => pending p hist s
    else none

/-- The operation of the process in slot `p` in a step: the one that it starts there, or the one in
which it is Blocked. -/
def opOf (hist : List (Kernel × Label)) (s : Kernel) (ℓ : Label) (p : ProcSlot) :
    Option (Nat × Op) :=
  match s.entry ℓ with
  | some (q, op) => if q = p then some (hist.length, op) else pending p hist s
  | none => pending p hist s

/-- The operation that returns at once in a step. -/
def completedNow (hist : List (Kernel × Label)) (s : Kernel) (ℓ : Label) : Option Outcome :=
  (s.entry ℓ).bind fun e => (s.answer ℓ).map fun a =>
    ⟨e.1, e.2, hist.length, hist.length, a.1, a.2⟩

/-- The operation of the process in slot `p` that returns because a step wakes the process. -/
def completedLater (hist : List (Kernel × Label)) (s t : Kernel) (p : ProcSlot) :
    Option Outcome :=
  if t.procs.state p = .blocked then none
  else (pending p hist s).map fun o =>
    ⟨p, o.2, o.1, hist.length, (t.procs.table p).result.status,
      some (t.procs.table p).result.payload⟩

/-- The operations that return in a step. -/
def stepOutcomes (hist : List (Kernel × Label)) (s : Kernel) (ℓ : Label) (t : Kernel) :
    List Outcome :=
  (completedNow hist s ℓ).toList ++ (List.finRange maxProcesses).filterMap (completedLater hist s t)

/-- The operations of a run that returned. -/
def outcomes : List (Kernel × Label) → Kernel → List Outcome
  | [], _ => []
  | (s, ℓ) :: hist, t => stepOutcomes hist s ℓ t ++ outcomes hist s

/-- The message that is passed in a step. -/
def stepDelivery (hist : List (Kernel × Label)) (s : Kernel) (ℓ : Label) : Option Delivery :=
  (s.meets ℓ).bind fun m =>
    (opOf hist s ℓ m.sender).bind fun i => (opOf hist s ℓ m.receiver).map fun j =>
      ⟨m, i.1, j.1, hist.length⟩

/-- The messages of a run that were passed. -/
def deliveries : List (Kernel × Label) → List Delivery
  | [] => []
  | (s, ℓ) :: hist => (stepDelivery hist s ℓ).toList ++ deliveries hist

/-- The operation that step `i` of a run starts, and the process that starts it. -/
def issuedAt : List (Kernel × Label) → Nat → Option (ProcSlot × Op)
  | [], _ => none
  | (s, ℓ) :: hist, i => if i = hist.length then s.entry ℓ else issuedAt hist i

/-! ### The entry of a step -/

theorem entry_running (hgood : s.Good) (h : s.entry ℓ = some (p, op)) :
    s.procs.state p = .running := by
  have hendpoint : ∀ {core slot right id}, right ≠ 0 →
      s.endpointIdFor core slot right = some id →
      s.procs.state (s.procs.currentSlot core) = .running := by
    intro core slot right id hne hid
    obtain ⟨-, proc, -, -, hc, -⟩ := endpointIdFor_some hne hid
    exact hgood.state_of_current hc
  cases ℓ with
  | send core epSlot msg capSlot =>
    obtain ⟨id, hid, heq⟩ := Option.map_eq_some_iff.mp h
    cases heq
    exact hendpoint (by decide) hid
  | call core epSlot req =>
    obtain ⟨id, hid, heq⟩ := Option.map_eq_some_iff.mp h
    cases heq
    exact hendpoint (by decide) hid
  | recv core epSlot =>
    obtain ⟨id, hid, heq⟩ := Option.map_eq_some_iff.mp h
    cases heq
    exact hendpoint (by decide) hid
  | _ => cases h

/-- A process that is Blocked starts nothing. -/
theorem opOf_blocked (hgood : s.Good) (hblocked : s.procs.state p = .blocked)
    (hist : List (Kernel × Label)) (ℓ : Label) : opOf hist s ℓ p = pending p hist s := by
  unfold opOf
  split
  · rename_i q op hentry
    rw [if_neg]
    rintro rfl
    rw [entry_running hgood hentry] at hblocked
    cases hblocked
  · rfl

theorem opOf_entry (h : s.entry ℓ = some (p, op)) (hist : List (Kernel × Label)) :
    opOf hist s ℓ p = some (hist.length, op) := by
  unfold opOf
  rw [h]
  dsimp only
  rw [if_pos rfl]

/-- After a step, the operation in which a process is Blocked is its operation in the step. -/
theorem pending_next (hist : List (Kernel × Label)) (hblocked : t.procs.state p = .blocked) :
    pending p ((s, ℓ) :: hist) t = opOf hist s ℓ p := by
  show (if t.procs.state p = .blocked then _ else _) = _
  rw [if_pos hblocked]
  rfl

/-- A process that enters a queue or a call starts the operation that fits the place. -/
theorem entry_of_parking {place : Place} (h : s.parking ℓ = some (p, place)) :
    ∃ o, place.Fits o ∧ s.entry ℓ = o.map fun op => (p, op) := by
  cases ℓ with
  | send core epSlot msg capSlot =>
    obtain ⟨id, hid, heq⟩ := Option.map_eq_some_iff.mp h
    cases heq
    refine ⟨some (.send id msg), rfl, ?_⟩
    show (s.endpointIdFor core epSlot rightSend).map _ = _
    rw [hid]
    rfl
  | recv core epSlot =>
    obtain ⟨id, hid, heq⟩ := Option.map_eq_some_iff.mp h
    cases heq
    refine ⟨some (.recv id), rfl, ?_⟩
    show (s.endpointIdFor core epSlot rightRecv).map _ = _
    rw [hid]
    rfl
  | call core epSlot req =>
    obtain ⟨id, hid, heq⟩ := Option.map_eq_some_iff.mp h
    cases heq
    refine ⟨some (.call id req), ?_, ?_⟩
    · unfold callPlace
      split
      · split
        · exact ⟨id, req, rfl⟩
        · exact ⟨id, req, rfl⟩
      · rfl
    · show (s.endpointIdFor core epSlot rightSend).map _ = _
      rw [hid]
      rfl
  | ringWait core slot =>
    obtain ⟨id, -, heq⟩ := Option.map_eq_some_iff.mp h
    cases heq
    exact ⟨none, rfl, rfl⟩
  | bindWait core slot seen idx =>
    obtain ⟨proc, -, hrest⟩ := Option.bind_eq_some_iff.mp h
    split at hrest
    · cases hrest
      exact ⟨none, rfl, rfl⟩
    · cases hrest
  | _ => cases h

/-- A process that is not Blocked is in no operation. -/
theorem pending_none (h : s.procs.state p ≠ .blocked) (hist : List (Kernel × Label)) :
    pending p hist s = none := by
  cases hist with
  | nil => rfl
  | cons e hist => exact if_neg h

/-! ### The caller runs on -/

/-- The core runs the process of the same slot still. -/
structure RunsOn (core : Core) (P P' : Procs) : Prop where
  slot : P'.currentSlot core = P.currentSlot core
  runs : (P.current core).isSome = true → (P'.current core).isSome = true

namespace RunsOn

variable {P P' P'' : Procs} {α : Type} {f : CapTable → Option (α × CapTable)} {a : α}

theorem refl (core : Core) (P : Procs) : RunsOn core P P := ⟨rfl, id⟩

theorem trans (h : RunsOn core P P') (h' : RunsOn core P' P'') : RunsOn core P P'' :=
  ⟨h'.slot.trans h.slot, h'.runs ∘ h.runs⟩

theorem wakeWith (core : Core) (P : Procs) (q : ProcSlot) (status payload landing : Nat) :
    RunsOn core P (P.wakeWith q status payload landing) := ⟨rfl, id⟩

theorem setCurrent (core : Core) (P : Procs) (proc : Process) :
    RunsOn core P (P.setCurrent core (some proc)) := by
  refine ⟨rfl, fun _ => ?_⟩
  rw [Procs.setCurrent_current_self]
  rfl

theorem onCurrent (h : P.onCurrent core f = some (a, P')) : RunsOn core P P' := by
  unfold Procs.onCurrent at h
  split at h
  · cases h
  · split at h
    · cases h
    · simp only [Option.some.injEq, Prod.mk.injEq] at h
      obtain ⟨-, rfl⟩ := h
      exact setCurrent core P _

theorem onTable {q : ProcSlot} (h : P.onTable q f = some (a, P')) : RunsOn core P P' := by
  unfold Procs.onTable at h
  split at h
  · cases h
  · split at h
    · cases h
    · simp only [Option.some.injEq, Prod.mk.injEq] at h
      obtain ⟨-, rfl⟩ := h
      exact ⟨rfl, id⟩

end RunsOn

theorem transferCurrentToBlocked_runsOn (s : Kernel) (core : Core) (receiver : ProcSlot)
    (capSlot : Nat) :
    RunsOn core s.procs (s.transferCurrentToBlocked core receiver capSlot).2.procs := by
  unfold transferCurrentToBlocked
  split
  · exact .refl core s.procs
  · rename_i cap u hgive
    have hu : RunsOn core s.procs u.procs := by
      unfold giveFromCurrent at hgive
      split at hgive
      · cases hgive
      · split at hgive
        · cases hgive
        · simp only [Option.some.injEq, Prod.mk.injEq] at hgive
          obtain ⟨-, rfl⟩ := hgive
          exact .setCurrent core s.procs _
    dsimp only
    split
    · rename_i landing P hin
      exact hu.trans (.onTable hin)
    · refine hu.trans ?_
      unfold restoreToCurrent
      split
      · rename_i hback
        exact .onCurrent hback
      · exact .refl core u.procs

theorem transferBlockedToCurrent_runsOn (s : Kernel) (core : Core) (sender : ProcSlot)
    (capSlot : Nat) :
    RunsOn core s.procs (s.transferBlockedToCurrent core sender capSlot).2.procs := by
  unfold transferBlockedToCurrent
  split
  · exact .refl core s.procs
  · rename_i cap u hgive
    have hu : RunsOn core s.procs u.procs := by
      unfold giveFromBlocked at hgive
      split at hgive
      · cases hgive
      · split at hgive
        · cases hgive
        · simp only [Option.some.injEq, Prod.mk.injEq] at hgive
          obtain ⟨-, rfl⟩ := hgive
          exact ⟨rfl, id⟩
    dsimp only
    split
    · rename_i landing P hin
      exact hu.trans (.onCurrent hin)
    · refine hu.trans ?_
      unfold restoreToBlocked
      split
      · rename_i hback
        exact .onTable hback
      · exact .refl core u.procs

theorem mintReplyIntoCurrent_runsOn (s : Kernel) (core : Core) (caller : ProcSlot) :
    RunsOn core s.procs (s.mintReplyIntoCurrent core caller).2.procs ∧
      (s.mintReplyIntoCurrent core caller).2.ipc = s.ipc := by
  unfold mintReplyIntoCurrent
  split
  · rename_i hin
    exact ⟨.onCurrent hin, rfl⟩
  · exact ⟨.refl core s.procs, rfl⟩

/-- A send that returns at once leaves its process running. -/
theorem ipcSend_runsOn (s : Kernel) (core : Core) (epSlot msg capSlot : Nat)
    (h : (s.ipcSend core epSlot msg capSlot).1 ≠ .parked) :
    RunsOn core s.procs (s.ipcSend core epSlot msg capSlot).2.procs := by
  unfold ipcSend at h ⊢
  split
  · exact .refl core s.procs
  · rename_i id hid
    rw [hid] at h
    dsimp only at h
    split
    · rename_i receiver ipc htake
      have hmove := transferCurrentToBlocked_runsOn { s with ipc := ipc } core receiver capSlot
      dsimp only at hmove ⊢
      split
      · exact .wakeWith core s.procs _ _ _ _
      · exact hmove.trans (.wakeWith core _ receiver _ _ _)
    · rename_i htake
      rw [htake] at h
      dsimp only at h
      split
      · exact .refl core s.procs
      · rename_i hpeer
        rw [if_neg hpeer] at h
        exact absurd rfl h

/-- A receive that returns at once leaves its process running. -/
theorem ipcRecv_runsOn (s : Kernel) (core : Core) (epSlot : Nat)
    (h : (s.ipcRecv core epSlot).1 ≠ .parked) :
    RunsOn core s.procs (s.ipcRecv core epSlot).2.procs := by
  unfold ipcRecv at h ⊢
  split
  · exact .refl core s.procs
  · rename_i id hid
    rw [hid] at h
    dsimp only at h
    split
    · rename_i sender ipc htake
      have hmint := (mintReplyIntoCurrent_runsOn { s with ipc := ipc } core sender).1
      have hmove := transferBlockedToCurrent_runsOn { s with ipc := ipc } core sender
        (s.procs.table sender).pendingCap
      dsimp only at hmint hmove ⊢
      split
      · exact hmint
      · split
        · exact .wakeWith core s.procs _ _ _ _
        · exact hmove.trans (.wakeWith core _ sender _ _ _)
    · rename_i htake
      rw [htake] at h
      dsimp only at h ⊢
      split
      · exact ⟨rfl, fun hc => hc⟩
      · rename_i hpeer
        rw [if_neg hpeer] at h
        exact absurd rfl h

/-- A call that returns at once did nothing. -/
theorem ipcCall_runsOn (s : Kernel) (core : Core) (epSlot req : Nat)
    (h : (s.ipcCall core epSlot req).1 ≠ .parked) :
    RunsOn core s.procs (s.ipcCall core epSlot req).2.procs := by
  unfold ipcCall at h ⊢
  split
  · exact .refl core s.procs
  · rename_i id hid
    rw [hid] at h
    dsimp only at h ⊢
    split
    · rename_i server ipc htake
      rw [htake] at h
      exact absurd rfl h
    · rename_i htake
      rw [htake] at h
      dsimp only at h
      split
      · exact .refl core s.procs
      · rename_i hpeer
        rw [if_neg hpeer] at h
        exact absurd rfl h

theorem onCore_eq {s' : Kernel} (h : s.onCore core s' = some t) :
    (s.procs.current core).isSome = true ∧ s' = t := by
  unfold onCore at h
  split at h
  · rename_i hc
    exact ⟨hc, Option.some.inj h⟩
  · cases h

/-- The process whose operation returns at once runs on. -/
theorem Good.answer_running (hgood : s.Good) (hnext : s.step ℓ = some t)
    (hentry : s.entry ℓ = some (p, op)) {a : Nat × Option Nat} (ha : s.answer ℓ = some a) :
    t.procs.state p = .running := by
  obtain ⟨hgood', -⟩ := hgood.step_path hnext
  have hruns : ∀ {core : Core} {u : Kernel}, s.onCore core u = some t →
      s.procs.currentSlot core = p → RunsOn core s.procs u.procs → t.procs.state p = .running := by
    intro core u hcore hslot hon
    obtain ⟨hc, hut⟩ := onCore_eq hcore
    rw [hut] at hon
    obtain ⟨proc, hcur⟩ := Option.isSome_iff_exists.mp (hon.runs hc)
    have hrun : t.procs.state (t.procs.currentSlot core) = .running :=
      hgood'.state_of_current hcur
    rwa [hon.slot, hslot] at hrun
  have hparked : ∀ {r : Ret}, r.answer = some a → r ≠ .parked := by
    rintro r hr rfl
    cases hr
  cases ℓ with
  | send core epSlot msg capSlot =>
    obtain ⟨id, -, heq⟩ := Option.map_eq_some_iff.mp hentry
    cases heq
    exact hruns hnext rfl (ipcSend_runsOn s core epSlot msg capSlot (hparked ha))
  | call core epSlot req =>
    obtain ⟨id, -, heq⟩ := Option.map_eq_some_iff.mp hentry
    cases heq
    exact hruns hnext rfl (ipcCall_runsOn s core epSlot req (hparked ha))
  | recv core epSlot =>
    obtain ⟨id, -, heq⟩ := Option.map_eq_some_iff.mp hentry
    cases heq
    exact hruns hnext rfl (ipcRecv_runsOn s core epSlot (hparked ha))
  | _ => cases hentry

/-! ### Meetings -/

/-- The process that an operation takes from a queue is parked there. -/
theorem Good.takes_sender (hgood : s.Good) {ipc : Ipc}
    (h : s.ipc.takeWaiting id true = some (p, ipc)) :
    s.ParkedAt p (.sender id (s.ledger.mail p)) ∧ ∃ rest, s.ledger.queue id = p :: rest := by
  obtain ⟨rest, hqueue, hside, -, -, hblocked, -⟩ := hgood.dequeues (g := Guard.any) h
  exact ⟨⟨hblocked, by rw [hqueue]; exact List.mem_cons_self, hside, rfl⟩, rest, hqueue⟩

theorem Good.takes_receiver (hgood : s.Good) {ipc : Ipc}
    (h : s.ipc.takeWaiting id false = some (p, ipc)) : s.ParkedAt p (.receiver id) := by
  obtain ⟨rest, hqueue, hside, -, -, hblocked, -⟩ := hgood.dequeues (g := Guard.any) h
  exact ⟨hblocked, by rw [hqueue]; exact List.mem_cons_self, hside⟩

/-- A message passes in one of two ways: a send or a call finds a receiver in the queue, or a
receive finds a sender there and takes the one at the head. -/
theorem Good.meets_cases (hgood : s.Good) (h : s.meets ℓ = some m) :
    (s.entry ℓ = some (m.sender, .post m.call m.endpoint m.word) ∧
      s.ParkedAt m.receiver (.receiver m.endpoint)) ∨
    (s.entry ℓ = some (m.receiver, .recv m.endpoint) ∧
      ∃ mail rest, s.ParkedAt m.sender (.sender m.endpoint mail) ∧ mail.msg = m.word ∧
        mail.call = m.call ∧ s.ledger.queue m.endpoint = m.sender :: rest) := by
  cases ℓ with
  | send core epSlot msg capSlot =>
    obtain ⟨id, hid, hrest⟩ := Option.bind_eq_some_iff.mp h
    obtain ⟨⟨receiver, ipc⟩, htake, rfl⟩ := Option.map_eq_some_iff.mp hrest
    refine Or.inl ⟨?_, hgood.takes_receiver htake⟩
    show (s.endpointIdFor core epSlot rightSend).map _ = _
    rw [hid]
    rfl
  | call core epSlot req =>
    obtain ⟨id, hid, hrest⟩ := Option.bind_eq_some_iff.mp h
    obtain ⟨⟨receiver, ipc⟩, htake, rfl⟩ := Option.map_eq_some_iff.mp hrest
    refine Or.inl ⟨?_, hgood.takes_receiver htake⟩
    show (s.endpointIdFor core epSlot rightSend).map _ = _
    rw [hid]
    rfl
  | recv core epSlot =>
    obtain ⟨id, hid, hrest⟩ := Option.bind_eq_some_iff.mp h
    obtain ⟨⟨sender, ipc⟩, htake, rfl⟩ := Option.map_eq_some_iff.mp hrest
    obtain ⟨hparked, rest, hqueue⟩ := hgood.takes_sender htake
    have hmail : s.ledger.mail sender = (s.procs.table sender).mail := rfl
    refine Or.inr ⟨?_, s.ledger.mail sender, rest, hparked, ?_, ?_, hqueue⟩
    · show (s.endpointIdFor core epSlot rightRecv).map _ = _
      rw [hid]
      rfl
    · rw [hmail]
      rfl
    · rw [hmail]
      rfl
  | _ => cases h

theorem wakeWith_state (P : Procs) (q : ProcSlot) (status payload landing : Nat) :
    (P.wakeWith q status payload landing).state q = .ready := by
  show (Function.update P.table q _ q).state = _
  rw [Function.update_self]

theorem blockCurrent_state {P : Procs} {q : ProcSlot} (h : q ≠ P.currentSlot core) :
    (P.blockCurrent core).state q = P.state q := by
  unfold Procs.blockCurrent
  split
  · rfl
  · show (Function.update P.table (P.currentSlot core) _ q).state = (P.table q).state
    rw [Function.update_of_ne h]

/-- A send or a call that finds a receiver wakes it. -/
theorem Good.wakes_receiver (hgood : s.Good) (hnext : s.step ℓ = some t)
    (h : s.meets ℓ = some m)
      (hentry : s.entry ℓ = some (m.sender, .post m.call m.endpoint m.word)) :
    t.procs.state m.receiver = .ready := by
  cases ℓ with
  | send core epSlot msg capSlot =>
    obtain ⟨id, hid, hrest⟩ := Option.bind_eq_some_iff.mp h
    obtain ⟨⟨receiver, ipc⟩, htake, rfl⟩ := Option.map_eq_some_iff.mp hrest
    obtain ⟨-, rfl⟩ := onCore_eq hnext
    unfold ipcSend
    rw [hid]
    dsimp only
    rw [htake]
    exact wakeWith_state _ _ _ _ _
  | call core epSlot req =>
    obtain ⟨id, hid, hrest⟩ := Option.bind_eq_some_iff.mp h
    obtain ⟨⟨server, ipc⟩, htake, rfl⟩ := Option.map_eq_some_iff.mp hrest
    have hrun := entry_running hgood hentry
    have hblocked := (hgood.takes_receiver htake).blocked
    obtain ⟨-, rfl⟩ := onCore_eq hnext
    have hslot : (({ s with ipc } : Kernel).mintReplyIntoBlocked server
        (s.procs.currentSlot core)).2.procs.currentSlot core = s.procs.currentSlot core := by
      unfold mintReplyIntoBlocked
      split
      · rename_i hin
        exact ((RunsOn.onTable hin : RunsOn core _ _)).slot
      · rfl
    have hne : server ≠ s.procs.currentSlot core := by
      intro heq
      rw [← heq] at hrun
      dsimp only at hrun
      rw [hblocked] at hrun
      cases hrun
    unfold ipcCall
    rw [hid]
    dsimp only
    rw [htake]
    dsimp only
    rw [blockCurrent_state]
    · exact wakeWith_state _ _ _ _ _
    · show server ≠ (({ s with ipc } : Kernel).mintReplyIntoBlocked server
        (s.procs.currentSlot core)).2.procs.currentSlot core
      rw [hslot]
      exact hne
  | recv core epSlot =>
    obtain ⟨id, hid, hrest⟩ := Option.bind_eq_some_iff.mp h
    obtain ⟨⟨sender, ipc⟩, htake, rfl⟩ := Option.map_eq_some_iff.mp hrest
    obtain ⟨id', hid', heq⟩ := Option.map_eq_some_iff.mp hentry
    unfold Op.post at heq
    dsimp only at heq
    split at heq
    · cases heq
    · cases heq
  | _ => cases h

/-- A receive that finds a sender takes it from the queue, and wakes it unless it waits for a
reply. -/
theorem Good.frees_sender (hgood : s.Good) (hnext : s.step ℓ = some t)
    (h : s.meets ℓ = some m) (hentry : s.entry ℓ = some (m.receiver, .recv m.endpoint)) :
    (m.call = false → t.procs.state m.sender = .ready) ∧
      ∀ mail, ¬ t.ParkedAt m.sender (.sender m.endpoint mail) := by
  cases ℓ with
  | send core epSlot msg capSlot =>
    obtain ⟨id, -, heq⟩ := Option.map_eq_some_iff.mp hentry
    cases (Prod.mk.inj heq).2
  | call core epSlot req =>
    obtain ⟨id, -, heq⟩ := Option.map_eq_some_iff.mp hentry
    cases (Prod.mk.inj heq).2
  | recv core epSlot =>
    obtain ⟨id, hid, hrest⟩ := Option.bind_eq_some_iff.mp h
    obtain ⟨⟨sender, ipc⟩, htake, rfl⟩ := Option.map_eq_some_iff.mp hrest
    obtain ⟨rest, hqueue, -, -, hrep, -⟩ := hgood.dequeues (g := Guard.any) htake
    obtain ⟨-, hafter⟩ := onCore_eq hnext
    dsimp only
    cases hcall : (s.procs.table sender).pendingCall with
    | false =>
      have hready : t.procs.state sender = .ready := by
        rw [← hafter]
        unfold ipcRecv
        rw [hid]
        dsimp only
        rw [htake]
        dsimp only
        rw [hcall, if_neg Bool.false_ne_true]
        exact wakeWith_state _ _ _ _ _
      refine ⟨fun _ => hready, fun mail hparked => ?_⟩
      rw [ParkedAt.blocked hparked] at hready
      cases hready
    | true =>
      have hipc : t.ipc = ipc := by
        rw [← hafter]
        unfold ipcRecv
        rw [hid]
        dsimp only
        rw [htake]
        dsimp only
        rw [hcall, if_pos rfl]
        exact (mintReplyIntoCurrent_runsOn { s with ipc := ipc } core sender).2
      refine ⟨(fun hno => nomatch hno), fun mail hparked => ?_⟩
      have hmem : sender ∈ t.ipc.waiting id := hparked.2.1
      have hwaiting : ipc.waiting id = rest := by
        have hall : ipc.waiting = Function.update s.ledger.queue id rest :=
          hrep.ipc.queue_rep.waiting_eq
        rw [hall, Function.update_self]
      rw [hipc, hwaiting] at hmem
      have hone := hgood.base.registered.le_one sender
      have hcount := count_le_queued s.ledger.queue id sender
      rw [hqueue, List.count_cons_self] at hcount
      have hpos := List.count_pos_iff.mpr hmem
      unfold Ledger.regs at hone
      omega
  | _ => cases h

/-- A process that waits in a queue is woken by a message, or it is told that its peer died. -/
theorem Good.woken_signals {place : Place} (hgood : s.Good) (hnext : s.step ℓ = some t)
    (h : s.ParkedAt p place) (hqueue : ∃ id, p ∈ s.ipc.waiting id)
    (hout : t.procs.state p ≠ .blocked) :
    ((t.procs.table p).result.status = ipcPeerDied ∧ s.meets ℓ = none) ∨
      (∃ m, s.meets ℓ = some m ∧ place = .receiver m.endpoint ∧ m.receiver = p ∧
        s.entry ℓ = some (m.sender, .post m.call m.endpoint m.word) ∧
        (t.procs.table p).result.status = ipcOk ∧ (t.procs.table p).result.payload = m.word) ∨
      ∃ m mail, s.meets ℓ = some m ∧ place = .sender m.endpoint mail ∧ m.sender = p ∧
        s.entry ℓ = some (m.receiver, .recv m.endpoint) ∧
        (t.procs.table p).result.status = ipcOk := by
  -- A process that waits in a queue waits for nothing else.
  have hplace : ∀ place', s.ledger.Registration p place' → (∀ id mail, place' ≠ .sender id mail) →
      (∀ id, place' ≠ .receiver id) → False := by
    intro place' hreg hsend hrecv
    have hat : s.ParkedAt p place' := ⟨h.1, hreg⟩
    obtain ⟨id, hmem⟩ := hqueue
    rcases hgood.queued_parked hmem with ⟨mail, hq⟩ | hq
    · exact hsend id mail (hat.unique hgood hq)
    · exact hrecv id (hat.unique hgood hq)
  rcases hgood.parked_next hnext h with hstay | ⟨-, -, -, -, -, hreply⟩ | ⟨-, hnowhere⟩ |
    ⟨-, hsignal, htells⟩
  · exact absurd hstay.blocked hout
  · exact absurd hreply.blocked hout
  · exact absurd hnowhere.blocked hout
  · cases ℓ with
    | send core epSlot msg capSlot =>
      obtain ⟨id, ipc, hid, htake⟩ := hsignal
      have hmeets : s.meets (.send core epSlot msg capSlot) =
          some ⟨id, msg, false, s.procs.currentSlot core, p⟩ := by
        show (s.endpointIdFor core epSlot rightSend).bind _ = _
        rw [hid, Option.bind_some, htake]
        rfl
      refine Or.inr (Or.inl ⟨_, hmeets, h.unique hgood (hgood.takes_receiver htake), rfl, ?_,
        htells.1, htells.2⟩)
      show (s.endpointIdFor core epSlot rightSend).map _ = _
      rw [hid]
      rfl
    | call core epSlot req =>
      obtain ⟨id, ipc, hid, htake⟩ := hsignal
      have hmeets : s.meets (.call core epSlot req) =
          some ⟨id, req, true, s.procs.currentSlot core, p⟩ := by
        show (s.endpointIdFor core epSlot rightSend).bind _ = _
        rw [hid, Option.bind_some, htake]
        rfl
      refine Or.inr (Or.inl ⟨_, hmeets, h.unique hgood (hgood.takes_receiver htake), rfl, ?_,
        htells.1, htells.2⟩)
      show (s.endpointIdFor core epSlot rightSend).map _ = _
      rw [hid]
      rfl
    | recv core epSlot =>
      obtain ⟨id, ipc, hid, htake⟩ := hsignal
      have hmeets : s.meets (.recv core epSlot) = some ⟨id, (s.procs.table p).pendingMsg,
          (s.procs.table p).pendingCall, p, s.procs.currentSlot core⟩ := by
        show (s.endpointIdFor core epSlot rightRecv).bind _ = _
        rw [hid, Option.bind_some, htake]
        rfl
      have hstatus : (t.procs.table p).result.status = ipcOk := by
        rw [show (t.procs.table p).result = _ from htells]
      refine Or.inr (Or.inr ⟨_, _, hmeets, h.unique hgood (hgood.takes_sender htake).1, rfl, ?_,
        hstatus⟩)
      show (s.endpointIdFor core epSlot rightRecv).map _ = _
      rw [hid]
      rfl
    | reply core slot msg =>
      obtain ⟨proc, cap, hc, hlookup, hobj⟩ := hsignal
      obtain ⟨k, -, hk, -⟩ := CapTable.lookup_ok hlookup
      refine (hplace .reply ?_ (fun _ _ heq => by cases heq) fun _ heq => by cases heq).elim
      have hobjs : cap.object = .reply p := hobj
      exact liveTotal_pos.mpr ⟨_, proc, k, cap, hgood.proc_of_current hc, hk, by
        rw [← hobjs, objWeight_self]
        exact Nat.one_pos⟩
    | exit core => exact Or.inl ⟨htells.1, rfl⟩
    | cpuCharge core slot amount => exact Or.inl ⟨htells.1, rfl⟩
    | completeIrq dev used =>
      obtain ⟨d, hd, hwaiter | ⟨id, userData, slot, -, hring⟩⟩ := hsignal
      · refine (hplace (.bound dev) ?_ (fun _ _ heq => by cases heq) fun _ heq => by cases heq).elim
        show waiterOf (s.devs.devices dev) = some p
        rw [hd]
        exact hwaiter
      · exact (hplace (.ring id) hring (fun _ _ heq => by cases heq) fun _ heq => by cases heq).elim
    | deliverEvent source event =>
      obtain ⟨sub, -, -, hring⟩ := hsignal
      exact (hplace (.ring sub.ring) hring (fun _ _ heq => by cases heq)
        fun _ heq => by cases heq).elim
    | _ => exact hsignal.elim

/-! ### Answers -/

/-- A send or a receive returns `IPC_OK` at once if a message passes, and a call never does. -/
theorem answer_ok (hentry : s.entry ℓ = some (p, op)) {payload : Option Nat}
    (ha : s.answer ℓ = some (ipcOk, payload)) :
    ∃ m, s.meets ℓ = some m ∧
      (op = .send m.endpoint m.word ∧ m.call = false ∧ m.sender = p ∨
        op = .recv m.endpoint ∧ m.receiver = p ∧ payload = some m.word) := by
  cases ℓ with
  | send core epSlot msg capSlot =>
    obtain ⟨id, hid, heq⟩ := Option.map_eq_some_iff.mp hentry
    obtain ⟨rfl, rfl⟩ := Prod.mk.inj heq
    change (s.ipcSend core epSlot msg capSlot).1.answer = _ at ha
    unfold ipcSend at ha
    rw [hid] at ha
    dsimp only at ha
    cases htake : s.ipc.takeWaiting id false with
    | none =>
      rw [htake] at ha
      dsimp only at ha
      split at ha
      · cases ha
      · cases ha
    | some r =>
      obtain ⟨receiver, ipc⟩ := r
      refine ⟨⟨id, msg, false, s.procs.currentSlot core, receiver⟩, ?_, Or.inl ⟨rfl, rfl, rfl⟩⟩
      show (s.endpointIdFor core epSlot rightSend).bind _ = _
      rw [hid, Option.bind_some, htake]
      rfl
  | call core epSlot req =>
    obtain ⟨id, hid, heq⟩ := Option.map_eq_some_iff.mp hentry
    change (s.ipcCall core epSlot req).1.answer = _ at ha
    unfold ipcCall at ha
    rw [hid] at ha
    dsimp only at ha
    cases htake : s.ipc.takeWaiting id false with
    | none =>
      rw [htake] at ha
      dsimp only at ha
      split at ha
      · cases ha
      · cases ha
    | some r =>
      rw [htake] at ha
      cases ha
  | recv core epSlot =>
    obtain ⟨id, hid, heq⟩ := Option.map_eq_some_iff.mp hentry
    obtain ⟨rfl, rfl⟩ := Prod.mk.inj heq
    change (s.ipcRecv core epSlot).1.answer = _ at ha
    unfold ipcRecv at ha
    rw [hid] at ha
    dsimp only at ha
    cases htake : s.ipc.takeWaiting id true with
    | none =>
      rw [htake] at ha
      dsimp only at ha
      split at ha
      · cases ha
      · cases ha
    | some r =>
      obtain ⟨sender, ipc⟩ := r
      rw [htake] at ha
      dsimp only at ha
      have hpayload : payload = some (s.procs.table sender).pendingMsg := by
        split at ha
        · exact (Prod.mk.inj (Option.some.inj ha)).2.symm
        · exact (Prod.mk.inj (Option.some.inj ha)).2.symm
      refine ⟨⟨id, (s.procs.table sender).pendingMsg, (s.procs.table sender).pendingCall, sender,
        s.procs.currentSlot core⟩, ?_, Or.inr ⟨rfl, rfl, hpayload⟩⟩
      show (s.endpointIdFor core epSlot rightRecv).bind _ = _
      rw [hid, Option.bind_some, htake]
      rfl
  | _ => cases hentry

/-- The side that comes second gets its answer at once, unless it calls. -/
theorem answer_of_meets (h : s.meets ℓ = some m) (hentry : s.entry ℓ = some (p, op)) :
    op = .send m.endpoint m.word ∧ s.answer ℓ = some (ipcOk, none) ∨
      op = .call m.endpoint m.word ∨
      op = .recv m.endpoint ∧ s.answer ℓ = some (ipcOk, some m.word) := by
  cases ℓ with
  | send core epSlot msg capSlot =>
    obtain ⟨id, hid, hrest⟩ := Option.bind_eq_some_iff.mp h
    obtain ⟨⟨receiver, ipc⟩, htake, rfl⟩ := Option.map_eq_some_iff.mp hrest
    change (s.endpointIdFor core epSlot rightSend).map _ = _ at hentry
    rw [hid] at hentry
    obtain ⟨rfl, rfl⟩ := Prod.mk.inj (Option.some.inj hentry)
    refine Or.inl ⟨rfl, ?_⟩
    show (s.ipcSend core epSlot msg capSlot).1.answer = _
    unfold ipcSend
    rw [hid]
    dsimp only
    rw [htake]
    rfl
  | call core epSlot req =>
    obtain ⟨id, hid, hrest⟩ := Option.bind_eq_some_iff.mp h
    obtain ⟨⟨receiver, ipc⟩, htake, rfl⟩ := Option.map_eq_some_iff.mp hrest
    change (s.endpointIdFor core epSlot rightSend).map _ = _ at hentry
    rw [hid] at hentry
    obtain ⟨rfl, rfl⟩ := Prod.mk.inj (Option.some.inj hentry)
    exact Or.inr (Or.inl rfl)
  | recv core epSlot =>
    obtain ⟨id, hid, hrest⟩ := Option.bind_eq_some_iff.mp h
    obtain ⟨⟨sender, ipc⟩, htake, rfl⟩ := Option.map_eq_some_iff.mp hrest
    change (s.endpointIdFor core epSlot rightRecv).map _ = _ at hentry
    rw [hid] at hentry
    obtain ⟨rfl, rfl⟩ := Prod.mk.inj (Option.some.inj hentry)
    refine Or.inr (Or.inr ⟨rfl, ?_⟩)
    show (s.ipcRecv core epSlot).1.answer = _
    unfold ipcRecv
    rw [hid]
    dsimp only
    rw [htake]
    dsimp only
    split <;> rfl
  | _ => cases h

end Kernel

end Plinth
