import Plinth.Scheduler.Placement

/-!
# `Plinth.Scheduler.Vacant`: an exit leaves no position behind

`on_exit` empties the slot of the process, takes it off the queue of its core, and then looks for
other work. Nothing on that way fills the empty slot again: a wake is for Blocked processes only,
and a core takes a process only where there is one. So after the exit the slot is in no queue of
any core.
-/

set_option autoImplicit false

namespace Plinth

open Transition

namespace Sched

variable {s t : Sched} {me core : Core} {p q : ProcSlot}

/-- If the call succeeds, then slot `p` is empty after it. -/
def Vacates (p : ProcSlot) (r : Except String Sched) : Prop :=
  ∀ t, r = .ok t → t.procs.table p = Slot.empty

theorem Vacates.ok (h : t.procs.table p = Slot.empty) : Vacates p (.ok t) := by
  rintro u ⟨⟩
  exact h

theorem Vacates.error (e : String) : Vacates p (.error e) := nofun

/-- A wake passes over an empty slot. -/
theorem wake_vacant (h : s.procs.table p = Slot.empty) (q : ProcSlot) (r : Result) :
    (s.wake q r).procs.table p = Slot.empty := by
  unfold wake
  split
  · rename_i hblocked
    have hne : p ≠ q := by
      rintro rfl
      unfold Procs.isBlocked Procs.state at hblocked
      rw [h] at hblocked
      cases hblocked
    exact (Procs.setSlot_table_of_ne _ _ hne).trans h
  · exact h

theorem deliver_vacant (h : s.procs.table p = Slot.empty) (delivered : List (ProcSlot × Result)) :
    (s.deliver delivered).procs.table p = Slot.empty := by
  induction delivered generalizing s with
  | nil => exact h
  | cons d delivered ih => exact ih (wake_vacant h d.1 d.2)

/-- A core takes a process from a slot that has one. -/
theorem resumeProcess_vacates (h : s.procs.table p = Slot.empty) (me : Core) (q : ProcSlot) :
    Vacates p (s.resumeProcess me q) := by
  unfold resumeProcess
  split
  · exact .error _
  · rename_i proc hproc
    have hne : p ≠ q := by
      rintro rfl
      rw [h] at hproc
      cases hproc
    exact .ok ((Procs.setSlot_table_of_ne _ _ hne).trans h)

theorem resumeAt_vacates (h : s.procs.table p = Slot.empty) (me : Core) (pos : QueuePos) :
    Vacates p (s.resumeAt me pos) := by
  unfold resumeAt
  split
  · exact .error _
  · exact resumeProcess_vacates h me _

theorem removeFromCoreQueue_procs (h : s.removeFromCoreQueue core q = .ok t) :
    t.procs = s.procs := by
  unfold removeFromCoreQueue at h
  split at h
  · cases h
  · cases h
    rfl

theorem pushToCoreQueue_procs (h : s.pushToCoreQueue core q = .ok t) : t.procs = s.procs := by
  unfold pushToCoreQueue at h
  split at h
  · cases h
  · cases h
    rfl

/-- A steal moves a process from one queue to another and leaves the table alone. -/
theorem trySteal_procs {o : Option ProcSlot} (h : s.trySteal me = .ok (o, t)) :
    t.procs = s.procs := by
  unfold trySteal at h
  split at h
  · cases h
    rfl
  · split at h
    · cases h
    · rename_i u hremove
      split at h
      · cases h
      · rename_i w hpush
        cases h
        exact (pushToCoreQueue_procs hpush).trans (removeFromCoreQueue_procs hremove)

/-- The loops go on with a state that has the same table. -/
theorem stealOr_vacates (h : s.procs.table p = Slot.empty) (me : Core)
    {rest : Sched → Except String Sched}
    (hrest : ∀ u : Sched, u.procs.table p = Slot.empty → Vacates p (rest u)) :
    Vacates p (s.stealOr me rest) := by
  unfold stealOr
  split
  · exact .error _
  · rename_i q u hsteal
    exact resumeProcess_vacates (by rw [trySteal_procs hsteal]; exact h) me q
  · rename_i u hsteal
    exact hrest u (by rw [trySteal_procs hsteal]; exact h)

theorem switchTop_vacates (h : s.procs.table p = Slot.empty) (me : Core) (curPos : QueuePos)
    (onIdle : NoWorkAction) {rest : Sched → Except String Sched}
    (hrest : ∀ u : Sched, u.procs.table p = Slot.empty → Vacates p (rest u)) :
    Vacates p (s.switchTop me curPos onIdle rest) := by
  unfold switchTop
  split
  · exact resumeAt_vacates h me _
  · split
    · exact resumeAt_vacates h me _
    · split
      · split
        · exact stealOr_vacates h me hrest
        · exact .ok h
      · exact hrest s h

theorem switchEnd_vacates (h : s.procs.table p = Slot.empty) (me : Core) :
    Vacates p (.ok (s.switchEnd me)) := by
  unfold switchEnd
  repeat' split
  all_goals exact .ok h

theorem idleUntilRunnable_vacates (h : s.procs.table p = Slot.empty) (me : Core)
    (curPos : QueuePos) (onIdle : NoWorkAction) (stillWaiting : Bool) :
    Vacates p (s.idleUntilRunnable me curPos onIdle stillWaiting) := by
  unfold idleUntilRunnable
  split
  · exact resumeAt_vacates h me _
  · refine stealOr_vacates h me fun u hu => ?_
    split
    · exact .ok hu
    · exact switchTop_vacates (s := u.setPlace me (.switching curPos onIdle)) hu me curPos onIdle
        fun w hw => switchEnd_vacates hw me

theorem switchToNext_vacates (h : s.procs.table p = Slot.empty) (me : Core) (curPos : QueuePos)
    (onIdle : NoWorkAction) (env : Env) : Vacates p (s.switchToNext me curPos onIdle env) := by
  unfold switchToNext
  refine switchTop_vacates h me curPos onIdle fun u hu => ?_
  split
  · exact idleUntilRunnable_vacates (deliver_vacant (s := u.setPlace me (.waiting curPos onIdle))
      hu env.delivered) me curPos onIdle env.stillWaiting
  · exact switchEnd_vacates hu me

/-- The slot of a process that exits is empty after the whole step. -/
theorem onExit_vacates (me : Core) (env : Env) :
    Vacates (s.procs.currentSlot me) (s.onExit me env) := by
  unfold onExit
  dsimp only
  split
  · exact .error _
  · split
    · exact .error _
    · split
      · exact .error _
      · rename_i u hremove
        refine switchToNext_vacates ?_ me _ .exitedReturnIfDone env
        change u.procs.table _ = Slot.empty
        rw [removeFromCoreQueue_procs hremove]
        exact Procs.setSlot_table_self ..

/-- After an exit the slot of the process is empty, and it is in no queue of any core. -/
theorem exit_leaves_queues (hs : Reachable system always s) {env : Env}
    (hnext : system.next s (.exit me env) = some t) :
    t.procs.table (s.procs.currentSlot me) = Slot.empty ∧
      ∀ c i, t.coreQueue c i ≠ some (s.procs.currentSlot me) := by
  have hvacant : t.procs.table (s.procs.currentSlot me) = Slot.empty := by
    have hact : s.next (.exit me env) = some t := hnext
    unfold next act at hact
    dsimp only at hact
    split at hact
    · rename_i u heq
      split at heq
      · cases hact
        exact onExit_vacates me env t (Option.some.inj heq)
      · cases heq
    · cases hact
  refine ⟨hvacant, fun c i hq => ?_⟩
  -- A slot in a queue is not empty.
  refine (inv_of_reachable (hs.next trivial hnext)).live c i _ hq ?_
  unfold Procs.state
  rw [hvacant]
  rfl

end Sched

end Plinth
