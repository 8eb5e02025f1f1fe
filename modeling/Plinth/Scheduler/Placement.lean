import Mathlib.Logic.Relation
import Plinth.Refine.Placed
import Plinth.Scheduler.Queues

/-!
# `Plinth.Scheduler.Placement`: every process has its place

Every step of the scheduler is some preparations (`Prep`), and then at most one core takes one
process (`Take`): one of its own queue, at a position that its scan allows, or a stolen one.
`act_done` says so, and that no `expect` fails on the way. So what holds of all runs is an invariant
of the preparations and of the takes.

`placement` is the result: every process is in one position of one queue, the state of its slot says
where it is, and a core that runs a process or waits for its blocked one has it in its own queue.
-/

set_option autoImplicit false

namespace Plinth

open Transition

namespace Sched

variable {s t u : Sched} {c me donor home : Core} {i j w : QueuePos} {p q id : ProcSlot}
  {proc : Process} {place : Place}

/-! ### Scans -/

/-- The number of positions strictly between two, on the way round. From a position to itself it is
a whole round. -/
def gap (i w : QueuePos) : Nat := (w.val + maxProcesses - i.val - 1) % maxProcesses

theorem gap_lt (i w : QueuePos) : gap i w < maxProcesses := Nat.mod_lt _ (by decide)

theorem gap_self (i : QueuePos) : gap i i = maxProcesses - 1 := by
  unfold gap maxProcesses
  omega

theorem gap_of_ne (h : i ≠ w) : gap i w < maxProcesses - 1 := by
  have hne : i.val ≠ w.val := fun heq => h (Fin.ext heq)
  have hi := i.isLt
  have hw := w.isLt
  unfold maxProcesses at hi hw
  unfold gap maxProcesses
  omega

theorem gap_of_lt (h : i < w) : gap i w < w.val := by
  have hlt : i.val < w.val := h
  have hw := w.isLt
  unfold maxProcesses at hw
  unfold gap maxProcesses
  omega

/-- `pick_next` takes the first Ready position after the current one. -/
theorem pickNext_some {slots : QueuePos → ProcState} (h : pickNext slots i = some j) :
    slots j = .ready ∧ j ≠ i ∧ ∀ w, slots w = .ready → w ≠ j → gap j w < gap i w := by
  unfold pickNext at h
  obtain ⟨hready, pre, post, hlist, hpre⟩ := List.find?_eq_some_iff_append.mp h
  rw [decide_eq_true_eq] at hready
  have hi := i.isLt
  have hlen : (pre ++ j :: post).length = maxProcesses - 1 := by
    rw [← hlist, List.length_map, List.length_range']
  have hget : ∀ k (hk : k < (pre ++ j :: post).length),
      ((pre ++ j :: post)[k]).val = (i.val + (1 + k)) % maxProcesses := by
    intro k hk
    simp only [← hlist, List.getElem_map, List.getElem_range', Nat.one_mul]
    rfl
  have hj : j.val = (i.val + (1 + pre.length)) % maxProcesses := by
    have hk : pre.length < (pre ++ j :: post).length := by
      rw [List.length_append, List.length_cons]
      omega
    rw [← hget pre.length hk]
    simp
  rw [List.length_append, List.length_cons] at hlen
  -- A Ready position that is not behind the first one was passed over.
  have hlow : ∀ w, slots w = .ready → w ≠ i → pre.length ≤ gap i w := by
    intro w hw hne
    by_contra hlt
    rw [Nat.not_le] at hlt
    have hk : gap i w < (pre ++ j :: post).length := by
      rw [List.length_append, List.length_cons]
      omega
    have hmem : (pre ++ j :: post)[gap i w] ∈ pre := by
      rw [List.getElem_append_left hlt]
      exact List.getElem_mem _
    have hat : (pre ++ j :: post)[gap i w] = w := by
      refine Fin.ext ?_
      rw [hget _ hk]
      have hw := w.isLt
      have hval : i.val ≠ w.val := fun heq => hne (Fin.ext heq.symm)
      unfold maxProcesses at hi hw
      unfold gap maxProcesses
      omega
    have hno := hpre _ hmem
    rw [hat, hw] at hno
    exact absurd hno (by decide)
  have hji : j ≠ i := by
    intro heq
    rw [heq] at hj
    unfold maxProcesses at hlen hj hi
    omega
  refine ⟨hready, hji, fun w hw hne => ?_⟩
  have hwlt := w.isLt
  have hjlt := j.isLt
  have hval : j.val ≠ w.val := fun heq => hne (Fin.ext heq.symm)
  by_cases hwi : w = i
  · rw [hwi, gap_self]
    exact gap_of_ne hji
  · have hle := hlow w hw hwi
    have hwval : w.val ≠ i.val := fun heq => hwi (Fin.ext heq)
    unfold gap maxProcesses at hle ⊢
    unfold maxProcesses at hlen hj hi hwlt hjlt
    omega

/-- `pick_next` finds every Ready position but the current one. -/
theorem pickNext_none {slots : QueuePos → ProcState} (h : pickNext slots i = none)
    (hw : slots w = .ready) : w = i := by
  by_contra hne
  unfold pickNext at h
  have hno := List.find?_eq_none.mp h w (List.mem_map.mpr ⟨gap i w + 1, ?_, ?_⟩)
  · rw [hw] at hno
    exact hno (by decide)
  · rw [List.mem_range'_1]
    have hlt := gap_of_ne (fun heq => hne heq.symm : i ≠ w)
    omega
  · refine Fin.ext ?_
    have hi := i.isLt
    have hwlt := w.isLt
    have hval : w.val ≠ i.val := fun heq => hne (Fin.ext heq)
    show (i.val + (gap i w + 1)) % maxProcesses = w.val
    unfold maxProcesses at hi hwlt
    unfold gap maxProcesses
    omega

/-! ### Queues -/

theorem setQueue_apply (s : Sched) (c : Core) (i : QueuePos) (x : Option ProcSlot) (c' : Core)
    (i' : QueuePos) : (s.setQueue c i x).coreQueue c' i' =
      if c' = c ∧ i' = i then x else s.coreQueue c' i' := by
  unfold setQueue
  dsimp only
  by_cases hc : c' = c
  · subst hc
    rw [Function.update_self]
    by_cases hi : i' = i
    · rw [hi, Function.update_self, if_pos ⟨rfl, rfl⟩]
    · rw [Function.update_of_ne hi, if_neg fun h => hi h.2]
  · rw [Function.update_of_ne hc, if_neg fun h => hc h.1]

theorem coreStates_ready (h : s.coreStates c i = .ready) :
    ∃ p, s.coreQueue c i = some p ∧ s.procs.state p = .ready := by
  unfold coreStates at h
  cases hq : s.coreQueue c i with
  | none =>
    rw [hq] at h
    cases h
  | some p =>
    rw [hq] at h
    exact ⟨p, rfl, h⟩

theorem coreStates_of_queue (h : s.coreQueue c i = some p) :
    s.coreStates c i = s.procs.state p := by
  unfold coreStates
  rw [h]

/-! ### The invariant -/

/-- Every process is in one position of one queue, and the state of its slot says where it is. -/
structure Inv (s : Sched) : Prop where
  placed : Placed s.procs
  held : ∀ p, s.procs.state p = .ready ∨ s.procs.state p = .blocked →
    (s.procs.table p).process ≠ none
  runs : ∀ p, s.procs.state p = .running →
    ∃ c, s.procs.current c ≠ none ∧ s.procs.currentSlot c = p
  live : ∀ c i p, s.coreQueue c i = some p → s.procs.state p ≠ .empty
  once : ∀ c i c' i' p, s.coreQueue c i = some p → s.coreQueue c' i' = some p → c = c' ∧ i = i'
  homed : ∀ p, s.procs.state p ≠ .empty → ∃ c i, s.coreQueue c i = some p
  user : ∀ c, s.procs.current c ≠ none ↔ s.place c = .user
  own : ∀ c, s.place c = .user → ∃ i, s.coreQueue c i = some (s.procs.currentSlot c)
  /-- A core that waits for its blocked process knows the position of that process. -/
  waits : ∀ c i, s.place c = .switching i .blockedDeadlockIfNoOtherWork ∨
    s.place c = .waiting i .blockedDeadlockIfNoOtherWork →
      s.coreQueue c i = some (s.procs.currentSlot c)
  boot : ∀ c, s.place c = .boot → c = 0 ∧ ∀ p, s.procs.state p = .empty
  launcher : ∀ c, s.isLauncher c = true → c = 0

theorem Inv.start (h : Booted s) : s.Inv := by
  have hempty : ∀ p, s.procs.state p = .empty := fun p => (h.table p).1
  have hqueue := h.queues
  refine ⟨⟨fun c hc => absurd (h.current c) hc, fun c _ hc => absurd (h.current c) hc,
    fun p hp => absurd (h.table p).2 hp⟩, fun p hp => ?_, fun p hp => ?_, fun c i p hq => ?_,
    fun c i _ _ p hq => ?_, fun p hp => absurd (hempty p) hp, fun c => ?_, fun c hplace => ?_,
    fun c i hplace => ?_, fun c hplace => ⟨?_, hempty⟩, fun c hc => ?_⟩
  · rw [hempty p] at hp
    rcases hp with hp | hp <;> cases hp
  · rw [hempty p] at hp
    cases hp
  · rw [hqueue] at hq
    cases hq
  · rw [hqueue] at hq
    cases hq
  · refine iff_of_false (fun hc => hc (h.current c)) fun hplace => ?_
    by_cases hzero : c = 0
    · rw [hzero, h.boot] at hplace
      cases hplace
    · rw [h.others c hzero] at hplace
      split at hplace <;> cases hplace
  · by_cases hzero : c = 0
    · rw [hzero, h.boot] at hplace
      cases hplace
    · rw [h.others c hzero] at hplace
      split at hplace <;> cases hplace
  · by_cases hzero : c = 0
    · rw [hzero, h.boot] at hplace
      rcases hplace with hplace | hplace <;> cases hplace
    · rw [h.others c hzero] at hplace
      split at hplace <;> rcases hplace with hplace | hplace <;> cases hplace
  · by_contra hzero
    rw [h.others c hzero] at hplace
    split at hplace <;> cases hplace
  · rw [h.launcher c] at hc
    cases hc

/-- Where a process is in a queue is where `core_position` finds it. -/
theorem Inv.position (h : s.Inv) (hq : s.coreQueue c i = some p) :
    s.corePosition c p = some i := by
  unfold corePosition
  cases hfind : (List.finRange maxProcesses).find? fun pos => s.coreQueue c pos = some p with
  | none =>
    have hno := List.find?_eq_none.mp hfind i (List.mem_finRange i)
    rw [decide_eq_true_eq] at hno
    exact absurd hq hno
  | some j =>
    have hj := List.find?_some hfind
    rw [decide_eq_true_eq] at hj
    rw [(h.once c i c j p hq hj).2]

/-- The process of a core. -/
theorem Inv.running (h : s.Inv) (hplace : s.place c = .user) :
    ∃ proc, s.procs.current c = some proc ∧ s.procs.state (s.procs.currentSlot c) = .running := by
  have hc := (h.user c).mpr hplace
  obtain ⟨proc, hproc⟩ := Option.ne_none_iff_exists'.mp hc
  exact ⟨proc, hproc, (h.placed.running c hc).1⟩

/-- A process that is not running is on no core. -/
theorem Inv.not_current (h : s.Inv) (hp : s.procs.state p ≠ .running) (hplace : s.place c = .user) :
    s.procs.currentSlot c ≠ p := by
  rintro rfl
  obtain ⟨-, -, hrun⟩ := h.running hplace
  exact hp hrun

/-! ### What a step is made of -/

/-- The loop in which a core may go on looking for work. -/
def Settles (s : Sched) (me : Core) (place : Place) : Prop :=
  place = .idle ∨ place = .launch ∨ (place = .boot ∧ me = 0 ∧ ∀ p, s.procs.state p = .empty) ∨
    ∃ i onIdle, (s.place me = .switching i onIdle ∨ s.place me = .waiting i onIdle) ∧
      (place = .switching i onIdle ∨ place = .waiting i onIdle)

/-- How many positions the scan of a core that waits looks at before a position. -/
def rank (s : Sched) (me : Core) (w : QueuePos) : Nat :=
  match s.place me with
  | .switching i _ => gap i w
  | .waiting _ _ => w.val
  | .idle => w.val
  | .launch => w.val
  | _ => 0

/-- The parts of a step in which no core takes a process. -/
inductive Prep (s : Sched) : Sched → Prop
  | wake {p : ProcSlot} (r : Result) (hblocked : s.procs.state p = .blocked) : Prep s (s.wake p r)
  | suspend {me : Core} {i : QueuePos} {proc : Process} {slot : Slot}
      (hc : s.procs.current me = some proc)
      (hq : s.coreQueue me i = some (s.procs.currentSlot me)) (hproc : slot.process = some proc)
      (hstate : slot.state = .ready ∨ slot.state = .blocked) :
      Prep s ({ s with
        procs := (s.procs.setSlot (s.procs.currentSlot me) slot).setCurrent me none }.setPlace me
          (.switching i .blockedDeadlockIfNoOtherWork))
  | exit {me : Core} {i : QueuePos} {proc : Process} (hc : s.procs.current me = some proc)
      (hq : s.coreQueue me i = some (s.procs.currentSlot me)) :
      Prep s (({ s with
        procs := (s.procs.setCurrent me none).setSlot (s.procs.currentSlot me)
          Slot.empty }.setQueue me i none).setPlace me (.switching i .exitedReturnIfDone))
  | settle {me : Core} {place : Place} (hc : s.procs.current me = none)
      (hnone : ∀ i, s.coreStates me i ≠ .ready) (hsettles : s.Settles me place) :
      Prep s (s.setPlace me place)
  | setup {id : ProcSlot} {home : Core} {i : QueuePos} {slot : Slot}
      (hid : s.procs.state id = .empty) (hq : s.coreQueue home i = none)
      (hboot : ∀ c, s.place c ≠ .boot) (hstate : slot.state = .ready)
      (hproc : slot.process ≠ none) :
      Prep s ({ s with procs := s.procs.setSlot id slot }.setQueue home i (some id))
  | aside {t : Sched} (hprocs : t.procs = s.procs) (hqueue : t.coreQueue = s.coreQueue)
      (hplace : t.place = s.place) (hresumed : t.resumed = s.resumed)
      (hlauncher : ∀ c, t.isLauncher c = true → c = 0) : Prep s t
  | wipe {t : Sched} (hempty : ∀ p, s.procs.state p = .empty)
      (htable : ∀ p, t.procs.table p = Slot.empty) (hcurrent : t.procs.current = s.procs.current)
      (hqueue : ∀ c i, t.coreQueue c i = none) (hplace : t.place = s.place)
      (hresumed : t.resumed = s.resumed) (hlauncher : t.isLauncher = s.isLauncher) : Prep s t

/-- A core takes a process. -/
inductive Take (s : Sched) : Sched → Prop
  | own {me : Core} {i : QueuePos} {p : ProcSlot} {proc : Process}
      (hc : s.procs.current me = none) (hq : s.coreQueue me i = some p)
      (hproc : (s.procs.table p).process = some proc) (hready : s.procs.state p = .ready)
      (hfair : ∀ w, s.coreStates me w = .ready → w ≠ i → gap i w < s.rank me w) :
      Take s (s.take me p proc)
  | steal {me donor : Core} {i j : QueuePos} {p : ProcSlot} {proc : Process}
      (hc : s.procs.current me = none) (hne : donor ≠ me) (hq : s.coreQueue donor i = some p)
      (hfree : s.coreQueue me j = none) (hproc : (s.procs.table p).process = some proc)
      (hready : s.procs.state p = .ready) (hcur : p ≠ s.procs.currentSlot donor)
      (hnone : ∀ w, s.coreStates me w ≠ .ready) :
      Take s (((s.setQueue donor i none).setQueue me j (some p)).take me p proc)

/-- A step: preparations, and then at most one take. -/
def Lock (s t : Sched) : Prop :=
  ∃ u, Relation.ReflTransGen Prep s u ∧ (t = u ∨ Take u t)

/-- A call that does not fail, and is a step. -/
def Done (s : Sched) (r : Except String Sched) : Prop := ∃ t, r = .ok t ∧ s.Lock t

theorem Done.prep {r : Except String Sched} (hprep : Prep s u) (h : u.Done r) : s.Done r := by
  obtain ⟨t, hr, v, hpath, hend⟩ := h
  exact ⟨t, hr, v, hpath.head hprep, hend⟩

theorem Done.refl (s : Sched) : s.Done (.ok s) :=
  ⟨s, rfl, s, .refl, Or.inl rfl⟩

theorem Done.take (h : Take s t) : s.Done (.ok t) :=
  ⟨t, rfl, s, .refl, Or.inr h⟩

/-! ### The steps keep the invariant -/

theorem wake_eq (r : Result) (h : s.procs.state p = .blocked) :
    s.wake p r = { s with
      procs := s.procs.setSlot p { s.procs.table p with state := .ready, result := r } } := by
  unfold wake Procs.isBlocked
  rw [h, Procs.wakeWith_of_blocked h]
  rfl

theorem Inv.wake (h : s.Inv) (r : Result) (hp : s.procs.state p = .blocked) : (s.wake p r).Inv := by
  rw [wake_eq r hp]
  have hproc := h.held p (Or.inr hp)
  have hstate : ∀ q, (s.procs.setSlot p
      { s.procs.table p with state := .ready, result := r }).state q =
        Function.update s.procs.state p .ready q := fun q =>
    congrFun (Procs.setSlot_state _ _ _) q
  refine ⟨h.placed.setSlot_same rfl (fun hrun => ?_) fun _ => Or.inl rfl, fun q hq => ?_,
    fun q hq => ?_, fun c i q hq => ?_, h.once, fun q hq => ?_, h.user, h.own, h.waits,
    fun c hplace => ?_, h.launcher⟩
  · rw [hp] at hrun
    cases hrun
  · rw [hstate] at hq
    by_cases hqp : q = p
    · subst hqp
      dsimp only
      rw [Procs.setSlot_table_self]
      exact hproc
    · rw [Function.update_of_ne hqp] at hq
      dsimp only
      rw [Procs.setSlot_table_of_ne _ _ hqp]
      exact h.held q hq
  · rw [hstate] at hq
    by_cases hqp : q = p
    · rw [hqp, Function.update_self] at hq
      cases hq
    · rw [Function.update_of_ne hqp] at hq
      exact h.runs q hq
  · rw [hstate]
    by_cases hqp : q = p
    · rw [hqp, Function.update_self]
      decide
    · rw [Function.update_of_ne hqp]
      exact h.live c i q hq
  · rw [hstate] at hq
    by_cases hqp : q = p
    · refine h.homed q ?_
      rw [hqp, hp]
      decide
    · rw [Function.update_of_ne hqp] at hq
      exact h.homed q hq
  · have hempty := (h.boot c hplace).2 p
    rw [hp] at hempty
    cases hempty

theorem Inv.suspend (h : s.Inv) {slot : Slot} (hc : s.procs.current me = some proc)
    (hq : s.coreQueue me i = some (s.procs.currentSlot me)) (hproc : slot.process = some proc)
    (hslot : slot.state = .ready ∨ slot.state = .blocked) :
    ({ s with
      procs := (s.procs.setSlot (s.procs.currentSlot me) slot).setCurrent me none }.setPlace me
        (.switching i .blockedDeadlockIfNoOtherWork)).Inv := by
  have hrun := h.placed.state_of_current hc
  have hstate : ∀ q, ((s.procs.setSlot (s.procs.currentSlot me) slot).setCurrent me none).state q =
      Function.update s.procs.state (s.procs.currentSlot me) slot.state q := fun q =>
    congrFun (Procs.setSlot_state _ _ _) q
  have hne : ∀ q, Function.update s.procs.state (s.procs.currentSlot me) slot.state q = .running →
      q ≠ s.procs.currentSlot me := by
    rintro q hq rfl
    rw [Function.update_self] at hq
    rw [hq] at hslot
    rcases hslot with hslot | hslot <;> cases hslot
  have hlive : ∀ q, Function.update s.procs.state (s.procs.currentSlot me) slot.state q ≠ .empty ↔
      s.procs.state q ≠ .empty := by
    intro q
    by_cases heq : q = s.procs.currentSlot me
    · rw [heq, Function.update_self, hrun]
      refine iff_of_true ?_ (by decide)
      rcases hslot with hslot | hslot <;> rw [hslot] <;> decide
    · rw [Function.update_of_ne heq]
  have hcurrent : ∀ c, c ≠ me →
      ((s.procs.setSlot (s.procs.currentSlot me) slot).setCurrent me none).current c =
        s.procs.current c := fun c hcm => Function.update_of_ne hcm ..
  have hplace : ∀ c, c ≠ me → Function.update s.place me
      (.switching i .blockedDeadlockIfNoOtherWork) c = s.place c :=
    fun c hcm => Function.update_of_ne hcm ..
  unfold setPlace
  refine ⟨(h.placed.park hc hproc hslot).1, fun q hq => ?_, fun q hq => ?_, fun c j q hcq => ?_,
    h.once, fun q hq => ?_, fun c => ?_, fun c hc' => ?_, fun c j hc' => ?_, fun c hc' => ?_,
    h.launcher⟩
  · dsimp only at hq ⊢
    rw [hstate] at hq
    by_cases heq : q = s.procs.currentSlot me
    · rw [heq]
      show ((s.procs.setSlot (s.procs.currentSlot me) slot).table
        (s.procs.currentSlot me)).process ≠ none
      rw [Procs.setSlot_table_self, hproc]
      exact Option.some_ne_none _
    · rw [Function.update_of_ne heq] at hq
      show ((s.procs.setSlot (s.procs.currentSlot me) slot).table q).process ≠ none
      rw [Procs.setSlot_table_of_ne _ _ heq]
      exact h.held q hq
  · dsimp only at hq ⊢
    rw [hstate] at hq
    have hqne := hne q hq
    rw [Function.update_of_ne hqne] at hq
    obtain ⟨c, hcur, rfl⟩ := h.runs q hq
    refine ⟨c, ?_, rfl⟩
    rw [hcurrent c fun heq => hqne (by rw [heq])]
    exact hcur
  · dsimp only
    rw [hstate, hlive]
    exact h.live c j q hcq
  · dsimp only at hq
    rw [hstate, hlive] at hq
    exact h.homed q hq
  · dsimp only
    by_cases heq : c = me
    · subst heq
      rw [Procs.setCurrent_current_self, Function.update_self]
      exact iff_of_false (fun hno => hno rfl) nofun
    · rw [hcurrent c heq, hplace c heq]
      exact h.user c
  · dsimp only at hc'
    by_cases heq : c = me
    · rw [heq, Function.update_self] at hc'
      cases hc'
    · rw [hplace c heq] at hc'
      exact h.own c hc'
  · dsimp only at hc'
    by_cases heq : c = me
    · subst heq
      rw [Function.update_self] at hc'
      rcases hc' with hc' | hc'
      · cases hc'
        exact hq
      · cases hc'
    · rw [hplace c heq] at hc'
      exact h.waits c j hc'
  · dsimp only at hc'
    by_cases heq : c = me
    · rw [heq, Function.update_self] at hc'
      cases hc'
    · rw [hplace c heq] at hc'
      have hempty := (h.boot c hc').2 (s.procs.currentSlot me)
      rw [hrun] at hempty
      cases hempty

theorem Inv.exit (h : s.Inv) (hc : s.procs.current me = some proc)
    (hq : s.coreQueue me i = some (s.procs.currentSlot me)) :
    (({ s with
      procs := (s.procs.setCurrent me none).setSlot (s.procs.currentSlot me)
        Slot.empty }.setQueue me i none).setPlace me (.switching i .exitedReturnIfDone)).Inv := by
  have hrun := h.placed.state_of_current hc
  have hidle : ∀ c, (s.procs.setCurrent me none).current c ≠ none →
      (s.procs.setCurrent me none).currentSlot c ≠ s.procs.currentSlot me := by
    intro c hcur heq
    by_cases hcm : c = me
    · rw [hcm, Procs.setCurrent_current_self] at hcur
      exact hcur rfl
    · rw [Procs.setCurrent_current_of_ne _ _ hcm] at hcur
      exact hcm (h.placed.unique c me hcur (by rw [hc]; exact Option.some_ne_none _) heq)
  have hstate : ∀ q, ((s.procs.setCurrent me none).setSlot (s.procs.currentSlot me)
      Slot.empty).state q = Function.update s.procs.state (s.procs.currentSlot me) .empty q :=
    fun q => congrFun (Procs.setSlot_state _ _ _) q
  have hqueue : ∀ c j q, (({ s with
      procs := (s.procs.setCurrent me none).setSlot (s.procs.currentSlot me)
        Slot.empty }.setQueue me i none).coreQueue c j = some q ↔
      s.coreQueue c j = some q ∧ q ≠ s.procs.currentSlot me) := by
    intro c j q
    rw [setQueue_apply]
    split
    · rename_i heq
      rw [heq.1, heq.2]
      refine iff_of_false nofun fun hno => ?_
      rw [hq, Option.some.injEq] at hno
      exact hno.2 hno.1.symm
    · rename_i hne
      refine ⟨fun hcj => ⟨hcj, ?_⟩, fun hcj => hcj.1⟩
      rintro rfl
      obtain ⟨hcm, hji⟩ := h.once c j me i _ hcj hq
      exact hne ⟨hcm, hji⟩
  have hplace : ∀ c, c ≠ me → Function.update s.place me
      (.switching i .exitedReturnIfDone) c = s.place c := fun c hcm => Function.update_of_ne hcm ..
  have hother : ∀ c, c ≠ me → s.place c = .user →
      s.procs.currentSlot c ≠ s.procs.currentSlot me := by
    intro c hcm hplace' heq
    have hcur : (s.procs.setCurrent me none).current c ≠ none := by
      rw [Procs.setCurrent_current_of_ne _ _ hcm]
      exact (h.user c).mpr hplace'
    exact hidle c hcur heq
  unfold setPlace
  refine ⟨((h.placed.clearCurrent hc).1.setSlot hidle fun hno => absurd rfl hno).1, fun q hq' => ?_,
    fun q hq' => ?_, fun c j q hcj => ?_, fun c j c' j' q hcj hcj' => ?_, fun q hq' => ?_,
    fun c => ?_, fun c hc' => ?_, fun c j hc' => ?_, fun c hc' => ?_, h.launcher⟩
  · replace hq' : Function.update s.procs.state (s.procs.currentSlot me) .empty q = .ready ∨
        Function.update s.procs.state (s.procs.currentSlot me) .empty q = .blocked := by
      rw [← hstate q]
      exact hq'
    by_cases heq : q = s.procs.currentSlot me
    · rw [heq, Function.update_self] at hq'
      rcases hq' with hq' | hq' <;> cases hq'
    · rw [Function.update_of_ne heq] at hq'
      show (((s.procs.setCurrent me none).setSlot (s.procs.currentSlot me) Slot.empty).table
        q).process ≠ none
      rw [Procs.setSlot_table_of_ne _ _ heq]
      exact h.held q hq'
  · have hq'' := (hstate q).symm.trans hq'
    by_cases heq : q = s.procs.currentSlot me
    · rw [heq, Function.update_self] at hq''
      cases hq''
    · rw [Function.update_of_ne heq] at hq''
      obtain ⟨c, hcur, rfl⟩ := h.runs q hq''
      refine ⟨c, ?_, rfl⟩
      show (s.procs.setCurrent me none).current c ≠ none
      rw [Procs.setCurrent_current_of_ne _ _ fun hcm => heq (by rw [hcm])]
      exact hcur
  · obtain ⟨hcj, hne⟩ := (hqueue c j q).mp hcj
    refine fun hempty => h.live c j q hcj ?_
    have hempty' := (hstate q).symm.trans hempty
    rwa [Function.update_of_ne hne] at hempty'
  · exact h.once c j c' j' q ((hqueue c j q).mp hcj).1 ((hqueue c' j' q).mp hcj').1
  · have hne : q ≠ s.procs.currentSlot me := by
      rintro rfl
      exact hq' ((hstate _).trans (Function.update_self ..))
    have hlive : s.procs.state q ≠ .empty := fun hempty =>
      hq' ((hstate q).trans ((Function.update_of_ne hne ..).trans hempty))
    obtain ⟨c, j, hcj⟩ := h.homed q hlive
    exact ⟨c, j, (hqueue c j q).mpr ⟨hcj, hne⟩⟩
  · show (s.procs.setCurrent me none).current c ≠ none ↔ Function.update s.place me _ c = .user
    by_cases heq : c = me
    · subst heq
      rw [Procs.setCurrent_current_self, Function.update_self]
      exact iff_of_false (fun hno => hno rfl) nofun
    · rw [Procs.setCurrent_current_of_ne _ _ heq, hplace c heq]
      exact h.user c
  · replace hc' : Function.update s.place me (.switching i .exitedReturnIfDone) c = .user := hc'
    by_cases heq : c = me
    · rw [heq, Function.update_self] at hc'
      cases hc'
    · rw [hplace c heq] at hc'
      obtain ⟨j, hj⟩ := h.own c hc'
      exact ⟨j, (hqueue c j _).mpr ⟨hj, hother c heq hc'⟩⟩
  · replace hc' : Function.update s.place me (.switching i .exitedReturnIfDone) c =
          .switching j .blockedDeadlockIfNoOtherWork ∨
        Function.update s.place me (.switching i .exitedReturnIfDone) c =
          .waiting j .blockedDeadlockIfNoOtherWork := hc'
    by_cases heq : c = me
    · subst heq
      rw [Function.update_self] at hc'
      rcases hc' with hc' | hc' <;> cases hc'
    · rw [hplace c heq] at hc'
      have hj := h.waits c j hc'
      refine (hqueue c j _).mpr ⟨hj, fun hslot => ?_⟩
      have hsame : s.procs.currentSlot c = s.procs.currentSlot me := hslot
      rw [hsame] at hj
      exact heq (h.once c j me i _ hj hq).1
  · replace hc' : Function.update s.place me (.switching i .exitedReturnIfDone) c = .boot := hc'
    by_cases heq : c = me
    · rw [heq, Function.update_self] at hc'
      cases hc'
    · rw [hplace c heq] at hc'
      have hempty := (h.boot c hc').2 (s.procs.currentSlot me)
      rw [hrun] at hempty
      cases hempty

theorem Inv.settle (h : s.Inv) (hc : s.procs.current me = none) (hsettles : s.Settles me place) :
    (s.setPlace me place).Inv := by
  have hplace : ∀ c, c ≠ me → Function.update s.place me place c = s.place c :=
    fun c hcm => Function.update_of_ne hcm ..
  have huser : place ≠ .user := by
    rcases hsettles with rfl | rfl | ⟨rfl, -⟩ | ⟨i, onIdle, -, rfl | rfl⟩ <;> nofun
  unfold setPlace
  refine ⟨h.placed, h.held, h.runs, h.live, h.once, h.homed, fun c => ?_, fun c hc' => ?_,
    fun c i hc' => ?_, fun c hc' => ?_, h.launcher⟩
  · dsimp only
    by_cases heq : c = me
    · rw [heq, hc, Function.update_self]
      exact iff_of_false (fun hno => hno rfl) huser
    · rw [hplace c heq]
      exact h.user c
  · dsimp only at hc'
    by_cases heq : c = me
    · rw [heq, Function.update_self] at hc'
      exact absurd hc' huser
    · rw [hplace c heq] at hc'
      exact h.own c hc'
  · dsimp only at hc'
    by_cases heq : c = me
    · rw [heq, Function.update_self] at hc'
      rw [heq]
      rcases hsettles with rfl | rfl | ⟨rfl, -⟩ | ⟨j, onIdle, hfrom, hto⟩
      · rcases hc' with hc' | hc' <;> cases hc'
      · rcases hc' with hc' | hc' <;> cases hc'
      · rcases hc' with hc' | hc' <;> cases hc'
      · have hsame : j = i ∧ onIdle = .blockedDeadlockIfNoOtherWork := by
          rcases hto with rfl | rfl <;> rcases hc' with hc' | hc' <;> cases hc' <;> exact ⟨rfl, rfl⟩
        rw [← hsame.1]
        refine h.waits me j ?_
        rw [← hsame.2]
        exact hfrom
    · rw [hplace c heq] at hc'
      exact h.waits c i hc'
  · dsimp only at hc'
    by_cases heq : c = me
    · rw [heq, Function.update_self] at hc'
      rcases hsettles with rfl | rfl | ⟨rfl, hzero, hempty⟩ | ⟨j, onIdle, -, rfl | rfl⟩
      · cases hc'
      · cases hc'
      · exact ⟨heq.trans hzero, hempty⟩
      · cases hc'
      · cases hc'
    · rw [hplace c heq] at hc'
      exact h.boot c hc'

theorem Inv.setup (h : s.Inv) {slot : Slot} (hid : s.procs.state id = .empty)
    (hq : s.coreQueue home i = none) (hboot : ∀ c, s.place c ≠ .boot)
    (hstate : slot.state = .ready) (hproc : slot.process ≠ none) :
    ({ s with procs := s.procs.setSlot id slot }.setQueue home i (some id)).Inv := by
  have hnew : ∀ q, (s.procs.setSlot id slot).state q = Function.update s.procs.state id .ready q :=
    fun q => by rw [← hstate]; exact congrFun (Procs.setSlot_state _ _ _) q
  have habsent : ∀ c j, s.coreQueue c j ≠ some id := fun c j hcj => h.live c j id hcj hid
  have hqueue : ∀ c j q, ({ s with
      procs := s.procs.setSlot id slot }.setQueue home i (some id)).coreQueue c j = some q ↔
      (c = home ∧ j = i ∧ q = id) ∨ s.coreQueue c j = some q := by
    intro c j q
    rw [setQueue_apply]
    split
    · rename_i heq
      rw [heq.1, heq.2, hq, Option.some.injEq]
      exact ⟨fun hid => Or.inl ⟨rfl, rfl, hid.symm⟩, fun hor => by
        rcases hor with ⟨-, -, rfl⟩ | hno
        · rfl
        · cases hno⟩
    · rename_i hne
      exact ⟨Or.inr, fun hor => hor.resolve_left fun hat => hne ⟨hat.1, hat.2.1⟩⟩
  have hidle : s.procs.state id ≠ .running := by
    rw [hid]
    decide
  refine ⟨(h.placed.setSlot (h.placed.idle_of_state hidle) fun _ => Or.inl hstate).1,
    fun q hq' => ?_, fun q hq' => ?_, fun c j q hcj => ?_, fun c j c' j' q hcj hcj' => ?_,
    fun q hq' => ?_, h.user, fun c hc' => ?_, fun c j hc' => ?_, fun c hc' => absurd hc' (hboot c),
    h.launcher⟩
  · by_cases heq : q = id
    · show ((s.procs.setSlot id slot).table q).process ≠ none
      rw [heq, Procs.setSlot_table_self]
      exact hproc
    · show ((s.procs.setSlot id slot).table q).process ≠ none
      rw [Procs.setSlot_table_of_ne _ _ heq]
      have hq'' : Function.update s.procs.state id .ready q = .ready ∨
          Function.update s.procs.state id .ready q = .blocked := by
        rw [← hnew q]
        exact hq'
      rw [Function.update_of_ne heq] at hq''
      exact h.held q hq''
  · have hq'' := (hnew q).symm.trans hq'
    by_cases heq : q = id
    · rw [heq, Function.update_self] at hq''
      cases hq''
    · rw [Function.update_of_ne heq] at hq''
      exact h.runs q hq''
  · intro hempty
    have hempty' := (hnew q).symm.trans hempty
    by_cases heq : q = id
    · rw [heq, Function.update_self] at hempty'
      cases hempty'
    · rw [Function.update_of_ne heq] at hempty'
      rcases (hqueue c j q).mp hcj with ⟨-, -, hqid⟩ | hcj
      · exact heq hqid
      · exact h.live c j q hcj hempty'
  · rcases (hqueue c j q).mp hcj with ⟨rfl, rfl, rfl⟩ | hold
    · rcases (hqueue c' j' q).mp hcj' with ⟨rfl, rfl, -⟩ | hold'
      · exact ⟨rfl, rfl⟩
      · exact absurd hold' (habsent c' j')
    · rcases (hqueue c' j' q).mp hcj' with ⟨-, -, rfl⟩ | hold'
      · exact absurd hold (habsent c j)
      · exact h.once c j c' j' q hold hold'
  · by_cases heq : q = id
    · exact ⟨home, i, (hqueue home i q).mpr (Or.inl ⟨rfl, rfl, heq⟩)⟩
    · have hlive : s.procs.state q ≠ .empty := fun hempty =>
        hq' ((hnew q).trans ((Function.update_of_ne heq ..).trans hempty))
      obtain ⟨c, j, hcj⟩ := h.homed q hlive
      exact ⟨c, j, (hqueue c j q).mpr (Or.inr hcj)⟩
  · obtain ⟨j, hj⟩ := h.own c hc'
    exact ⟨j, (hqueue c j _).mpr (Or.inr hj)⟩
  · exact (hqueue c j _).mpr (Or.inr (h.waits c j hc'))

theorem Inv.aside (h : s.Inv) (hprocs : t.procs = s.procs) (hqueue : t.coreQueue = s.coreQueue)
    (hplace : t.place = s.place) (hlauncher : ∀ c, t.isLauncher c = true → c = 0) : t.Inv := by
  obtain ⟨procs, queue, home, ticks, launcher, online, places, resumed⟩ := t
  dsimp only at hprocs hqueue hplace
  subst hprocs hqueue hplace
  exact ⟨h.placed, h.held, h.runs, h.live, h.once, h.homed, h.user, h.own, h.waits, h.boot,
    hlauncher⟩

theorem Inv.wipe (h : s.Inv) (hempty : ∀ p, s.procs.state p = .empty)
    (htable : ∀ p, t.procs.table p = Slot.empty) (hcurrent : t.procs.current = s.procs.current)
    (hqueue : ∀ c i, t.coreQueue c i = none) (hplace : t.place = s.place)
    (hlauncher : t.isLauncher = s.isLauncher) : t.Inv := by
  have hstate : ∀ p, t.procs.state p = .empty := fun p => by
    unfold Procs.state
    rw [htable]
    rfl
  have hnone : ∀ c, s.procs.current c = none := by
    intro c
    by_contra hc
    have hrun := (h.placed.running c hc).1
    rw [hempty] at hrun
    cases hrun
  have hprocess : ∀ p, (t.procs.table p).process = none := fun p => by
    rw [htable]
    rfl
  have hidle : ∀ c, t.procs.current c = none := fun c => by
    rw [hcurrent]
    exact hnone c
  have hnoqueue : ∀ c i, s.coreQueue c i = none := by
    intro c i
    cases hq : s.coreQueue c i with
    | none => rfl
    | some p => exact absurd (hempty p) (h.live c i p hq)
  refine ⟨⟨fun c hc => absurd (hidle c) hc, fun c _ hc => absurd (hidle c) hc,
    fun p hp => absurd (hprocess p) hp⟩, fun p hp => ?_, fun p hp => ?_, fun c i p hq => ?_,
    fun c i _ _ p hq => ?_, fun p hp => absurd (hstate p) hp, fun c => ?_, fun c hc => ?_,
    fun c i hc => ?_, fun c hc => ?_, fun c hc => ?_⟩
  · rw [hstate] at hp
    rcases hp with hp | hp <;> cases hp
  · rw [hstate] at hp
    cases hp
  · rw [hqueue] at hq
    cases hq
  · rw [hqueue] at hq
    cases hq
  · rw [hcurrent, hplace]
    exact h.user c
  · rw [hplace] at hc
    exact absurd (hnone c) ((h.user c).mpr hc)
  · rw [hplace] at hc
    have hq := h.waits c i hc
    rw [hnoqueue] at hq
    cases hq
  · rw [hplace] at hc
    exact ⟨(h.boot c hc).1, hstate⟩
  · rw [hlauncher] at hc
    exact h.launcher c hc

/-- A Ready process that is not the one of its core goes to another queue. -/
theorem Inv.move (h : s.Inv) (hc : s.procs.current me = none) (hne : donor ≠ me)
    (hq : s.coreQueue donor i = some p) (hfree : s.coreQueue me j = none)
    (hready : s.procs.state p = .ready) (hcur : p ≠ s.procs.currentSlot donor) :
    ((s.setQueue donor i none).setQueue me j (some p)).Inv := by
  have hqueue : ∀ c k q, ((s.setQueue donor i none).setQueue me j (some p)).coreQueue c k = some q ↔
      (c = me ∧ k = j ∧ q = p) ∨ (s.coreQueue c k = some q ∧ q ≠ p) := by
    intro c k q
    rw [setQueue_apply, setQueue_apply]
    split
    · rename_i hat
      rw [hat.1, hat.2, hfree, Option.some.injEq]
      refine ⟨fun hpq => Or.inl ⟨rfl, rfl, hpq.symm⟩, fun hor => ?_⟩
      rcases hor with ⟨-, -, rfl⟩ | ⟨hno, -⟩
      · rfl
      · cases hno
    · rename_i hnot
      split
      · rename_i hat
        rw [hat.1, hat.2, hq, Option.some.injEq]
        refine iff_of_false nofun fun hor => ?_
        rcases hor with ⟨hdm, -, -⟩ | ⟨rfl, hpp⟩
        · exact hne hdm
        · exact hpp rfl
      · rename_i hnot'
        constructor
        · refine fun hck => Or.inr ⟨hck, ?_⟩
          rintro rfl
          obtain ⟨hcd, hki⟩ := h.once c k donor i _ hck hq
          exact hnot' ⟨hcd, hki⟩
        · exact fun hor => (hor.resolve_left fun hat => hnot ⟨hat.1, hat.2.1⟩).1
  refine ⟨h.placed, h.held, h.runs, fun c k q hck => ?_, fun c k c' k' q hck hck' => ?_,
    fun q hq' => ?_, h.user, fun c hplace => ?_, fun c k hplace => ?_, h.boot, h.launcher⟩
  · rcases (hqueue c k q).mp hck with ⟨-, -, rfl⟩ | ⟨hck, -⟩
    · exact h.live donor i q hq
    · exact h.live c k q hck
  · rcases (hqueue c k q).mp hck with ⟨rfl, rfl, rfl⟩ | ⟨hold, hnew⟩
    · rcases (hqueue c' k' q).mp hck' with ⟨rfl, rfl, -⟩ | ⟨-, hno⟩
      · exact ⟨rfl, rfl⟩
      · exact absurd rfl hno
    · rcases (hqueue c' k' q).mp hck' with ⟨-, -, hno⟩ | ⟨hold', -⟩
      · exact absurd hno hnew
      · exact h.once c k c' k' q hold hold'
  · by_cases heq : q = p
    · exact ⟨me, j, (hqueue me j q).mpr (Or.inl ⟨rfl, rfl, heq⟩)⟩
    · obtain ⟨c, k, hck⟩ := h.homed q hq'
      exact ⟨c, k, (hqueue c k q).mpr (Or.inr ⟨hck, heq⟩)⟩
  · obtain ⟨k, hk⟩ := h.own c hplace
    have hnot : s.procs.state p ≠ .running := by
      rw [hready]
      decide
    exact ⟨k, (hqueue c k _).mpr (Or.inr ⟨hk, h.not_current hnot hplace⟩)⟩
  · have hk := h.waits c k hplace
    refine (hqueue c k _).mpr (Or.inr ⟨hk, fun hslot => ?_⟩)
    -- The process that a core waits for is not the one that is stolen.
    have hsame : s.procs.currentSlot c = p := hslot
    rw [hsame] at hk
    have hcd := (h.once c k donor i p hk hq).1
    exact hcur (by rw [← hsame, hcd])

theorem take_resume (hc : s.procs.current me = none)
    (hproc : (s.procs.table p).process = some proc) (hready : s.procs.state p = .ready) :
    s.procs.resume me p = some (s.take me p proc).procs := by
  unfold Procs.resume
  rw [if_pos ⟨hready, hc⟩, hproc]
  rfl

/-- A core takes a Ready process of its own queue. -/
theorem Inv.take (h : s.Inv) (hc : s.procs.current me = none) (hq : s.coreQueue me i = some p)
    (hproc : (s.procs.table p).process = some proc) (hready : s.procs.state p = .ready) :
    (s.take me p proc).Inv := by
  obtain ⟨-, -, -, hplaced, -, hstate, -⟩ := h.placed.resume (take_resume hc hproc hready)
  have hstate : ∀ q, (s.take me p proc).procs.state q =
      Function.update s.procs.state p .running q := fun q => congrFun hstate q
  have hcurrent : ∀ c, c ≠ me → (s.take me p proc).procs.current c = s.procs.current c :=
    fun c hcm => Function.update_of_ne hcm ..
  have hslot : ∀ c, c ≠ me → (s.take me p proc).procs.currentSlot c = s.procs.currentSlot c :=
    fun c hcm => Function.update_of_ne hcm ..
  have hslotme : (s.take me p proc).procs.currentSlot me = p := Function.update_self ..
  have hplace : ∀ c, c ≠ me → (s.take me p proc).place c = s.place c :=
    fun c hcm => Function.update_of_ne hcm ..
  have hplaceme : (s.take me p proc).place me = .user := Function.update_self ..
  have hlive : ∀ q, (s.take me p proc).procs.state q ≠ .empty ↔ s.procs.state q ≠ .empty := by
    intro q
    rw [hstate]
    by_cases heq : q = p
    · rw [heq, Function.update_self, hready]
      exact iff_of_true (by decide) (by decide)
    · rw [Function.update_of_ne heq]
  refine ⟨hplaced, fun q hq' => ?_, fun q hq' => ?_, fun c k q hck => ?_, h.once, fun q hq' => ?_,
    fun c => ?_, fun c hc' => ?_, fun c k hc' => ?_, fun c hc' => ?_, h.launcher⟩
  · rw [hstate] at hq'
    by_cases heq : q = p
    · rw [heq, Function.update_self] at hq'
      rcases hq' with hq' | hq' <;> cases hq'
    · rw [Function.update_of_ne heq] at hq'
      show ((s.procs.setSlot p _).table q).process ≠ none
      rw [Procs.setSlot_table_of_ne _ _ heq]
      exact h.held q hq'
  · rw [hstate] at hq'
    by_cases heq : q = p
    · refine ⟨me, ?_, by rw [heq, hslotme]⟩
      show Function.update s.procs.current me (some proc) me ≠ none
      rw [Function.update_self]
      exact Option.some_ne_none _
    · rw [Function.update_of_ne heq] at hq'
      obtain ⟨c, hcur, hcq⟩ := h.runs q hq'
      have hcm : c ≠ me := by
        rintro rfl
        exact hcur hc
      refine ⟨c, ?_, ?_⟩
      · rw [hcurrent c hcm]
        exact hcur
      · rw [hslot c hcm]
        exact hcq
  · rw [hlive]
    exact h.live c k q hck
  · exact h.homed q ((hlive q).mp hq')
  · by_cases heq : c = me
    · rw [heq, hplaceme]
      refine iff_of_true ?_ rfl
      show Function.update s.procs.current me (some proc) me ≠ none
      rw [Function.update_self]
      exact Option.some_ne_none _
    · rw [hcurrent c heq, hplace c heq]
      exact h.user c
  · by_cases heq : c = me
    · rw [heq, hslotme]
      exact ⟨i, hq⟩
    · rw [hplace c heq] at hc'
      rw [hslot c heq]
      exact h.own c hc'
  · by_cases heq : c = me
    · rw [heq, hplaceme] at hc'
      rcases hc' with hc' | hc' <;> cases hc'
    · rw [hplace c heq] at hc'
      rw [hslot c heq]
      exact h.waits c k hc'
  · by_cases heq : c = me
    · rw [heq, hplaceme] at hc'
      cases hc'
    · rw [hplace c heq] at hc'
      have hempty := (h.boot c hc').2 p
      rw [hready] at hempty
      cases hempty

theorem Inv.ofPrep (h : s.Inv) (hprep : Prep s t) : t.Inv := by
  cases hprep with
  | wake r hblocked => exact h.wake r hblocked
  | suspend hc hq hproc hstate => exact h.suspend hc hq hproc hstate
  | exit hc hq => exact h.exit hc hq
  | settle hc hnone hsettles => exact h.settle hc hsettles
  | setup hid hq hboot hstate hproc => exact h.setup hid hq hboot hstate hproc
  | aside hprocs hqueue hplace _ hlauncher => exact h.aside hprocs hqueue hplace hlauncher
  | wipe hempty htable hcurrent hqueue hplace _ hlauncher =>
    exact h.wipe hempty htable hcurrent hqueue hplace hlauncher

theorem Inv.ofTake (h : s.Inv) (htake : Take s t) : t.Inv := by
  cases htake with
  | own hc hq hproc hready => exact h.take hc hq hproc hready
  | @steal me donor i j p proc hc hne hq hfree hproc hready hcur =>
    have hnew : ((s.setQueue donor i none).setQueue me j (some p)).coreQueue me j = some p := by
      rw [setQueue_apply, if_pos ⟨rfl, rfl⟩]
    exact (h.move hc hne hq hfree hready hcur).take hc hnew hproc hready

theorem Inv.ofPreps (h : s.Inv) (hpath : Relation.ReflTransGen Prep s u) : u.Inv := by
  induction hpath with
  | refl => exact h
  | tail _ hprep ih => exact ih.ofPrep hprep

theorem Inv.ofLock (h : s.Inv) (hlock : s.Lock t) : t.Inv := by
  obtain ⟨u, hpath, rfl | htake⟩ := hlock
  · exact h.ofPreps hpath
  · exact (h.ofPreps hpath).ofTake htake

/-! ### What the functions do -/

/-- The position that `first_claimable_slot` finds is the first Ready one. -/
theorem firstClaimable_some (h : s.firstClaimable me = some i) :
    s.coreStates me i = .ready ∧ ∀ w, s.coreStates me w = .ready → i ≤ w := by
  obtain ⟨hready, k, hk, hget, hbefore⟩ := List.find?_eq_some_iff_getElem.mp h
  rw [decide_eq_true_eq] at hready
  rw [List.getElem_finRange] at hget
  have hval : i.val = k := by
    rw [← hget]
    rfl
  refine ⟨hready, fun w hw => ?_⟩
  by_contra hlt
  have hwk : w.val < k := by
    rw [← hval]
    exact Nat.lt_of_not_le hlt
  have hno := hbefore w.val hwk
  rw [List.getElem_finRange] at hno
  have hat : s.coreStates me (Fin.cast (List.length_finRange ..) ⟨w.val, by omega⟩) = .ready := hw
  rw [hat] at hno
  exact absurd hno (by decide)

theorem firstClaimable_none (h : s.firstClaimable me = none) (w : QueuePos) :
    s.coreStates me w ≠ .ready := by
  have hno := List.find?_eq_none.mp h w (List.mem_finRange w)
  rwa [decide_eq_true_eq] at hno

theorem resumeAt_done (h : s.Inv) (hc : s.procs.current me = none)
    (hi : s.coreStates me i = .ready)
    (hfair : ∀ w, s.coreStates me w = .ready → w ≠ i → gap i w < s.rank me w) :
    s.Done (s.resumeAt me i) := by
  obtain ⟨p, hq, hready⟩ := coreStates_ready hi
  obtain ⟨proc, hproc⟩ := Option.ne_none_iff_exists'.mp (h.held p (Or.inl hready))
  unfold resumeAt resumeProcess
  rw [hq]
  dsimp only
  rw [hproc]
  exact .take (.own hc hq hproc hready hfair)

/-- A queue that does not have a process has a free position for it. -/
theorem pushToCoreQueue_ok {c : Core}
    (honce : ∀ i i' q, s.coreQueue c i = some q → s.coreQueue c i' = some q → i = i')
    (habsent : ∀ i, s.coreQueue c i ≠ some p) :
    ∃ i, s.coreQueue c i = none ∧
      s.pushToCoreQueue c p = .ok (s.setQueue c i (some p)) := by
  unfold pushToCoreQueue
  cases hfind : (List.finRange maxProcesses).find? fun pos => (s.coreQueue c pos).isNone with
  | some i =>
    have hi := List.find?_some hfind
    exact ⟨i, Option.isNone_iff_eq_none.mp hi, rfl⟩
  | none =>
    -- Otherwise its positions have all processes.
    have hall : ∀ i, ∃ q, s.coreQueue c i = some q := fun i => by
      have hno := List.find?_eq_none.mp hfind i (List.mem_finRange i)
      rw [Option.isNone_iff_eq_none] at hno
      exact Option.ne_none_iff_exists'.mp hno
    choose f hf using hall
    have hinj : Function.Injective f := fun i i' heq =>
      honce i i' (f i) (hf i) (by rw [heq]; exact hf i')
    obtain ⟨i, hi⟩ := Finite.injective_iff_surjective.mp hinj p
    exact absurd (by rw [hf i, hi]) (habsent i)

theorem stealable_some (h : s.stealable donor = some p) :
    ∃ i, s.coreQueue donor i = some p ∧ p ≠ s.procs.currentSlot donor ∧
      s.procs.state p = .ready := by
  obtain ⟨i, -, hi⟩ := List.exists_of_findSome?_eq_some h
  obtain ⟨hq, hcond⟩ := Option.filter_eq_some_iff.mp hi
  rw [decide_eq_true_eq] at hcond
  exact ⟨i, hq, hcond⟩

/-- `try_steal` finds nothing, or it moves a Ready process to the queue of the core. -/
theorem trySteal_cases (h : s.Inv) (me : Core) :
    s.trySteal me = .ok (none, s) ∨ ∃ donor i j p, donor ≠ me ∧ s.coreQueue donor i = some p ∧
      s.coreQueue me j = none ∧ s.procs.state p = .ready ∧ p ≠ s.procs.currentSlot donor ∧
      s.trySteal me = .ok (some p, (s.setQueue donor i none).setQueue me j (some p)) := by
  unfold trySteal
  cases hfind : ((List.range' 1 (maxCores - 1)).map fun offset =>
    Fin.ofNat maxCores (me + offset)).findSome? fun donor =>
      (s.stealable donor).map fun t => (donor, t) with
  | none => exact Or.inl rfl
  | some found =>
    obtain ⟨donor, p⟩ := found
    obtain ⟨donor', hmem, hsteal⟩ := List.exists_of_findSome?_eq_some hfind
    obtain ⟨p', hsome, hpair⟩ := Option.map_eq_some_iff.mp hsteal
    cases hpair
    obtain ⟨offset, hoffset, rfl⟩ := List.mem_map.mp hmem
    rw [List.mem_range'_1] at hoffset
    obtain ⟨i, hq, hcur, hready⟩ := stealable_some hsome
    have hne : Fin.ofNat maxCores (me + offset) ≠ me := by
      intro heq
      have hval : (me.val + offset) % maxCores = me.val := congrArg Fin.val heq
      have hme := me.isLt
      unfold maxCores at hval hme hoffset
      omega
    generalize hdonor : Fin.ofNat maxCores (me + offset) = donor at hq hcur hne ⊢
    have hqueue : ∀ k, (s.setQueue donor i none).coreQueue me k = s.coreQueue me k := fun k => by
      rw [setQueue_apply, if_neg fun hat => hne hat.1.symm]
    obtain ⟨j, hfree, hpush⟩ := pushToCoreQueue_ok (s := s.setQueue donor i none) (c := me)
      (p := p) (fun k k' q hk hk' => by
        rw [hqueue] at hk hk'
        exact (h.once me k me k' q hk hk').2) fun k hk => by
        rw [hqueue] at hk
        exact hne (h.once donor i me k p hq hk).1
    rw [hqueue] at hfree
    refine Or.inr ⟨donor, i, j, p, hne, hq, hfree, hready, hcur, ?_⟩
    dsimp only
    unfold removeFromCoreQueue
    rw [h.position hq]
    dsimp only
    rw [hpush]

theorem stealOr_done (h : s.Inv) (hc : s.procs.current me = none)
    (hnone : ∀ w, s.coreStates me w ≠ .ready) {rest : Sched → Except String Sched}
    (hrest : s.Done (rest s)) : s.Done (s.stealOr me rest) := by
  unfold stealOr
  rcases trySteal_cases h me with hno | ⟨donor, i, j, p, hne, hq, hfree, hready, hcur, hsteal⟩
  · rw [hno]
    exact hrest
  · obtain ⟨proc, hproc⟩ := Option.ne_none_iff_exists'.mp (h.held p (Or.inl hready))
    rw [hsteal]
    dsimp only
    have hres : ((s.setQueue donor i none).setQueue me j (some p)).resumeProcess me p =
        .ok (((s.setQueue donor i none).setQueue me j (some p)).take me p proc) := by
      unfold resumeProcess
      rw [show (((s.setQueue donor i none).setQueue me j (some p)).procs.table p).process =
        some proc from hproc]
    rw [hres]
    exact .take (.steal hc hne hq hfree hproc hready hcur hnone)

theorem rank_switching {onIdle : NoWorkAction} (h : s.place me = .switching i onIdle) :
    s.rank me w = gap i w := by
  unfold rank
  rw [h]

theorem rank_waiting {onIdle : NoWorkAction} (h : s.place me = .waiting i onIdle) :
    s.rank me w = w.val := by
  unfold rank
  rw [h]

theorem rank_idle (h : s.place me = .idle) : s.rank me w = w.val := by
  unfold rank
  rw [h]

theorem switchTop_done (h : s.Inv) (hc : s.procs.current me = none) {onIdle : NoWorkAction}
    (hplace : s.place me = .switching i onIdle) {rest : Sched → Except String Sched}
    (hrest : (∀ w, s.coreStates me w ≠ .ready) → s.Done (rest s)) :
    s.Done (s.switchTop me i onIdle rest) := by
  unfold switchTop
  cases hpick : pickNext (s.coreStates me) i with
  | some j =>
    obtain ⟨hready, -, hfair⟩ := pickNext_some hpick
    refine resumeAt_done h hc hready fun w hw hne => ?_
    rw [rank_switching hplace]
    exact hfair w hw hne
  | none =>
    dsimp only
    split
    · rename_i hready
      exact resumeAt_done h hc hready fun w hw hne => absurd (pickNext_none hpick hw) hne
    · rename_i hcur
      have hnone : ∀ w, s.coreStates me w ≠ .ready := fun w hw => by
        rw [pickNext_none hpick hw] at hw
        exact hcur hw
      cases onIdle with
      | exitedReturnIfDone =>
        dsimp only
        split
        · exact stealOr_done h hc hnone (hrest hnone)
        · exact (Done.refl _).prep (.settle hc hnone (Or.inl rfl))
      | blockedDeadlockIfNoOtherWork => exact hrest hnone

theorem switchEnd_done (h : s.Inv) (hc : s.procs.current me = none)
    (hnone : ∀ w, s.coreStates me w ≠ .ready) : s.Done (.ok (s.switchEnd me)) := by
  unfold switchEnd
  split
  · rename_i hempty
    have hall : ∀ p, s.procs.state p = .empty := fun p =>
      eq_of_beq (List.all_eq_true.mp hempty p (List.mem_finRange p))
    split
    · rename_i hlauncher
      exact (Done.refl _).prep (.settle hc hnone
        (Or.inr (Or.inr (Or.inl ⟨rfl, h.launcher me hlauncher, hall⟩))))
    · exact (Done.refl _).prep (.settle hc hnone (Or.inl rfl))
  · exact Done.refl s

theorem setPlace_place (s : Sched) (me : Core) (place : Place) :
    (s.setPlace me place).place me = place := Function.update_self ..

theorem idleUntilRunnable_done (h : s.Inv) (hc : s.procs.current me = none)
    {onIdle : NoWorkAction} (hplace : s.place me = .waiting i onIdle) (stillWaiting : Bool) :
    s.Done (s.idleUntilRunnable me i onIdle stillWaiting) := by
  unfold idleUntilRunnable
  cases hfirst : s.firstClaimable me with
  | some j =>
    obtain ⟨hready, hle⟩ := firstClaimable_some hfirst
    refine resumeAt_done h hc hready fun w hw hne => ?_
    rw [rank_waiting hplace]
    exact gap_of_lt (lt_of_le_of_ne (hle w hw) fun heq => hne heq.symm)
  | none =>
    have hnone := firstClaimable_none hfirst
    refine stealOr_done h hc hnone ?_
    split
    · exact Done.refl s
    · have hprep : Prep s (s.setPlace me (.switching i onIdle)) :=
        .settle hc hnone (Or.inr (Or.inr (Or.inr ⟨i, onIdle, Or.inr hplace, Or.inl rfl⟩)))
      refine Done.prep hprep (switchTop_done (h.ofPrep hprep) hc (setPlace_place ..) ?_)
      exact fun hnone' => switchEnd_done (h.ofPrep hprep) hc hnone'

theorem deliver_done {delivered : List (ProcSlot × Result)} {f : Sched → Except String Sched}
    (h : s.Inv) (hc : s.procs.current me = none) (hplace : s.place me = place)
    (hrest : ∀ u : Sched, u.Inv → u.procs.current me = none → u.place me = place → u.Done (f u)) :
    s.Done (f (s.deliver delivered)) := by
  unfold deliver
  induction delivered generalizing s with
  | nil => exact hrest s h hc hplace
  | cons d delivered ih =>
    rw [List.foldl_cons]
    by_cases hblocked : s.procs.state d.1 = .blocked
    · refine (ih (h.wake d.2 hblocked) ?_ ?_).prep (.wake d.2 hblocked)
      · rw [wake_eq _ hblocked]
        exact hc
      · rw [wake_eq _ hblocked]
        exact hplace
    · have hsame : s.wake d.1 d.2 = s := by
        unfold wake Procs.isBlocked
        rw [if_neg]
        rwa [beq_iff_eq]
      rw [hsame]
      exact ih h hc hplace

theorem switchToNext_done (h : s.Inv) (hc : s.procs.current me = none) {onIdle : NoWorkAction}
    (hplace : s.place me = .switching i onIdle) (env : Env) :
    s.Done (s.switchToNext me i onIdle env) := by
  unfold switchToNext
  refine switchTop_done h hc hplace fun hnone => ?_
  split
  · have hprep : Prep s (s.setPlace me (.waiting i onIdle)) :=
      .settle hc hnone (Or.inr (Or.inr (Or.inr ⟨i, onIdle, Or.inl hplace, Or.inr rfl⟩)))
    refine Done.prep hprep (deliver_done (f := fun u =>
      u.idleUntilRunnable me i onIdle env.stillWaiting) (h.ofPrep hprep) hc (setPlace_place ..) ?_)
    exact fun u hu hcu hplaceu => idleUntilRunnable_done hu hcu hplaceu env.stillWaiting
  · exact switchEnd_done h hc hnone

theorem apIdleLoop_done (h : s.Inv) (hc : s.procs.current me = none) (hplace : s.place me = .idle) :
    s.Done (s.apIdleLoop me) := by
  unfold apIdleLoop
  cases hfirst : s.firstClaimable me with
  | some j =>
    obtain ⟨hready, hle⟩ := firstClaimable_some hfirst
    refine resumeAt_done h hc hready fun w hw hne => ?_
    rw [rank_idle hplace]
    exact gap_of_lt (lt_of_le_of_ne (hle w hw) fun heq => hne heq.symm)
  | none => exact stealOr_done h hc (firstClaimable_none hfirst) (Done.refl s)

/-! ### Kernel entries -/

/-- Taking a process sets the place of the core. -/
theorem take_setPlace (s : Sched) (me : Core) (place : Place) (p : ProcSlot) (proc : Process) :
    (s.setPlace me place).take me p proc = s.take me p proc := by
  unfold setPlace take
  dsimp only
  rw [Function.update_idem]

theorem timerSwitch_done (h : s.Inv) (hplace : s.place me = .user) :
    s.Done (s.timerSwitch me) := by
  obtain ⟨i, hq⟩ := h.own me hplace
  obtain ⟨proc, hproc, hrun⟩ := h.running hplace
  unfold timerSwitch
  rw [h.position hq]
  dsimp only
  cases hpick : pickNext (s.coreStates me) i with
  | none => exact Done.refl s
  | some j =>
    obtain ⟨hready, -, hfair⟩ := pickNext_some hpick
    obtain ⟨p, hqp, hpready⟩ := coreStates_ready hready
    obtain ⟨proc', hproc'⟩ := Option.ne_none_iff_exists'.mp (h.held p (Or.inl hpready))
    have hne : p ≠ s.procs.currentSlot me := by
      rintro rfl
      rw [hrun] at hpready
      cases hpready
    generalize hslot : ({ s.procs.table (s.procs.currentSlot me) with
      state := .ready, process := some proc } : Slot) = slot
    have hslotproc : slot.process = some proc := by rw [← hslot]
    have hslotstate : slot.state = .ready := by rw [← hslot]
    have hpre : s.procs.preempt me =
        some ((s.procs.setSlot (s.procs.currentSlot me) slot).setCurrent me none) := by
      unfold Procs.preempt
      rw [hproc, ← hslot]
    dsimp only
    rw [hqp, hpre]
    dsimp only
    have hprep := Prep.suspend hproc hq hslotproc (Or.inl hslotstate)
    have htable : ((s.procs.setSlot (s.procs.currentSlot me) slot).table p).process =
        some proc' := by
      rw [Procs.setSlot_table_of_ne _ _ hne]
      exact hproc'
    have hstate : ∀ q, ((s.procs.setSlot (s.procs.currentSlot me) slot).setCurrent me
        none).state q = Function.update s.procs.state (s.procs.currentSlot me) .ready q :=
      fun q => by
        rw [← hslotstate]
        exact congrFun (Procs.setSlot_state _ _ _) q
    have hres : ({ s with
        procs := (s.procs.setSlot (s.procs.currentSlot me) slot).setCurrent me none } :
          Sched).resumeProcess me p =
        .ok (({ s with
          procs := (s.procs.setSlot (s.procs.currentSlot me) slot).setCurrent me
            none }.setPlace me (.switching i .blockedDeadlockIfNoOtherWork)).take me p proc') := by
      rw [take_setPlace]
      unfold resumeProcess
      rw [show (((s.procs.setSlot (s.procs.currentSlot me) slot).setCurrent me none).table
        p).process = some proc' from htable]
    rw [hres]
    refine Done.prep hprep (.take (.own ?_ hqp htable ?_ fun w hw hwj => ?_))
    · exact Procs.setCurrent_current_self ..
    · exact (hstate p).trans ((Function.update_of_ne hne ..).trans hpready)
    · rw [rank_switching (setPlace_place ..)]
      by_cases hwi : w = i
      · -- The process that was preempted is Ready now, a whole round away.
        rw [hwi] at hwj ⊢
        rw [gap_self]
        exact gap_of_ne fun heq => hwj heq.symm
      · refine hfair w ?_ hwj
        obtain ⟨q, hqw, hqready⟩ := coreStates_ready hw
        have hqw' : s.coreQueue me w = some q := hqw
        have hqne : q ≠ s.procs.currentSlot me := by
          rintro rfl
          exact hwi (h.once me w me i _ hqw' hq).2
        rw [coreStates_of_queue hqw']
        have hqready' := (hstate q).symm.trans hqready
        rwa [Function.update_of_ne hqne] at hqready'

theorem timerTick_done (h : s.Inv) (hplace : s.place me = .user) : s.Done (s.timerTick me) := by
  unfold timerTick
  dsimp only
  split
  · have haside : Prep s { s with
        ticksInQuantum := Function.update s.ticksInQuantum me (s.ticksInQuantum me + 1) } :=
      .aside rfl rfl rfl rfl h.launcher
    exact Done.prep haside (Done.refl _)
  · have haside : Prep s { s with ticksInQuantum := Function.update s.ticksInQuantum me 0 } :=
      .aside rfl rfl rfl rfl h.launcher
    exact Done.prep haside (timerSwitch_done (h.ofPrep haside) hplace)

theorem blockCurrent_done (h : s.Inv) (hplace : s.place me = .user) (env : Env) :
    s.Done (s.blockCurrent me env) := by
  obtain ⟨i, hq⟩ := h.own me hplace
  obtain ⟨proc, hproc, -⟩ := h.running hplace
  unfold blockCurrent
  rw [h.position hq, hproc]
  dsimp only
  have hblock : s.procs.blockCurrent me = (s.procs.setSlot (s.procs.currentSlot me)
      { s.procs.table (s.procs.currentSlot me) with
        state := .blocked, process := some proc }).setCurrent me none := by
    unfold Procs.blockCurrent
    rw [hproc]
  rw [hblock]
  generalize hslot : ({ s.procs.table (s.procs.currentSlot me) with
    state := .blocked, process := some proc } : Slot) = slot
  have hprep := Prep.suspend hproc hq (by rw [← hslot] : slot.process = some proc)
    (Or.inr (by rw [← hslot]))
  exact Done.prep hprep (switchToNext_done (h.ofPrep hprep) (Procs.setCurrent_current_self ..)
    (setPlace_place ..) env)

theorem onExit_done (h : s.Inv) (hplace : s.place me = .user) (env : Env) :
    s.Done (s.onExit me env) := by
  obtain ⟨i, hq⟩ := h.own me hplace
  obtain ⟨proc, hproc, -⟩ := h.running hplace
  have hpos := h.position hq
  unfold onExit
  dsimp only
  rw [hpos, hproc]
  dsimp only
  unfold removeFromCoreQueue
  rw [show ({ s with
      procs := (s.procs.setCurrent me none).setSlot (s.procs.currentSlot me) Slot.empty } :
        Sched).corePosition me (s.procs.currentSlot me) = some i from hpos]
  dsimp only
  have hprep := Prep.exit hproc hq
  exact Done.prep hprep (switchToNext_done (h.ofPrep hprep) (Procs.setCurrent_current_self ..)
    (setPlace_place ..) env)

/-- A process is set up in a free slot. -/
theorem setupProcess_ok (h : s.Inv) (hid : s.procs.state id = .empty)
    (hboot : ∀ c, s.place c ≠ .boot) (home : Core) (proc : Process)
    (bootFrames : List (Nat × Nat)) :
    ∃ i, s.coreQueue home i = none ∧ s.setupProcess id proc bootFrames home =
      .ok ({ s with
        procs := s.procs.setSlot id (s.newSlot id proc bootFrames) }.setQueue home i (some id)) ∧
      Prep s ({ s with
        procs := s.procs.setSlot id (s.newSlot id proc bootFrames) }.setQueue home i
          (some id)) := by
  obtain ⟨i, hfree, hpush⟩ := pushToCoreQueue_ok (s := { s with
      procs := s.procs.setSlot id (s.newSlot id proc bootFrames) }) (c := home) (p := id)
    (fun k k' q hk hk' => (h.once home k home k' q hk hk').2)
    fun k hk => h.live home k id hk hid
  exact ⟨i, hfree, hpush, .setup hid hfree hboot rfl (Option.some_ne_none proc)⟩

theorem spawn_done (h : s.Inv) (hplace : s.place me = .user) (proc : Process)
    (bootFrames : List (Nat × Nat)) : s.Done (s.spawn me proc bootFrames) := by
  obtain ⟨-, -, hrun⟩ := h.running hplace
  unfold spawn
  cases hfind : s.procs.findFreeSlot with
  | none => exact Done.refl s
  | some id =>
    have hfree := List.find?_some hfind
    have hid : s.procs.state id = .empty := eq_of_beq hfree
    have hboot : ∀ c, s.place c ≠ .boot := fun c hc => by
      rw [(h.boot c hc).2] at hrun
      cases hrun
    obtain ⟨i, -, hok, hprep⟩ := setupProcess_ok h hid hboot me proc bootFrames
    dsimp only
    rw [hok]
    exact (Done.refl _).prep hprep

/-! ### Launches -/

/-- A preparation leaves a Ready process Ready, and in its position. -/
theorem Prep.ready (h : s.Inv) (hprep : Prep s t) (hp : s.procs.state p = .ready) :
    t.procs.state p = .ready ∧ ∀ c i, s.coreQueue c i = some p → t.coreQueue c i = some p := by
  cases hprep with
  | @wake q r hblocked =>
    have hne : p ≠ q := by
      rintro rfl
      rw [hp] at hblocked
      cases hblocked
    rw [wake_eq r hblocked]
    refine ⟨?_, fun _ _ hq => hq⟩
    exact (congrFun (Procs.setSlot_state ..) p).trans ((Function.update_of_ne hne ..).trans hp)
  | @suspend me i proc slot hc hq hproc hstate =>
    have hne : p ≠ s.procs.currentSlot me := by
      rintro rfl
      rw [h.placed.state_of_current hc] at hp
      cases hp
    refine ⟨?_, fun _ _ hq => hq⟩
    exact (congrFun (Procs.setSlot_state ..) p).trans ((Function.update_of_ne hne ..).trans hp)
  | @exit me i proc hc hq =>
    have hne : p ≠ s.procs.currentSlot me := by
      rintro rfl
      rw [h.placed.state_of_current hc] at hp
      cases hp
    refine ⟨?_, fun c k hck => ?_⟩
    · exact (congrFun (Procs.setSlot_state ..) p).trans ((Function.update_of_ne hne ..).trans hp)
    · refine (setQueue_apply ..).trans ?_
      rw [if_neg]
      · exact hck
      · rintro ⟨rfl, rfl⟩
        rw [hq, Option.some.injEq] at hck
        exact hne hck.symm
  | settle => exact ⟨hp, fun _ _ hq => hq⟩
  | @setup id home i slot hid hq hboot hstate hproc =>
    have hne : p ≠ id := by
      rintro rfl
      rw [hp] at hid
      cases hid
    refine ⟨?_, fun c k hck => ?_⟩
    · exact (congrFun (Procs.setSlot_state ..) p).trans ((Function.update_of_ne hne ..).trans hp)
    · refine (setQueue_apply ..).trans ?_
      rw [if_neg]
      · exact hck
      · rintro ⟨rfl, rfl⟩
        rw [hq] at hck
        cases hck
  | aside hprocs hqueue =>
    rw [hprocs, hqueue]
    exact ⟨hp, fun _ _ hq => hq⟩
  | wipe hempty =>
    rw [hempty p] at hp
    cases hp

theorem Inv.preps_ready (h : s.Inv) (hpath : Relation.ReflTransGen Prep s u)
    (hp : s.procs.state p = .ready) :
    u.procs.state p = .ready ∧ ∀ c i, s.coreQueue c i = some p → u.coreQueue c i = some p := by
  induction hpath with
  | refl => exact ⟨hp, fun _ _ hq => hq⟩
  | tail hpath hprep ih =>
    obtain ⟨hready, hqueue⟩ := hprep.ready (h.ofPreps hpath) ih.1
    exact ⟨hready, fun c i hq => hqueue c i (ih.2 c i hq)⟩

theorem setupAll_cons {proc : Process} {bootFrames : List (Nat × Nat)} {home : Core × Nat}
    (hhome : (if id = 0 then (me, s.nextHomeCore) else s.nextHome) = home)
    (hok : { s with nextHomeCore := home.2 }.setupProcess id proc bootFrames home.1 = .ok t)
    (rest : List (ProcSlot × Process × List (Nat × Nat))) :
    s.setupAll me ((id, proc, bootFrames) :: rest) = t.setupAll me rest := by
  conv_lhs => unfold setupAll
  dsimp only
  rw [hhome, hok]

/-- The set-up loop of a launch does not fail. -/
theorem setupAll_ok (h : s.Inv) (hboot : ∀ c, s.place c ≠ .boot) (me : Core)
    {setups : List (ProcSlot × Process × List (Nat × Nat))}
    (hempty : ∀ e ∈ setups, s.procs.state e.1 = .empty) (hnodup : (setups.map Prod.fst).Nodup) :
    ∃ u, s.setupAll me setups = .ok u ∧ Relation.ReflTransGen Prep s u ∧ u.place = s.place ∧
      u.procs.current = s.procs.current ∧ u.procs.currentSlot = s.procs.currentSlot ∧
      u.resumed = s.resumed ∧ u.isLauncher = s.isLauncher := by
  induction setups generalizing s with
  | nil => exact ⟨s, rfl, .refl, rfl, rfl, rfl, rfl, rfl⟩
  | cons e rest ih =>
    obtain ⟨id, proc, bootFrames⟩ := e
    rw [List.map_cons, List.nodup_cons] at hnodup
    generalize hhome : (if id = 0 then (me, s.nextHomeCore) else s.nextHome) = home
    have haside : Prep s { s with nextHomeCore := home.2 } := .aside rfl rfl rfl rfl h.launcher
    obtain ⟨i, -, hok, hprep⟩ := setupProcess_ok (h.ofPrep haside)
      (hempty _ List.mem_cons_self) hboot home.1 proc bootFrames
    have hrest : ∀ e ∈ rest, (s.procs.setSlot id (s.newSlot id proc bootFrames)).state e.1 =
        .empty := fun e he => by
      have hne : e.1 ≠ id := by
        intro heq
        exact hnodup.1 (List.mem_map.mpr ⟨e, he, heq⟩)
      exact (congrFun (Procs.setSlot_state ..) e.1).trans
        ((Function.update_of_ne hne ..).trans (hempty e (List.mem_cons_of_mem _ he)))
    obtain ⟨u, hu, hpath, hplace, hcurrent, hslot, hresumed, hlauncher⟩ :=
      ih ((h.ofPrep haside).ofPrep hprep) hboot hrest hnodup.2
    exact ⟨u, (setupAll_cons hhome hok rest).trans hu, .head haside (.head hprep hpath), hplace,
      hcurrent, hslot, hresumed, hlauncher⟩

/-- The queues are empty when there are no processes. -/
theorem Inv.queue_none (h : s.Inv) (hempty : ∀ p, s.procs.state p = .empty) (c : Core)
    (i : QueuePos) : s.coreQueue c i = none := by
  cases hq : s.coreQueue c i with
  | none => rfl
  | some p => exact absurd (hempty p) (h.live c i p hq)

theorem zip_nodup {α β : Type} {as : List α} (bs : List β) (h : as.Nodup) :
    ((as.zip bs).map Prod.fst).Nodup := by
  refine h.sublist ?_
  induction as generalizing bs with
  | nil => exact List.Sublist.slnil
  | cons a as ih =>
    cases bs with
    | nil => exact List.nil_sublist _
    | cons b bs => exact (ih bs (List.nodup_cons.mp h).2).cons_cons a

/-- The first process of a launch is in the first position of the queue of the boot core. -/
theorem setupAll_first (h : s.Inv) (hboot : ∀ c, s.place c ≠ .boot) (me : Core)
    (hempty : ∀ p, s.procs.state p = .empty)
    {procs : List (Process × List (Nat × Nat))} (hne : procs ≠ []) :
    ∃ u, s.setupAll me ((List.finRange maxProcesses).zip procs) = .ok u ∧
      Relation.ReflTransGen Prep s u ∧ u.place = s.place ∧ u.procs.current = s.procs.current ∧
      u.resumed = s.resumed ∧ u.procs.state 0 = .ready ∧ u.coreQueue me 0 = some 0 := by
  obtain ⟨⟨proc, bootFrames⟩, rest, rfl⟩ := List.exists_cons_of_ne_nil hne
  have hnodup := zip_nodup ((proc, bootFrames) :: rest) (List.nodup_finRange maxProcesses)
  have hlist : (List.finRange maxProcesses).zip ((proc, bootFrames) :: rest) =
      (0, proc, bootFrames) :: [1, 2, 3].zip rest := rfl
  rw [hlist, List.map_cons, List.nodup_cons] at hnodup
  have hqueue := h.queue_none hempty
  have hfind : (List.finRange maxProcesses).find? (fun pos => (s.coreQueue me pos).isNone) =
      some 0 := by
    rw [show List.finRange maxProcesses = [0, 1, 2, 3] from rfl, List.find?_cons_of_pos]
    rw [hqueue]
    rfl
  have hok : s.setupProcess 0 proc bootFrames me = .ok ({ s with
      procs := s.procs.setSlot 0 (s.newSlot 0 proc bootFrames) }.setQueue me 0 (some 0)) := by
    unfold setupProcess pushToCoreQueue
    dsimp only
    rw [hfind]
  have hprep : Prep s ({ s with
      procs := s.procs.setSlot 0 (s.newSlot 0 proc bootFrames) }.setQueue me 0 (some 0)) :=
    .setup (hempty 0) (hqueue me 0) hboot rfl (Option.some_ne_none proc)
  have hstate : (s.procs.setSlot 0 (s.newSlot 0 proc bootFrames)).state 0 = .ready :=
    (congrFun (Procs.setSlot_state ..) 0).trans (Function.update_self ..)
  have hrest : ∀ e ∈ [1, 2, 3].zip rest,
      (s.procs.setSlot 0 (s.newSlot 0 proc bootFrames)).state e.1 = .empty := fun e he => by
    have hne : e.1 ≠ 0 := by
      intro heq
      exact hnodup.1 (List.mem_map.mpr ⟨e, he, heq⟩)
    exact (congrFun (Procs.setSlot_state ..) e.1).trans
      ((Function.update_of_ne hne ..).trans (hempty e.1))
  obtain ⟨u, hu, hpath, hplace, hcurrent, -, hresumed, -⟩ :=
    setupAll_ok (h.ofPrep hprep) hboot me hrest hnodup.2
  obtain ⟨hready, hat⟩ := (h.ofPrep hprep).preps_ready hpath hstate
  refine ⟨u, ?_, .head hprep hpath, hplace, hcurrent, hresumed, hready, hat me 0 ?_⟩
  · rw [hlist]
    exact (setupAll_cons (if_pos rfl) hok _).trans hu
  · rw [setQueue_apply, if_pos ⟨rfl, rfl⟩]

/-- What holds when the boot code calls `run`. -/
theorem Inv.launches (h : s.Inv) (hplace : s.place 0 = .boot) :
    Prep s (s.setPlace 0 .launch) ∧ ∀ c, (s.setPlace 0 .launch).place c ≠ .boot := by
  have hempty := (h.boot 0 hplace).2
  have hcurrent : s.procs.current 0 = none := by
    by_contra hc
    rw [(h.user 0).mp hc] at hplace
    cases hplace
  refine ⟨.settle hcurrent (fun i hi => ?_) (Or.inr (Or.inl rfl)), fun c hc => ?_⟩
  · obtain ⟨p, -, hready⟩ := coreStates_ready hi
    rw [hempty p] at hready
    cases hready
  · by_cases heq : c = 0
    · rw [heq, setPlace_place] at hc
      cases hc
    · exact heq (h.boot c ((Function.update_of_ne heq ..).symm.trans hc)).1

theorem rank_launch (h : s.place me = .launch) : s.rank me w = w.val := by
  unfold rank
  rw [h]

theorem run_done (h : s.Inv) (hplace : s.place 0 = .boot)
    {procs : List (Process × List (Nat × Nat))} (hne : procs ≠ []) : s.Done (s.run 0 procs) := by
  obtain ⟨hprep, hboot⟩ := h.launches hplace
  obtain ⟨u, hok, hpath, hu, hcur, -, hready, hat⟩ :=
    setupAll_first (h.ofPrep hprep) hboot 0 (h.boot 0 hplace).2 hne
  have hinv := (h.ofPrep hprep).ofPreps hpath
  obtain ⟨proc, hproc⟩ := Option.ne_none_iff_exists'.mp (hinv.held 0 (Or.inl hready))
  have hlaunch : u.place 0 = .launch := by
    rw [hu]
    exact setPlace_place ..
  have hcurrent : u.procs.current 0 = none := by
    by_contra hc
    rw [(hinv.user 0).mp hc] at hlaunch
    cases hlaunch
  unfold run
  rw [hok]
  dsimp only
  rw [hproc]
  have haside : Prep u { u with isLauncher := Function.update u.isLauncher 0 true } := by
    refine .aside rfl rfl rfl rfl fun c hc => ?_
    by_contra hzero
    dsimp only at hc
    rw [Function.update_of_ne hzero] at hc
    exact hzero (hinv.launcher c hc)
  refine ⟨_, rfl, _, (Relation.ReflTransGen.head hprep hpath).tail haside,
    Or.inr (.own hcurrent hat hproc hready fun w _ hne => ?_)⟩
  have hrank : u.rank 0 w = w.val := rank_launch hlaunch
  exact lt_of_lt_of_eq (gap_of_lt (Fin.pos_iff_ne_zero.mpr hne)) hrank.symm

theorem runFails_done (h : s.Inv) (hplace : s.place 0 = .boot)
    (procs : List (Process × List (Nat × Nat))) : s.Done (s.runFails 0 procs) := by
  obtain ⟨hprep, hboot⟩ := h.launches hplace
  have hempty := (h.boot 0 hplace).2
  obtain ⟨u, hok, -, hu, hcur, -, hresumed, hlauncher⟩ := setupAll_ok (h.ofPrep hprep) hboot 0
    (fun e _ => hempty e.1) (zip_nodup procs (List.nodup_finRange maxProcesses))
  unfold runFails
  rw [hok]
  dsimp only
  -- The boot core is where it was.
  have hback : Function.update u.place 0 .boot = s.place := by
    rw [hu]
    unfold setPlace
    dsimp only
    rw [Function.update_idem, ← hplace, Function.update_eq_self]
  have hwipe : Prep s ({ u with
      procs := { u.procs with table := fun _ => Slot.empty }
      coreQueue := fun _ _ => none }.setPlace 0 .boot) :=
    .wipe hempty (fun _ => rfl) hcur (fun _ _ => rfl) hback hresumed hlauncher
  exact Done.prep hwipe (Done.refl _)

theorem passOf_done (h : s.Inv) {env : Env} {r : Except String Sched}
    (hr : s.passOf me env = some r) : s.Done r := by
  have hcurrent : s.place me ≠ .user → s.procs.current me = none := fun hne => by
    by_contra hc
    exact hne ((h.user me).mp hc)
  unfold passOf at hr
  split at hr
  · rename_i i onIdle hplace
    cases hr
    exact switchToNext_done h (hcurrent (by rw [hplace]; nofun)) hplace env
  · rename_i i onIdle hplace
    cases hr
    exact idleUntilRunnable_done h (hcurrent (by rw [hplace]; nofun)) hplace env.stillWaiting
  · rename_i hplace
    cases hr
    exact apIdleLoop_done h (hcurrent (by rw [hplace]; nofun)) hplace
  · cases hr

/-- No `expect` fails, and every step is some preparations and at most one take. -/
theorem act_done (h : s.Inv) {ℓ : Label} {r : Except String Sched} (hr : s.act ℓ = some r) :
    s.Done r := by
  cases ℓ with
  | pass core env => exact passOf_done h hr
  | wake p res =>
    unfold act at hr
    dsimp only at hr
    split at hr
    · rename_i hblocked
      cases hr
      exact Done.prep (.wake res hblocked) (Done.refl _)
    · cases hr
  | _ =>
    unfold act at hr
    dsimp only at hr
    split at hr
    · rename_i hcond
      cases hr
      first
        | exact timerTick_done h hcond
        | exact blockCurrent_done h hcond _
        | exact onExit_done h hcond _
        | exact spawn_done h hcond _ _
        | exact run_done h hcond.1 hcond.2.1
        | exact runFails_done h hcond.1 _
    · cases hr

/-! ### The result -/

/-- The core waits in `switch_to_next` for its blocked process. -/
def WaitsFor (s : Sched) (c : Core) : Prop :=
  ∃ i, s.place c = .switching i .blockedDeadlockIfNoOtherWork ∨
    s.place c = .waiting i .blockedDeadlockIfNoOtherWork

/-- Every process has its place. -/
structure Placement (s : Sched) : Prop where
  queued : ∀ p, s.procs.state p ≠ .empty →
    ∃! e : Core × QueuePos, s.coreQueue e.1 e.2 = some p
  absent : ∀ p, s.procs.state p = .empty → ∀ c i, s.coreQueue c i ≠ some p
  running : ∀ p, s.procs.state p = .running ↔
    ∃! c, s.procs.current c ≠ none ∧ s.procs.currentSlot c = p
  suspended : ∀ p, s.procs.state p = .ready ∨ s.procs.state p = .blocked →
    (s.procs.table p).process ≠ none
  own : ∀ c, s.procs.current c ≠ none ∨ s.WaitsFor c →
    ∃ i, s.coreQueue c i = some (s.procs.currentSlot c)

theorem Inv.toPlacement (h : s.Inv) : s.Placement where
  queued := fun p hp => by
    obtain ⟨c, i, hq⟩ := h.homed p hp
    refine ⟨(c, i), hq, fun e he => ?_⟩
    obtain ⟨hc, hi⟩ := h.once e.1 e.2 c i p he hq
    exact Prod.ext hc hi
  absent := fun p hp c i hq => h.live c i p hq hp
  running := fun p => by
    constructor
    · intro hp
      obtain ⟨c, hc, hslot⟩ := h.runs p hp
      exact ⟨c, ⟨hc, hslot⟩, fun c' hc' => h.placed.unique c' c hc'.1 hc (hc'.2.trans hslot.symm)⟩
    · rintro ⟨c, ⟨hc, rfl⟩, -⟩
      exact (h.placed.running c hc).1
  suspended := h.held
  own := fun c hc => by
    rcases hc with hc | ⟨i, hplace⟩
    · exact h.own c ((h.user c).mp hc)
    · exact ⟨i, h.waits c i hplace⟩

/-- A step is some preparations and at most one take. -/
theorem Inv.lock_of_next (h : s.Inv) {ℓ : Label} (hnext : system.next s ℓ = some t) :
    s.Lock t := by
  have hnext : s.next ℓ = some t := hnext
  unfold next at hnext
  split at hnext
  · rename_i u hact
    cases hnext
    obtain ⟨v, hv, hlock⟩ := act_done h hact
    cases hv
    exact hlock
  · cases hnext

theorem inv_of_reachable (hs : Reachable system always s) : s.Inv :=
  hs.invariant (I := Inv) (fun _ hinit => .start hinit) fun _ _ _ _ hinv _ hnext =>
    hinv.ofLock (hinv.lock_of_next hnext)

/-- In every state of a run every process has its place, and no `expect` of the scheduler fails in
the next step. -/
theorem placement (hs : Reachable system always s) :
    s.Placement ∧ ∀ ℓ e, s.act ℓ ≠ some (.error e) := by
  have h := inv_of_reachable hs
  refine ⟨h.toPlacement, fun ℓ e hact => ?_⟩
  obtain ⟨t, ht, -⟩ := act_done h hact
  cases ht

/-- The scheduler after the boot of a machine with so many cores. -/
def booted (cores : Nat) : Sched where
  procs := ⟨fun _ => Slot.empty, fun _ => none, fun _ => 0, 0⟩
  coreQueue := fun _ _ => none
  nextHomeCore := 1
  ticksInQuantum := fun _ => 0
  isLauncher := fun _ => false
  online := fun c => c.val < cores
  place := fun c => if c = 0 then .boot else if c.val < cores then .idle else .off
  resumed := fun _ => []

theorem booted_init {cores : Nat} (h : 0 < cores) : system.init (booted cores) where
  table := fun _ => ⟨rfl, rfl⟩
  current := fun _ => rfl
  queues := fun _ _ => rfl
  launcher := fun _ => rfl
  online := decide_eq_true h
  boot := rfl
  others := fun c hc => by simp [booted, hc]

/-- Nothing waits for input or for a disk. -/
def calm : Env := ⟨false, [], false⟩

/-- Three processes are launched. The one of core 1 exits, and core 1 steals one of core 0 that was
blocked and woken. -/
def stealingRun : List Label :=
  [.run [(spawnProcess, []), (spawnProcess, []), (spawnProcess, [])], .pass 1 calm, .tick 0,
    .block 0 calm, .exit 1 calm, .wake 2 ⟨ipcOk, 0, 0⟩, .pass 1 calm]

theorem placement_stealingRun :
    (system.runFrom (booted 2) stealingRun).resumed 1 = [1, 2] ∧
      (system.runFrom (booted 2) stealingRun).Placement ∧
      ∀ ℓ e, (system.runFrom (booted 2) stealingRun).act ℓ ≠ some (.error e) :=
  ⟨by decide +kernel, placement (system.run (booted_init (by decide)) stealingRun).reachable⟩

end Sched

end Plinth
