import Plinth.Scheduler.Placement

/-!
# `Plinth.Scheduler.RoundRobin`: how long a process waits

A process that is Ready in the queue of a core waits for that core, or for a core that steals it.
`ahead` is how many positions the core may still take before its position: those between the process
that runs and the one that waits, or those that the scan of a core without a process looks at first.

No preparation changes `ahead` of a process that is Ready, and a core that takes another process
takes it from a position in between. So `ahead` bounds what the core resumes before the process that
waits, and `resumed_le` is the bound of a whole run.
-/

set_option autoImplicit false

namespace Plinth

open Transition

namespace Sched

variable {s t u : Sched} {c me : Core} {i w : QueuePos} {p : ProcSlot} {log : List ProcSlot}

/-- The process is Ready at this position of the queue of a core. -/
def ReadyAt (s : Sched) (c : Core) (w : QueuePos) (p : ProcSlot) : Prop :=
  s.procs.state p = .ready ∧ s.coreQueue c w = some p

/-- The process is Ready in the queue of a core. -/
def ReadyIn (s : Sched) (c : Core) (p : ProcSlot) : Prop := ∃ w, s.ReadyAt c w p

/-- How many positions the core may take before it takes this one. -/
def ahead (s : Sched) (c : Core) (w : QueuePos) : Nat :=
  if s.place c = .user then gap ((s.corePosition c (s.procs.currentSlot c)).getD 0) w
  else s.rank c w

/-! ### What is ahead -/

theorem ReadyAt.coreStates (h : s.ReadyAt c w p) : s.coreStates c w = .ready :=
  (coreStates_of_queue h.2).trans h.1

theorem ahead_user (h : s.Inv) (hplace : s.place c = .user)
    (hq : s.coreQueue c i = some (s.procs.currentSlot c)) : s.ahead c w = gap i w := by
  unfold ahead
  rw [if_pos hplace, h.position hq]
  rfl

theorem ahead_of_ne (hplace : s.place c ≠ .user) : s.ahead c w = s.rank c w := if_neg hplace

theorem ahead_le (s : Sched) (c : Core) (w : QueuePos) : s.ahead c w ≤ maxProcesses - 1 := by
  have hgap : ∀ i, gap i w ≤ maxProcesses - 1 := fun i => Nat.le_pred_of_lt (gap_lt i w)
  have hw : w.val ≤ maxProcesses - 1 := Nat.le_pred_of_lt w.isLt
  unfold ahead rank
  split
  · exact hgap _
  · split
    · exact hgap _
    · exact hw
    · exact hw
    · exact hw
    · exact Nat.zero_le _

/-- What is ahead depends on the place of the core and on the position of its process. -/
theorem ahead_congr (hs : s.Inv) (ht : t.Inv) (hplace : t.place c = s.place c)
    (hslot : s.place c = .user → t.procs.currentSlot c = s.procs.currentSlot c)
    (hqueue : ∀ i, s.place c = .user → s.coreQueue c i = some (s.procs.currentSlot c) →
      t.coreQueue c i = some (s.procs.currentSlot c)) : t.ahead c w = s.ahead c w := by
  by_cases huser : s.place c = .user
  · obtain ⟨i, hi⟩ := hs.own c huser
    have hi' : t.coreQueue c i = some (t.procs.currentSlot c) := by
      rw [hslot huser]
      exact hqueue i huser hi
    rw [ahead_user hs huser hi, ahead_user ht (hplace.trans huser) hi']
  · rw [ahead_of_ne huser, ahead_of_ne (hplace ▸ huser)]
    unfold rank
    rw [hplace]

/-- A preparation changes nothing for a process that is Ready. -/
theorem Prep.ahead (h : s.Inv) (hprep : Prep s t) (hp : s.ReadyAt c w p) :
    t.ahead c w = s.ahead c w := by
  have ht := h.ofPrep hprep
  cases hprep with
  | @wake q r hblocked =>
    rw [wake_eq r hblocked] at ht ⊢
    exact ahead_congr h ht rfl (fun _ => rfl) fun _ _ hi => hi
  | @suspend me i proc slot hc hq hproc hstate =>
    by_cases hme : c = me
    · -- The scan starts at the position of the process that the core leaves.
      subst hme
      have huser : s.place c = .user := (h.user c).mp (by rw [hc]; nofun)
      rw [ahead_user h huser hq, ahead_of_ne (by rw [setPlace_place]; nofun),
        rank_switching (setPlace_place ..)]
    · exact ahead_congr h ht (Function.update_of_ne hme ..) (fun _ => rfl) fun _ _ hi => hi
  | @exit me i proc hc hq =>
    by_cases hme : c = me
    · subst hme
      have huser : s.place c = .user := (h.user c).mp (by rw [hc]; nofun)
      rw [ahead_user h huser hq, ahead_of_ne (by rw [setPlace_place]; nofun),
        rank_switching (setPlace_place ..)]
    · refine ahead_congr h ht (Function.update_of_ne hme ..) (fun _ => rfl) fun j _ hj => ?_
      refine (setQueue_apply ..).trans ?_
      rw [if_neg fun heq => hme heq.1]
      exact hj
  | @settle me place hc hnone hsettles =>
    by_cases hme : c = me
    · subst hme
      exact absurd hp.coreStates (hnone w)
    · exact ahead_congr h ht (Function.update_of_ne hme ..) (fun _ => rfl) fun _ _ hi => hi
  | @setup id home i slot hid hq hboot hstate hproc =>
    refine ahead_congr h ht rfl (fun _ => rfl) fun j _ hj => (setQueue_apply ..).trans ?_
    rw [if_neg]
    · exact hj
    · -- The new process took a free position.
      rintro ⟨rfl, rfl⟩
      rw [hq] at hj
      cases hj
  | aside hprocs hqueue hplace hresumed hlauncher =>
    refine ahead_congr h ht (congrFun hplace c) (fun _ => by rw [hprocs]) fun j _ hj => ?_
    rw [hqueue]
    exact hj
  | wipe hempty =>
    have hready := hp.1
    rw [hempty p] at hready
    cases hready

theorem Prep.resumed (hprep : Prep s t) : t.resumed = s.resumed := by
  cases hprep with
  | wake r hblocked => rw [wake_eq r hblocked]
  | aside hprocs hqueue hplace hresumed hlauncher => exact hresumed
  | wipe hempty htable hcurrent hqueue hplace hresumed hlauncher => exact hresumed
  | _ => rfl

theorem resumed_of_preps (hpath : Relation.ReflTransGen Prep s u) : u.resumed = s.resumed := by
  induction hpath with
  | refl => rfl
  | tail _ hprep ih => exact hprep.resumed.trans ih

/-- Preparations leave a Ready process where it is, and change nothing for it. -/
theorem ReadyAt.preps (h : s.Inv) (hpath : Relation.ReflTransGen Prep s u) (hp : s.ReadyAt c w p) :
    u.ReadyAt c w p ∧ u.ahead c w = s.ahead c w := by
  induction hpath with
  | refl => exact ⟨hp, rfl⟩
  | tail hpath hprep ih =>
    obtain ⟨hready, hahead⟩ := ih
    have hinv := h.ofPreps hpath
    obtain ⟨hstate, hqueue⟩ := hprep.ready hinv hready.1
    exact ⟨⟨hstate, hqueue c w hready.2⟩, (hprep.ahead hinv hready).trans hahead⟩

/-! ### What a core takes -/

/-- After a core took the process of a position, those behind that position are ahead. -/
theorem ahead_take {proc : Process} (h : (s.take me p proc).Inv) (hq : s.coreQueue me i = some p) :
    (s.take me p proc).ahead me w = gap i w := by
  refine ahead_user h (Function.update_self ..) ?_
  have hslot : (s.take me p proc).procs.currentSlot me = p := Function.update_self ..
  rw [hslot]
  exact hq

theorem resumed_take (s : Sched) (me : Core) (p : ProcSlot) (proc : Process) (c : Core) :
    (s.take me p proc).resumed c = if c = me then s.resumed c ++ [p] else s.resumed c := by
  unfold take
  dsimp only
  by_cases hme : c = me
  · rw [if_pos hme, hme, Function.update_self]
  · rw [if_neg hme, Function.update_of_ne hme]

/-- The core that takes a process runs it then, and appends it to its log. -/
theorem Take.spec (h : Take s t) : ∃ me q, t.place me = .user ∧
    (∀ p, t.procs.state p = Function.update s.procs.state q .running p) ∧
    ∀ c, t.resumed c = if c = me then s.resumed c ++ [q] else s.resumed c := by
  cases h with
  | @own me i q proc =>
    exact ⟨me, q, Function.update_self .., congrFun (Procs.setSlot_state ..),
      resumed_take s me q proc⟩
  | @steal me donor i j q proc =>
    exact ⟨me, q, Function.update_self .., congrFun (Procs.setSlot_state ..),
      resumed_take ((s.setQueue donor i none).setQueue me j (some q)) me q proc⟩

/-- A take leaves a Ready process where it is, unless that process is taken. What the core takes was
ahead of it. -/
theorem Take.ahead (h : s.Inv) (htake : Take s t) (hp : s.ReadyAt c w p)
    (hready : t.procs.state p = .ready) :
    t.ReadyAt c w p ∧ ∃ l, t.resumed c = s.resumed c ++ l ∧ p ∉ l ∧
      l.length + t.ahead c w ≤ s.ahead c w := by
  have ht := h.ofTake htake
  cases htake with
  | @own me i q proc hc hq hproc hqready hfair =>
    have hne : p ≠ q := by
      rintro rfl
      have hrun : (s.take me p proc).procs.state p = .running :=
        (congrFun (Procs.setSlot_state s.procs p _) p).trans (Function.update_self ..)
      rw [hrun] at hready
      cases hready
    refine ⟨⟨hready, hp.2⟩, ?_⟩
    by_cases hme : c = me
    · subst hme
      have hwi : w ≠ i := by
        rintro rfl
        have heq := hp.2
        rw [hq, Option.some.injEq] at heq
        exact hne heq.symm
      have hplace : s.place c ≠ .user := fun huser => (h.user c).mpr huser hc
      refine ⟨[q], ?_, fun hmem => hne (List.mem_singleton.mp hmem), ?_⟩
      · rw [resumed_take, if_pos rfl]
      · have hlt := hfair w hp.coreStates hwi
        rw [ahead_take ht hq, ahead_of_ne hplace, List.length_singleton]
        omega
    · refine ⟨[], ?_, List.not_mem_nil, ?_⟩
      · rw [resumed_take, if_neg hme, List.append_nil]
      · have heq : (s.take me q proc).ahead c w = s.ahead c w :=
          ahead_congr h ht (Function.update_of_ne hme ..)
            (fun _ => Function.update_of_ne hme ..) fun _ _ hi => hi
        rw [heq, List.length_nil, Nat.zero_add]
  | @steal me donor i j q proc hc hdonor hq hfree hproc hqready hcur hnone =>
    have hne : p ≠ q := by
      rintro rfl
      have hrun : (((s.setQueue donor i none).setQueue me j (some p)).take me p proc).procs.state
          p = .running :=
        (congrFun (Procs.setSlot_state s.procs p _) p).trans (Function.update_self ..)
      rw [hrun] at hready
      cases hready
    have hme : c ≠ me := by
      rintro rfl
      exact hnone w hp.coreStates
    -- Of the queue of the other core only the position of the stolen process changes.
    have hqueue : ∀ k x, x ≠ q → s.coreQueue c k = some x →
        (((s.setQueue donor i none).setQueue me j (some q)).take me q proc).coreQueue c k =
          some x := fun k x hx hk => by
      have hstep : ((s.setQueue donor i none).setQueue me j (some q)).coreQueue c k = some x := by
        rw [setQueue_apply, if_neg fun heq => hme heq.1, setQueue_apply, if_neg]
        · exact hk
        · rintro ⟨rfl, rfl⟩
          rw [hq, Option.some.injEq] at hk
          exact hx hk.symm
      exact hstep
    refine ⟨⟨hready, hqueue w p hne hp.2⟩, [], ?_, List.not_mem_nil, ?_⟩
    · rw [resumed_take, if_neg hme, List.append_nil]
      rfl
    · have heq : (((s.setQueue donor i none).setQueue me j (some q)).take me q proc).ahead c w =
          s.ahead c w := by
        refine ahead_congr h ht (Function.update_of_ne hme ..)
          (fun _ => Function.update_of_ne hme ..) fun k huser hk => hqueue k _ ?_ hk
        -- The stolen process is Ready, and that of a core is Running.
        obtain ⟨-, -, hrun⟩ := h.running huser
        intro heq
        rw [heq, hqready] at hrun
        cases hrun
      rw [heq, List.length_nil, Nat.zero_add]

/-- A process that is Ready is not the one that the core runs. -/
theorem ahead_lt (h : s.Inv) (huser : s.place c = .user) (hp : s.ReadyAt c w p) :
    s.ahead c w < maxProcesses - 1 := by
  obtain ⟨i, hi⟩ := h.own c huser
  obtain ⟨-, -, hrun⟩ := h.running huser
  rw [ahead_user h huser hi]
  refine gap_of_ne ?_
  rintro rfl
  have heq := hp.2
  rw [hi, Option.some.injEq] at heq
  have hready := hp.1
  rw [← heq, hrun] at hready
  cases hready

/-! ### Runs -/

/-- Since its log was `log`, a core has resumed other processes only, and the process that waits has
no more of them ahead than the bound allows. -/
def Bounded (s : Sched) (c : Core) (p : ProcSlot) (log : List ProcSlot) : Prop :=
  ∃ w l, s.ReadyAt c w p ∧ s.resumed c = log ++ l ∧ p ∉ l ∧
    l.length + s.ahead c w ≤ maxProcesses - 1

/-- In the step the process becomes Ready in the queue of the core, whose log is `log` before. -/
def becomesReady (c : Core) (p : ProcSlot) (log : List ProcSlot) (s : Sched) (_ : Label)
    (t : Sched) : Prop :=
  ¬ s.ReadyIn c p ∧ t.ReadyIn c p ∧ s.resumed c = log

/-- In the step no core resumes the process. -/
def passedOver (p : ProcSlot) (s : Sched) (_ : Label) (t : Sched) : Prop :=
  ∀ c, ∃ l, t.resumed c = s.resumed c ++ l ∧ p ∉ l

/-- The bound holds after the step in which a process becomes Ready. -/
theorem Bounded.start (h : s.Inv) (hlock : s.Lock t) (hready : t.ReadyIn c p) :
    t.Bounded c p (s.resumed c) := by
  obtain ⟨w, hw⟩ := hready
  have ht := h.ofLock hlock
  have hle := ahead_le t c w
  obtain ⟨u, hpath, rfl | htake⟩ := hlock
  · refine ⟨w, [], hw, ?_, List.not_mem_nil, ?_⟩
    · rw [resumed_of_preps hpath, List.append_nil]
    · rw [List.length_nil]
      omega
  · obtain ⟨me, q, huser, hstate, hresumed⟩ := htake.spec
    have hne : p ≠ q := by
      rintro rfl
      have hrun := hw.1
      rw [hstate, Function.update_self] at hrun
      cases hrun
    by_cases hme : c = me
    · -- The core has resumed one process, which is at another position.
      subst hme
      refine ⟨w, [q], hw, ?_, fun hmem => hne (List.mem_singleton.mp hmem), ?_⟩
      · rw [hresumed, if_pos rfl, resumed_of_preps hpath]
      · have hlt := ahead_lt ht huser hw
        rw [List.length_singleton]
        omega
    · refine ⟨w, [], hw, ?_, List.not_mem_nil, ?_⟩
      · rw [hresumed, if_neg hme, resumed_of_preps hpath, List.append_nil]
      · rw [List.length_nil]
        omega

/-- A step in which nobody resumes the process keeps the bound. -/
theorem Bounded.keep (h : s.Inv) (hlock : s.Lock t) {ℓ : Label} (hpassed : passedOver p s ℓ t)
    (hbound : s.Bounded c p log) : t.Bounded c p log := by
  obtain ⟨w, l, hw, hlog, hl, hle⟩ := hbound
  obtain ⟨u, hpath, hend⟩ := hlock
  obtain ⟨hwu, hahead⟩ := hw.preps h hpath
  have hresumed := resumed_of_preps hpath
  rcases hend with rfl | htake
  · exact ⟨w, l, hwu, by rw [hresumed, hlog], hl, by rw [hahead]; exact hle⟩
  · obtain ⟨me, q, -, hstate, htaken⟩ := htake.spec
    have hne : p ≠ q := by
      obtain ⟨l', hl', hmem⟩ := hpassed me
      rw [htaken, if_pos rfl, hresumed, List.append_right_inj] at hl'
      rw [← hl'] at hmem
      exact fun heq => hmem (List.mem_singleton.mpr heq)
    have hready : t.procs.state p = .ready := by
      rw [hstate, Function.update_of_ne hne]
      exact hwu.1
    obtain ⟨hwt, l', hl', hmem, hle'⟩ := htake.ahead (h.ofPreps hpath) hwu hready
    refine ⟨w, l ++ l', hwt, ?_, ?_, ?_⟩
    · rw [hl', hresumed, hlog, List.append_assoc]
    · rw [List.mem_append]
      exact fun hor => hor.elim hl hmem
    · rw [List.length_append]
      omega

/-- From the step in which a process becomes Ready in the queue of a core, and as long as nobody
resumes it, it stays Ready there, and the core resumes at most `maxProcesses - 1` other
processes. -/
theorem resumed_le {hist : List (Sched × Label)} (run : Run system always hist t)
    (hwait : Since (becomesReady c p log) (passedOver p) hist t) :
    t.ReadyIn c p ∧
      ∃ l, t.resumed c = log ++ l ∧ p ∉ l ∧ l.length ≤ maxProcesses - 1 := by
  have hbound : t.Bounded c p log := by
    induction run with
    | start => exact absurd hwait id
    | step run _ hnext ih =>
      have h := inv_of_reachable run.reachable
      have hlock := h.lock_of_next hnext
      rcases hwait with ⟨-, hready, rfl⟩ | ⟨hpassed, hrest⟩
      · exact .start h hlock hready
      · exact .keep h hlock hpassed (ih hrest)
  obtain ⟨w, l, hw, hlog, hl, hle⟩ := hbound
  exact ⟨⟨w, hw⟩, l, hlog, hl, by omega⟩

/-- One core launches four processes, and its timer ticks. -/
def tickingRun (ticks : Nat) : List Label :=
  .run (List.replicate 4 (spawnProcess, [])) :: List.replicate ticks (.tick 0)

/-- A process is passed over in a step. -/
theorem passedOver_of_drop {ℓ : Label}
    (h : ∀ c, t.resumed c = s.resumed c ++ (t.resumed c).drop (s.resumed c).length ∧
      p ∉ (t.resumed c).drop (s.resumed c).length) : passedOver p s ℓ t :=
  fun c => ⟨_, h c⟩

/-- The first process waits for the other three, and the bound is reached. -/
theorem resumed_le_tickingRun :
    (system.runFrom (booted 1) (tickingRun 3)).resumed 0 = [0, 1, 2, 3] ∧
      (system.runFrom (booted 1) (tickingRun 3)).ReadyIn 0 0 ∧
        ∃ l, (system.runFrom (booted 1) (tickingRun 3)).resumed 0 = [0] ++ l ∧ 0 ∉ l ∧
          l.length ≤ maxProcesses - 1 := by
  refine ⟨by decide +kernel, resumed_le (system.run (booted_init (by decide)) (tickingRun 3)) ?_⟩
  refine Or.inr ⟨passedOver_of_drop (by decide +kernel),
    Or.inr ⟨passedOver_of_drop (by decide +kernel), Or.inl ⟨?_, ⟨0, ?_, ?_⟩, ?_⟩⟩⟩
  · rintro ⟨w, hready, -⟩
    exact absurd hready (by decide +kernel)
  · decide +kernel
  · decide +kernel
  · decide +kernel

end Sched

end Plinth
