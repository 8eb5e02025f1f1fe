import Plinth.ProcTable

/-!
# `Plinth.Refine.Placed`: every process is in one place

`Placed`: a running process is on one core, its slot of the table is empty and in state
`running`, and a process in the table is ready or blocked. So `Procs.proc` is a function of the
slot alone, and each write of the kernel to a place is one update of this function.
-/

set_option autoImplicit false

namespace Plinth

/-- Every process is in one place, and the state of its slot says which. -/
structure Placed (P : Procs) : Prop where
  running : ∀ c, P.current c ≠ none → P.state (P.currentSlot c) = .running ∧
    (P.table (P.currentSlot c)).process = none
  unique : ∀ c c', P.current c ≠ none → P.current c' ≠ none →
    P.currentSlot c = P.currentSlot c' → c = c'
  suspended : ∀ p, (P.table p).process ≠ none → P.state p = .ready ∨ P.state p = .blocked

namespace Placed

variable {P : Procs} {p : ProcSlot} {proc : Process} {c : Core}

theorem coreOf_eq (h : Placed P) (hc : P.current c ≠ none) :
    P.coreOf (P.currentSlot c) = some c := by
  unfold Procs.coreOf
  cases hfind : (List.finRange maxCores).find? fun core =>
      P.currentSlot core == P.currentSlot c && (P.current core).isSome with
  | none =>
    have hno := List.find?_eq_none.mp hfind c (List.mem_finRange c)
    rw [beq_self_eq_true, Bool.true_and] at hno
    exact absurd (Option.isSome_iff_ne_none.mpr hc) hno
  | some c' =>
    have hsome := List.find?_some hfind
    rw [Bool.and_eq_true, beq_iff_eq] at hsome
    rw [h.unique c' c (Option.isSome_iff_ne_none.mp hsome.2) hc hsome.1]

theorem coreOf_some {P : Procs} {p : ProcSlot} {c : Core} (h : P.coreOf p = some c) :
    P.currentSlot c = p ∧ P.current c ≠ none := by
  have hsome := List.find?_some h
  rw [Bool.and_eq_true, beq_iff_eq] at hsome
  exact ⟨hsome.1, Option.isSome_iff_ne_none.mp hsome.2⟩

/-- The live process of a slot is the one in the table or on a core. -/
theorem proc_eq_some (h : Placed P) : P.proc p = some proc ↔
    (P.table p).process = some proc ∨ ∃ c, P.currentSlot c = p ∧ P.current c = some proc := by
  unfold Procs.proc
  constructor
  · intro hp
    split at hp
    · rename_i prg hprg
      exact Or.inl (hprg.trans hp)
    · obtain ⟨c, hc, hcur⟩ := Option.bind_eq_some_iff.mp hp
      exact Or.inr ⟨c, (coreOf_some hc).1, hcur⟩
  · rintro (htab | ⟨c, rfl, hcur⟩)
    · simp only [htab]
    · have hne : P.current c ≠ none := by
        rw [hcur]
        exact Option.some_ne_none proc
      rw [(h.running c hne).2]
      simp only [h.coreOf_eq hne, Option.bind_some, hcur]

theorem proc_of_current (h : Placed P) (hc : P.current c = some proc) :
    P.proc (P.currentSlot c) = some proc :=
  h.proc_eq_some.mpr (Or.inr ⟨c, rfl, hc⟩)

theorem proc_of_table (h : Placed P) (hp : (P.table p).process = some proc) :
    P.proc p = some proc := h.proc_eq_some.mpr (Or.inl hp)

theorem state_of_current (h : Placed P) (hc : P.current c = some proc) :
    P.state (P.currentSlot c) = .running :=
  (h.running c (by rw [hc]; exact Option.some_ne_none proc)).1

/-- The process of an empty slot does not exist. -/
theorem proc_of_empty (h : Placed P) (hp : P.state p = .empty) : P.proc p = none := by
  cases hproc : P.proc p with
  | none => rfl
  | some proc =>
    rcases h.proc_eq_some.mp hproc with htab | ⟨c, rfl, hcur⟩
    · have hs := h.suspended p (by rw [htab]; exact Option.some_ne_none proc)
      rw [hp] at hs
      rcases hs with hs | hs <;> cases hs
    · rw [h.state_of_current hcur] at hp
      cases hp

/-- A process on a core is not in the table slot of another one. -/
theorem ne_of_current_of_table (h : Placed P) (hc : P.current c = some proc)
    (hp : (P.table p).process ≠ none) : P.currentSlot c ≠ p := by
  rintro rfl
  exact hp (h.running c (by rw [hc]; exact Option.some_ne_none proc)).2

end Placed

namespace Procs

/-- A change of the slots that keeps the processes keeps every live process. -/
theorem proc_congr {P P' : Procs} (htable : ∀ p, (P'.table p).process = (P.table p).process)
    (hcur : P'.current = P.current) (hslot : P'.currentSlot = P.currentSlot) :
    P'.proc = P.proc := by
  funext p
  unfold proc coreOf
  rw [htable, hcur, hslot]

theorem setSlot_table_self (P : Procs) (p : ProcSlot) (s : Slot) :
    (P.setSlot p s).table p = s := by
  unfold setSlot
  exact Function.update_self ..

theorem setSlot_table_of_ne (P : Procs) {p q : ProcSlot} (s : Slot) (h : q ≠ p) :
    (P.setSlot p s).table q = P.table q := by
  unfold setSlot
  exact Function.update_of_ne h ..

theorem setSlot_setSlot (P : Procs) (p : ProcSlot) (s s' : Slot) :
    (P.setSlot p s).setSlot p s' = P.setSlot p s' := by
  unfold setSlot
  rw [Function.update_idem]

@[simp] theorem setSlot_current (P : Procs) (p : ProcSlot) (s : Slot) :
    (P.setSlot p s).current = P.current := rfl

@[simp] theorem setSlot_currentSlot (P : Procs) (p : ProcSlot) (s : Slot) :
    (P.setSlot p s).currentSlot = P.currentSlot := rfl

@[simp] theorem setCurrent_table (P : Procs) (c : Core) (x : Option Process) :
    (P.setCurrent c x).table = P.table := rfl

@[simp] theorem setCurrent_currentSlot (P : Procs) (c : Core) (x : Option Process) :
    (P.setCurrent c x).currentSlot = P.currentSlot := rfl

theorem setCurrent_current_self (P : Procs) (c : Core) (x : Option Process) :
    (P.setCurrent c x).current c = x := Function.update_self ..

theorem setCurrent_current_of_ne (P : Procs) {c c' : Core} (x : Option Process)
    (h : c' ≠ c) : (P.setCurrent c x).current c' = P.current c' := Function.update_of_ne h ..

@[simp] theorem setCurrent_state (P : Procs) (c : Core) (x : Option Process) (p : ProcSlot) :
    (P.setCurrent c x).state p = P.state p := rfl

/-- A rewrite of a slot that keeps its process. -/
theorem setSlot_proc (P : Procs) {p : ProcSlot} {s : Slot}
    (h : s.process = (P.table p).process) : (P.setSlot p s).proc = P.proc := by
  refine proc_congr (fun q => ?_) rfl rfl
  by_cases hq : q = p
  · subst hq
    rw [setSlot_table_self, h]
  · rw [setSlot_table_of_ne _ _ hq]

theorem setSlot_state (P : Procs) (p : ProcSlot) (s : Slot) :
    (P.setSlot p s).state = Function.update P.state p s.state := by
  funext q
  unfold state
  by_cases hq : q = p
  · subst hq
    rw [setSlot_table_self, Function.update_self]
  · rw [setSlot_table_of_ne _ _ hq, Function.update_of_ne hq]


/-- A wake of a blocked slot writes that slot and nothing else. -/
theorem wakeWith_of_blocked {P : Procs} {p : ProcSlot} (h : P.state p = .blocked)
    (status payload landing : Nat) :
    P.wakeWith p status payload landing = P.setSlot p
      { P.table p with state := .ready, result := ⟨status, payload, landing⟩ } := by
  unfold wakeWith
  have hblocked : P.isBlocked p = true := by simp [isBlocked, h]
  rw [hblocked]
  rfl

theorem resume_stray {P P' : Procs} {c : Core} {p : ProcSlot} (h : P.resume c p = some P') :
    P'.strayWakes = P.strayWakes := by
  unfold resume at h
  split at h
  · split at h
    · cases h
    · simp only [Option.some.injEq] at h
      rw [← h]
      rfl
  · cases h
end Procs

namespace Placed

variable {P : Procs} {p : ProcSlot} {proc proc' : Process} {c : Core}

/-- A rewrite of the process of a core. -/
theorem setCurrent (h : Placed P) (hc : P.current c = some proc) (proc' : Process) :
    Placed (P.setCurrent c (some proc')) ∧
      (P.setCurrent c (some proc')).proc
        = Function.update P.proc (P.currentSlot c) (some proc') := by
  have hold : ∀ c', (P.setCurrent c (some proc')).current c' ≠ none → P.current c' ≠ none := by
    intro c' hc'
    by_cases heq : c' = c
    · subst heq
      rw [hc]
      exact Option.some_ne_none proc
    · rwa [Procs.setCurrent_current_of_ne _ _ heq] at hc'
  have hplaced : Placed (P.setCurrent c (some proc')) :=
    ⟨fun c' hc' => h.running c' (hold c' hc'),
      fun c' c'' h' h'' heq => h.unique c' c'' (hold c' h') (hold c'' h'') heq,
      h.suspended⟩
  refine ⟨hplaced, ?_⟩
  funext q
  by_cases hq : q = P.currentSlot c
  · subst hq
    rw [Function.update_self]
    exact hplaced.proc_of_current (Procs.setCurrent_current_self _ _ _)
  · rw [Function.update_of_ne hq]
    refine Option.ext fun prg => ?_
    rw [hplaced.proc_eq_some, h.proc_eq_some]
    refine or_congr Iff.rfl (exists_congr fun c' => and_congr_right fun hslot => ?_)
    have hne : c' ≠ c := by
      rintro rfl
      exact hq hslot.symm
    rw [Procs.setCurrent_current_of_ne _ _ hne]

/-- The process of a core is gone. -/
theorem clearCurrent (h : Placed P) (hc : P.current c = some proc) :
    Placed (P.setCurrent c none) ∧
      (P.setCurrent c none).proc = Function.update P.proc (P.currentSlot c) none := by
  have hold : ∀ c', (P.setCurrent c none).current c' ≠ none → c' ≠ c ∧ P.current c' ≠ none := by
    intro c' hc'
    by_cases heq : c' = c
    · subst heq
      exact absurd (Procs.setCurrent_current_self _ _ _) hc'
    · rw [Procs.setCurrent_current_of_ne _ _ heq] at hc'
      exact ⟨heq, hc'⟩
  have hplaced : Placed (P.setCurrent c none) :=
    ⟨fun c' hc' => h.running c' (hold c' hc').2,
      fun c' c'' h' h'' heq => h.unique c' c'' (hold c' h').2 (hold c'' h'').2 heq,
      h.suspended⟩
  refine ⟨hplaced, ?_⟩
  have hne : P.current c ≠ none := by
    rw [hc]
    exact Option.some_ne_none proc
  funext q
  refine Option.ext fun prg => ?_
  rw [hplaced.proc_eq_some]
  by_cases hq : q = P.currentSlot c
  · subst hq
    rw [Function.update_self]
    constructor
    · rintro (htab | ⟨c', hslot, hcur⟩)
      · rw [Procs.setCurrent_table, (h.running c hne).2] at htab
        cases htab
      · have hc' := hold c' (by rw [hcur]; exact Option.some_ne_none prg)
        exact absurd (h.unique c' c hc'.2 hne hslot) hc'.1
    · intro hnone
      cases hnone
  · rw [Function.update_of_ne hq, h.proc_eq_some]
    refine or_congr Iff.rfl (exists_congr fun c' => and_congr_right fun hslot => ?_)
    have hne' : c' ≠ c := by
      rintro rfl
      exact hq hslot.symm
    rw [Procs.setCurrent_current_of_ne _ _ hne']

/-- A rewrite of a slot that keeps its process and its kind of state. -/
theorem setSlot_same (h : Placed P) {s : Slot} (hproc : s.process = (P.table p).process)
    (hrun : P.state p = .running → s.state = .running)
    (hsus : s.process ≠ none → s.state = .ready ∨ s.state = .blocked) :
    Placed (P.setSlot p s) := by
  refine ⟨fun c hc => ?_, h.unique, fun q hq => ?_⟩
  · obtain ⟨hrunning, hnone⟩ := h.running c hc
    rw [Procs.setSlot_currentSlot, Procs.setSlot_state]
    by_cases heq : P.currentSlot c = p
    · rw [heq, Function.update_self, Procs.setSlot_table_self, hproc, ← heq, hnone]
      exact ⟨hrun (heq ▸ hrunning), rfl⟩
    · rw [Function.update_of_ne heq, Procs.setSlot_table_of_ne _ _ heq]
      exact ⟨hrunning, hnone⟩
  · rw [Procs.setSlot_state]
    by_cases heq : q = p
    · subst heq
      rw [Procs.setSlot_table_self] at hq
      rw [Function.update_self]
      exact hsus hq
    · rw [Procs.setSlot_table_of_ne _ _ heq] at hq
      rw [Function.update_of_ne heq]
      exact h.suspended q hq

/-- A rewrite of a slot that no core runs, with or without a process. -/
theorem setSlot (h : Placed P) {s : Slot} (hidle : ∀ c, P.current c ≠ none → P.currentSlot c ≠ p)
    (hsus : s.process ≠ none → s.state = .ready ∨ s.state = .blocked) :
    Placed (P.setSlot p s) ∧
      (P.setSlot p s).proc = Function.update P.proc p s.process := by
  have hplaced : Placed (P.setSlot p s) := by
    refine ⟨fun c hc => ?_, h.unique, fun q hq => ?_⟩
    · have hne := hidle c hc
      rw [Procs.setSlot_currentSlot, Procs.setSlot_state, Function.update_of_ne hne,
        Procs.setSlot_table_of_ne _ _ hne]
      exact h.running c hc
    · rw [Procs.setSlot_state]
      by_cases heq : q = p
      · subst heq
        rw [Procs.setSlot_table_self] at hq
        rw [Function.update_self]
        exact hsus hq
      · rw [Procs.setSlot_table_of_ne _ _ heq] at hq
        rw [Function.update_of_ne heq]
        exact h.suspended q hq
  refine ⟨hplaced, ?_⟩
  funext q
  refine Option.ext fun prg => ?_
  rw [hplaced.proc_eq_some]
  by_cases hq : q = p
  · subst hq
    rw [Procs.setSlot_table_self, Function.update_self]
    refine ⟨?_, Or.inl⟩
    rintro (htab | ⟨c, hslot, hcur⟩)
    · exact htab
    · exact absurd hslot (hidle c (by
        rw [Procs.setSlot_current] at hcur
        rw [hcur]
        exact Option.some_ne_none prg))
  · rw [Procs.setSlot_table_of_ne _ _ hq, Function.update_of_ne hq, h.proc_eq_some]
    rfl

/-- No core runs a process that is in the table. -/
theorem idle_of_table (h : Placed P) (hp : (P.table p).process ≠ none) (c : Core)
    (hc : P.current c ≠ none) : P.currentSlot c ≠ p := by
  rintro rfl
  exact hp (h.running c hc).2

/-- No core runs a process whose slot is not in state `running`. -/
theorem idle_of_state (h : Placed P) (hp : P.state p ≠ .running) (c : Core)
    (hc : P.current c ≠ none) : P.currentSlot c ≠ p := by
  rintro rfl
  exact hp (h.running c hc).1

/-- A rewrite of the process in a slot of the table. -/
theorem setTableProc (h : Placed P) (hp : (P.table p).process = some proc) (proc' : Process) :
    Placed (P.setTableProc p (some proc')) ∧
      (P.setTableProc p (some proc')).proc = Function.update P.proc p (some proc') := by
  have hne : (P.table p).process ≠ none := by
    rw [hp]
    exact Option.some_ne_none proc
  exact h.setSlot (h.idle_of_table hne) fun _ => h.suspended p hne

/-- The process of a core is parked in its slot. -/
theorem park (h : Placed P) (hc : P.current c = some proc) {s : Slot}
    (hproc : s.process = some proc) (hstate : s.state = .ready ∨ s.state = .blocked) :
    Placed ((P.setSlot (P.currentSlot c) s).setCurrent c none) ∧
      ((P.setSlot (P.currentSlot c) s).setCurrent c none).proc = P.proc := by
  obtain ⟨hclear, hproc'⟩ := h.clearCurrent hc
  have hidle : ∀ c', (P.setCurrent c none).current c' ≠ none →
      (P.setCurrent c none).currentSlot c' ≠ P.currentSlot c := by
    intro c' hc' heq
    have hne : c' ≠ c := by
      rintro rfl
      exact hc' (Procs.setCurrent_current_self _ _ _)
    rw [Procs.setCurrent_current_of_ne _ _ hne] at hc'
    exact hne (h.unique c' c hc' (by rw [hc]; exact Option.some_ne_none proc) heq)
  obtain ⟨hset, hprocs⟩ := hclear.setSlot (s := s) hidle (fun _ => hstate)
  refine ⟨hset, ?_⟩
  change ((P.setCurrent c none).setSlot (P.currentSlot c) s).proc = P.proc
  rw [hprocs, hproc', Function.update_idem, hproc, ← h.proc_of_current hc,
    Function.update_eq_self]

/-- An idle core takes a ready process. -/
theorem resume (h : Placed P) {P' : Procs} (hres : P.resume c p = some P') :
    P.state p = .ready ∧ (∃ prg, (P.table p).process = some prg ∧ P'.current c = some prg) ∧
      P'.currentSlot c = p ∧ Placed P' ∧ P'.proc = P.proc ∧
      P'.state = Function.update P.state p .running ∧
      ∀ q, (P'.table q).bootFrames = (P.table q).bootFrames ∧
        (P'.table q).mail = (P.table q).mail := by
  unfold Procs.resume at hres
  split at hres
  · rename_i hcond
    obtain ⟨hready, hidle⟩ := hcond
    split at hres
    · cases hres
    · rename_i prg hprg
      simp only [Option.some.injEq] at hres
      have htable : P'.table = Function.update P.table p
          { P.table p with state := .running, process := none } := by
        rw [← hres]
        rfl
      have hcurrent : P'.current = Function.update P.current c (some prg) := by
        rw [← hres]
      have hslot : P'.currentSlot = Function.update P.currentSlot c p := by
        rw [← hres]
      have hfree : ∀ c', P.current c' ≠ none → P.currentSlot c' ≠ p :=
        h.idle_of_state (by rw [hready]; decide)
      have hother : ∀ c', c' ≠ c → P'.current c' = P.current c' ∧
          P'.currentSlot c' = P.currentSlot c' := by
        intro c' hne
        rw [hcurrent, hslot, Function.update_of_ne hne, Function.update_of_ne hne]
        exact ⟨rfl, rfl⟩
      have hself : P'.currentSlot c = p := by
        rw [hslot, Function.update_self]
      have hstate : P'.state = Function.update P.state p .running := by
        funext q
        unfold Procs.state
        rw [htable]
        by_cases hq : q = p
        · subst hq
          rw [Function.update_self, Function.update_self]
        · rw [Function.update_of_ne hq, Function.update_of_ne hq]
      have hplaced : Placed P' := by
        refine ⟨fun c' hc' => ?_, fun c₁ c₂ h₁ h₂ heq => ?_, fun q hq => ?_⟩
        · by_cases hc : c' = c
          · subst hc
            rw [hself, hstate, htable, Function.update_self, Function.update_self]
            exact ⟨rfl, rfl⟩
          · obtain ⟨hcur, hsl⟩ := hother c' hc
            rw [hcur] at hc'
            have hne := hfree c' hc'
            rw [hsl, hstate, htable, Function.update_of_ne hne, Function.update_of_ne hne]
            exact h.running c' hc'
        · by_cases hc₁ : c₁ = c
          · by_cases hc₂ : c₂ = c
            · rw [hc₁, hc₂]
            · obtain ⟨hcur, hsl⟩ := hother c₂ hc₂
              rw [hcur] at h₂
              rw [hc₁, hself, hsl] at heq
              exact absurd heq.symm (hfree c₂ h₂)
          · obtain ⟨hcur₁, hsl₁⟩ := hother c₁ hc₁
            rw [hcur₁] at h₁
            by_cases hc₂ : c₂ = c
            · rw [hc₂, hself, hsl₁] at heq
              exact absurd heq (hfree c₁ h₁)
            · obtain ⟨hcur₂, hsl₂⟩ := hother c₂ hc₂
              rw [hcur₂] at h₂
              rw [hsl₁, hsl₂] at heq
              exact h.unique c₁ c₂ h₁ h₂ heq
        · rw [htable] at hq
          rw [hstate]
          by_cases hqp : q = p
          · subst hqp
            rw [Function.update_self] at hq
            exact absurd rfl hq
          · rw [Function.update_of_ne hqp] at hq ⊢
            exact h.suspended q hq
      have hproc : P'.proc = P.proc := by
        funext q
        refine Option.ext fun x => ?_
        rw [hplaced.proc_eq_some, h.proc_eq_some]
        by_cases hqp : q = p
        · subst hqp
          constructor
          · rintro (htab | ⟨c', hsl, hcur⟩)
            · rw [htable, Function.update_self] at htab
              cases htab
            · by_cases hc : c' = c
              · subst hc
                rw [hcurrent, Function.update_self] at hcur
                exact Or.inl (hprg.trans hcur)
              · obtain ⟨hcur', hsl'⟩ := hother c' hc
                rw [hsl'] at hsl
                rw [hcur'] at hcur
                exact absurd hsl (hfree c' (by rw [hcur]; exact Option.some_ne_none x))
          · rintro (htab | ⟨c', hsl, hcur⟩)
            · right
              refine ⟨c, hself, ?_⟩
              rw [hcurrent, Function.update_self, ← hprg, htab]
            · exact absurd hsl (hfree c' (by rw [hcur]; exact Option.some_ne_none x))
        · rw [htable, Function.update_of_ne hqp]
          refine or_congr Iff.rfl (exists_congr fun c' => ?_)
          by_cases hc : c' = c
          · subst hc
            rw [hself, hidle]
            exact iff_of_false (fun hx => hqp hx.1.symm) (fun hx => by cases hx.2)
          · obtain ⟨hcur, hsl⟩ := hother c' hc
            rw [hcur, hsl]
      refine ⟨hready, ⟨prg, hprg, by rw [hcurrent, Function.update_self]⟩, hself, hplaced,
        hproc, hstate, fun q => ?_⟩
      rw [htable]
      by_cases hqp : q = p
      · subst hqp
        rw [Function.update_self]
        exact ⟨rfl, rfl⟩
      · rw [Function.update_of_ne hqp]
        exact ⟨rfl, rfl⟩
  · cases hres

/-- To clear origins rewrites every live process in its place. -/
theorem clearOriginsNaming (h : Placed P) (p : ProcSlot) :
    Placed (P.clearOriginsNaming p) ∧ (P.clearOriginsNaming p).proc = fun q =>
      (P.proc q).map fun proc => proc.setCaps (proc.caps.clearOrigin p) := by
  have hcur : ∀ c, (P.clearOriginsNaming p).current c ≠ none → P.current c ≠ none := by
    intro c hc hnone
    exact hc (by simp [Procs.clearOriginsNaming, hnone])
  have htab : ∀ q, ((P.clearOriginsNaming p).table q).process ≠ none →
      (P.table q).process ≠ none := by
    intro q hq hnone
    exact hq (by simp [Procs.clearOriginsNaming, hnone])
  have hplaced : Placed (P.clearOriginsNaming p) := by
    refine ⟨fun c hc => ?_, fun c c' hc hc' heq => h.unique c c' (hcur c hc) (hcur c' hc') heq,
      fun q hq => h.suspended q (htab q hq)⟩
    obtain ⟨hrun, hnone⟩ := h.running c (hcur c hc)
    refine ⟨hrun, ?_⟩
    change Option.map _ (P.table (P.currentSlot c)).process = none
    rw [hnone]
    rfl
  refine ⟨hplaced, ?_⟩
  funext q
  refine Option.ext fun x => ?_
  rw [hplaced.proc_eq_some, Option.map_eq_some_iff]
  constructor
  · rintro (hx | ⟨c, hsl, hx⟩)
    · obtain ⟨old, hold, heq⟩ := Option.map_eq_some_iff.mp hx
      exact ⟨old, h.proc_of_table hold, heq⟩
    · obtain ⟨old, hold, heq⟩ := Option.map_eq_some_iff.mp hx
      exact ⟨old, h.proc_eq_some.mpr (Or.inr ⟨c, hsl, hold⟩), heq⟩
  · rintro ⟨old, hold, heq⟩
    rcases h.proc_eq_some.mp hold with htable | ⟨c, hsl, hc⟩
    · exact Or.inl (Option.map_eq_some_iff.mpr ⟨old, htable, heq⟩)
    · exact Or.inr ⟨c, hsl, Option.map_eq_some_iff.mpr ⟨old, hc, heq⟩⟩

end Placed

/-! ### Writes of one process -/

/-- `P'` is `P` with the process of slot `q` rewritten in its place. -/
structure Writes (P : Procs) (q : ProcSlot) (proc : Process) (P' : Procs) : Prop where
  placed : Placed P'
  proc : P'.proc = Function.update P.proc q (some proc)
  slots : ∀ p, P'.table p = { P.table p with process := (P'.table p).process }
  seats : ∀ p, (P'.table p).process ≠ none ↔ (P.table p).process ≠ none
  current : ∀ c, P'.current c ≠ none ↔ P.current c ≠ none
  currentSlot : P'.currentSlot = P.currentSlot
  stray : P'.strayWakes = P.strayWakes

namespace Placed

variable {P : Procs} {p : ProcSlot} {proc : Process} {c : Core}

theorem writes_current (h : Placed P) (hc : P.current c = some proc) (proc' : Process) :
    Writes P (P.currentSlot c) proc' (P.setCurrent c (some proc')) := by
  obtain ⟨hplaced, hproc⟩ := h.setCurrent hc proc'
  refine ⟨hplaced, hproc, fun p => rfl, fun p => Iff.rfl, fun c' => ?_, rfl, rfl⟩
  by_cases heq : c' = c
  · subst heq
    rw [Procs.setCurrent_current_self, hc]
    exact iff_of_true (Option.some_ne_none _) (Option.some_ne_none _)
  · rw [Procs.setCurrent_current_of_ne _ _ heq]

theorem writes_table (h : Placed P) (hp : (P.table p).process = some proc) (proc' : Process) :
    Writes P p proc' (P.setTableProc p (some proc')) := by
  obtain ⟨hplaced, hproc⟩ := h.setTableProc hp proc'
  refine ⟨hplaced, hproc, fun q => ?_, fun q => ?_, fun c => Iff.rfl, rfl, rfl⟩
  · unfold Procs.setTableProc
    by_cases hq : q = p
    · subst hq
      rw [Procs.setSlot_table_self]
    · rw [Procs.setSlot_table_of_ne _ _ hq]
  · unfold Procs.setTableProc
    by_cases hq : q = p
    · subst hq
      rw [Procs.setSlot_table_self, hp]
      exact iff_of_true (Option.some_ne_none _) (Option.some_ne_none _)
    · rw [Procs.setSlot_table_of_ne _ _ hq]

end Placed

/-! ### Running a function on one table -/

namespace Procs

variable {α : Type} {P P' : Procs} {p : ProcSlot} {proc : Process} {c : Core}
  {f : CapTable → Option (α × CapTable)} {a : α}

theorem onCurrent_eq_some : P.onCurrent c f = some (a, P') ↔
    ∃ proc t, P.current c = some proc ∧ f proc.caps = some (a, t) ∧
      P' = P.setCurrent c (some (proc.setCaps t)) := by
  unfold onCurrent
  constructor
  · intro h
    split at h
    · cases h
    · rename_i proc hproc
      split at h
      · cases h
      · rename_i b t hf
        simp only [Option.some.injEq, Prod.mk.injEq] at h
        obtain ⟨rfl, rfl⟩ := h
        exact ⟨proc, t, hproc, hf, rfl⟩
  · rintro ⟨proc, t, hproc, hf, rfl⟩
    simp only [hproc, hf]

theorem onCurrent_eq_none (hc : P.current c = some proc) :
    P.onCurrent c f = none ↔ f proc.caps = none := by
  unfold onCurrent
  simp only [hc]
  split
  · rename_i hf
    exact iff_of_true rfl hf
  · rename_i b t hf
    rw [hf]
    exact iff_of_false (fun h => by cases h) (fun h => by cases h)

theorem onTable_eq_some : P.onTable p f = some (a, P') ↔
    ∃ proc t, (P.table p).process = some proc ∧ f proc.caps = some (a, t) ∧
      P' = P.setTableProc p (some (proc.setCaps t)) := by
  unfold onTable
  constructor
  · intro h
    split at h
    · cases h
    · rename_i proc hproc
      split at h
      · cases h
      · rename_i b t hf
        simp only [Option.some.injEq, Prod.mk.injEq] at h
        obtain ⟨rfl, rfl⟩ := h
        exact ⟨proc, t, hproc, hf, rfl⟩
  · rintro ⟨proc, t, hproc, hf, rfl⟩
    simp only [hproc, hf]

theorem onTable_eq_none (hp : (P.table p).process = some proc) :
    P.onTable p f = none ↔ f proc.caps = none := by
  unfold onTable
  simp only [hp]
  split
  · rename_i hf
    exact iff_of_true rfl hf
  · rename_i b t hf
    rw [hf]
    exact iff_of_false (fun h => by cases h) (fun h => by cases h)

/-- `with_lender_caps` finds no process exactly if the slot has none. -/
theorem withLenderCaps_eq_none (h : Placed P) :
    P.withLenderCaps p f = none ↔ P.proc p = none := by
  unfold withLenderCaps proc
  cases htab : (P.table p).process with
  | some proc =>
    simp
  | none =>
    cases hcore : P.coreOf p with
    | none => simp
    | some c =>
      obtain ⟨-, hc⟩ := Placed.coreOf_some hcore
      simpa using hc

/-- `with_lender_caps` runs `f` on the table of the live process, wherever it is. -/
theorem withLenderCaps_eq_some (h : Placed P) (hp : P.proc p = some proc) :
    (f proc.caps = none ∧ P.withLenderCaps p f = some none) ∨
      ∃ a t P', f proc.caps = some (a, t) ∧ P.withLenderCaps p f = some (some (a, P')) ∧
        Writes P p (proc.setCaps t) P' := by
  unfold withLenderCaps
  cases htab : (P.table p).process with
  | some prg =>
    have heq : prg = proc := by
      rw [h.proc_of_table htab, Option.some.injEq] at hp
      exact hp
    subst heq
    dsimp only
    cases hf : f prg.caps with
    | none => exact Or.inl ⟨rfl, by rw [(onTable_eq_none htab).mpr hf]⟩
    | some r =>
      obtain ⟨a, t⟩ := r
      refine Or.inr ⟨a, t, _, rfl, ?_, h.writes_table htab _⟩
      rw [onTable_eq_some.mpr ⟨prg, t, htab, hf, rfl⟩]
  | none =>
    rcases h.proc_eq_some.mp hp with hno | ⟨c, rfl, hc⟩
    · rw [htab] at hno
      cases hno
    · have hne : P.current c ≠ none := by
        rw [hc]
        exact Option.some_ne_none proc
      simp only [h.coreOf_eq hne]
      cases hf : f proc.caps with
      | none => exact Or.inl ⟨rfl, by rw [(onCurrent_eq_none hc).mpr hf]⟩
      | some r =>
        obtain ⟨a, t⟩ := r
        refine Or.inr ⟨a, t, _, rfl, ?_, h.writes_current hc _⟩
        rw [onCurrent_eq_some.mpr ⟨proc, t, hc, hf, rfl⟩]

end Procs

end Plinth
