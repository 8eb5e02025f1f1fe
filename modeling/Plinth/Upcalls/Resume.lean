import Plinth.Upcalls.System

/-!
# `Plinth.Upcalls.Resume`: what a fault resumes

There is one saved context on the machine, and a process is marked while its handler runs. The mark
keeps a process from a second fault, but not the saved context from the fault of another process:
`stolenRun` has a process that resumes with the registers of the other one.

`resumes_own` says what is true. If no fault of another process is delivered between a fault and
the end of its resume, the process has all its registers back.
-/

set_option autoImplicit false

namespace Plinth

open Transition

namespace Upcalls

variable {s t : State} {ℓ : Label} {hist : List (State × Label)} {core core' p p' : Nat}
  {proc : Proc}

/-! ### States -/

namespace State

theorem current_eq (h : s.current core = some (p, proc)) :
    s.cores core = .user p ∧ s.procs p = some proc := by
  unfold current at h
  split at h
  · rename_i p' hcore
    rw [Option.map_eq_some_iff] at h
    obtain ⟨proc', hproc, heq⟩ := h
    cases heq
    exact ⟨hcore, hproc⟩
  · cases h

@[simp] theorem setProc_self (v : Option Proc) : (s.setProc p v).procs p = v :=
  Function.update_self ..

theorem setProc_of_ne (v : Option Proc) (h : p' ≠ p) : (s.setProc p v).procs p' = s.procs p' :=
  Function.update_of_ne h ..

@[simp] theorem setCore_self (c : CoreState) : (s.setCore core c).cores core = c :=
  Function.update_self ..

theorem setCore_of_ne (c : CoreState) (h : core' ≠ core) :
    (s.setCore core c).cores core' = s.cores core' :=
  Function.update_of_ne h ..

end State

/-! ### A process is on one core -/

/-- The process of a core is marked as running. -/
def Marked (procs : Nat → Option Proc) (p : Nat) : Prop :=
  ∃ proc, procs p = some proc ∧ proc.running = true

/-- A core that has a process has it alone. -/
structure Placed (s : State) : Prop where
  marked : ∀ core p, (s.cores core).proc? = some p → Marked s.procs p
  alone : ∀ core core' p, (s.cores core).proc? = some p → (s.cores core').proc? = some p →
    core = core'

/-- Processes change, but the ones on a core stay marked, and a core keeps its process. -/
theorem Placed.keep (h : Placed s) (hcores : ∀ c, (t.cores c).proc? = (s.cores c).proc?)
    (hprocs : ∀ c q, (s.cores c).proc? = some q → Marked s.procs q → Marked t.procs q) :
    Placed t := by
  refine ⟨fun c q hq => ?_, fun c c' q hq hq' => ?_⟩
  · rw [hcores] at hq
    exact hprocs c q hq (h.marked c q hq)
  · rw [hcores] at hq hq'
    exact h.alone c c' q hq hq'

/-- The process of a core is changed, and the core keeps it. -/
theorem Placed.setProc (h : Placed s) {v : Proc}
    (hmark : ∀ c, (s.cores c).proc? = some p → v.running = true) :
    Placed (s.setProc p (some v)) := by
  refine h.keep (fun _ => rfl) fun c q hq hmarked => ?_
  by_cases heq : q = p
  · subst heq
    exact ⟨v, State.setProc_self _, hmark c hq⟩
  · obtain ⟨proc, hproc, hrunning⟩ := hmarked
    exact ⟨proc, (State.setProc_of_ne _ heq).trans hproc, hrunning⟩

/-- A core gives its process up. -/
theorem Placed.drop (h : Placed s) (hcore : (s.cores core).proc? = some p) (v : Option Proc) :
    Placed ((s.setProc p v).setCore core .idle) := by
  have hother : ∀ c q, (((s.setProc p v).setCore core .idle).cores c).proc? = some q →
      c ≠ core ∧ (s.cores c).proc? = some q := by
    intro c q hq
    by_cases heq : c = core
    · rw [heq, State.setCore_self] at hq
      cases hq
    · rw [State.setCore_of_ne _ heq] at hq
      exact ⟨heq, hq⟩
  refine ⟨fun c q hq => ?_,
    fun c c' q hq hq' => h.alone c c' q (hother c q hq).2 (hother c' q hq').2⟩
  obtain ⟨hne, hold⟩ := hother c q hq
  obtain ⟨proc, hproc, hrunning⟩ := h.marked c q hold
  refine ⟨proc, ?_, hrunning⟩
  have hpq : q ≠ p := by
    rintro rfl
    exact hne (h.alone c core q hold hcore)
  exact (State.setProc_of_ne v hpq).trans hproc

/-- A core changes what it does with its process. -/
theorem Placed.setCore (h : Placed s) {c : CoreState}
    (hsame : c.proc? = (s.cores core).proc?) : Placed (s.setCore core c) := by
  refine h.keep (fun c' => ?_) fun _ _ _ hmarked => hmarked
  by_cases heq : c' = core
  · rw [heq, State.setCore_self, hsame]
  · rw [State.setCore_of_ne _ heq]

/-- A core takes a process that no core has. -/
theorem Placed.take (h : Placed s) {v : Proc}
    (hproc : s.procs p = some proc) (hfree : proc.running = false) (hmark : v.running = true) :
    Placed ((s.setProc p (some v)).setCore core (.user p)) := by
  have hnone : ∀ c, (s.cores c).proc? ≠ some p := by
    intro c hc
    obtain ⟨proc', hproc', hrunning⟩ := h.marked c p hc
    rw [hproc, Option.some.injEq] at hproc'
    rw [← hproc', hfree] at hrunning
    cases hrunning
  have hcases : ∀ c q, (((s.setProc p (some v)).setCore core (.user p)).cores c).proc? = some q →
      (c = core ∧ q = p) ∨ (c ≠ core ∧ q ≠ p ∧ (s.cores c).proc? = some q) := by
    intro c q hq
    by_cases heq : c = core
    · rw [heq, State.setCore_self] at hq
      exact Or.inl ⟨heq, (Option.some.inj hq).symm⟩
    · rw [State.setCore_of_ne _ heq] at hq
      refine Or.inr ⟨heq, ?_, hq⟩
      rintro rfl
      exact hnone c hq
  refine ⟨fun c q hq => ?_, fun c c' q hq hq' => ?_⟩
  · rcases hcases c q hq with ⟨-, rfl⟩ | ⟨-, hne, hq⟩
    · exact ⟨v, State.setProc_self _, hmark⟩
    · obtain ⟨proc', hproc', hrunning⟩ := h.marked c q hq
      exact ⟨proc', (State.setProc_of_ne _ hne).trans hproc', hrunning⟩
  · rcases hcases c q hq with ⟨hc, hqp⟩ | ⟨-, hne, hq⟩
    · rcases hcases c' q hq' with ⟨hc', -⟩ | ⟨-, hne, -⟩
      · rw [hc, hc']
      · exact absurd hqp hne
    · rcases hcases c' q hq' with ⟨-, hqp⟩ | ⟨-, -, hq'⟩
      · exact absurd hqp hne
      · exact h.alone c c' q hq hq'

/-- The process of a core in ring 3. -/
theorem Placed.current_running (h : Placed s) (hcur : s.current core = some (p, proc)) :
    (s.cores core).proc? = some p ∧ s.procs p = some proc ∧ proc.running = true := by
  obtain ⟨hcore, hproc⟩ := State.current_eq hcur
  have hmine : (s.cores core).proc? = some p := by
    rw [hcore]
    rfl
  obtain ⟨proc', hproc', hrunning⟩ := h.marked core p hmine
  rw [hproc, Option.some.injEq] at hproc'
  subst hproc'
  exact ⟨hmine, hproc, hrunning⟩

theorem Placed.step (h : Placed s) (hnext : next s ℓ = some t) : Placed t := by
  unfold next at hnext
  cases ℓ with
  | spawn p context =>
    dsimp only at hnext
    split at hnext
    · cases hnext
    · rename_i hnone
      cases hnext
      refine h.setProc fun c hc => ?_
      obtain ⟨proc, hproc, -⟩ := h.marked c p hc
      rw [hnone] at hproc
      cases hproc
  | run core context =>
    dsimp only at hnext
    split at hnext
    · cases hnext
    · rename_i p proc hcur
      cases hnext
      exact h.setProc fun _ _ => (h.current_running hcur).2.2
  | wake p context =>
    dsimp only at hnext
    split at hnext
    · cases hnext
    · rename_i proc hproc
      split at hnext
      · cases hnext
      · cases hnext
        refine h.setProc fun c hc => ?_
        obtain ⟨proc', hproc', hrunning⟩ := h.marked c p hc
        rw [hproc, Option.some.injEq] at hproc'
        subst hproc'
        exact hrunning
  | faultReg core entry stackTop =>
    dsimp only at hnext
    split at hnext
    · cases hnext
    · rename_i p proc hcur
      split at hnext
      · cases hnext
        exact h
      · cases hnext
        exact h.setProc fun _ _ => (h.current_running hcur).2.2
  | pageFault core notPresent cr2 left =>
    dsimp only at hnext
    split at hnext
    · cases hnext
    · rename_i p proc hcur
      obtain ⟨hmine, -, hrunning⟩ := h.current_running hcur
      split at hnext
      · rename_i reg _
        cases hnext
        exact (h.setProc (v := { proc with
          inFault := true, context := handlerContext left reg cr2 }) fun _ _ => hrunning).keep
          (fun _ => rfl) fun _ _ _ hmarked => hmarked
      · cases hnext
        exact h.drop hmine none
  | faultReturn core =>
    dsimp only at hnext
    split at hnext
    · cases hnext
    · rename_i p proc hcur
      obtain ⟨hmine, -, hrunning⟩ := h.current_running hcur
      split at hnext
      · cases hnext
        refine (h.setProc fun _ _ => ?_).setCore hmine.symm
        exact hrunning
      · cases hnext
        exact h
  | load core =>
    dsimp only at hnext
    split at hnext
    · rename_i p n loaded hcore
      have hmine : (s.cores core).proc? = some p := by
        rw [hcore]
        rfl
      split at hnext
      · split at hnext
        · cases hnext
          exact h.setCore hmine.symm
        · split at hnext
          · cases hnext
          · rename_i proc hproc
            cases hnext
            refine (h.setProc fun _ _ => ?_).setCore hmine.symm
            obtain ⟨proc', hproc', hrunning⟩ := h.marked core p hmine
            rw [hproc, Option.some.injEq] at hproc'
            subst hproc'
            exact hrunning
      · cases hnext
    · cases hnext
  | leave core =>
    dsimp only at hnext
    split at hnext
    · cases hnext
    · rename_i p proc hcur
      cases hnext
      exact h.drop (h.current_running hcur).1 _
  | dispatch core p =>
    dsimp only at hnext
    split at hnext
    · rename_i proc _ hproc
      split at hnext
      · cases hnext
      · rename_i hfree
        cases hnext
        rw [Bool.not_eq_true] at hfree
        exact h.take hproc hfree rfl
    · cases hnext
  | exit core =>
    dsimp only at hnext
    split at hnext
    · cases hnext
    · rename_i p proc hcur
      cases hnext
      exact h.drop (h.current_running hcur).1 none

/-! ### The saved context -/

/-- How a core that resumes a process came to what it has loaded: it had it before, it starts, or
it has loaded one more word. -/
def Loads (s : State) (core p n : Nat) (loaded : Context) : Prop :=
  s.cores core = .resuming p n loaded ∨
  (n = 0 ∧ ∃ proc, s.procs p = some proc ∧ proc.inFault = true) ∨
  ∃ n' h l, s.cores core = .resuming p n' l ∧ n = n' + 1 ∧
    loaded = Function.update l ⟨n', h⟩ (s.savedTrap ⟨n', h⟩)

/-- A step that delivers no fault. -/
structure Quiet (s t : State) : Prop where
  saved : t.savedTrap = s.savedTrap
  marks : ∀ p proc, t.procs p = some proc → proc.inFault = true →
    ∃ proc', s.procs p = some proc' ∧ proc'.inFault = true
  loads : ∀ core p n loaded, t.cores core = .resuming p n loaded → Loads s core p n loaded

/-- The saved context is the one of the last fault, and so is what a core has loaded. -/
structure Saved (hist : List (State × Label)) (s : State) : Prop where
  saved : ∀ p c, undisturbed p hist = true → lastFault p hist = some c → s.savedTrap = c
  faulted : ∀ p proc, s.procs p = some proc → proc.inFault = true → lastFault p hist ≠ none
  resuming : ∀ core p n loaded, s.cores core = .resuming p n loaded →
    lastFault p hist ≠ none ∧
      ∀ c, undisturbed p hist = true → lastFault p hist = some c →
        ∀ i : Fin frameWords, i.val < n → loaded i = c i

theorem Saved.quiet (h : Saved hist s) (hdelivers : delivers s ℓ = none) (hquiet : Quiet s t) :
    Saved ((s, ℓ) :: hist) t := by
  have hlast : ∀ p, lastFault p ((s, ℓ) :: hist) = lastFault p hist := by
    intro p
    rw [lastFault, hdelivers]
  have hsame : ∀ p, undisturbed p ((s, ℓ) :: hist) = undisturbed p hist := by
    intro p
    rw [undisturbed, hdelivers]
  refine ⟨fun p c hu hl => ?_, fun p proc hproc hin => ?_, fun core p n loaded hcore => ?_⟩
  · rw [hlast] at hl
    rw [hsame] at hu
    rw [hquiet.saved]
    exact h.saved p c hu hl
  · rw [hlast]
    obtain ⟨proc', hproc', hin'⟩ := hquiet.marks p proc hproc hin
    exact h.faulted p proc' hproc' hin'
  · rw [hlast, hsame]
    rcases hquiet.loads core p n loaded hcore with hold | ⟨rfl, proc, hproc, hin⟩ | hmore
    · exact h.resuming core p n loaded hold
    · exact ⟨h.faulted p proc hproc hin, fun _ _ _ _ hi => absurd hi (Nat.not_lt_zero _)⟩
    · obtain ⟨n', hn', l, hold, rfl, rfl⟩ := hmore
      obtain ⟨hfaulted, hwords⟩ := h.resuming core p n' l hold
      refine ⟨hfaulted, fun c hu hl i hi => ?_⟩
      by_cases heq : i = ⟨n', hn'⟩
      · rw [heq, Function.update_self, h.saved p c hu hl]
      · rw [Function.update_of_ne heq]
        have hne : i.val ≠ n' := fun hval => heq (Fin.ext hval)
        exact hwords c hu hl i (by omega)

/-! ### Steps that deliver no fault -/

theorem Quiet.refl (s : State) : Quiet s s :=
  ⟨rfl, fun _ proc hproc hin => ⟨proc, hproc, hin⟩, fun _ _ _ _ hcore => Or.inl hcore⟩

/-- A process changes, but it is not marked now if it was not before. -/
theorem Quiet.setProc {v : Option Proc} (hv : ∀ proc, v = some proc → proc.inFault = true →
    ∃ proc', s.procs p = some proc' ∧ proc'.inFault = true) : Quiet s (s.setProc p v) := by
  refine ⟨rfl, fun q proc hproc hin => ?_, fun _ _ _ _ hcore => Or.inl hcore⟩
  by_cases heq : q = p
  · subst heq
    rw [State.setProc_self] at hproc
    exact hv proc hproc hin
  · rw [State.setProc_of_ne _ heq] at hproc
    exact ⟨proc, hproc, hin⟩

theorem Quiet.setCore (h : Quiet s t) {c : CoreState}
    (hc : ∀ p n loaded, c = .resuming p n loaded → Loads s core p n loaded) :
    Quiet s (t.setCore core c) := by
  refine ⟨h.saved, h.marks, fun c' q n loaded hq => ?_⟩
  by_cases heq : c' = core
  · subst heq
    rw [State.setCore_self] at hq
    exact hc q n loaded hq
  · rw [State.setCore_of_ne _ heq] at hq
    exact h.loads c' q n loaded hq

theorem quiet_of_step (hdelivers : delivers s ℓ = none) (hnext : next s ℓ = some t) :
    Quiet s t := by
  unfold next at hnext
  cases ℓ with
  | spawn p context =>
    dsimp only at hnext
    split at hnext
    · cases hnext
    · cases hnext
      refine Quiet.setProc fun proc heq hin => ?_
      cases heq
      cases hin
  | run core context =>
    dsimp only at hnext
    split at hnext
    · cases hnext
    · rename_i p proc hcur
      cases hnext
      refine Quiet.setProc fun proc' heq hin => ?_
      cases heq
      exact ⟨proc, (State.current_eq hcur).2, hin⟩
  | wake p context =>
    dsimp only at hnext
    split at hnext
    · cases hnext
    · rename_i proc hproc
      split at hnext
      · cases hnext
      · cases hnext
        refine Quiet.setProc fun proc' heq hin => ?_
        cases heq
        exact ⟨proc, hproc, hin⟩
  | faultReg core entry stackTop =>
    dsimp only at hnext
    split at hnext
    · cases hnext
    · rename_i p proc hcur
      split at hnext
      · cases hnext
        exact .refl s
      · cases hnext
        refine Quiet.setProc fun proc' heq hin => ?_
        cases heq
        exact ⟨proc, (State.current_eq hcur).2, hin⟩
  | pageFault core notPresent cr2 left =>
    unfold delivers at hdelivers
    dsimp only at hnext hdelivers
    split at hnext
    · cases hnext
    · rename_i p proc hcur
      rw [hcur] at hdelivers
      dsimp only at hdelivers
      split at hnext
      · rename_i reg hreg
        rw [hreg] at hdelivers
        cases hdelivers
      · cases hnext
        exact (Quiet.setProc (v := none) nofun).setCore nofun
  | faultReturn core =>
    dsimp only at hnext
    split at hnext
    · cases hnext
    · rename_i p proc hcur
      split at hnext
      · rename_i hin
        cases hnext
        refine Quiet.setCore (Quiet.setProc fun proc' heq hin' => ?_) fun q n loaded heq => ?_
        · cases heq
          cases hin'
        · cases heq
          exact Or.inr (Or.inl ⟨rfl, proc, (State.current_eq hcur).2, hin⟩)
      · cases hnext
        exact .refl s
  | load core =>
    dsimp only at hnext
    split at hnext
    · rename_i p n loaded hcore
      split at hnext
      · rename_i hlt
        split at hnext
        · cases hnext
          refine (Quiet.refl s).setCore fun q m l heq => ?_
          cases heq
          exact Or.inr (Or.inr ⟨n, hlt, loaded, hcore, rfl, rfl⟩)
        · split at hnext
          · cases hnext
          · rename_i proc hproc
            cases hnext
            refine (Quiet.setProc fun proc' heq hin => ?_).setCore nofun
            cases heq
            exact ⟨proc, hproc, hin⟩
      · cases hnext
    · cases hnext
  | leave core =>
    dsimp only at hnext
    split at hnext
    · cases hnext
    · rename_i p proc hcur
      cases hnext
      refine (Quiet.setProc fun proc' heq hin => ?_).setCore nofun
      cases heq
      exact ⟨proc, (State.current_eq hcur).2, hin⟩
  | dispatch core p =>
    dsimp only at hnext
    split at hnext
    · rename_i proc _ hproc
      split at hnext
      · cases hnext
      · cases hnext
        refine (Quiet.setProc fun proc' heq hin => ?_).setCore nofun
        cases heq
        exact ⟨proc, hproc, hin⟩
    · cases hnext
  | exit core =>
    dsimp only at hnext
    split at hnext
    · cases hnext
    · cases hnext
      exact (Quiet.setProc (v := none) nofun).setCore nofun

/-! ### Runs -/

/-- A fault that is delivered. -/
theorem delivers_eq {c : Context} (h : delivers s ℓ = some (p, c)) (hnext : next s ℓ = some t) :
    ∃ core proc v, s.current core = some (p, proc) ∧ c = proc.context ∧ t.savedTrap = c ∧
      t.procs = Function.update s.procs p (some v) ∧ t.cores = s.cores := by
  cases ℓ with
  | pageFault core notPresent cr2 left =>
    unfold delivers at h
    unfold next at hnext
    dsimp only at h hnext
    split at h
    · cases h
    · rename_i p' proc hcur
      rw [hcur] at hnext
      dsimp only at hnext
      split at h
      · rename_i reg hreg
        rw [hreg] at hnext
        cases h
        cases hnext
        exact ⟨core, proc, _, hcur, rfl, rfl, rfl, rfl⟩
      · cases h
  | _ => cases h

theorem Saved.deliver (h : Saved hist s) (hplaced : Placed s) {c : Context}
    (hdelivers : delivers s ℓ = some (p, c)) (hnext : next s ℓ = some t) :
    Saved ((s, ℓ) :: hist) t := by
  obtain ⟨core, proc, v, hcur, -, hsaved, hprocs, hcores⟩ := delivers_eq hdelivers hnext
  have hlast : ∀ q, lastFault q ((s, ℓ) :: hist) = if p = q then some c else lastFault q hist := by
    intro q
    rw [lastFault, hdelivers]
  have hsame : ∀ q, undisturbed q ((s, ℓ) :: hist) = decide (p = q) := by
    intro q
    rw [undisturbed, hdelivers]
  refine ⟨fun q c' hu hl => ?_, fun q proc' hproc' hin => ?_, fun core' q n loaded hcore => ?_⟩
  · rw [hsame, decide_eq_true_eq] at hu
    rw [hlast, if_pos hu, Option.some.injEq] at hl
    exact hsaved.trans hl
  · rw [hlast]
    split
    · exact Option.some_ne_none c
    · rename_i hne
      rw [hprocs, Function.update_of_ne (fun heq => hne heq.symm)] at hproc'
      exact h.faulted q proc' hproc' hin
  · rw [hcores] at hcore
    -- The process that faults is in ring 3, so it is not the one that the core resumes.
    have hne : p ≠ q := by
      rintro rfl
      have hmine := (hplaced.current_running hcur).1
      have hother : (s.cores core').proc? = some p := by
        rw [hcore]
        rfl
      have heq := hplaced.alone core core' p hmine hother
      rw [heq] at hcur
      have huser := (State.current_eq hcur).1
      rw [hcore] at huser
      cases huser
    rw [hlast, if_neg hne, hsame]
    refine ⟨(h.resuming core' q n loaded hcore).1, fun c' hu => ?_⟩
    rw [decide_eq_true_eq] at hu
    exact absurd hu hne

/-- What is true of every run. -/
theorem saved_of_run (run : Run system always hist s) : Placed s ∧ Saved hist s := by
  induction run with
  | start hinit =>
    obtain ⟨hprocs, hcores⟩ := hinit
    refine ⟨⟨fun c q hq => ?_, fun c c' q hq _ => ?_⟩,
      ⟨fun _ _ _ hl => (nomatch hl), fun q proc hproc _ => ?_, fun c q n loaded hcore => ?_⟩⟩
    · rw [hcores c] at hq
      cases hq
    · rw [hcores c] at hq
      cases hq
    · rw [hprocs q] at hproc
      cases hproc
    · rw [hcores c] at hcore
      cases hcore
  | @step hist s t ℓ run _ hnext ih =>
    obtain ⟨hplaced, hsaved⟩ := ih
    refine ⟨hplaced.step hnext, ?_⟩
    cases hdelivers : delivers s ℓ with
    | none => exact hsaved.quiet hdelivers (quiet_of_step hdelivers hnext)
    | some d =>
      obtain ⟨p, c⟩ := d
      exact hsaved.deliver hplaced hdelivers hnext

/-- A process that `fault_return` resumes has the registers of its fault, if no fault of another
process was delivered since. -/
theorem resumes_own (run : Run system always hist s) (hresumes : resumes s ℓ = some p)
    (hnext : next s ℓ = some t) (hundisturbed : undisturbed p hist = true) :
    ∃ proc, t.procs p = some proc ∧ lastFault p hist = some proc.context := by
  obtain ⟨-, hsaved⟩ := saved_of_run run
  cases ℓ with
  | load core =>
    unfold resumes at hresumes
    unfold next at hnext
    dsimp only at hresumes hnext
    split at hresumes
    · rename_i q n loaded hcore
      split at hresumes
      · rename_i hn
        cases hresumes
        obtain ⟨hfaulted, hwords⟩ := hsaved.resuming core p n loaded hcore
        obtain ⟨c, hc⟩ := Option.ne_none_iff_exists'.mp hfaulted
        rw [hcore] at hnext
        dsimp only at hnext
        rw [dif_pos (by omega), if_neg (by omega)] at hnext
        split at hnext
        · cases hnext
        · cases hnext
          refine ⟨_, State.setProc_self _, ?_⟩
          rw [hc]
          refine congrArg some (funext fun i => ?_)
          dsimp only
          by_cases heq : i.val = n
          · have hi : i = ⟨n, by omega⟩ := Fin.ext heq
            rw [hi, Function.update_self, hsaved.saved p c hundisturbed hc]
          · have hi : i ≠ ⟨n, by omega⟩ := fun h => heq (congrArg Fin.val h)
            have hlt := i.isLt
            rw [Function.update_of_ne hi, hwords c hundisturbed hc i (by omega)]
      · cases hresumes
    · cases hresumes
  | _ => cases hresumes

/-! ### Two processes -/

/-- No process, and every core idle. -/
def idle : State := ⟨fun _ => 0, fun _ => none, fun _ => .idle⟩

theorem idle_init : system.init idle := ⟨fun _ => rfl, fun _ => rfl⟩

/-- A context with a value of rip. -/
def contextAt (rip : UInt64) : Context := Function.update (fun _ => 0) 15 rip

/-- Process 0 faults on core 0, with rip 0x1000. -/
def faultOfFirst : List Label :=
  [.spawn 0 (contextAt 0x1000), .dispatch 0 0, .faultReg 0 0x9000 0x8000,
    .pageFault 0 true 0x18000000 (contextAt 0)]

/-- Its handler blocks, and process 1 faults on the core, with rip 0x2000. -/
def faultOfSecond : List Label :=
  [.leave 0, .spawn 1 (contextAt 0x2000), .dispatch 0 1, .faultReg 0 0x9000 0x8000,
    .pageFault 0 true 0x18000000 (contextAt 0), .leave 0, .dispatch 0 0]

/-- The return from a handler, up to the last word. -/
def returns : List Label := .faultReturn 0 :: List.replicate 19 (.load 0)

/-- Process 0 has its registers back if it is alone. -/
theorem resumes_own_alone : ∃ hist, ∃ t : State, ∃ proc, t.procs 0 = some proc ∧
    lastFault 0 hist = some proc.context ∧ (lastFault 0 hist).map (· 15) = some 0x1000 := by
  have hsome : (next (system.runFrom idle (faultOfFirst ++ returns)) (.load 0)).isSome := by
    decide +kernel
  obtain ⟨t, ht⟩ := Option.isSome_iff_exists.mp hsome
  obtain ⟨proc, hproc, hlast⟩ := resumes_own (system.run idle_init (faultOfFirst ++ returns))
    (ℓ := .load 0) (p := 0) (by decide +kernel) ht (by decide +kernel)
  exact ⟨_, t, proc, hproc, hlast, by decide +kernel⟩

/-- Process 1 faults while the handler of process 0 waits. Then process 0 resumes at the
instruction of process 1. -/
theorem stolenRun_resumes : ∃ hist s, ∃ t : State, Run system always hist s ∧
    resumes s (.load 0) = some 0 ∧
    next s (.load 0) = some t ∧ (t.procs 0).map (fun proc => proc.context 15) = some 0x2000 ∧
    (lastFault 0 hist).map (· 15) = some 0x1000 := by
  have hrip : (next (system.runFrom idle (faultOfFirst ++ faultOfSecond ++ returns))
      (.load 0)).map (fun t : State => (t.procs 0).map fun proc => proc.context 15) =
      some (some 0x2000) := by
    decide +kernel
  obtain ⟨t, ht, hcontext⟩ := Option.map_eq_some_iff.mp hrip
  exact ⟨_, _, t, system.run idle_init (faultOfFirst ++ faultOfSecond ++ returns),
    by decide +kernel, ht, hcontext, by decide +kernel⟩

end Upcalls

end Plinth
