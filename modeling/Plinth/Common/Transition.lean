import Mathlib.Data.List.Basic

/-!
# `Plinth.Common.Transition`: labelled transition systems and their runs

A `System` has initial states and a partial step function for each label. A `Run sys ok h s`
is a run that ends in `s`. Its history `h` lists the earlier states with the label taken
there, newest first. Every step of the run satisfies the guard `ok`, a condition on the state
before the step and on the label.

`Run.invariant` is the invariant rule, with the guard and the reachability of the state
before the step as hypotheses. `Run.since` is the rule for a fact about the history: the fact
began at one step of the run and every later state kept it.
-/

set_option autoImplicit false

namespace Transition

variable {σ ι : Type}

/-- A labelled transition system. `next s a` is the state after label `a`, or `none` if the
label is not enabled in `s`. -/
structure System (σ ι : Type) where
  init : σ → Prop
  next : σ → ι → Option σ

/-- A run with its history, newest first. Every step satisfies the guard. -/
inductive Run (sys : System σ ι) (ok : σ → ι → Prop) : List (σ × ι) → σ → Prop where
  | start {s : σ} (h : sys.init s) : Run sys ok [] s
  | step {hist : List (σ × ι)} {s t : σ} {a : ι} (run : Run sys ok hist s) (guard : ok s a)
      (next : sys.next s a = some t) : Run sys ok ((s, a) :: hist) t

/-- The guard that every step satisfies. -/
def always (_ : σ) (_ : ι) : Prop := True

/-- `s` is the last state of a run whose steps satisfy the guard. -/
def Reachable (sys : System σ ι) (ok : σ → ι → Prop) (s : σ) : Prop :=
  ∃ hist, Run sys ok hist s

variable {sys : System σ ι} {ok ok' : σ → ι → Prop}

theorem Run.reachable {hist : List (σ × ι)} {s : σ} (run : Run sys ok hist s) :
    Reachable sys ok s := ⟨hist, run⟩

theorem Run.mono (h : ∀ s a, ok s a → ok' s a) {hist : List (σ × ι)} {s : σ}
    (run : Run sys ok hist s) : Run sys ok' hist s := by
  induction run with
  | start hinit => exact .start hinit
  | step _ guard hnext ih => exact .step ih (h _ _ guard) hnext

theorem Reachable.mono (h : ∀ s a, ok s a → ok' s a) {s : σ} (hs : Reachable sys ok s) :
    Reachable sys ok' s := by
  obtain ⟨hist, run⟩ := hs
  exact ⟨hist, run.mono h⟩

/-- A guarded run is a run. -/
theorem Reachable.forget {s : σ} (hs : Reachable sys ok s) : Reachable sys always s :=
  hs.mono fun _ _ _ => trivial

theorem Reachable.next {s t : σ} {a : ι} (hs : Reachable sys ok s) (guard : ok s a)
    (hnext : sys.next s a = some t) : Reachable sys ok t := by
  obtain ⟨hist, run⟩ := hs
  exact ⟨_, run.step guard hnext⟩

/-- The next state of a guarded run, if a label that is not enabled is passed over. -/
theorem Reachable.pass {s : σ} (hs : Reachable sys ok s) {a : ι} (guard : ok s a) :
    Reachable sys ok ((sys.next s a).getD s) := by
  cases hnext : sys.next s a with
  | none => exact hs
  | some t => exact hs.next guard hnext

/-- The invariant rule: what holds initially, and is kept by every guarded step from a
reachable state, holds in every reachable state. -/
theorem Reachable.invariant {I : σ → Prop} (hinit : ∀ s, sys.init s → I s)
    (hstep : ∀ s a t, Reachable sys ok s → I s → ok s a → sys.next s a = some t → I t)
    {s : σ} (hs : Reachable sys ok s) : I s := by
  obtain ⟨hist, run⟩ := hs
  induction run with
  | start h => exact hinit _ h
  | step run guard hnext ih => exact hstep _ _ _ run.reachable ih guard hnext

/-- The run has a step that satisfies `Q`, and every later step satisfies `K`. Both relate the
state before a step, its label and the state after it. -/
def Since (Q K : σ → ι → σ → Prop) : List (σ × ι) → σ → Prop
  | [], _ => False
  | (s, a) :: hist, t => Q s a t ∨ K s a t ∧ Since Q K hist s

/-- Two facts about the history: if the first one began after the second one did, then the second
one held since the first one began. -/
theorem Since.within {Q K Q' K' : σ → ι → σ → Prop} {hist : List (σ × ι)} {s : σ}
    (h : Since Q K hist s) (h' : Since Q' K' hist s) (hne : ∀ s a t, K s a t → ¬ Q' s a t) :
    Since Q K' hist s := by
  induction hist generalizing s with
  | nil => exact h
  | cons e hist ih =>
    rcases h with hq | ⟨hk, hrest⟩
    · exact Or.inl hq
    · rcases h' with hq' | ⟨hk', hrest'⟩
      · exact absurd hq' (hne _ _ _ hk)
      · exact Or.inr ⟨hk', ih hrest hrest'⟩

/-- The rule for facts that began at one step: if `R s` holds now, then either the last step
began it, or it held before that step and the step kept it. -/
theorem Run.since {Q K : σ → ι → σ → Prop} {R : σ → Prop} (hinit : ∀ s, sys.init s → ¬ R s)
    (hstep : ∀ s a t, Reachable sys ok s → ok s a → sys.next s a = some t → R t →
      Q s a t ∨ R s ∧ K s a t)
    {hist : List (σ × ι)} {s : σ} (run : Run sys ok hist s) (hR : R s) :
    Since Q K hist s := by
  induction run with
  | start h => exact absurd hR (hinit _ h)
  | step run guard hnext ih =>
    rcases hstep _ _ _ run.reachable guard hnext hR with hq | ⟨hr, hk⟩
    · exact Or.inl hq
    · exact Or.inr ⟨hk, ih hr⟩

/-! ### Runs of a list of labels -/

/-- Take the labels in order. A label that is not enabled is passed over. -/
def System.runFrom (sys : System σ ι) (s : σ) (labels : List ι) : σ :=
  labels.foldl (fun s a => (sys.next s a).getD s) s

/-- The history of `runFrom`, after the history `hist`. -/
def System.historyFrom (sys : System σ ι) : σ → List (σ × ι) → List ι → List (σ × ι)
  | _, hist, [] => hist
  | s, hist, a :: labels =>
    match sys.next s a with
    | none => historyFrom sys s hist labels
    | some t => historyFrom sys t ((s, a) :: hist) labels

theorem Run.from {hist : List (σ × ι)} {s : σ} (run : Run sys always hist s) (labels : List ι) :
    Run sys always (sys.historyFrom s hist labels) (sys.runFrom s labels) := by
  induction labels generalizing s hist with
  | nil => exact run
  | cons a labels ih =>
    change Run sys always (sys.historyFrom s hist (a :: labels))
      (sys.runFrom ((sys.next s a).getD s) labels)
    rw [System.historyFrom]
    cases hnext : sys.next s a with
    | none => exact ih run
    | some t => exact ih (run.step trivial hnext)

/-- A run of labels from a first state. -/
theorem System.run (sys : System σ ι) {s : σ} (h : sys.init s) (labels : List ι) :
    Run sys always (sys.historyFrom s [] labels) (sys.runFrom s labels) :=
  Run.from (.start h) labels

/-- Every label satisfies the guard in the state where it is taken. -/
def System.follows (sys : System σ ι) (ok : σ → ι → Bool) : σ → List ι → Bool
  | _, [] => true
  | s, a :: labels => ok s a && follows sys ok ((sys.next s a).getD s) labels

/-- The end of a run of labels that follow a guard. -/
theorem Reachable.runFrom {ok : σ → ι → Bool} {s : σ} {labels : List ι}
    (hs : Reachable sys (fun s a => ok s a = true) s) (h : sys.follows ok s labels = true) :
    Reachable sys (fun s a => ok s a = true) (sys.runFrom s labels) := by
  induction labels generalizing s with
  | nil => exact hs
  | cons a labels ih =>
    rw [System.follows, Bool.and_eq_true] at h
    exact ih (hs.pass h.1) h.2

end Transition
