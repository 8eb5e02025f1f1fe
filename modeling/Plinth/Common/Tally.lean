import Mathlib.Algebra.BigOperators.Fin
import Mathlib.Algebra.BigOperators.Group.Finset.Basic
import Mathlib.Algebra.Order.BigOperators.Group.Finset

/-!
# `Plinth.Common.Tally`: weighted counts over a finite table

A table is a function `T : ι → Option α` on a finite index type. `tally w T` adds the weight
`w a` over the occupied entries. With a weight of 0 or 1 it counts the entries of one sort.

A write to one entry changes the tally by the difference of the two weights (`tally_update`).
So a program that moves entries between tables conserves every tally that gives the moved
entry one weight. `tally_le_one_unique` turns a count of at most one back into a unique entry.
-/

set_option autoImplicit false

namespace Tally

variable {ι α β : Type} [Fintype ι] [DecidableEq ι]

/-- The weight of an optional entry. -/
def entry (w : α → Nat) (x : Option α) : Nat := x.elim 0 w

@[simp] theorem entry_none (w : α → Nat) : entry w none = 0 := rfl

@[simp] theorem entry_some (w : α → Nat) (a : α) : entry w (some a) = w a := rfl

/-- A write at one index, for sums of any function: what leaves plus the new sum is what
arrives plus the old sum. -/
theorem sum_update (f : ι → Nat) (i : ι) (x : Nat) :
    (∑ j, Function.update f i x j) + f i = (∑ j, f j) + x := by
  rw [Finset.sum_update_of_mem (Finset.mem_univ i)]
  have hsplit := Finset.add_sum_erase Finset.univ f (Finset.mem_univ i)
  rw [Finset.sdiff_singleton_eq_erase]
  omega

/-- A write at one index of a table, for sums of a function of the entries. -/
theorem sum_comp_update {γ : Type} (f : γ → Nat) (T : ι → γ) (i : ι) (x : γ) :
    (∑ j, f (Function.update T i x j)) + f (T i) = (∑ j, f (T j)) + f x := by
  have hcomp : (fun j => f (Function.update T i x j))
      = Function.update (fun j => f (T j)) i (f x) := by
    funext j
    by_cases h : j = i
    · subst h
      simp
    · simp [h]
  rw [hcomp]
  exact sum_update (fun j => f (T j)) i (f x)

/-- The sum of the weights of the occupied entries of `T`. -/
def tally (w : α → Nat) (T : ι → Option α) : Nat := ∑ i, entry w (T i)

omit [DecidableEq ι] in
@[simp] theorem tally_none (w : α → Nat) : tally w (fun _ : ι => none) = 0 := by
  simp [tally]

/-- A write at one index changes the tally by the difference of the two weights. -/
theorem tally_update (w : α → Nat) (T : ι → Option α) (i : ι) (x : Option α) :
    tally w (Function.update T i x) + entry w (T i) = tally w T + entry w x :=
  sum_comp_update (entry w) T i x

/-- A write of an entry into a free index. -/
theorem tally_insert (w : α → Nat) {T : ι → Option α} {i : ι} (a : α) (h : T i = none) :
    tally w (Function.update T i (some a)) = tally w T + w a := by
  have hup := tally_update w T i (some a)
  rw [h] at hup
  simpa using hup

/-- The removal of an entry. -/
theorem tally_erase (w : α → Nat) {T : ι → Option α} {i : ι} {a : α} (h : T i = some a) :
    tally w (Function.update T i none) + w a = tally w T := by
  have hup := tally_update w T i none
  rw [h] at hup
  simpa using hup

/-- A write that keeps the weight of the entry keeps the tally. -/
theorem tally_update_same (w : α → Nat) {T : ι → Option α} {i : ι} {x : Option α}
    (h : entry w x = entry w (T i)) : tally w (Function.update T i x) = tally w T := by
  have hup := tally_update w T i x
  omega

omit [DecidableEq ι] in
/-- Tallies agree where the weights of the entries do. -/
theorem tally_congr {w : α → Nat} {v : β → Nat} {T : ι → Option α} {U : ι → Option β}
    (h : ∀ i, entry w (T i) = entry v (U i)) : tally w T = tally v U :=
  Finset.sum_congr rfl fun i _ => h i

omit [DecidableEq ι] in
theorem tally_le_tally {w : α → Nat} {v : β → Nat} {T : ι → Option α} {U : ι → Option β}
    (h : ∀ i, entry w (T i) ≤ entry v (U i)) : tally w T ≤ tally v U :=
  Finset.sum_le_sum fun i _ => h i

omit [DecidableEq ι] in
theorem tally_add (w v : α → Nat) (T : ι → Option α) :
    tally (fun a => w a + v a) T = tally w T + tally v T := by
  unfold tally
  rw [← Finset.sum_add_distrib]
  refine Finset.sum_congr rfl fun i _ => ?_
  cases T i <;> simp

omit [DecidableEq ι] in
/-- An occupied entry weighs at most the whole table. -/
theorem le_tally (w : α → Nat) {T : ι → Option α} {i : ι} {a : α} (h : T i = some a) :
    w a ≤ tally w T := by
  have hle := Finset.single_le_sum (f := fun j => entry w (T j))
    (fun j _ => Nat.zero_le _) (Finset.mem_univ i)
  simpa [tally, h] using hle

omit [DecidableEq ι] in
theorem tally_eq_zero {w : α → Nat} {T : ι → Option α} :
    tally w T = 0 ↔ ∀ i a, T i = some a → w a = 0 := by
  constructor
  · intro h i a hi
    have hle := le_tally w hi
    omega
  · intro h
    refine Finset.sum_eq_zero fun i _ => ?_
    cases hi : T i with
    | none => rfl
    | some a => exact h i a hi

omit [DecidableEq ι] in
theorem tally_pos {w : α → Nat} {T : ι → Option α} :
    0 < tally w T ↔ ∃ i a, T i = some a ∧ 0 < w a := by
  constructor
  · intro h
    by_contra hno
    push Not at hno
    have hzero : tally w T = 0 := tally_eq_zero.mpr fun i a hi => by
      have := hno i a hi
      omega
    omega
  · rintro ⟨i, a, hi, ha⟩
    have hle := le_tally w hi
    omega

/-- Two different indices weigh at most the whole table. -/
theorem add_le_tally (w : α → Nat) {T : ι → Option α} {i j : ι} {a b : α} (hij : i ≠ j)
    (hi : T i = some a) (hj : T j = some b) : w a + w b ≤ tally w T := by
  have herase := tally_erase w hi
  have hj' : Function.update T i none j = some b := by
    rw [Function.update_of_ne (Ne.symm hij), hj]
  have hle := le_tally w hj'
  omega

/-- A tally of at most one is carried by one index. -/
theorem tally_le_one_unique {w : α → Nat} {T : ι → Option α} (h : tally w T ≤ 1)
    {i j : ι} {a b : α} (hi : T i = some a) (ha : 0 < w a) (hj : T j = some b)
    (hb : 0 < w b) : i = j := by
  by_contra hij
  have hle := add_le_tally w hij hi hj
  omega

/-- The tally of a table over `Fin n` is the sum over the list of its entries. -/
theorem tally_eq_sum_filterMap {n : Nat} (w : α → Nat) (T : Fin n → Option α) :
    tally w T = (((List.finRange n).filterMap T).map w).sum := by
  have hlist : ∀ l : List (Fin n),
      (l.map fun i => entry w (T i)).sum = ((l.filterMap T).map w).sum := by
    intro l
    induction l with
    | nil => rfl
    | cons i l ih =>
      cases hi : T i with
      | none => simp [hi, ih]
      | some a => simp [hi, ih]
  unfold tally
  rw [← List.sum_ofFn, List.ofFn_eq_map]
  exact hlist _

end Tally
