import Mathlib.Algebra.GroupWithZero.Nat
import Mathlib.Data.List.Basic
import Mathlib.Logic.Function.Basic

/-!
# `Plinth.Common.CycleRing`: a ring whose entries carry the parity of their lap

A ring of `n` slots between a producer and a consumer that share no index. Every entry has a cycle
bit, which the producer sets to the parity of its lap. The consumer knows the parity of its own lap,
and it takes a slot only if the bit is that parity.

`Laid` says what the slots hold after the producer laid a list of entries. `Laid.lay` is the rule
for the producer, and `Laid.ready` and `Laid.entry` are the rules for a consumer that is at most one
lap behind.
-/

set_option autoImplicit false

namespace CycleRing

/-- Where one side of the ring stands: the slot that it comes to next, and the cycle bit of its
lap. -/
structure Cursor where
  index : Nat
  cycle : Bool
  deriving DecidableEq, Repr

namespace Cursor

/-- The first lap has its bit set. -/
def start : Cursor := ⟨0, true⟩

/-- One slot further. The bit turns over at the end of a lap. -/
def advance (n : Nat) (c : Cursor) : Cursor :=
  if c.index + 1 = n then ⟨0, !c.cycle⟩ else ⟨c.index + 1, c.cycle⟩

/-- The cursor after `k` entries. -/
def after (n k : Nat) : Cursor := ⟨k % n, k / n % 2 == 0⟩

variable {n : Nat}

theorem parity_succ (m : Nat) : ((m + 1) % 2 == 0) = !(m % 2 == 0) := by
  rcases Nat.mod_two_eq_zero_or_one m with h | h
  · rw [h, show (m + 1) % 2 = 1 by omega]
    rfl
  · rw [h, show (m + 1) % 2 = 0 by omega]
    rfl

theorem after_zero (n : Nat) : after n 0 = start := by simp [after, start]

theorem after_index_lt (hn : 0 < n) (k : Nat) : (after n k).index < n := Nat.mod_lt k hn

/-- A lap later the slot is the same and the bit is the other one. -/
theorem after_add_lap (hn : 0 < n) (k : Nat) :
    after n (k + n) = ⟨(after n k).index, !(after n k).cycle⟩ := by
  unfold after
  rw [Nat.add_mod_right, Nat.add_div_right _ hn, parity_succ]

theorem advance_after (hn : 0 < n) (k : Nat) : (after n k).advance n = after n (k + 1) := by
  have hlt := Nat.mod_lt k hn
  have hk := Nat.div_add_mod k n
  unfold advance
  split
  · rename_i hend
    have hend : k % n + 1 = n := hend
    -- The next entry opens a lap, and the one before it ended one.
    have hlap : k + 1 = n * (k / n) + n := by omega
    have hindex : (k + 1) % n = 0 := by
      rw [hlap, ← Nat.mul_succ]
      exact Nat.mul_mod_right n _
    have hround : (k + 1) / n = k / n + 1 := by
      rw [hlap, ← Nat.mul_succ]
      exact Nat.mul_div_cancel_left _ hn
    unfold after
    rw [hindex, hround, parity_succ]
  · rename_i hend
    have hend : ¬ k % n + 1 = n := hend
    have hround : (k + 1) / n = k / n := by
      rw [Nat.div_eq_iff hn]
      constructor
      · rw [Nat.mul_comm]
        omega
      · rw [Nat.mul_comm]
        omega
    have hindex : (k + 1) % n = k % n + 1 := by
      have h := Nat.div_add_mod (k + 1) n
      rw [hround] at h
      omega
    unfold after
    rw [hindex, hround]

/-- Two positions less than a lap apart have different slots. -/
theorem after_index_ne {j k : Nat} (hjk : j < k) (hlap : k < j + n) :
    (after n j).index ≠ (after n k).index := by
  intro heq
  have heq : j % n = k % n := heq
  have hdvd : n ∣ k - j := Nat.dvd_iff_mod_eq_zero.mpr (Nat.sub_mod_eq_zero_of_mod_eq heq.symm)
  have hle := Nat.le_of_dvd (by omega) hdvd
  omega

/-- The bit of a lap is the same up to its end. -/
theorem after_cycle_of_lap {k l : Nat} (hopen : (after n k).index = 0) (hkl : k ≤ l)
    (hlap : l < k + n) : (after n l).cycle = (after n k).cycle := by
  have hk := Nat.div_add_mod k n
  have hopen : k % n = 0 := hopen
  have hround : l / n = k / n := by
    rw [Nat.div_eq_iff (by omega), Nat.mul_comm]
    omega
  show (l / n % 2 == 0) = (k / n % 2 == 0)
  rw [hround]

end Cursor

open Cursor

variable {τ : Type} {cycle : τ → Bool} {n : Nat} {slots : Nat → τ} {log : List τ}

/-- The slots of a ring after the entries of `log` were laid in order: each slot holds the last
entry that came to it. An entry has the bit of its lap, and a slot that no entry came to has its bit
clear. -/
structure Laid (cycle : τ → Bool) (n : Nat) (slots : Nat → τ) (log : List τ) : Prop where
  stamped : ∀ j x, log[j]? = some x → cycle x = (after n j).cycle
  last : ∀ j x, log[j]? = some x → log.length ≤ j + n → slots (after n j).index = x
  fresh : ∀ i, log.length ≤ i → i < n → cycle (slots i) = false

/-- At first every bit is clear. -/
theorem Laid.nil (h : ∀ i, i < n → cycle (slots i) = false) : Laid cycle n slots [] where
  stamped j x hx := by simp at hx
  last j x hx := by simp at hx
  fresh i _ hi := h i hi

/-- A slot outside the ring does not matter. -/
theorem Laid.congr (h : Laid cycle n slots log) (hn : 0 < n) {slots' : Nat → τ}
    (heq : ∀ i, i < n → slots' i = slots i) : Laid cycle n slots' log where
  stamped := h.stamped
  last j x hx hlap := by
    rw [heq _ (after_index_lt hn j)]
    exact h.last j x hx hlap
  fresh i hlen hi := by
    rw [heq i hi]
    exact h.fresh i hlen hi

/-- The rule for the producer: it lays an entry with the bit of its lap. -/
theorem Laid.lay (h : Laid cycle n slots log) {x : τ}
    (hx : cycle x = (after n log.length).cycle) :
    Laid cycle n (Function.update slots (after n log.length).index x) (log ++ [x]) where
  stamped j y hy := by
    rcases Nat.lt_trichotomy j log.length with hj | rfl | hj
    · rw [List.getElem?_append_left hj] at hy
      exact h.stamped j y hy
    · rw [List.getElem?_concat_length] at hy
      cases hy
      exact hx
    · rw [List.getElem?_eq_none (by simp; omega)] at hy
      cases hy
  last j y hy hlap := by
    rw [List.length_append, List.length_singleton] at hlap
    rcases Nat.lt_trichotomy j log.length with hj | rfl | hj
    · rw [List.getElem?_append_left hj] at hy
      rw [Function.update_of_ne (after_index_ne hj (by omega))]
      exact h.last j y hy (by omega)
    · rw [List.getElem?_concat_length] at hy
      cases hy
      exact Function.update_self ..
    · rw [List.getElem?_eq_none (by simp; omega)] at hy
      cases hy
  fresh i hlen hi := by
    rw [List.length_append, List.length_singleton] at hlen
    have hindex : (after n log.length).index = log.length := Nat.mod_eq_of_lt (by omega)
    rw [hindex, Function.update_of_ne (by omega)]
    exact h.fresh i (by omega) hi

/-- The entry that a consumer finds who is at most one lap behind. -/
theorem Laid.entry (h : Laid cycle n slots log) {k : Nat} (hk : k < log.length)
    (hlap : log.length ≤ k + n) : log[k]? = some (slots (after n k).index) := by
  have hget : log[k]? = some log[k] := List.getElem?_eq_getElem hk
  rw [hget, h.last k _ hget hlap]

/-- The slot of a consumer who is at most one lap behind has the bit of his lap if and only if there
is an entry for him. -/
theorem Laid.ready (h : Laid cycle n slots log) (hn : 0 < n) {k : Nat} (hk : k ≤ log.length)
    (hlap : log.length ≤ k + n) :
    cycle (slots (after n k).index) = (after n k).cycle ↔ k < log.length := by
  constructor
  · intro heq
    by_contra hge
    have hlen : k = log.length := by omega
    rw [hlen] at heq
    by_cases hfirst : log.length < n
    · -- No entry came to this slot.
      have hindex : (after n log.length).index = log.length := Nat.mod_eq_of_lt hfirst
      have hround : (after n log.length).cycle = true := by
        show (log.length / n % 2 == 0) = true
        rw [Nat.div_eq_of_lt hfirst]
        rfl
      rw [hindex, hround, h.fresh _ (Nat.le_refl _) hfirst] at heq
      cases heq
    · -- The entry in this slot is a lap old.
      obtain ⟨j, hj⟩ := Nat.exists_eq_add_of_le' (Nat.le_of_not_lt hfirst)
      have hget : log[j]? = some log[j] := List.getElem?_eq_getElem (by omega)
      rw [hj, after_add_lap hn] at heq
      dsimp only at heq
      rw [h.last j _ hget (by omega), h.stamped j _ hget] at heq
      simp at heq
  · intro hlt
    exact h.stamped k _ (h.entry hlt hlap)

end CycleRing
