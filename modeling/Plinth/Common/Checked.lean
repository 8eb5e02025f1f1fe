import Mathlib.Algebra.GroupWithZero.Nat
import Mathlib.Data.List.Basic

/-!
# `Plinth.Common.Checked`: calls that may crash

A call ends with a value, with an error, or it crashes. It crashes if arithmetic of 64-bit words
overflows, if an index is out of range, or if it reads memory outside of a buffer.

The functions are the primitives of such a call. For each one there is a lemma that says when it has
a value, and a lemma that says when it does not crash. `Safe.bind` is the rule for a sequence.
-/

set_option autoImplicit false

namespace Checked

variable {α β ε : Type} {a b i n r : Nat} {e : ε}

/-- Why a call has no value. -/
inductive Stop (ε : Type) where
  | error (e : ε)
  | crash
  deriving DecidableEq, Repr

/-- What a call ends with. -/
abbrev Call (ε α : Type) := Except (Stop ε) α

/-- The call does not crash. -/
def Safe (c : Call ε α) : Prop := c ≠ .error .crash

/-! ### Primitives -/

/-- Stop with an error if the condition holds. -/
def reject (c : Prop) [Decidable c] (e : ε) : Call ε Unit :=
  if c then .error (.error e) else .ok ()

/-- The value, or stop with an error. -/
def okOr (x : Option α) (e : ε) : Call ε α :=
  match x with
  | some a => .ok a
  | none => .error (.error e)

/-- A sum of 64-bit words. -/
def add (a b : Nat) : Call ε Nat := if a + b < 2 ^ 64 then .ok (a + b) else .error .crash

/-- A product of 64-bit words. -/
def mul (a b : Nat) : Call ε Nat := if a * b < 2 ^ 64 then .ok (a * b) else .error .crash

/-- A sum of 64-bit words, if it is one. -/
def checkedAdd (a b : Nat) : Option Nat := if a + b < 2 ^ 64 then some (a + b) else none

/-- A product of 64-bit words, if it is one. -/
def checkedMul (a b : Nat) : Option Nat := if a * b < 2 ^ 64 then some (a * b) else none

/-- The entry at an index. -/
def index (l : List α) (i : Nat) : Call ε α :=
  match l[i]? with
  | some a => .ok a
  | none => .error .crash

/-- The `n` entries from an index. -/
def range (l : List α) (i n : Nat) : Call ε (List α) :=
  if i + n ≤ l.length then .ok ((l.drop i).take n) else .error .crash

/-! ### Values -/

theorem bind_eq_ok {x : Call ε α} {f : α → Call ε β} {y : β} :
    (x >>= f) = .ok y ↔ ∃ a, x = .ok a ∧ f a = .ok y := by
  cases x with
  | error s =>
    constructor
    · intro h
      cases h
    · rintro ⟨a, ha, -⟩
      cases ha
  | ok a =>
    constructor
    · exact fun h => ⟨a, rfl, h⟩
    · rintro ⟨a', ha, h⟩
      cases ha
      exact h

@[simp] theorem reject_eq_ok {c : Prop} [Decidable c] {u : Unit} :
    reject c e = .ok u ↔ ¬ c := by
  unfold reject
  by_cases h : c
  · rw [if_pos h]
    exact ⟨nofun, fun hno => absurd h hno⟩
  · rw [if_neg h]
    exact ⟨fun _ => h, fun _ => rfl⟩

@[simp] theorem okOr_eq_ok {x : Option α} {a : α} : okOr x e = .ok a ↔ x = some a := by
  cases x <;> simp [okOr]

@[simp] theorem add_eq_ok : (add a b : Call ε Nat) = .ok r ↔ a + b < 2 ^ 64 ∧ a + b = r := by
  unfold add
  by_cases h : a + b < 2 ^ 64
  · rw [if_pos h, Except.ok.injEq]
    exact ⟨fun hr => ⟨h, hr⟩, fun hr => hr.2⟩
  · rw [if_neg h]
    exact ⟨nofun, fun hr => absurd hr.1 h⟩

@[simp] theorem mul_eq_ok : (mul a b : Call ε Nat) = .ok r ↔ a * b < 2 ^ 64 ∧ a * b = r := by
  unfold mul
  by_cases h : a * b < 2 ^ 64
  · rw [if_pos h, Except.ok.injEq]
    exact ⟨fun hr => ⟨h, hr⟩, fun hr => hr.2⟩
  · rw [if_neg h]
    exact ⟨nofun, fun hr => absurd hr.1 h⟩

@[simp] theorem checkedAdd_eq_some : checkedAdd a b = some r ↔ a + b < 2 ^ 64 ∧ a + b = r := by
  unfold checkedAdd
  by_cases h : a + b < 2 ^ 64
  · rw [if_pos h, Option.some.injEq]
    exact ⟨fun hr => ⟨h, hr⟩, fun hr => hr.2⟩
  · rw [if_neg h]
    exact ⟨nofun, fun hr => absurd hr.1 h⟩

@[simp] theorem checkedMul_eq_some : checkedMul a b = some r ↔ a * b < 2 ^ 64 ∧ a * b = r := by
  unfold checkedMul
  by_cases h : a * b < 2 ^ 64
  · rw [if_pos h, Option.some.injEq]
    exact ⟨fun hr => ⟨h, hr⟩, fun hr => hr.2⟩
  · rw [if_neg h]
    exact ⟨nofun, fun hr => absurd hr.1 h⟩

/-! ### Safety -/

theorem Safe.ok (a : α) : Safe (.ok a : Call ε α) := nofun

theorem Safe.pure (a : α) : Safe (pure a : Call ε α) := nofun

theorem Safe.error (e : ε) : Safe (.error (.error e) : Call ε α) := nofun

/-- A sequence does not crash if neither part does. -/
theorem Safe.bind {x : Call ε α} {f : α → Call ε β} (hx : Safe x)
    (hf : ∀ a, x = .ok a → Safe (f a)) : Safe (x >>= f) := by
  cases x with
  | error s => exact fun h => hx (by cases h; rfl)
  | ok a => exact hf a rfl

theorem Safe.reject (c : Prop) [Decidable c] (e : ε) : Safe (reject c e) := by
  unfold Checked.reject
  split
  · exact Safe.error e
  · exact Safe.ok ()

theorem Safe.okOr (x : Option α) (e : ε) : Safe (okOr x e) := by
  cases x with
  | none => exact Safe.error e
  | some a => exact Safe.ok a

theorem Safe.add (h : a + b < 2 ^ 64) : Safe (add a b : Call ε Nat) := by
  unfold Checked.add
  rw [if_pos h]
  exact Safe.ok _

theorem Safe.mul (h : a * b < 2 ^ 64) : Safe (mul a b : Call ε Nat) := by
  unfold Checked.mul
  rw [if_pos h]
  exact Safe.ok _

theorem Safe.index {l : List α} (h : i < l.length) : Safe (index l i : Call ε α) := by
  unfold Checked.index
  rw [List.getElem?_eq_getElem h]
  exact Safe.ok _

theorem Safe.range {l : List α} (h : i + n ≤ l.length) : Safe (range l i n : Call ε (List α)) := by
  unfold Checked.range
  rw [if_pos h]
  exact Safe.ok _

end Checked
