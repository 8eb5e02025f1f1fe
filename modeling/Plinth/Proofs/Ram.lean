import Plinth.Rings

/-!
# `Plinth.Proofs.Ram`: words of memory

A write of a little-endian word changes its own bytes, and a read of the same word gives the value
back, as far as it fits.
-/

set_option autoImplicit false

namespace Plinth

/-- The two frames have no byte in common. -/
def Apart (a b : Nat) : Prop := a + frameSize ≤ b ∨ b + frameSize ≤ a

instance (a b : Nat) : Decidable (Apart a b) :=
  inferInstanceAs (Decidable (a + frameSize ≤ b ∨ b + frameSize ≤ a))

namespace Ram

variable {ram ram' : Ram} {a b v n : Nat}

/-- A write changes its own bytes only. -/
theorem write_of_outside (ram : Ram) (a v n : Nat) {b : Nat} (h : b < a ∨ a + n ≤ b) :
    ram.write a v n b = ram b := by
  induction n generalizing ram a v with
  | zero => rfl
  | succ n ih =>
    unfold write
    rw [ih _ _ _ (by omega), Function.update_of_ne (by omega)]

theorem w32_of_outside (ram : Ram) (a : Nat) (v : UInt32) {b : Nat} (h : b < a ∨ a + 4 ≤ b) :
    ram.w32 a v b = ram b := write_of_outside ram a _ 4 h

theorem w64_of_outside (ram : Ram) (a v : Nat) {b : Nat} (h : b < a ∨ a + 8 ≤ b) :
    ram.w64 a v b = ram b := write_of_outside ram a v 8 h

/-- A read depends on its own bytes only. -/
theorem read_congr (h : ∀ i, i < n → ram' (a + i) = ram (a + i)) :
    ram'.read a n = ram.read a n := by
  induction n generalizing a with
  | zero => rfl
  | succ n ih =>
    have hfirst := h 0 (by omega)
    rw [Nat.add_zero] at hfirst
    unfold read
    rw [hfirst, ih fun i hi => ?_]
    have hnext := h (i + 1) (by omega)
    rwa [Nat.add_assoc, Nat.add_comm 1 i]

theorem r32_congr (h : ∀ i, i < 4 → ram' (a + i) = ram (a + i)) : ram'.r32 a = ram.r32 a := by
  unfold r32
  rw [read_congr h]

theorem r64_congr (h : ∀ i, i < 8 → ram' (a + i) = ram (a + i)) : ram'.r64 a = ram.r64 a :=
  read_congr h

/-- A word that was written can be read. -/
theorem read_write (ram : Ram) (a v n : Nat) : (ram.write a v n).read a n = v % 256 ^ n := by
  induction n generalizing ram a v with
  | zero =>
    unfold read
    omega
  | succ n ih =>
    unfold read write
    rw [ih, write_of_outside _ _ _ _ (Or.inl (Nat.lt_succ_self a)), Function.update_self]
    have hbyte : (UInt8.ofNat v).toNat = v % 256 := UInt8.toNat_ofNat'
    rw [hbyte, Nat.pow_succ, Nat.mul_comm (256 ^ n) 256, Nat.mod_mul]

theorem r32_w32 (ram : Ram) (a : Nat) (v : UInt32) : (ram.w32 a v).r32 a = v := by
  unfold r32 w32
  rw [read_write, Nat.mod_eq_of_lt (show v.toNat < 256 ^ 4 from v.toNat_lt)]
  exact UInt32.ofNat_toNat

theorem r64_w64 (ram : Ram) (a v : Nat) : (ram.w64 a v).r64 a = v % 2 ^ 64 := read_write ram a v 8

theorem r32_w32_of_apart (ram : Ram) (v : UInt32) (h : a + 4 ≤ b ∨ b + 4 ≤ a) :
    (ram.w32 b v).r32 a = ram.r32 a :=
  r32_congr fun _ _ => w32_of_outside _ _ _ (by omega)

theorem r32_w64_of_apart (ram : Ram) (v : Nat) (h : a + 4 ≤ b ∨ b + 8 ≤ a) :
    (ram.w64 b v).r32 a = ram.r32 a :=
  r32_congr fun _ _ => w64_of_outside _ _ _ (by omega)

theorem r64_w32_of_apart (ram : Ram) (v : UInt32) (h : a + 8 ≤ b ∨ b + 4 ≤ a) :
    (ram.w32 b v).r64 a = ram.r64 a :=
  r64_congr fun _ _ => w32_of_outside _ _ _ (by omega)

end Ram

end Plinth
