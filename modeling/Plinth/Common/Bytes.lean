import Mathlib.Algebra.GroupWithZero.Nat
import Mathlib.Data.List.Basic

/-!
# `Plinth.Common.Bytes`: byte buffers

A buffer is a list of bytes. `slice` reads a part of it, and `overwrite` replaces a part by bytes of
the same number. A slice of an overwritten buffer is what was written, or what was there before if
the two parts are apart.

`leBytes` and `leValue` are little-endian words. A name in a field of fixed length ends at the first
zero byte, or at the end of the field (`untilNul`).
-/

set_option autoImplicit false

namespace Bytes

variable {b src : List UInt8} {off len i k n : Nat}

/-! ### Little-endian words -/

/-- The `k` low bytes of `n`, the lowest first. -/
def leBytes : Nat → Nat → List UInt8
  | 0, _ => []
  | k + 1, n => UInt8.ofNat n :: leBytes k (n / 256)

/-- The value of a word. -/
def leValue : List UInt8 → Nat
  | [] => 0
  | x :: xs => x.toNat + 256 * leValue xs

@[simp] theorem length_leBytes (k n : Nat) : (leBytes k n).length = k := by
  induction k generalizing n with
  | zero => rfl
  | succ k ih =>
    show (leBytes k (n / 256)).length + 1 = k + 1
    rw [ih]

theorem leValue_leBytes (k n : Nat) : leValue (leBytes k n) = n % 256 ^ k := by
  induction k generalizing n with
  | zero => rw [Nat.pow_zero, Nat.mod_one]; rfl
  | succ k ih =>
    show (UInt8.ofNat n).toNat + 256 * leValue (leBytes k (n / 256)) = _
    have hbyte : (UInt8.ofNat n).toNat = n % 256 := UInt8.toNat_ofNat'
    rw [ih, hbyte, Nat.pow_succ, Nat.mul_comm (256 ^ k) 256, Nat.mod_mul]

theorem leValue_leBytes_of_lt (h : n < 256 ^ k) : leValue (leBytes k n) = n := by
  rw [leValue_leBytes, Nat.mod_eq_of_lt h]

theorem leValue_lt (b : List UInt8) : leValue b < 256 ^ b.length := by
  induction b with
  | nil => exact Nat.one_pos
  | cons x xs ih =>
    show x.toNat + 256 * leValue xs < 256 ^ (xs.length + 1)
    have hx := x.toNat_lt
    rw [Nat.pow_succ]
    omega

/-! ### Parts of a buffer -/

/-- `n` zero bytes. -/
def zeros (n : Nat) : List UInt8 := List.replicate n 0

@[simp] theorem length_zeros (n : Nat) : (zeros n).length = n := List.length_replicate

theorem zeros_add (m n : Nat) : zeros (m + n) = zeros m ++ zeros n :=
  List.replicate_add m n 0

/-- The `len` bytes from `off`. -/
def slice (b : List UInt8) (off len : Nat) : List UInt8 := (b.drop off).take len

/-- Replace the bytes from `off` by `src`. -/
def overwrite (b : List UInt8) (off : Nat) (src : List UInt8) : List UInt8 :=
  b.take off ++ src ++ b.drop (off + src.length)

theorem length_slice (h : off + len ≤ b.length) : (slice b off len).length = len := by
  unfold slice
  rw [List.length_take, List.length_drop]
  omega

theorem length_overwrite (h : off + src.length ≤ b.length) :
    (overwrite b off src).length = b.length := by
  unfold overwrite
  rw [List.length_append, List.length_append, List.length_take, List.length_drop]
  omega

theorem slice_getElem? (b : List UInt8) (off len i : Nat) :
    (slice b off len)[i]? = if i < len then b[off + i]? else none := by
  unfold slice
  rw [List.getElem?_take, List.getElem?_drop]

theorem overwrite_getElem? (h : off + src.length ≤ b.length) (i : Nat) :
    (overwrite b off src)[i]? =
      if off ≤ i ∧ i < off + src.length then src[i - off]? else b[i]? := by
  unfold overwrite
  have htake : (b.take off).length = off := by
    rw [List.length_take]
    omega
  by_cases hlow : i < off
  · rw [if_neg (by omega), List.append_assoc, List.getElem?_append_left (by omega),
      List.getElem?_take, if_pos hlow]
  · by_cases hin : i < off + src.length
    · rw [if_pos ⟨by omega, hin⟩, List.getElem?_append_left (by
        rw [List.length_append]
        omega), List.getElem?_append_right (by omega), htake]
    · rw [if_neg (by omega), List.getElem?_append_right (by
        rw [List.length_append]
        omega), List.length_append, htake, List.getElem?_drop]
      congr 1
      omega

/-- What was written can be read. -/
theorem slice_overwrite_self (h : off + src.length ≤ b.length) :
    slice (overwrite b off src) off src.length = src := by
  refine List.ext_getElem? fun i => ?_
  rw [slice_getElem?, overwrite_getElem? h]
  by_cases hi : i < src.length
  · rw [if_pos hi, if_pos ⟨by omega, by omega⟩, Nat.add_sub_cancel_left]
  · rw [if_neg hi, List.getElem?_eq_none (by omega)]

/-- A part that is apart from what was written is as before. -/
theorem slice_overwrite_of_apart {off' : Nat} (h : off + src.length ≤ b.length)
    (hapart : off' + len ≤ off ∨ off + src.length ≤ off') :
    slice (overwrite b off src) off' len = slice b off' len := by
  refine List.ext_getElem? fun i => ?_
  rw [slice_getElem?, slice_getElem?]
  by_cases hi : i < len
  · rw [if_pos hi, if_pos hi, overwrite_getElem? h, if_neg (by omega)]
  · rw [if_neg hi, if_neg hi]

/-- A part of a part. -/
theorem slice_slice {off' len' : Nat} (h : off' + len' ≤ len) :
    slice (slice b off len) off' len' = slice b (off + off') len' := by
  refine List.ext_getElem? fun i => ?_
  rw [slice_getElem?, slice_getElem?, slice_getElem?]
  by_cases hi : i < len'
  · rw [if_pos hi, if_pos hi, if_pos (by omega), Nat.add_assoc]
  · rw [if_neg hi, if_neg hi]

/-- The start of a part. -/
theorem slice_start {len' : Nat} (h : len' ≤ len) :
    slice (slice b off len) 0 len' = slice b off len' := by
  rw [slice_slice (by omega), Nat.add_zero]

theorem slice_all (b : List UInt8) : slice b 0 b.length = b := List.take_length

/-- The middle of a buffer that is given by its parts. -/
theorem slice_middle (a m c : List UInt8) : slice (a ++ m ++ c) a.length m.length = m := by
  unfold slice
  rw [List.append_assoc, List.drop_left, List.take_left]

theorem slice_left (a c : List UInt8) : slice (a ++ c) 0 a.length = a := List.take_left

/-- A part of the second buffer. -/
theorem slice_append_right (a c : List UInt8) (off len : Nat) :
    slice (a ++ c) (a.length + off) len = slice c off len := by
  unfold slice
  rw [List.drop_append, List.drop_eq_nil_of_le (Nat.le_add_right _ _), List.nil_append,
    Nat.add_sub_cancel_left]

/-- A part of the first buffer. -/
theorem slice_append_left {a : List UInt8} (c : List UInt8) (h : off + len ≤ a.length) :
    slice (a ++ c) off len = slice a off len := by
  refine List.ext_getElem? fun i => ?_
  rw [slice_getElem?, slice_getElem?]
  by_cases hi : i < len
  · rw [if_pos hi, if_pos hi, List.getElem?_append_left (by omega)]
  · rw [if_neg hi, if_neg hi]

/-- Replace a part of the first buffer. -/
theorem overwrite_append_left {a : List UInt8} (c : List UInt8) (h : off + src.length ≤ a.length) :
    overwrite (a ++ c) off src = overwrite a off src ++ c := by
  unfold overwrite
  rw [List.take_append_of_le_length (by omega), List.drop_append_of_le_length h,
    List.append_assoc, List.append_assoc, List.append_assoc]

/-- Replace the middle of a buffer that is given by its parts. -/
theorem overwrite_middle (a c : List UInt8) {m : List UInt8} (h : m.length = src.length) :
    overwrite (a ++ m ++ c) a.length src = a ++ src ++ c := by
  unfold overwrite
  rw [List.append_assoc a m c, List.take_left, ← h, ← List.drop_drop, List.drop_left,
    List.drop_left]

/-! ### Names -/

/-- The bytes before the first zero byte. -/
def untilNul (b : List UInt8) : List UInt8 := b.takeWhile fun x => x != 0

/-- A name without a zero byte, padded with zero bytes. -/
theorem untilNul_pad {name : List UInt8} (h : 0 ∉ name) (k : Nat) :
    untilNul (name ++ zeros k) = name := by
  induction name with
  | nil =>
    cases k with
    | zero => rfl
    | succ k => rfl
  | cons x xs ih =>
    rw [List.mem_cons, not_or] at h
    have hx : (x != 0) = true := bne_iff_ne.mpr (Ne.symm h.1)
    unfold untilNul at ih ⊢
    rw [List.cons_append, List.takeWhile_cons, if_pos hx, ih h.2]

theorem zero_not_mem_untilNul (b : List UInt8) : 0 ∉ untilNul b := by
  intro hmem
  unfold untilNul at hmem
  induction b with
  | nil => cases hmem
  | cons x xs ih =>
    rw [List.takeWhile_cons] at hmem
    split at hmem
    · rename_i hx
      rcases List.mem_cons.mp hmem with rfl | hrest
      · cases hx
      · exact ih hrest
    · cases hmem

end Bytes
