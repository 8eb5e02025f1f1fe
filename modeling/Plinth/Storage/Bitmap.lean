import Mathlib.Data.Nat.Bitwise
import Plinth.Common.Bytes

/-!
# `Plinth.Storage.Bitmap`: the block bitmap

The bitmap of the read-write filesystem, one bit per data sector, the lowest bit of a byte first. A
set bit is a sector in use. `alloc` takes the first run of clear bits that is long enough, and
`free` clears a run.

`bit_setBits` says which bits a run changes, and `alloc_ok` that the run which `alloc` finds was
clear. `alloc_error` says that it finds a run if there is one. A bitmap is its bits (`bitmap_ext`),
so a run that is taken and given back leaves the bitmap as it was (`free_alloc`).
-/

set_option autoImplicit false

namespace Plinth.Rwfs.Bitmap

open Bytes

variable {bitmap : List UInt8} {total n start i j k m : Nat} {used : Bool}

/-- `BitmapError`. -/
inductive BitmapError where
  | outOfSpace
  | outOfRange
  deriving DecidableEq, Repr

/-- `capacity`: the bits of a bitmap of `bytes` bytes. -/
def capacity (bytes : Nat) : Nat := bytes * 8

/-- `1 << k` as a byte. -/
def mask (k : Nat) : UInt8 := 1 <<< UInt8.ofNat k

/-- `bit`: whether the sector `i` is in use. -/
def bit (bitmap : List UInt8) (i : Nat) : Bool := bitmap.getD (i / 8) 0 &&& mask (i % 8) != 0

/-- `set_bit`. -/
def setBit (bitmap : List UInt8) (i : Nat) (used : Bool) : List UInt8 :=
  bitmap.modify (i / 8) fun b =>
    if used then b ||| mask (i % 8) else b &&& ~~~mask (i % 8)

/-- `set_bit` for each of the `n` bits from `start`. -/
def setBits (bitmap : List UInt8) (start : Nat) : Nat → Bool → List UInt8
  | 0, _ => bitmap
  | n + 1, used => setBits (setBit bitmap start used) (start + 1) n used

/-- The loop of `alloc`: `left` bits from `i` are still to be looked at, and the last `runLen` bits
before `i` are clear. -/
def allocLoop (bitmap : List UInt8) (n : Nat) :
    (left i runStart runLen : Nat) → Except BitmapError (Nat × List UInt8)
  | 0, _, _, _ => .error .outOfSpace
  | left + 1, i, runStart, runLen =>
    if bit bitmap i then allocLoop bitmap n left (i + 1) (i + 1) 0
    else if runLen + 1 = n then .ok (runStart, setBits bitmap runStart n true)
    else allocLoop bitmap n left (i + 1) runStart (runLen + 1)

/-- `alloc`: the start of the run and the bitmap afterwards. On an error the bitmap is as before. -/
def alloc (bitmap : List UInt8) (total n : Nat) : Except BitmapError (Nat × List UInt8) :=
  if n = 0 ∨ n > total ∨ total > capacity bitmap.length then .error .outOfRange
  else allocLoop bitmap n total 0 0 0

/-- A run of `n` clear bits in the first `total`. -/
def ClearRun (bitmap : List UInt8) (total n : Nat) : Prop :=
  ∃ start, start + n ≤ total ∧ ∀ j, start ≤ j → j < start + n → bit bitmap j = false

/-- `free`: the bitmap afterwards. The sum `start + n` is a checked addition of 64 bits. -/
def free (bitmap : List UInt8) (total start n : Nat) : Except BitmapError (List UInt8) :=
  if total > capacity bitmap.length then .error .outOfRange
  else if 2 ^ 64 ≤ start + n then .error .outOfRange
  else if start + n > total then .error .outOfRange
  else .ok (setBits bitmap start n false)

/-! ### The bits of a byte -/

theorem toNat_mask (h : k < 8) : (mask k).toNat = 2 ^ k := by
  have key : ∀ k < 8, (mask k).toNat = 2 ^ k := by decide
  exact key k h

/-- The mask reads the bit. -/
theorem and_mask (b : UInt8) (h : k < 8) : (b &&& mask k != 0) = b.toNat.testBit k := by
  have hnat : (b &&& mask k).toNat = (b.toNat.testBit k).toNat * 2 ^ k := by
    rw [UInt8.toNat_and, toNat_mask h, Nat.and_two_pow]
  have hpos := Nat.two_pow_pos k
  cases hbit : b.toNat.testBit k with
  | false =>
    rw [hbit] at hnat
    have hzero : b &&& mask k = 0 := UInt8.toNat_inj.mp (by
      rw [hnat]
      exact Nat.zero_mul _)
    rw [hzero]
    rfl
  | true =>
    rw [hbit] at hnat
    rw [bne_iff_ne]
    intro hzero
    rw [hzero] at hnat
    have hone : (true.toNat) * 2 ^ k = 2 ^ k := Nat.one_mul _
    rw [hone] at hnat
    exact absurd hnat (Nat.ne_of_lt hpos)

theorem testBit_or_mask (b : UInt8) (h : k < 8) (l : Nat) :
    (b ||| mask k).toNat.testBit l = (b.toNat.testBit l || decide (k = l)) := by
  rw [UInt8.toNat_or, toNat_mask h, Nat.testBit_or, Nat.testBit_two_pow]

theorem testBit_and_not_mask (b : UInt8) (h : k < 8) {l : Nat} (hl : l < 8) :
    (b &&& ~~~mask k).toNat.testBit l = (b.toNat.testBit l && !decide (k = l)) := by
  have hlt : 2 ^ k < 2 ^ 8 := Nat.pow_lt_pow_right (by decide) h
  have hnot : (~~~mask k).toNat = 2 ^ 8 - (2 ^ k + 1) := by
    rw [UInt8.toNat_not, toNat_mask h]
    show 2 ^ 8 - 1 - 2 ^ k = _
    omega
  rw [UInt8.toNat_and, hnot, Nat.testBit_and, Nat.testBit_two_pow_sub_succ hlt,
    Nat.testBit_two_pow, decide_eq_true hl, Bool.true_and]

/-- A byte is its eight bits. -/
theorem byte_ext {a b : UInt8} (h : ∀ k < 8, a.toNat.testBit k = b.toNat.testBit k) : a = b := by
  refine UInt8.toNat_inj.mp (Nat.eq_of_testBit_eq fun k => ?_)
  by_cases hk : k < 8
  · exact h k hk
  · have hpow : 2 ^ 8 ≤ 2 ^ k := Nat.pow_le_pow_right (by decide) (by omega)
    rw [Nat.testBit_lt_two_pow (Nat.lt_of_lt_of_le a.toNat_lt hpow),
      Nat.testBit_lt_two_pow (Nat.lt_of_lt_of_le b.toNat_lt hpow)]

/-! ### The bits of a bitmap -/

theorem bit_eq (bitmap : List UInt8) (i : Nat) :
    bit bitmap i = (bitmap.getD (i / 8) 0).toNat.testBit (i % 8) :=
  and_mask _ (Nat.mod_lt _ (by decide))

@[simp] theorem length_setBit (bitmap : List UInt8) (i : Nat) (used : Bool) :
    (setBit bitmap i used).length = bitmap.length :=
  List.length_modify ..

@[simp] theorem length_setBits (bitmap : List UInt8) (start n : Nat) (used : Bool) :
    (setBits bitmap start n used).length = bitmap.length := by
  induction n generalizing bitmap start with
  | zero => rfl
  | succ n ih =>
    show (setBits (setBit bitmap start used) (start + 1) n used).length = _
    rw [ih, length_setBit]

/-- `set_bit` writes the byte of the bit. -/
theorem getD_setBit_same (h : i / 8 < bitmap.length) :
    (setBit bitmap i used).getD (i / 8) 0 =
      if used then bitmap.getD (i / 8) 0 ||| mask (i % 8)
      else bitmap.getD (i / 8) 0 &&& ~~~mask (i % 8) := by
  unfold setBit
  rw [List.getD_eq_getElem?_getD, List.getElem?_modify_eq, List.getD_eq_getElem?_getD,
    List.getElem?_eq_getElem h]
  rfl

/-- `set_bit` leaves the other bytes. -/
theorem getD_setBit_other (h : i / 8 ≠ m) : (setBit bitmap i used).getD m 0 = bitmap.getD m 0 := by
  unfold setBit
  rw [List.getD_eq_getElem?_getD, List.getElem?_modify_ne _ _ h, ← List.getD_eq_getElem?_getD]

/-- `set_bit` changes one bit. -/
theorem bit_setBit (h : i < capacity bitmap.length) (j : Nat) :
    bit (setBit bitmap i used) j = if j = i then used else bit bitmap j := by
  have hin : i / 8 < bitmap.length := by
    unfold capacity at h
    omega
  have hi : i % 8 < 8 := Nat.mod_lt _ (by decide)
  have hj : j % 8 < 8 := Nat.mod_lt _ (by decide)
  rw [bit_eq, bit_eq]
  by_cases hbyte : i / 8 = j / 8
  · rw [← hbyte, getD_setBit_same hin]
    cases used with
    | true =>
      rw [if_pos rfl, testBit_or_mask _ hi]
      by_cases hij : j = i
      · rw [if_pos hij, hij, decide_eq_true rfl, Bool.or_true]
      · rw [if_neg hij, decide_eq_false (by omega), Bool.or_false]
    | false =>
      rw [if_neg Bool.false_ne_true, testBit_and_not_mask _ hi hj]
      by_cases hij : j = i
      · rw [if_pos hij, hij, decide_eq_true rfl, Bool.not_true, Bool.and_false]
      · rw [if_neg hij, decide_eq_false (by omega), Bool.not_false, Bool.and_true]
  · rw [if_neg (fun hij => hbyte (by rw [hij])), getD_setBit_other hbyte]

/-- Which bits a run changes. -/
theorem bit_setBits (h : start + n ≤ capacity bitmap.length) (j : Nat) :
    bit (setBits bitmap start n used) j =
      if start ≤ j ∧ j < start + n then used else bit bitmap j := by
  induction n generalizing bitmap start with
  | zero =>
    rw [if_neg (by omega)]
    rfl
  | succ n ih =>
    show bit (setBits (setBit bitmap start used) (start + 1) n used) j = _
    rw [ih (by rw [length_setBit]; omega), bit_setBit (by omega)]
    by_cases hj : j = start
    · rw [if_neg (by omega), if_pos hj, if_pos (by omega)]
    · rw [if_neg hj]
      by_cases hin : start + 1 ≤ j ∧ j < start + 1 + n
      · rw [if_pos hin, if_pos (by omega)]
      · rw [if_neg hin, if_neg (by omega)]

/-- A bitmap is its bits. -/
theorem bitmap_ext {a b : List UInt8} (hlen : a.length = b.length)
    (h : ∀ i < capacity a.length, bit a i = bit b i) : a = b := by
  refine List.ext_getElem hlen fun m ha hb => byte_ext fun k hk => ?_
  have hbit := h (m * 8 + k) (by
    unfold capacity
    omega)
  have hdiv : (m * 8 + k) / 8 = m := by omega
  have hmod : (m * 8 + k) % 8 = k := by omega
  rw [bit_eq, bit_eq, hdiv, hmod, List.getD_eq_getElem?_getD, List.getD_eq_getElem?_getD,
    List.getElem?_eq_getElem ha, List.getElem?_eq_getElem hb] at hbit
  exact hbit

/-! ### `alloc` and `free` -/

theorem allocLoop_succ (bitmap : List UInt8) (n left i runStart runLen : Nat) :
    allocLoop bitmap n (left + 1) i runStart runLen =
      if bit bitmap i then allocLoop bitmap n left (i + 1) (i + 1) 0
      else if runLen + 1 = n then .ok (runStart, setBits bitmap runStart n true)
      else allocLoop bitmap n left (i + 1) runStart (runLen + 1) := rfl

/-- The loop keeps that the bits of the current run are clear, so the run that it takes was. -/
theorem allocLoop_ok {left runStart runLen : Nat} {r : Nat × List UInt8}
    (hrun : runStart + runLen = i)
    (hclear : ∀ j, runStart ≤ j → j < i → bit bitmap j = false)
    (h : allocLoop bitmap n left i runStart runLen = .ok r) :
    r.2 = setBits bitmap r.1 n true ∧ r.1 + n ≤ i + left ∧
      ∀ j, r.1 ≤ j → j < r.1 + n → bit bitmap j = false := by
  induction left generalizing i runStart runLen with
  | zero => cases h
  | succ left ih =>
    rw [allocLoop_succ] at h
    by_cases hbit : bit bitmap i = true
    · rw [if_pos hbit] at h
      -- A set bit starts a new, empty run behind it.
      have hnone : ∀ j, i + 1 ≤ j → j < i + 1 → bit bitmap j = false :=
        fun j hlow hhigh => absurd hhigh (by omega)
      obtain ⟨hmap, hend, hfree⟩ := ih (Nat.add_zero (i + 1)) hnone h
      exact ⟨hmap, by omega, hfree⟩
    · have hoff : bit bitmap i = false := Bool.eq_false_iff.mpr hbit
      have hnext : ∀ j, runStart ≤ j → j < i + 1 → bit bitmap j = false := by
        intro j hlow hhigh
        by_cases hj : j = i
        · rw [hj]
          exact hoff
        · exact hclear j hlow (by omega)
      rw [if_neg hbit] at h
      by_cases hfull : runLen + 1 = n
      · rw [if_pos hfull] at h
        obtain rfl := Except.ok.inj h
        exact ⟨rfl, by omega, fun j hlow hhigh => hnext j hlow (by omega)⟩
      · rw [if_neg hfull] at h
        obtain ⟨hmap, hend, hfree⟩ := ih (by omega) hnext h
        exact ⟨hmap, by omega, hfree⟩

/-- What `alloc` takes: a run of clear bits inside the first `total`. -/
theorem alloc_ok {r : Nat × List UInt8} (h : alloc bitmap total n = .ok r) :
    r.2 = setBits bitmap r.1 n true ∧ r.1 + n ≤ total ∧ total ≤ capacity bitmap.length ∧
      ∀ j, r.1 ≤ j → j < r.1 + n → bit bitmap j = false := by
  unfold alloc at h
  split at h
  · cases h
  · rename_i hin
    rw [not_or, not_or] at hin
    obtain ⟨hmap, hend, hfree⟩ :=
      allocLoop_ok (Nat.zero_add 0) (fun j _ hhigh => absurd hhigh (Nat.not_lt_zero j)) h
    exact ⟨hmap, by omega, by omega, hfree⟩

/-- A set bit ends the search for runs that begin before it: those that begin at `runStart` or later
would contain it. -/
theorem late_after_set {runStart runLen limit : Nat} (hrun : runStart + runLen = i)
    (hshort : runLen < n) (hbit : bit bitmap i = true)
    (hlate : ∀ start, start + n ≤ limit →
      (∀ j, start ≤ j → j < start + n → bit bitmap j = false) → runStart ≤ start) :
    ∀ start, start + n ≤ limit →
      (∀ j, start ≤ j → j < start + n → bit bitmap j = false) → i + 1 ≤ start := by
  intro start hend hclear
  have hstart := hlate start hend hclear
  by_contra hlow
  have hset := hclear i (by omega) (by omega)
  rw [hbit] at hset
  cases hset

/-- The loop passes over no run: as long as it has not found one, a run of `n` clear bits starts at
`runStart` or later. -/
theorem allocLoop_error {left runStart runLen : Nat} {e : BitmapError}
    (hrun : runStart + runLen = i) (hshort : runLen < n)
    (hlate : ∀ start, start + n ≤ i + left →
      (∀ j, start ≤ j → j < start + n → bit bitmap j = false) → runStart ≤ start)
    (h : allocLoop bitmap n left i runStart runLen = .error e) :
    ¬ ClearRun bitmap (i + left) n := by
  induction left generalizing i runStart runLen with
  | zero =>
    rintro ⟨start, hend, hclear⟩
    have hstart := hlate start hend hclear
    omega
  | succ left ih =>
    have htotal : i + 1 + left = i + (left + 1) := by omega
    rw [allocLoop_succ] at h
    rw [← htotal] at hlate ⊢
    by_cases hbit : bit bitmap i = true
    · rw [if_pos hbit] at h
      exact ih (Nat.add_zero (i + 1)) (by omega) (late_after_set hrun hshort hbit hlate) h
    · rw [if_neg hbit] at h
      by_cases hfull : runLen + 1 = n
      · rw [if_pos hfull] at h
        cases h
      · rw [if_neg hfull] at h
        exact ih (by omega) (by omega) hlate h

/-- So the run that the loop takes is the first. -/
theorem allocLoop_least {left runStart runLen : Nat} {r : Nat × List UInt8}
    (hrun : runStart + runLen = i) (hshort : runLen < n)
    (hlate : ∀ start, start + n ≤ i + left →
      (∀ j, start ≤ j → j < start + n → bit bitmap j = false) → runStart ≤ start)
    (h : allocLoop bitmap n left i runStart runLen = .ok r) :
    ∀ start, start + n ≤ i + left →
      (∀ j, start ≤ j → j < start + n → bit bitmap j = false) → r.1 ≤ start := by
  induction left generalizing i runStart runLen with
  | zero => cases h
  | succ left ih =>
    have htotal : i + 1 + left = i + (left + 1) := by omega
    rw [allocLoop_succ] at h
    rw [← htotal] at hlate ⊢
    by_cases hbit : bit bitmap i = true
    · rw [if_pos hbit] at h
      exact ih (Nat.add_zero (i + 1)) (by omega) (late_after_set hrun hshort hbit hlate) h
    · rw [if_neg hbit] at h
      by_cases hfull : runLen + 1 = n
      · rw [if_pos hfull] at h
        obtain rfl := Except.ok.inj h
        exact hlate
      · rw [if_neg hfull] at h
        exact ih (by omega) (by omega) hlate h

/-- `alloc` fails only if there is no run. -/
theorem alloc_error {e : BitmapError} (hn : 0 < n) (htotal : total ≤ capacity bitmap.length)
    (h : alloc bitmap total n = .error e) : ¬ ClearRun bitmap total n := by
  unfold alloc at h
  split at h
  · rintro ⟨start, hend, -⟩
    omega
  · have hmiss := allocLoop_error (Nat.zero_add 0) hn (fun start _ _ => Nat.zero_le start) h
    rw [Nat.zero_add] at hmiss
    exact hmiss

/-- A bitmap that is too small for `total` bits serves no request. -/
theorem alloc_beyond (h : capacity bitmap.length < total) :
    alloc bitmap total n = .error .outOfRange := by
  unfold alloc
  rw [if_pos (Or.inr (Or.inr h))]

theorem free_ok (htotal : total ≤ capacity bitmap.length) (hend : start + n ≤ total)
    (hword : total < 2 ^ 64) : free bitmap total start n = .ok (setBits bitmap start n false) := by
  unfold free
  rw [if_neg (by omega), if_neg (by omega), if_neg (by omega)]

/-- To take a run of clear bits and give it back changes nothing. -/
theorem setBits_setBits (hend : start + n ≤ capacity bitmap.length)
    (hclear : ∀ j, start ≤ j → j < start + n → bit bitmap j = false) :
    setBits (setBits bitmap start n true) start n false = bitmap := by
  refine bitmap_ext (by rw [length_setBits, length_setBits]) fun j _ => ?_
  rw [bit_setBits (by rw [length_setBits]; exact hend), bit_setBits hend]
  by_cases hin : start ≤ j ∧ j < start + n
  · rw [if_pos hin, hclear j hin.1 hin.2]
  · rw [if_neg hin, if_neg hin]

/-- `free` undoes `alloc`. -/
theorem free_alloc {r : Nat × List UInt8} (hword : total < 2 ^ 64)
    (h : alloc bitmap total n = .ok r) : free r.2 total r.1 n = .ok bitmap := by
  obtain ⟨hmap, hend, htotal, hclear⟩ := alloc_ok h
  rw [hmap, free_ok (by rw [length_setBits]; exact htotal) hend hword,
    setBits_setBits (by omega) hclear]

end Plinth.Rwfs.Bitmap
