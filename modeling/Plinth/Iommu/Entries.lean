import Mathlib.Data.Nat.Bitwise

/-!
# `Plinth.Iommu.Entries`: the entries of the DMA tables

The two encodings of `kernel/src/iommu.rs`. An Intel entry is present if its read or its write bit
is set. An AMD entry has a present bit, the level of the next table and two permission bits, which
the hardware combines on its way down. The address has the same place in both.

An entry is a word of 64 bits as a `Nat`. Each result is about a page-aligned address below 2^52:
the entry gives the address back, and nothing else of it changes the fields.
-/

set_option autoImplicit false

namespace Plinth.Iommu

variable {phys perms nl e i : Nat}

/-- `IOMMU_READ`. -/
def iommuRead : Nat := 1

/-- `IOMMU_WRITE`. -/
def iommuWrite : Nat := 2

/-- `SL_PRESENT`. -/
def slPresent : Nat := 3

/-- `SL_ADDR_MASK`: the bits 12 to 51. -/
def slAddrMask : Nat := 0x000ffffffffff000

/-- `AMD_PR`. -/
def amdPr : Nat := 1

/-- `AMD_NL_SHIFT`. -/
def amdNlShift : Nat := 9

/-- `AMD_IR`. -/
def amdIr : Nat := 1 <<< 61

/-- `AMD_IW`. -/
def amdIw : Nat := 1 <<< 62

/-- `PteFmt`. -/
inductive PteFmt where
  | vtd
  | amdVi
  deriving DecidableEq, Repr

/-- `PteFmt::decode`: whether the entry is present, and its address. -/
def PteFmt.decode : PteFmt → Nat → Bool × Nat
  | vtd, entry => (entry &&& slPresent != 0, entry &&& slAddrMask)
  | amdVi, entry => (entry &&& amdPr != 0, entry &&& slAddrMask)

/-- `PteFmt::encode_leaf`. -/
def PteFmt.encodeLeaf : PteFmt → Nat → Nat → Nat
  | vtd, phys, perms => (phys &&& slAddrMask) ||| (perms &&& slPresent)
  | amdVi, phys, perms =>
    let e := amdPr ||| (phys &&& slAddrMask)
    let e := if perms &&& iommuRead != 0 then e ||| amdIr else e
    if perms &&& iommuWrite != 0 then e ||| amdIw else e

/-- `PteFmt::encode_link`. -/
def PteFmt.encodeLink : PteFmt → Nat → Nat → Nat
  | vtd, child, _ => (child &&& slAddrMask) ||| slPresent
  | amdVi, child, nextLevel =>
    amdPr ||| amdIr ||| amdIw ||| (child &&& slAddrMask) ||| ((nextLevel &&& 7) <<< amdNlShift)

/-! ### Bits -/

/-- The address is that of a page, and has at most 52 bits. -/
def PageAddr (phys : Nat) : Prop := phys % 4096 = 0 ∧ phys < 2 ^ 52

theorem testBit_slAddrMask (i : Nat) :
    slAddrMask.testBit i = (decide (12 ≤ i) && decide (i < 52)) := by
  have hmask : slAddrMask = (2 ^ 40 - 1) <<< 12 := by decide
  rw [hmask, Nat.testBit_shiftLeft, Nat.testBit_two_pow_sub_one]
  by_cases hlow : 12 ≤ i
  · have hiff : i - 12 < 40 ↔ i < 52 := by omega
    rw [decide_eq_true (show i ≥ 12 from hlow), decide_eq_decide.mpr hiff]
  · rw [decide_eq_false (show ¬ i ≥ 12 from hlow), Bool.false_and, Bool.false_and]

/-- The bits of a page address are those of the address field. -/
theorem PageAddr.testBit (h : PageAddr phys) (hi : ¬ (12 ≤ i ∧ i < 52)) :
    phys.testBit i = false := by
  by_cases hlow : 12 ≤ i
  · have hpow : 2 ^ 52 ≤ 2 ^ i := Nat.pow_le_pow_right (by decide) (by omega)
    exact Nat.testBit_lt_two_pow (Nat.lt_of_lt_of_le h.2 hpow)
  · have hmod : (phys % 2 ^ 12).testBit i = phys.testBit i := by
      rw [Nat.testBit_mod_two_pow, decide_eq_true (by omega), Bool.true_and]
    rw [← hmod, show phys % 2 ^ 12 = 0 from h.1, Nat.zero_testBit]

/-- An entry with the bits of a page address in its address field gives it back. -/
theorem and_slAddrMask (h : PageAddr phys)
    (he : ∀ i, 12 ≤ i → i < 52 → e.testBit i = phys.testBit i) : e &&& slAddrMask = phys := by
  refine Nat.eq_of_testBit_eq fun i => ?_
  rw [Nat.testBit_and, testBit_slAddrMask]
  by_cases hin : 12 ≤ i ∧ i < 52
  · rw [he i hin.1 hin.2, decide_eq_true hin.1, decide_eq_true hin.2]
    simp
  · rw [h.testBit hin]
    have hout : (decide (12 ≤ i) && decide (i < 52)) = false := by
      rw [← Bool.not_eq_true, Bool.and_eq_true, decide_eq_true_eq, decide_eq_true_eq]
      exact hin
    rw [hout, Bool.and_false]

theorem phys_and_slAddrMask (h : PageAddr phys) : phys &&& slAddrMask = phys :=
  and_slAddrMask h fun _ _ _ => rfl

/-- A mask of one bit reads it. -/
theorem and_two_pow_ne_zero (e n : Nat) : (e &&& 2 ^ n != 0) = e.testBit n := by
  rw [Nat.and_two_pow]
  cases e.testBit n with
  | false =>
    rw [Bool.toNat_false, Nat.zero_mul]
    rfl
  | true =>
    have hpos := Nat.two_pow_pos n
    rw [Bool.toNat_true, Nat.one_mul, bne_iff_ne]
    omega

/-- The bits of the entries, outside of the constants. -/
theorem testBit_amdIr (i : Nat) : amdIr.testBit i = decide (61 = i) := by
  rw [show amdIr = 2 ^ 61 from rfl, Nat.testBit_two_pow]

theorem testBit_amdIw (i : Nat) : amdIw.testBit i = decide (62 = i) := by
  rw [show amdIw = 2 ^ 62 from rfl, Nat.testBit_two_pow]

theorem testBit_amdPr (i : Nat) : amdPr.testBit i = decide (0 = i) := by
  rw [show amdPr = 2 ^ 0 from rfl, Nat.testBit_two_pow]

theorem testBit_nextLevel (nl i : Nat) :
    ((nl &&& 7) <<< amdNlShift).testBit i =
      (decide (9 ≤ i) && (nl.testBit (i - 9) && decide (i - 9 < 3))) := by
  rw [show (7 : Nat) = 2 ^ 3 - 1 from rfl, Nat.testBit_shiftLeft, Nat.testBit_and,
    Nat.testBit_two_pow_sub_one]
  rfl

/-! ### Reading back what was written -/

theorem decode_zero (fmt : PteFmt) : fmt.decode 0 = (false, 0) := by
  cases fmt with
  | vtd => rfl
  | amdVi => rfl

theorem testBit_leaf_amd (h : PageAddr phys) (perms i : Nat) :
    (PteFmt.amdVi.encodeLeaf phys perms).testBit i =
      (decide (0 = i) || phys.testBit i || (perms.testBit 0 && decide (61 = i)) ||
        (perms.testBit 1 && decide (62 = i))) := by
  unfold PteFmt.encodeLeaf
  dsimp only
  rw [phys_and_slAddrMask h, show iommuRead = 2 ^ 0 from rfl, show iommuWrite = 2 ^ 1 from rfl,
    and_two_pow_ne_zero, and_two_pow_ne_zero]
  cases perms.testBit 0 with
  | false =>
    cases perms.testBit 1 with
    | false => simp [Nat.testBit_or, testBit_amdPr]
    | true => simp [Nat.testBit_or, testBit_amdPr, testBit_amdIw]
  | true =>
    cases perms.testBit 1 with
    | false => simp [Nat.testBit_or, testBit_amdPr, testBit_amdIr]
    | true => simp [Nat.testBit_or, testBit_amdPr, testBit_amdIr, testBit_amdIw]

theorem testBit_link_amd (h : PageAddr phys) (nl i : Nat) :
    (PteFmt.amdVi.encodeLink phys nl).testBit i =
      (decide (0 = i) || decide (61 = i) || decide (62 = i) || phys.testBit i ||
        (decide (9 ≤ i) && (nl.testBit (i - 9) && decide (i - 9 < 3)))) := by
  show (amdPr ||| amdIr ||| amdIw ||| (phys &&& slAddrMask) |||
    ((nl &&& 7) <<< amdNlShift)).testBit i = _
  rw [phys_and_slAddrMask h, Nat.testBit_or, Nat.testBit_or, Nat.testBit_or, Nat.testBit_or,
    testBit_amdPr, testBit_amdIr, testBit_amdIw, testBit_nextLevel]

/-- A link gives the child back. -/
theorem decode_encodeLink (fmt : PteFmt) (h : PageAddr phys) (nl : Nat) :
    fmt.decode (fmt.encodeLink phys nl) = (true, phys) := by
  cases fmt with
  | vtd =>
    have hbit : (PteFmt.vtd.encodeLink phys nl).testBit 0 = true := by
      show ((phys &&& slAddrMask) ||| slPresent).testBit 0 = true
      rw [Nat.testBit_or]
      exact Bool.or_true _
    have hpresent : (PteFmt.vtd.encodeLink phys nl &&& slPresent != 0) = true := by
      rw [bne_iff_ne]
      intro hzero
      have hand : (PteFmt.vtd.encodeLink phys nl &&& slPresent).testBit 0 = false := by
        rw [hzero]
        rfl
      rw [Nat.testBit_and, hbit] at hand
      cases hand
    refine Prod.ext hpresent (and_slAddrMask h fun i hlow hhigh => ?_)
    show ((phys &&& slAddrMask) ||| slPresent).testBit i = _
    rw [phys_and_slAddrMask h, Nat.testBit_or, show slPresent = 2 ^ 2 - 1 from rfl,
      Nat.testBit_two_pow_sub_one, decide_eq_false (by omega), Bool.or_false]
  | amdVi =>
    refine Prod.ext ?_ (and_slAddrMask h fun i hlow hhigh => ?_)
    · show (_ &&& amdPr != 0) = true
      rw [show amdPr = 2 ^ 0 from rfl, and_two_pow_ne_zero, testBit_link_amd h]
      rfl
    · rw [testBit_link_amd h, decide_eq_false (by omega), decide_eq_false (by omega),
        decide_eq_false (by omega), decide_eq_false (show ¬ i - 9 < 3 by omega)]
      simp

/-- A leaf with a permission gives the page back. -/
theorem decode_encodeLeaf (fmt : PteFmt) (h : PageAddr phys) (hperms : perms &&& slPresent ≠ 0) :
    fmt.decode (fmt.encodeLeaf phys perms) = (true, phys) := by
  cases fmt with
  | vtd =>
    have hpresent : ((phys ||| (perms &&& slPresent)) &&& slPresent) = perms &&& slPresent := by
      refine Nat.eq_of_testBit_eq fun i => ?_
      rw [Nat.testBit_and, Nat.testBit_or, Nat.testBit_and,
        show slPresent = 2 ^ 2 - 1 from rfl, Nat.testBit_two_pow_sub_one]
      by_cases hi : i < 2
      · rw [h.testBit (by omega), decide_eq_true hi]
        simp
      · rw [decide_eq_false hi]
        simp
    refine Prod.ext ?_ (and_slAddrMask h fun i hlow hhigh => ?_)
    · show (((phys &&& slAddrMask) ||| (perms &&& slPresent)) &&& slPresent != 0) = true
      rw [phys_and_slAddrMask h, hpresent, bne_iff_ne]
      exact hperms
    · show ((phys &&& slAddrMask) ||| (perms &&& slPresent)).testBit i = _
      rw [phys_and_slAddrMask h, Nat.testBit_or, Nat.testBit_and,
        show slPresent = 2 ^ 2 - 1 from rfl, Nat.testBit_two_pow_sub_one,
        decide_eq_false (by omega), Bool.and_false, Bool.or_false]
  | amdVi =>
    refine Prod.ext ?_ (and_slAddrMask h fun i hlow hhigh => ?_)
    · show (_ &&& amdPr != 0) = true
      rw [show amdPr = 2 ^ 0 from rfl, and_two_pow_ne_zero, testBit_leaf_amd h]
      rfl
    · rw [testBit_leaf_amd h, decide_eq_false (by omega), decide_eq_false (by omega),
        decide_eq_false (by omega)]
      simp

/-! ### The fields that the AMD walk reads -/

/-- The Next Level field. -/
def nextLevel (entry : Nat) : Nat := (entry >>> amdNlShift) &&& 7

theorem testBit_entry_field (e j : Nat) :
    (nextLevel e).testBit j = (e.testBit (9 + j) && decide (j < 3)) := by
  unfold nextLevel
  rw [show (7 : Nat) = 2 ^ 3 - 1 from rfl, Nat.testBit_and, Nat.testBit_shiftRight,
    Nat.testBit_two_pow_sub_one]
  rfl

theorem nextLevel_link (h : PageAddr phys) (hnl : nl < 8) :
    nextLevel (PteFmt.amdVi.encodeLink phys nl) = nl := by
  refine Nat.eq_of_testBit_eq fun j => ?_
  rw [testBit_entry_field, testBit_link_amd h]
  by_cases hj : j < 3
  · rw [h.testBit (by omega), decide_eq_false (by omega), decide_eq_false (by omega),
      decide_eq_false (by omega), decide_eq_true (by omega), decide_eq_true hj,
      show 9 + j - 9 = j by omega, decide_eq_true hj]
    simp
  · have hpow : 2 ^ 3 ≤ 2 ^ j := Nat.pow_le_pow_right (by decide) (by omega)
    rw [decide_eq_false hj, Bool.and_false,
      Nat.testBit_lt_two_pow (show nl < 2 ^ j from Nat.lt_of_lt_of_le hnl hpow)]

theorem nextLevel_leaf (h : PageAddr phys) (perms : Nat) :
    nextLevel (PteFmt.amdVi.encodeLeaf phys perms) = 0 := by
  refine Nat.eq_of_testBit_eq fun j => ?_
  rw [testBit_entry_field, testBit_leaf_amd h, Nat.zero_testBit]
  by_cases hj : j < 3
  · rw [h.testBit (by omega), decide_eq_false (by omega), decide_eq_false (by omega),
      decide_eq_false (by omega)]
    simp
  · rw [decide_eq_false hj, Bool.and_false]

/-- A link grants both permissions. -/
theorem perms_link (h : PageAddr phys) (nl : Nat) :
    (PteFmt.amdVi.encodeLink phys nl &&& amdIr != 0) = true ∧
      (PteFmt.amdVi.encodeLink phys nl &&& amdIw != 0) = true := by
  rw [show amdIr = 2 ^ 61 from rfl, show amdIw = 2 ^ 62 from rfl, and_two_pow_ne_zero,
    and_two_pow_ne_zero, testBit_link_amd h, testBit_link_amd h]
  simp

/-- A leaf grants what it was written with. -/
theorem perms_leaf (h : PageAddr phys) (perms : Nat) :
    (PteFmt.amdVi.encodeLeaf phys perms &&& amdIr != 0) = perms.testBit 0 ∧
      (PteFmt.amdVi.encodeLeaf phys perms &&& amdIw != 0) = perms.testBit 1 := by
  rw [show amdIr = 2 ^ 61 from rfl, show amdIw = 2 ^ 62 from rfl, and_two_pow_ne_zero,
    and_two_pow_ne_zero, testBit_leaf_amd h, testBit_leaf_amd h, h.testBit (by omega),
    h.testBit (by omega)]
  simp

end Plinth.Iommu
