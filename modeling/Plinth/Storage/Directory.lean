import Plinth.Common.Bytes

/-!
# `Plinth.Storage.Directory`: the flat directory

The directory of the read-write filesystem: slots of 40 bytes with a name, the first sector of the
file and its length. A slot whose first byte is zero is free.

`view` is what a slot holds. `find_ok`, `create_ok` and `remove_ok` say what the three calls do to
the views: `create` fills a free slot, `remove` empties the slot of the name, and no other slot
changes.
-/

set_option autoImplicit false

namespace Plinth.Rwfs.Directory

open Bytes

variable {dir dir' name r : List UInt8} {i j first len : Nat}

/-- `ENTRY_SIZE`. -/
def entrySize : Nat := 40

/-- `NAME_LEN`. -/
def nameLen : Nat := 32

/-- `DirError`. -/
inductive DirError where
  | full
  | notFound
  | duplicate
  | invalidName
  deriving DecidableEq, Repr

/-- `Entry`. -/
structure Entry where
  firstSector : Nat
  byteLen : Nat
  deriving DecidableEq, Repr

/-- `Entry::sector_count`, that is `byte_len.div_ceil(512)`. -/
def Entry.sectorCount (e : Entry) : Nat := (e.byteLen + 511) / 512

/-- `capacity`: the slots of a directory of `bytes` bytes. -/
def capacity (bytes : Nat) : Nat := bytes / entrySize

/-- `name_eq`. -/
def nameEq (field name : List UInt8) : Bool := untilNul field == name

/-- `is_free`. -/
def isFree (field : List UInt8) : Bool := field.getD 0 0 == 0

/-- `slot`. -/
def slot (dir : List UInt8) (i : Nat) : List UInt8 := slice dir (i * entrySize) entrySize

/-- `rd_u32`. -/
def rdU32 (b : List UInt8) (off : Nat) : Nat := leValue (slice b off 4)

/-- `entry_of`. -/
def entryOf (r : List UInt8) : Entry := ⟨rdU32 r 32, rdU32 r 36⟩

/-- The test of `find` and `remove`: the slot is taken, and by this name. -/
def isNamed (dir name : List UInt8) (i : Nat) : Bool :=
  !isFree (slot dir i) && nameEq (slice (slot dir i) 0 nameLen) name

/-- The first slot with a property. -/
def firstSlot (dir : List UInt8) (p : Nat → Bool) : Option Nat :=
  (List.range (capacity dir.length)).find? p

/-- `find`. -/
def find (dir name : List UInt8) : Except DirError Entry :=
  match firstSlot dir (isNamed dir name) with
  | some i => .ok (entryOf (slot dir i))
  | none => .error .notFound

/-- The slot that `create` fills in: zeros, then the name, then the two words. -/
def filled (name : List UInt8) (first len : Nat) : List UInt8 :=
  overwrite (overwrite (overwrite (zeros entrySize) 0 name) 32 (leBytes 4 first)) 36
    (leBytes 4 len)

/-- `create`: the directory afterwards. On an error it is as before. -/
def create (dir name : List UInt8) (first len : Nat) : Except DirError (List UInt8) :=
  if name = [] ∨ name.length > nameLen then .error .invalidName
  else
    match find dir name with
    | .ok _ => .error .duplicate
    | .error _ =>
      match firstSlot dir fun i => isFree (slot dir i) with
      | some i => .ok (overwrite dir (i * entrySize) (filled name first len))
      | none => .error .full

/-- `remove`: the entry and the directory afterwards. -/
def remove (dir name : List UInt8) : Except DirError (Entry × List UInt8) :=
  match firstSlot dir (isNamed dir name) with
  | some i => .ok (entryOf (slot dir i), overwrite dir (i * entrySize) (zeros entrySize))
  | none => .error .notFound

/-- What the slot `i` holds: a name and its entry, or nothing. -/
def view (dir : List UInt8) (i : Nat) : Option (List UInt8 × Entry) :=
  if isFree (slot dir i) then none
  else some (untilNul (slice (slot dir i) 0 nameLen), entryOf (slot dir i))

/-! ### Slots -/

theorem firstSlot_some {p : Nat → Bool} (h : firstSlot dir p = some i) :
    i < capacity dir.length ∧ p i = true := by
  obtain ⟨hp, hmem, -⟩ := List.find?_range_eq_some.mp h
  exact ⟨List.mem_range.mp hmem, hp⟩

theorem firstSlot_none {p : Nat → Bool} (h : firstSlot dir p = none)
    (hi : i < capacity dir.length) : p i = false :=
  Bool.eq_false_iff.mpr (List.find?_eq_none.mp h i (List.mem_range.mpr hi))

/-- A slot lies inside the directory. -/
theorem slot_end (hi : i < capacity dir.length) : i * entrySize + entrySize ≤ dir.length := by
  unfold capacity at hi
  have hslots : (i + 1) * entrySize ≤ dir.length :=
    Nat.le_trans (Nat.mul_le_mul_right _ hi) (Nat.div_mul_le_self _ _)
  rw [Nat.add_mul, Nat.one_mul] at hslots
  exact hslots

theorem length_write (hi : i < capacity dir.length) (hr : r.length = entrySize) :
    (overwrite dir (i * entrySize) r).length = dir.length :=
  length_overwrite (by rw [hr]; exact slot_end hi)

theorem slot_write_same (hi : i < capacity dir.length) (hr : r.length = entrySize) :
    slot (overwrite dir (i * entrySize) r) i = r := by
  unfold slot
  rw [← hr]
  exact slice_overwrite_self (by rw [hr]; exact slot_end hi)

theorem slot_write_other (hi : i < capacity dir.length) (hr : r.length = entrySize)
    (hij : j ≠ i) : slot (overwrite dir (i * entrySize) r) j = slot dir j := by
  refine slice_overwrite_of_apart (by rw [hr]; exact slot_end hi) ?_
  rcases Nat.lt_or_gt_of_ne hij with hlt | hgt
  · have hle := Nat.mul_le_mul_right entrySize (Nat.succ_le_of_lt hlt)
    rw [Nat.succ_mul] at hle
    exact Or.inl hle
  · have hle := Nat.mul_le_mul_right entrySize (Nat.succ_le_of_lt hgt)
    rw [Nat.succ_mul] at hle
    rw [hr]
    exact Or.inr hle

theorem view_write_same (hi : i < capacity dir.length) (hr : r.length = entrySize) :
    view (overwrite dir (i * entrySize) r) i =
      if isFree r then none else some (untilNul (slice r 0 nameLen), entryOf r) := by
  unfold view
  rw [slot_write_same hi hr]

theorem view_write_other (hi : i < capacity dir.length) (hr : r.length = entrySize)
    (hij : j ≠ i) : view (overwrite dir (i * entrySize) r) j = view dir j := by
  unfold view
  rw [slot_write_other hi hr hij]

/-- The test of `find` on the view of the slot. -/
theorem isNamed_iff : isNamed dir name i = true ↔ ∃ e, view dir i = some (name, e) := by
  unfold isNamed view nameEq
  cases hfree : isFree (slot dir i) with
  | true =>
    rw [Bool.not_true, Bool.false_and, if_pos rfl]
    constructor
    · intro h
      cases h
    · rintro ⟨e, h⟩
      cases h
  | false =>
    rw [Bool.not_false, Bool.true_and, if_neg Bool.false_ne_true, beq_iff_eq]
    constructor
    · intro heq
      exact ⟨_, by rw [heq]⟩
    · rintro ⟨e, heq⟩
      exact congrArg Prod.fst (Option.some.inj heq)

theorem view_of_isNamed (h : isNamed dir name i = true) :
    view dir i = some (name, entryOf (slot dir i)) := by
  obtain ⟨e, hview⟩ := isNamed_iff.mp h
  have hentry : e = entryOf (slot dir i) := by
    unfold view at hview
    split at hview
    · cases hview
    · exact (congrArg Prod.snd (Option.some.inj hview)).symm
  rw [hview, hentry]

theorem view_eq_none : view dir i = none ↔ isFree (slot dir i) = true := by
  unfold view
  split
  · rename_i hfree
    exact ⟨fun _ => hfree, fun _ => rfl⟩
  · rename_i htaken
    exact ⟨fun h => (nomatch h), fun h => absurd h htaken⟩

/-- A stored name has no zero byte: it was read up to the first. -/
theorem zero_not_mem_of_view {e : Entry} (h : view dir i = some (name, e)) : 0 ∉ name := by
  unfold view at h
  split at h
  · cases h
  · have hname : untilNul (slice (slot dir i) 0 nameLen) = name :=
      congrArg Prod.fst (Option.some.inj h)
    rw [← hname]
    exact zero_not_mem_untilNul _

/-! ### A slot that is filled in -/

section
variable (hname : name.length ≤ nameLen)
include hname

theorem length_named : (overwrite (zeros entrySize) 0 name).length = entrySize := by
  unfold nameLen at hname
  rw [length_overwrite (by rw [length_zeros]; unfold entrySize; omega), length_zeros]

theorem length_first : (overwrite (overwrite (zeros entrySize) 0 name) 32
    (leBytes 4 first)).length = entrySize := by
  rw [length_overwrite (by rw [length_named hname, length_leBytes]; decide), length_named hname]

theorem length_filled : (filled name first len).length = entrySize := by
  unfold filled
  rw [length_overwrite (by rw [length_first hname, length_leBytes]; decide), length_first hname]

/-- The name field is the name, padded. -/
theorem slice_filled_name :
    slice (filled name first len) 0 nameLen = name ++ zeros (nameLen - name.length) := by
  unfold filled
  rw [slice_overwrite_of_apart (by rw [length_first hname, length_leBytes]; decide)
      (Or.inl (by decide)),
    slice_overwrite_of_apart (by rw [length_named hname, length_leBytes]; decide)
      (Or.inl (by decide))]
  unfold overwrite slice zeros
  rw [List.drop_zero, List.take_zero, List.nil_append, List.take_append,
    List.take_of_length_le hname, Nat.zero_add, List.drop_replicate, List.take_replicate]
  unfold nameLen entrySize at *
  rw [Nat.min_eq_left (by omega)]

theorem entryOf_filled (hfirst : first < 2 ^ 32) (hlen : len < 2 ^ 32) :
    entryOf (filled name first len) = ⟨first, len⟩ := by
  have hword : slice (filled name first len) 32 4 = leBytes 4 first := by
    unfold filled
    rw [slice_overwrite_of_apart (by rw [length_first hname, length_leBytes]; decide)
      (Or.inl (by decide))]
    have hself : slice (overwrite (overwrite (zeros entrySize) 0 name) 32 (leBytes 4 first)) 32
        (leBytes 4 first).length = leBytes 4 first :=
      slice_overwrite_self (by rw [length_named hname, length_leBytes]; decide)
    rw [length_leBytes] at hself
    exact hself
  have hlast : slice (filled name first len) 36 4 = leBytes 4 len := by
    have hself : slice (filled name first len) 36 (leBytes 4 len).length = leBytes 4 len :=
      slice_overwrite_self (by rw [length_first hname, length_leBytes]; decide)
    rw [length_leBytes] at hself
    exact hself
  unfold entryOf rdU32
  rw [hword, hlast, leValue_leBytes_of_lt hfirst, leValue_leBytes_of_lt hlen]

/-- A name without zero bytes is what the filled slot holds. -/
theorem view_filled (hi : i < capacity dir.length) (hne : name ≠ []) (hnul : 0 ∉ name)
    (hfirst : first < 2 ^ 32) (hlen : len < 2 ^ 32) :
    view (overwrite dir (i * entrySize) (filled name first len)) i =
      some (name, ⟨first, len⟩) := by
  have htaken : isFree (filled name first len) = false := by
    have hhead : (filled name first len).getD 0 0 = (slice (filled name first len) 0 nameLen).getD
        0 0 := by
      rw [List.getD_eq_getElem?_getD, List.getD_eq_getElem?_getD, slice_getElem?]
      rfl
    unfold isFree
    rw [hhead, slice_filled_name hname]
    cases name with
    | nil => exact absurd rfl hne
    | cons x xs => exact beq_eq_false_iff_ne.mpr (fun h => hnul (h ▸ List.mem_cons_self))
  rw [view_write_same hi (length_filled hname), htaken, if_neg Bool.false_ne_true,
    slice_filled_name hname, untilNul_pad hnul, entryOf_filled hname hfirst hlen]

end

/-! ### The calls -/

theorem find_ok {e : Entry} (h : find dir name = .ok e) :
    ∃ i, i < capacity dir.length ∧ view dir i = some (name, e) := by
  unfold find at h
  split at h
  · rename_i i hslot
    obtain ⟨hi, hnamed⟩ := firstSlot_some hslot
    rw [← Except.ok.inj h]
    exact ⟨i, hi, view_of_isNamed hnamed⟩
  · cases h

theorem find_error {x : DirError} (h : find dir name = .error x) :
    x = .notFound ∧ ∀ i e, i < capacity dir.length → view dir i ≠ some (name, e) := by
  unfold find at h
  split at h
  · cases h
  · rename_i hslot
    refine ⟨(Except.error.inj h).symm, fun i e hi hview => ?_⟩
    have hnot := firstSlot_none hslot hi
    rw [isNamed_iff.mpr ⟨e, hview⟩] at hnot
    cases hnot

/-- `create` fills in a free slot, under a name that no slot has. -/
theorem create_ok (hnul : 0 ∉ name) (hfirst : first < 2 ^ 32) (hlen : len < 2 ^ 32)
    (h : create dir name first len = .ok dir') :
    dir'.length = dir.length ∧
      (∀ i e, i < capacity dir.length → view dir i ≠ some (name, e)) ∧
      ∃ i, i < capacity dir.length ∧ view dir i = none ∧
        view dir' i = some (name, ⟨first, len⟩) ∧ ∀ j, j ≠ i → view dir' j = view dir j := by
  unfold create at h
  split at h
  · cases h
  · rename_i hvalid
    rw [not_or] at hvalid
    have hshort : name.length ≤ nameLen := Nat.le_of_not_lt hvalid.2
    split at h
    · cases h
    · rename_i x hfind
      split at h
      · rename_i i hslot
        obtain ⟨hi, hfree⟩ := firstSlot_some hslot
        obtain rfl := Except.ok.inj h
        refine ⟨length_write hi (length_filled hshort), (find_error hfind).2, i, hi, ?_,
          view_filled hshort hi hvalid.1 hnul hfirst hlen,
          fun j hj => view_write_other hi (length_filled hshort) hj⟩
        unfold view
        rw [if_pos hfree]
      · cases h

/-- A directory with no file takes every name of 1 to 32 bytes. -/
theorem create_empty (hne : name ≠ []) (hshort : name.length ≤ nameLen)
    (hroom : 0 < capacity dir.length) (hempty : ∀ i, view dir i = none) (first len : Nat) :
    ∃ dir', create dir name first len = .ok dir' := by
  have hvalid : ¬ (name = [] ∨ name.length > nameLen) := not_or.mpr ⟨hne, Nat.not_lt.mpr hshort⟩
  unfold create
  rw [if_neg hvalid]
  cases hfind : find dir name with
  | ok e =>
    obtain ⟨i, -, hview⟩ := find_ok hfind
    rw [hempty i] at hview
    cases hview
  | error x =>
    dsimp only
    cases hslot : firstSlot dir fun i => isFree (slot dir i) with
    | none =>
      have htaken := firstSlot_none hslot hroom
      rw [view_eq_none.mp (hempty 0)] at htaken
      cases htaken
    | some i => exact ⟨_, rfl⟩

/-- `remove` empties the slot of the name. -/
theorem remove_ok {e : Entry} (h : remove dir name = .ok (e, dir')) :
    dir'.length = dir.length ∧
      ∃ i, i < capacity dir.length ∧ view dir i = some (name, e) ∧ view dir' i = none ∧
        ∀ j, j ≠ i → view dir' j = view dir j := by
  unfold remove at h
  split at h
  · rename_i i hslot
    obtain ⟨hi, hnamed⟩ := firstSlot_some hslot
    have hzeros : (zeros entrySize).length = entrySize := length_zeros _
    obtain ⟨rfl, rfl⟩ := Prod.mk.inj (Except.ok.inj h)
    refine ⟨length_write hi hzeros, i, hi, view_of_isNamed hnamed, ?_,
      fun j hj => view_write_other hi hzeros hj⟩
    rw [view_write_same hi hzeros]
    rfl
  · cases h

theorem remove_error {x : DirError} (h : remove dir name = .error x) :
    x = .notFound ∧ ∀ i e, i < capacity dir.length → view dir i ≠ some (name, e) := by
  unfold remove at h
  split at h
  · cases h
  · rename_i hslot
    refine find_error ?_
    unfold find
    rw [hslot]
    exact congrArg Except.error (Except.error.inj h)

end Plinth.Rwfs.Directory
