import Mathlib.Algebra.GroupWithZero.Nat
import Mathlib.Data.List.Basic
import Plinth.FrameAlloc

/-!
# `Plinth.Frames.Boot`: the frame allocator from the boot memory map

`FrameAlloc::new` opens the frames of the usable regions, puts the bitmap itself at the start of the
largest of them, and reserves frame zero and the frame of the AP trampoline.

`Eligible` is what a frame must be to be handed out. `Sound` relates the bitmap to the addresses
that are out: a tracked bit is clear exactly if its frame is eligible and not out, and the free
count is the number of clear bits. `new` establishes it (`new_sound`), and `alloc` and `dealloc`
keep it, over every sequence of calls (`alloc_sound_complete`).
-/

set_option autoImplicit false

namespace Plinth

/-! ### The boot memory map -/

/-- `MemoryRegionKind` of the bootloader. -/
inductive MemoryRegionKind where
  | usable
  | bootloader
  | unknownUefi (kind : Nat)
  | unknownBios (kind : Nat)
  deriving DecidableEq, Repr

/-- `MemoryRegion`: the addresses from `start` to `stop`, without `stop`. -/
structure MemoryRegion where
  start : Nat
  stop : Nat
  kind : MemoryRegionKind
  le : start ≤ stop
  deriving DecidableEq, Repr

/-- `smp::TRAMPOLINE_PHYS`. -/
def trampolinePhys : Nat := 0x8000

/-- The usable regions, in order. -/
def usable (regions : List MemoryRegion) : List MemoryRegion :=
  regions.filter fun r => r.kind = .usable

/-- `Iterator::max_by_key`: of several largest elements the last. -/
def maxByKey {α : Type} (key : α → Nat) : List α → Option α
  | [] => none
  | x :: xs =>
    match maxByKey key xs with
    | some best => if key x ≤ key best then some best else some x
    | none => some x

/-- `addr.div_ceil(FRAME_SIZE)`, also written `(addr + FRAME_SIZE - 1) / FRAME_SIZE`. -/
def frameUp (addr : Nat) : Nat := (addr + (frameSize - 1)) / frameSize

namespace FrameAlloc

/-- What `new` works out before it builds the bitmap. -/
structure Layout where
  /-- The tracked frames. -/
  frames : Nat
  /-- The words of the bitmap. -/
  words : Nat
  /-- The first frame of the bitmap. -/
  bitmapFirst : Nat
  /-- The frames of the bitmap. -/
  bitmapFrames : Nat
  deriving DecidableEq, Repr

/-- The layout, unless `new` panics on the way: there is no usable memory, an address overflows,
or the largest region does not hold the bitmap. -/
def layout (regions : List MemoryRegion) : Option Layout :=
  match ((usable regions).map MemoryRegion.stop).max?,
      maxByKey (fun r => r.stop - r.start) (usable regions) with
  | some maxEnd, some host =>
    let frames := maxEnd / frameSize
    let words := (frames + 63) / 64
    let bitmapFirst := frameUp host.start
    let bitmapFrames := frameUp (words * 8)
    if (usable regions).any fun r => 2 ^ 64 ≤ r.start + (frameSize - 1) then none
    else if host.stop < bitmapFirst * frameSize + bitmapFrames * frameSize then none
    else some ⟨frames, words, bitmapFirst, bitmapFrames⟩
  | _, _ => none

/-- `mark_free`. -/
def markFree (fa : FrameAlloc) (idx : Nat) : FrameAlloc :=
  if fa.isUsed idx then
    { fa with
      bitmap := fa.bitmap.set (idx / 64) (fa.word (idx / 64) &&& ~~~(1#64 <<< (idx % 64)))
      free := fa.free + 1 }
  else fa

/-- `mark_used`. -/
def markUsed (fa : FrameAlloc) (idx : Nat) : FrameAlloc :=
  if fa.isUsed idx then fa
  else
    { fa with
      bitmap := fa.bitmap.set (idx / 64) (fa.word (idx / 64) ||| (1#64 <<< (idx % 64)))
      free := fa.free - 1 }

/-- Open the whole frames of a region. -/
def openRegion (fa : FrameAlloc) (r : MemoryRegion) : FrameAlloc :=
  (List.range' (frameUp r.start) (r.stop / frameSize - frameUp r.start)).foldl markFree fa

/-- The frames that `new` closes again: the bitmap, frame zero and the trampoline. -/
def reserved (l : Layout) : List Nat :=
  List.range' l.bitmapFirst l.bitmapFrames ++ [0, trampolinePhys / frameSize]

/-- `new`. It panics if the bitmap has no word for frame zero. The bitmap is a list here, and not
at its address. -/
def new (regions : List MemoryRegion) : Option FrameAlloc :=
  match layout regions with
  | none => none
  | some l =>
    if l.words = 0 then none
    else
      some ((reserved l).foldl markUsed ((usable regions).foldl openRegion
        ⟨List.replicate l.words (BitVec.allOnes 64), l.frames, 0, []⟩))

variable {fa fa' : FrameAlloc} {idx i j a : Nat}

/-! ### One bit -/

/-- To clear a bit changes that bit only. -/
theorem isUsed_clearBit (free : Nat) (h : idx / 64 < fa.bitmap.length) (j : Nat) :
    ({ fa with
        bitmap := fa.bitmap.set (idx / 64) (fa.word (idx / 64) &&& ~~~(1#64 <<< (idx % 64)))
        free := free } : FrameAlloc).isUsed j = (fa.isUsed j && !decide (j = idx)) := by
  rw [isUsed_set _ _ _ h]
  split
  · rename_i hj
    rw [getLsbD_clearBit (Nat.mod_lt _ (by decide))]
    have hword : (fa.word (idx / 64)).getLsbD (j % 64) = fa.isUsed j := by
      unfold isUsed
      rw [hj]
    have hiff : j % 64 = idx % 64 ↔ j = idx := by omega
    rw [hword, decide_eq_decide.mpr hiff]
  · rename_i hj
    have hne : j ≠ idx := by
      rintro rfl
      exact hj rfl
    rw [decide_eq_false hne, Bool.not_false, Bool.and_true]

/-- To set a bit changes that bit only. -/
theorem isUsed_setBit (free : Nat) (h : idx / 64 < fa.bitmap.length) (j : Nat) :
    ({ fa with
        bitmap := fa.bitmap.set (idx / 64) (fa.word (idx / 64) ||| (1#64 <<< (idx % 64)))
        free := free } : FrameAlloc).isUsed j = (fa.isUsed j || decide (j = idx)) := by
  rw [isUsed_set _ _ _ h]
  split
  · rename_i hj
    rw [getLsbD_setBit (Nat.mod_lt _ (by decide))]
    have hword : (fa.word (idx / 64)).getLsbD (j % 64) = fa.isUsed j := by
      unfold isUsed
      rw [hj]
    have hiff : j % 64 = idx % 64 ↔ j = idx := by omega
    rw [hword, decide_eq_decide.mpr hiff]
  · rename_i hj
    have hne : j ≠ idx := by
      rintro rfl
      exact hj rfl
    rw [decide_eq_false hne, Bool.or_false]

theorem markFree_isUsed (h : idx / 64 < fa.bitmap.length) (j : Nat) :
    (fa.markFree idx).isUsed j = (fa.isUsed j && !decide (j = idx)) := by
  unfold markFree
  split
  · exact isUsed_clearBit _ h j
  · rename_i hclear
    by_cases hj : j = idx
    · subst hj
      rw [Bool.eq_false_iff.mpr hclear, Bool.false_and]
    · rw [decide_eq_false hj, Bool.not_false, Bool.and_true]

theorem markUsed_isUsed (h : idx / 64 < fa.bitmap.length) (j : Nat) :
    (fa.markUsed idx).isUsed j = (fa.isUsed j || decide (j = idx)) := by
  unfold markUsed
  split
  · rename_i hused
    by_cases hj : j = idx
    · subst hj
      rw [hused, Bool.true_or]
    · rw [decide_eq_false hj, Bool.or_false]
  · exact isUsed_setBit _ h j

/-! ### The free count -/

/-- The tracked frames with a clear bit. -/
def clear (fa : FrameAlloc) : Finset Nat :=
  (Finset.range fa.frames).filter fun i => fa.isUsed i = false

theorem mem_clear : i ∈ fa.clear ↔ i < fa.frames ∧ fa.isUsed i = false := by
  unfold clear
  rw [Finset.mem_filter, Finset.mem_range]

/-- The bitmap covers the tracked frames, its other bits are set, and the free count is the number
of clear bits. -/
structure Counted (fa : FrameAlloc) : Prop where
  covers : fa.frames ≤ 64 * fa.bitmap.length
  tail : ∀ i, fa.frames ≤ i → i < 64 * fa.bitmap.length → fa.isUsed i = true
  free : fa.free = fa.clear.card

/-- One bit is cleared. -/
theorem Counted.clearBit (h : fa.Counted) (hframes : fa'.frames = fa.frames)
    (hlen : fa'.bitmap.length = fa.bitmap.length) (hidx : idx < fa.frames)
    (hused : fa.isUsed idx = true) (hfree : fa'.free = fa.free + 1)
    (hbits : ∀ j, fa'.isUsed j = (fa.isUsed j && !decide (j = idx))) : fa'.Counted := by
  refine ⟨by rw [hframes, hlen]; exact h.covers, fun i hi hlt => ?_, ?_⟩
  · rw [hframes] at hi
    rw [hlen] at hlt
    rw [hbits, h.tail i hi hlt, decide_eq_false (by omega)]
    rfl
  · have hclear : fa'.clear = insert idx fa.clear := by
      ext j
      rw [Finset.mem_insert, mem_clear, mem_clear, hframes, hbits]
      by_cases hj : j = idx
      · subst hj
        simp [hidx]
      · simp [hj]
    have hnot : idx ∉ fa.clear := by
      rw [mem_clear, hused]
      simp
    rw [hfree, h.free, hclear, Finset.card_insert_of_notMem hnot]

/-- One bit is set. -/
theorem Counted.setBit (h : fa.Counted) (hframes : fa'.frames = fa.frames)
    (hlen : fa'.bitmap.length = fa.bitmap.length) (hidx : idx < 64 * fa.bitmap.length)
    (hclear : fa.isUsed idx = false) (hfree : fa'.free = fa.free - 1)
    (hbits : ∀ j, fa'.isUsed j = (fa.isUsed j || decide (j = idx))) : fa'.Counted := by
  have htracked : idx < fa.frames := by
    by_contra hge
    rw [h.tail idx (Nat.le_of_not_lt hge) hidx] at hclear
    cases hclear
  refine ⟨by rw [hframes, hlen]; exact h.covers, fun i hi hlt => ?_, ?_⟩
  · rw [hframes] at hi
    rw [hlen] at hlt
    rw [hbits, h.tail i hi hlt, Bool.true_or]
  · have herase : fa'.clear = fa.clear.erase idx := by
      ext j
      rw [Finset.mem_erase, mem_clear, mem_clear, hframes, hbits]
      by_cases hj : j = idx
      · subst hj
        simp
      · simp [hj]
    rw [hfree, h.free, herase, Finset.card_erase_of_mem (mem_clear.mpr ⟨htracked, hclear⟩)]

/-- The size of the bitmap and the number of tracked frames. -/
structure Sized (fa : FrameAlloc) (frames words : Nat) : Prop where
  frames : fa.frames = frames
  words : fa.bitmap.length = words

theorem Sized.markFree {frames words : Nat} (h : fa.Sized frames words) (idx : Nat) :
    (fa.markFree idx).Sized frames words := by
  unfold FrameAlloc.markFree
  split
  · exact ⟨h.frames, by rw [List.length_set]; exact h.words⟩
  · exact h

theorem Sized.markUsed {frames words : Nat} (h : fa.Sized frames words) (idx : Nat) :
    (fa.markUsed idx).Sized frames words := by
  unfold FrameAlloc.markUsed
  split
  · exact h
  · exact ⟨h.frames, by rw [List.length_set]; exact h.words⟩

theorem Counted.markFree (h : fa.Counted) (hidx : idx < fa.frames) : (fa.markFree idx).Counted := by
  have hsized : (fa.markFree idx).Sized fa.frames fa.bitmap.length := Sized.markFree ⟨rfl, rfl⟩ idx
  have hword : idx / 64 < fa.bitmap.length := by
    have hcovers := h.covers
    omega
  by_cases hused : fa.isUsed idx = true
  · refine h.clearBit hsized.frames hsized.words hidx hused ?_ (markFree_isUsed hword)
    unfold FrameAlloc.markFree
    rw [if_pos hused]
  · unfold FrameAlloc.markFree
    rw [if_neg hused]
    exact h

theorem Counted.markUsed (h : fa.Counted) (hidx : idx < 64 * fa.bitmap.length) :
    (fa.markUsed idx).Counted := by
  have hsized : (fa.markUsed idx).Sized fa.frames fa.bitmap.length := Sized.markUsed ⟨rfl, rfl⟩ idx
  have hword : idx / 64 < fa.bitmap.length := by omega
  by_cases hused : fa.isUsed idx = true
  · unfold FrameAlloc.markUsed
    rw [if_pos hused]
    exact h
  · refine h.setBit hsized.frames hsized.words hidx (Bool.eq_false_iff.mpr hused) ?_
      (markUsed_isUsed hword)
    unfold FrameAlloc.markUsed
    rw [if_neg hused]

/-! ### `alloc` and `dealloc` -/

/-- `alloc` takes a tracked frame whose bit is clear, and sets the bit. -/
theorem alloc_ok (h : fa.alloc = .ok (a, fa')) :
    ∃ idx, a = idx * frameSize ∧ idx < fa.frames ∧ fa.isUsed idx = false ∧
      idx < 64 * fa.bitmap.length ∧ fa'.Sized fa.frames fa.bitmap.length ∧
      fa'.free = fa.free - 1 ∧ ∀ j, fa'.isUsed j = (fa.isUsed j || decide (j = idx)) := by
  unfold alloc at h
  split at h
  · rename_i idx bitmap hwords
    obtain ⟨rfl, rfl⟩ := Prod.mk.inj (Except.ok.inj h)
    obtain ⟨n, bit, hn, hbit, hidx, hlt, hclear, rfl⟩ := allocWords_spec hwords
    obtain rfl : n = idx / 64 := by omega
    obtain rfl : bit = idx % 64 := by omega
    exact ⟨idx, rfl, hlt, hclear, by omega, ⟨rfl, List.length_set⟩, rfl, isUsed_setBit _ hn⟩
  · cases h

/-- `alloc` fails only if the bit of every tracked frame is set. -/
theorem alloc_error {e : FrameError} (h : fa.alloc = .error e) :
    e = .exhausted ∧ ∀ i, i < fa.frames → i < 64 * fa.bitmap.length → fa.isUsed i = true := by
  unfold alloc at h
  split at h
  · cases h
  · rename_i hnone
    refine ⟨(Except.error.inj h).symm, fun i hi hlen => ?_⟩
    exact allocWords_none hnone (i / 64) (i % 64) (by omega) (Nat.mod_lt _ (by decide)) (by omega)

/-- `dealloc` of a tracked frame whose bit is set. -/
theorem dealloc_ok (hidx : idx < fa.frames) (hlen : idx < 64 * fa.bitmap.length)
    (hused : fa.isUsed idx = true) :
    ∃ fa', fa.dealloc (idx * frameSize) = .ok fa' ∧ fa'.Sized fa.frames fa.bitmap.length ∧
      fa'.free = fa.free + 1 ∧ ∀ j, fa'.isUsed j = (fa.isUsed j && !decide (j = idx)) := by
  have haddr : idx * frameSize / frameSize = idx := Nat.mul_div_cancel idx (by decide)
  have hbit : ¬ (fa.word (idx / 64)).getLsbD (idx % 64) = false := by
    intro hclear
    unfold isUsed at hused
    rw [hclear] at hused
    cases hused
  unfold dealloc
  rw [if_neg (fun hne => hne (Nat.mul_mod_left idx frameSize))]
  dsimp only
  rw [haddr, if_neg (Nat.not_le.mpr hidx), if_neg hbit]
  exact ⟨_, rfl, ⟨rfl, List.length_set⟩, rfl, isUsed_clearBit _ (by omega)⟩

/-! ### The loops of `new` -/

/-- To open frames clears their bits. -/
theorem foldl_markFree {idxs : List Nat} (hc : fa.Counted) (hidxs : ∀ i ∈ idxs, i < fa.frames) :
    (idxs.foldl markFree fa).Counted ∧
      (idxs.foldl markFree fa).Sized fa.frames fa.bitmap.length ∧
      ∀ j, (idxs.foldl markFree fa).isUsed j = (fa.isUsed j && !decide (j ∈ idxs)) := by
  induction idxs generalizing fa with
  | nil => exact ⟨hc, ⟨rfl, rfl⟩, fun j => by simp⟩
  | cons i idxs ih =>
    have hi := hidxs i List.mem_cons_self
    have hsized : (fa.markFree i).Sized fa.frames fa.bitmap.length := Sized.markFree ⟨rfl, rfl⟩ i
    have hword : i / 64 < fa.bitmap.length := by
      have hcovers := hc.covers
      omega
    obtain ⟨hc', hs', hbits⟩ := ih (hc.markFree hi) (fun k hk => by
      rw [hsized.frames]
      exact hidxs k (List.mem_cons_of_mem _ hk))
    rw [hsized.frames, hsized.words] at hs'
    refine ⟨hc', hs', fun j => ?_⟩
    rw [List.foldl_cons, hbits, markFree_isUsed hword, Bool.and_assoc]
    congr 1
    simp [List.mem_cons, Bool.not_or]

/-- To close frames sets their bits. -/
theorem foldl_markUsed {idxs : List Nat} (hc : fa.Counted)
    (hidxs : ∀ i ∈ idxs, i < 64 * fa.bitmap.length) :
    (idxs.foldl markUsed fa).Counted ∧
      (idxs.foldl markUsed fa).Sized fa.frames fa.bitmap.length ∧
      ∀ j, (idxs.foldl markUsed fa).isUsed j = (fa.isUsed j || decide (j ∈ idxs)) := by
  induction idxs generalizing fa with
  | nil => exact ⟨hc, ⟨rfl, rfl⟩, fun j => by simp⟩
  | cons i idxs ih =>
    have hi := hidxs i List.mem_cons_self
    have hsized : (fa.markUsed i).Sized fa.frames fa.bitmap.length := Sized.markUsed ⟨rfl, rfl⟩ i
    obtain ⟨hc', hs', hbits⟩ := ih (hc.markUsed hi) (fun k hk => by
      rw [hsized.words]
      exact hidxs k (List.mem_cons_of_mem _ hk))
    rw [hsized.frames, hsized.words] at hs'
    refine ⟨hc', hs', fun j => ?_⟩
    rw [List.foldl_cons, hbits, markUsed_isUsed (by omega), Bool.or_assoc]
    congr 1
    simp [List.mem_cons]

/-- The whole frame `i` lies in the region. -/
def Within (r : MemoryRegion) (i : Nat) : Prop :=
  r.start ≤ i * frameSize ∧ (i + 1) * frameSize ≤ r.stop

instance (r : MemoryRegion) (i : Nat) : Decidable (Within r i) :=
  inferInstanceAs (Decidable (_ ∧ _))

theorem frameUp_le {addr : Nat} : frameUp addr ≤ i ↔ addr ≤ i * frameSize := by
  unfold frameUp frameSize
  omega

theorem within_iff {r : MemoryRegion} :
    Within r i ↔ frameUp r.start ≤ i ∧ i < r.stop / frameSize := by
  unfold Within
  rw [frameUp_le]
  unfold frameSize
  omega

theorem mem_openRange {r : MemoryRegion} :
    i ∈ List.range' (frameUp r.start) (r.stop / frameSize - frameUp r.start) ↔ Within r i := by
  rw [List.mem_range'_1, within_iff]
  omega

/-- To open regions clears the bits of the frames that lie in one of them. -/
theorem foldl_openRegion {rs : List MemoryRegion} (hc : fa.Counted)
    (hfit : ∀ r ∈ rs, ∀ i, Within r i → i < fa.frames) :
    (rs.foldl openRegion fa).Counted ∧
      (rs.foldl openRegion fa).Sized fa.frames fa.bitmap.length ∧
      ∀ j, (rs.foldl openRegion fa).isUsed j =
        (fa.isUsed j && !decide (∃ r ∈ rs, Within r j)) := by
  induction rs generalizing fa with
  | nil => exact ⟨hc, ⟨rfl, rfl⟩, fun j => by simp⟩
  | cons r rs ih =>
    obtain ⟨hc1, hs1, hbits1⟩ : (fa.openRegion r).Counted ∧
        (fa.openRegion r).Sized fa.frames fa.bitmap.length ∧
        ∀ j, (fa.openRegion r).isUsed j = (fa.isUsed j && !decide (j ∈ List.range'
          (frameUp r.start) (r.stop / frameSize - frameUp r.start))) :=
      foldl_markFree hc fun i hi => hfit r List.mem_cons_self i (mem_openRange.mp hi)
    obtain ⟨hc', hs', hbits⟩ := ih hc1 (fun r' hr' i hi => by
      rw [hs1.frames]
      exact hfit r' (List.mem_cons_of_mem _ hr') i hi)
    rw [hs1.frames, hs1.words] at hs'
    refine ⟨hc', hs', fun j => ?_⟩
    rw [List.foldl_cons, hbits, hbits1, Bool.and_assoc]
    congr 1
    simp only [mem_openRange, List.mem_cons, exists_eq_or_imp, Bool.decide_or, Bool.not_or]

/-! ### What `new` establishes -/

/-- A frame that can be handed out: it lies in a usable region, and `new` has not closed it. -/
def Eligible (regions : List MemoryRegion) (l : Layout) (i : Nat) : Prop :=
  (∃ r ∈ usable regions, Within r i) ∧ i ∉ reserved l

theorem mem_of_maxByKey {α : Type} {key : α → Nat} {xs : List α} {x : α}
    (h : maxByKey key xs = some x) : x ∈ xs := by
  induction xs with
  | nil => cases h
  | cons y ys ih =>
    unfold maxByKey at h
    split at h
    · rename_i best hbest
      split at h
      · obtain rfl := Option.some.inj h
        exact List.mem_cons_of_mem _ (ih hbest)
      · obtain rfl := Option.some.inj h
        exact List.mem_cons_self
    · obtain rfl := Option.some.inj h
      exact List.mem_cons_self

variable {regions : List MemoryRegion} {l : Layout}

/-- The frames of the usable regions are tracked, the bitmap covers the tracked frames, and the
frames of the bitmap lie in a usable region. -/
theorem layout_spec (h : layout regions = some l) :
    (∀ r ∈ usable regions, ∀ i, Within r i → i < l.frames) ∧ l.words = (l.frames + 63) / 64 ∧
      ∃ host ∈ usable regions,
        ∀ i, l.bitmapFirst ≤ i → i < l.bitmapFirst + l.bitmapFrames → Within host i := by
  unfold layout at h
  split at h
  · rename_i maxEnd host hmax hhost
    dsimp only at h
    split at h
    · cases h
    · split at h
      · cases h
      · rename_i hfits
        obtain rfl := Option.some.inj h
        refine ⟨fun r hr i hi => ?_, rfl, host, mem_of_maxByKey hhost, fun i hlow hhigh => ?_⟩
        · have hle : r.stop ≤ maxEnd :=
            (List.max?_eq_some_iff.mp hmax).2 _ (List.mem_map_of_mem hr)
          rw [within_iff] at hi
          exact Nat.lt_of_lt_of_le hi.2 (Nat.div_le_div_right hle)
        · dsimp only at hlow hhigh
          refine ⟨frameUp_le.mp hlow, ?_⟩
          have hend : (i + 1) * frameSize ≤
              (frameUp host.start + frameUp ((maxEnd / frameSize + 63) / 64 * 8)) * frameSize :=
            Nat.mul_le_mul_right _ hhigh
          rw [Nat.add_mul (frameUp host.start)] at hend
          omega
  · cases h

theorem mem_reserved : i ∈ reserved l ↔
    (l.bitmapFirst ≤ i ∧ i < l.bitmapFirst + l.bitmapFrames) ∨ i = 0 ∨
      i = trampolinePhys / frameSize := by
  unfold reserved
  rw [List.mem_append, List.mem_range'_1, List.mem_cons, List.mem_singleton]

/-- The allocator and the addresses that are out. -/
structure Sound (regions : List MemoryRegion) (l : Layout) (fa : FrameAlloc)
    (live : List Nat) : Prop where
  counted : fa.Counted
  sized : fa.Sized l.frames l.words
  bits : ∀ i, i < 64 * l.words →
    (fa.isUsed i = false ↔ Eligible regions l i ∧ i * frameSize ∉ live)
  out : ∀ a ∈ live, ∃ i, a = i * frameSize ∧ Eligible regions l i
  nodup : live.Nodup

/-- The bitmap before the regions are opened: every bit is set. -/
theorem isUsed_full {frames words free : Nat} {refused : List Nat} (hi : i < 64 * words) :
    (⟨List.replicate words (BitVec.allOnes 64), frames, free, refused⟩ : FrameAlloc).isUsed i =
      true := by
  unfold isUsed word
  dsimp only
  rw [List.getD_replicate _ (by omega), BitVec.getLsbD_allOnes]
  exact decide_eq_true (Nat.mod_lt _ (by decide))

theorem new_sound (h : new regions = some fa) :
    ∃ l, layout regions = some l ∧ Sound regions l fa [] := by
  unfold new at h
  cases hlayout : layout regions with
  | none =>
    rw [hlayout] at h
    cases h
  | some l =>
    rw [hlayout] at h
    dsimp only at h
    split at h
    · cases h
    · rename_i hwords
      obtain ⟨hfit, hdiv, host, hhost, hbitmap⟩ := layout_spec hlayout
      have hcounted : (⟨List.replicate l.words (BitVec.allOnes 64), l.frames, 0, []⟩ :
          FrameAlloc).Counted := by
        refine ⟨by simp only [List.length_replicate]; omega, fun i _ hi => ?_, ?_⟩
        · rw [List.length_replicate] at hi
          exact isUsed_full hi
        · refine (Finset.card_eq_zero.mpr (Finset.eq_empty_of_forall_notMem fun i hi => ?_)).symm
          obtain ⟨hlt, hbit⟩ := mem_clear.mp hi
          dsimp only at hlt
          rw [isUsed_full (by omega)] at hbit
          cases hbit
      obtain ⟨hc1, hs1, hbits1⟩ := foldl_openRegion hcounted hfit
      dsimp only at hs1
      rw [List.length_replicate] at hs1
      have hreserved : ∀ i ∈ reserved l, i < 64 * l.words := by
        intro i hi
        rcases mem_reserved.mp hi with ⟨hlow, hhigh⟩ | rfl | rfl
        · have hlt := hfit host hhost i (hbitmap i hlow hhigh)
          omega
        · omega
        · have hindex : trampolinePhys / frameSize = 8 := rfl
          omega
      rw [← hs1.words] at hreserved
      obtain ⟨hc2, hs2, hbits2⟩ := foldl_markUsed hc1 hreserved
      rw [hs1.frames, hs1.words] at hs2
      obtain rfl := Option.some.inj h
      refine ⟨l, rfl, hc2, hs2, fun i hi => ?_, fun a ha => (by cases ha), List.nodup_nil⟩
      rw [hbits2, hbits1, isUsed_full hi]
      unfold Eligible
      simp

/-! ### Every sequence of calls -/

namespace Sound

variable {live : List Nat}

/-- The frame of an address that is out: tracked, and its bit is set. -/
theorem taken (h : Sound regions l fa live) (hlayout : layout regions = some l)
    (ha : i * frameSize ∈ live) (helig : Eligible regions l i) :
    i < fa.frames ∧ i < 64 * fa.bitmap.length ∧ fa.isUsed i = true := by
  obtain ⟨hfit, hdiv, -⟩ := layout_spec hlayout
  obtain ⟨⟨r, hr, hwithin⟩, -⟩ := helig
  have hlt := hfit r hr i hwithin
  rw [h.sized.frames, h.sized.words]
  refine ⟨hlt, by omega, ?_⟩
  cases hused : fa.isUsed i with
  | true => rfl
  | false => exact absurd ha ((h.bits i (by omega)).mp hused).2

theorem alloc (h : Sound regions l fa live) (halloc : fa.alloc = .ok (a, fa')) :
    (∃ i, a = i * frameSize ∧ Eligible regions l i) ∧ a ∉ live ∧
      Sound regions l fa' (a :: live) := by
  obtain ⟨idx, rfl, hlt, hclear, hlen, hsized, hfree, hbits⟩ := alloc_ok halloc
  have hidx : idx < 64 * l.words := by rw [← h.sized.words]; exact hlen
  obtain ⟨helig, hout⟩ := (h.bits idx hidx).mp hclear
  refine ⟨⟨idx, rfl, helig⟩, hout, ?_, ?_, fun i hi => ?_, ?_, ?_⟩
  · exact h.counted.setBit hsized.frames hsized.words hlen hclear hfree hbits
  · exact ⟨hsized.frames.trans h.sized.frames, hsized.words.trans h.sized.words⟩
  · rw [hbits, List.mem_cons, not_or, Nat.mul_left_inj (by decide), Bool.or_eq_false_iff,
      h.bits i hi, decide_eq_false_iff_not]
    exact ⟨fun ⟨⟨he, ho⟩, hne⟩ => ⟨he, hne, ho⟩, fun ⟨he, hne, ho⟩ => ⟨⟨he, ho⟩, hne⟩⟩
  · intro b hb
    rcases List.mem_cons.mp hb with rfl | hb
    · exact ⟨idx, rfl, helig⟩
    · exact h.out b hb
  · exact List.nodup_cons.mpr ⟨hout, h.nodup⟩

theorem dealloc (h : Sound regions l fa live) (hlayout : layout regions = some l)
    (ha : a ∈ live) : ∃ fa', fa.dealloc a = .ok fa' ∧ Sound regions l fa' (live.erase a) := by
  obtain ⟨idx, rfl, helig⟩ := h.out a ha
  obtain ⟨hlt, hlen, hused⟩ := h.taken hlayout ha helig
  obtain ⟨fa', hok, hsized, hfree, hbits⟩ := dealloc_ok hlt hlen hused
  refine ⟨fa', hok, ?_, ?_, fun i hi => ?_, ?_, h.nodup.erase _⟩
  · exact h.counted.clearBit hsized.frames hsized.words hlt hused hfree hbits
  · exact ⟨hsized.frames.trans h.sized.frames, hsized.words.trans h.sized.words⟩
  · rw [hbits, h.nodup.mem_erase_iff, Ne, Nat.mul_left_inj (by decide)]
    by_cases hi' : i = idx
    · subst hi'
      simp [helig]
    · rw [decide_eq_false hi', Bool.not_false, Bool.and_true, h.bits i hi]
      simp [hi']
  · exact fun b hb => h.out b (List.mem_of_mem_erase hb)

end Sound

/-- A call on the allocator. -/
inductive Call where
  | alloc
  | dealloc (addr : Nat)
  deriving DecidableEq, Repr

/-- The allocator, and the addresses that it has returned and that were not given back. -/
structure Session where
  fa : FrameAlloc
  live : List Nat

/-- One call. A call that fails changes nothing. -/
def Session.step (s : Session) : Call → Session
  | .alloc =>
    match s.fa.alloc with
    | .ok (a, fa) => ⟨fa, a :: s.live⟩
    | .error _ => s
  | .dealloc a =>
    match s.fa.dealloc a with
    | .ok fa => ⟨fa, s.live.erase a⟩
    | .error _ => s

/-- A sequence of calls. -/
def Session.run (s : Session) (calls : List Call) : Session := calls.foldl Session.step s

/-- Only addresses that are out are given back. -/
def Session.Disciplined (s : Session) : List Call → Prop
  | [] => True
  | .alloc :: calls => (s.step .alloc).Disciplined calls
  | .dealloc a :: calls => a ∈ s.live ∧ (s.step (.dealloc a)).Disciplined calls

/-- The bookkeeping is right, and the next `alloc` returns a frame that it may return, if there is
one. -/
structure Session.SoundComplete (s : Session) (regions : List MemoryRegion) (l : Layout) :
    Prop where
  /-- The free count is the number of clear bits among the tracked frames. -/
  free : s.fa.free = ((Finset.range s.fa.frames).filter fun i => s.fa.isUsed i = false).card
  /-- The bits beyond the tracked frames stay set. -/
  tail : ∀ i, s.fa.frames ≤ i → i < 64 * s.fa.bitmap.length → s.fa.isUsed i = true
  /-- `alloc` returns a frame that is not out, that is not frame zero, the trampoline or a frame of
  the bitmap, and that lies in a usable region. -/
  alloc : ∀ a fa', s.fa.alloc = .ok (a, fa') →
    a ∉ s.live ∧ a ≠ 0 ∧ a ≠ trampolinePhys ∧
      (∀ i, l.bitmapFirst ≤ i → i < l.bitmapFirst + l.bitmapFrames → a ≠ i * frameSize) ∧
      ∃ i, a = i * frameSize ∧ ∃ r ∈ usable regions, Within r i
  /-- An address that is out can be given back. -/
  dealloc : ∀ a ∈ s.live, ∃ fa', s.fa.dealloc a = .ok fa'
  /-- `alloc` reports exhaustion exactly if every other frame of the usable regions is out. -/
  exhausted : s.fa.alloc = .error .exhausted ↔
    ∀ i, (∃ r ∈ usable regions, Within r i) → i ≠ 0 → i * frameSize ≠ trampolinePhys →
      ¬ (l.bitmapFirst ≤ i ∧ i < l.bitmapFirst + l.bitmapFrames) → i * frameSize ∈ s.live

theorem Sound.soundComplete {s : Session} (h : Sound regions l s.fa s.live)
    (hlayout : layout regions = some l) : s.SoundComplete regions l := by
  have htramp : ∀ i, i * frameSize = trampolinePhys ↔ i = trampolinePhys / frameSize := by
    intro i
    unfold trampolinePhys frameSize
    omega
  refine ⟨h.counted.free, h.counted.tail, fun a fa' halloc => ?_, fun a ha => ?_, ?_⟩
  · obtain ⟨⟨i, rfl, hwithin, hfree⟩, hout, -⟩ := h.alloc halloc
    rw [mem_reserved, not_or, not_or] at hfree
    refine ⟨hout, ?_, fun ht => hfree.2.2 ((htramp i).mp ht), ?_, i, rfl, hwithin⟩
    · intro hzero
      exact hfree.2.1 ((Nat.mul_eq_zero.mp hzero).resolve_right (by decide))
    · intro k hlow hhigh heq
      obtain rfl : i = k := Nat.eq_of_mul_eq_mul_right (by decide) heq
      exact hfree.1 ⟨hlow, hhigh⟩
  · obtain ⟨fa', hok, -⟩ := h.dealloc hlayout ha
    exact ⟨fa', hok⟩
  · obtain ⟨hfit, hdiv, -⟩ := layout_spec hlayout
    constructor
    · intro herr i hwithin hzero ht hbitmap
      obtain ⟨r, hr, hri⟩ := hwithin
      have hlt := hfit r hr i hri
      have hused := (alloc_error herr).2 i (by rw [h.sized.frames]; exact hlt)
        (by rw [h.sized.words]; omega)
      by_contra hout
      have hclear := (h.bits i (by omega)).mpr ⟨⟨⟨r, hr, hri⟩, ?_⟩, hout⟩
      · rw [hused] at hclear
        cases hclear
      · rw [mem_reserved]
        rintro (hin | hz | htr)
        · exact hbitmap hin
        · exact hzero hz
        · exact ht ((htramp i).mpr htr)
    · intro hall
      cases halloc : s.fa.alloc with
      | error e => rw [(alloc_error halloc).1]
      | ok p =>
        obtain ⟨a, fa'⟩ := p
        obtain ⟨⟨i, rfl, hwithin, hfree⟩, hout, -⟩ := h.alloc halloc
        rw [mem_reserved, not_or, not_or] at hfree
        exact absurd
          (hall i hwithin hfree.2.1 (fun ht => hfree.2.2 ((htramp i).mp ht)) hfree.1) hout

/-- A disciplined call keeps the relation. -/
theorem Sound.step_alloc {s : Session} (h : Sound regions l s.fa s.live) :
    Sound regions l (s.step .alloc).fa (s.step .alloc).live := by
  unfold Session.step
  dsimp only
  cases halloc : s.fa.alloc with
  | error e => exact h
  | ok p => exact (h.alloc halloc).2.2

theorem Sound.step_dealloc {s : Session} (h : Sound regions l s.fa s.live)
    (hlayout : layout regions = some l) (ha : a ∈ s.live) :
    Sound regions l (s.step (.dealloc a)).fa (s.step (.dealloc a)).live := by
  obtain ⟨fa', hok, hsound⟩ := h.dealloc hlayout ha
  unfold Session.step
  dsimp only
  rw [hok]
  exact hsound

/-- A sequence of calls keeps the relation. -/
theorem Sound.run {s : Session} {calls : List Call} (h : Sound regions l s.fa s.live)
    (hlayout : layout regions = some l) (hcalls : s.Disciplined calls) :
    Sound regions l (s.run calls).fa (s.run calls).live := by
  induction calls generalizing s with
  | nil => exact h
  | cons call calls ih =>
    cases call with
    | alloc => exact ih h.step_alloc hcalls
    | dealloc a => exact ih (h.step_dealloc hlayout hcalls.1) hcalls.2

/-- From every boot memory map on which `new` succeeds, over every sequence of calls that gives
back only what is out, the allocator is sound and complete. -/
theorem alloc_sound_complete {regions : List MemoryRegion} {fa : FrameAlloc}
    (hnew : new regions = some fa) (calls : List Call)
    (hcalls : Session.Disciplined ⟨fa, []⟩ calls) :
    ∃ l, layout regions = some l ∧ (Session.run ⟨fa, []⟩ calls).SoundComplete regions l := by
  obtain ⟨l, hlayout, hsound⟩ := new_sound hnew
  exact ⟨l, hlayout, (hsound.run hlayout hcalls).soundComplete hlayout⟩

/-- Two usable regions that overlap, neither of them aligned at both ends. The second holds the
bitmap, and the trampoline lies in both. -/
theorem alloc_sound_complete_small :
    ∃ l fa, layout [⟨0, 4096, .bootloader, by decide⟩, ⟨100, 81925, .usable, by decide⟩,
        ⟨8192, 102400, .usable, by decide⟩] = some l ∧
      (Session.run ⟨fa, []⟩ [.alloc, .alloc, .dealloc 4096, .alloc]).SoundComplete
        [⟨0, 4096, .bootloader, by decide⟩, ⟨100, 81925, .usable, by decide⟩,
          ⟨8192, 102400, .usable, by decide⟩] l := by
  have hnew : new [⟨0, 4096, .bootloader, by decide⟩, ⟨100, 81925, .usable, by decide⟩,
      ⟨8192, 102400, .usable, by decide⟩] = some ⟨[18446744073675997445#64], 25, 22, []⟩ := by
    decide +kernel
  obtain ⟨l, hlayout, hsound⟩ := alloc_sound_complete hnew
    [.alloc, .alloc, .dealloc 4096, .alloc] ⟨by decide +kernel, trivial⟩
  exact ⟨l, _, hlayout, hsound⟩

end FrameAlloc

end Plinth
