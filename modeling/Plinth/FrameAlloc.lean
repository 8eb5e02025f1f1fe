import Mathlib.Data.List.Count
import Mathlib.Data.List.GetD
import Mathlib.Data.Finset.Card
import Mathlib.Data.Finset.Range
import Mathlib.Data.Nat.Basic

/-!
# `Plinth.FrameAlloc`: the physical frame allocator

The model of `kernel/src/frame_alloc.rs`: a bitmap of 64-bit words with one bit for each
frame, set when the frame is unavailable. `alloc` takes the lowest clear bit. `dealloc`
refuses an address that is unaligned, out of range, or not allocated.

The kernel drops the result of every `dealloc` it makes (`let _ = fa.dealloc(addr)`). The
model of that call is `giveBack`, and the ghost field `refused` keeps the addresses that
`dealloc` refused there. So a double free leaves a trace.

`marked fa a` is 1 if the frame at `a` is allocated and 0 if not. `alloc_marked` and
`giveBack_marked` give the change of this number, and the ownership proofs use nothing else.
-/

set_option autoImplicit false

namespace Plinth

/-- Bytes in a frame (`FRAME_SIZE`). -/
def frameSize : Nat := 4096

/-- The errors of the frame allocator. -/
inductive FrameError where
  | exhausted
  | outOfRange
  | notAllocated
  deriving DecidableEq, Repr

/-- The frame allocator. -/
structure FrameAlloc where
  /-- One bit for each frame, in words of 64 bits. A set bit means unavailable. -/
  bitmap : List (BitVec 64)
  /-- The number of tracked frames. -/
  frames : Nat
  /-- The number of available frames. -/
  free : Nat
  /-- Ghost: the addresses of the deallocations that failed, newest first. -/
  refused : List Nat
  deriving DecidableEq

/-- The number of low zero bits of a word. -/
def trailingZeros (w : BitVec 64) : Nat :=
  ((List.range 64).find? w.getLsbD).getD 64

/-- The loop of `alloc` over the words of the bitmap, from word `wi`. The result is the index
of the frame and the new words. -/
def allocWords (frames : Nat) : Nat → List (BitVec 64) → Option (Nat × List (BitVec 64))
  | _, [] => none
  | wi, w :: ws =>
    if w = BitVec.allOnes 64 then
      (allocWords frames (wi + 1) ws).map fun r => (r.1, w :: r.2)
    else
      let bit := trailingZeros (~~~w)
      let idx := wi * 64 + bit
      if frames ≤ idx then none
      else some (idx, (w ||| (1#64 <<< bit)) :: ws)

namespace FrameAlloc

/-- Allocate one frame. The result is its physical address. -/
def alloc (fa : FrameAlloc) : Except FrameError (Nat × FrameAlloc) :=
  match allocWords fa.frames 0 fa.bitmap with
  | some (idx, bitmap) => .ok (idx * frameSize, { fa with bitmap, free := fa.free - 1 })
  | none => .error .exhausted

/-- The word `wi` of the bitmap. The bitmap covers the tracked frames, so the kernel never
reads past its end. -/
def word (fa : FrameAlloc) (wi : Nat) : BitVec 64 :=
  fa.bitmap.getD wi 0#64

/-- Return a frame to the pool. -/
def dealloc (fa : FrameAlloc) (addr : Nat) : Except FrameError FrameAlloc :=
  if addr % frameSize ≠ 0 then .error .outOfRange
  else
    let idx := addr / frameSize
    if fa.frames ≤ idx then .error .outOfRange
    else if (fa.word (idx / 64)).getLsbD (idx % 64) = false then .error .notAllocated
    else .ok { fa with
      bitmap := fa.bitmap.set (idx / 64) (fa.word (idx / 64) &&& ~~~(1#64 <<< (idx % 64)))
      free := fa.free + 1 }

/-- `let _ = fa.dealloc(addr)`: the kernel drops the result. -/
def giveBack (fa : FrameAlloc) (addr : Nat) : FrameAlloc :=
  match fa.dealloc addr with
  | .ok fa' => fa'
  | .error _ => { fa with refused := addr :: fa.refused }

/-- Give back every frame of a list, in order. -/
def giveBackAll (fa : FrameAlloc) (addrs : List Nat) : FrameAlloc :=
  addrs.foldl giveBack fa

/-- The bit of frame `idx`. -/
def isUsed (fa : FrameAlloc) (idx : Nat) : Bool :=
  (fa.word (idx / 64)).getLsbD (idx % 64)

/-- 1 if `a` is the address of a tracked frame whose bit is set, else 0. -/
def marked (fa : FrameAlloc) (a : Nat) : Nat :=
  if a % frameSize = 0 ∧ a / frameSize < fa.frames ∧ fa.isUsed (a / frameSize) = true then 1
  else 0

theorem marked_le_one (fa : FrameAlloc) (a : Nat) : fa.marked a ≤ 1 := by
  unfold marked
  split <;> omega

/-! ### The effect of an allocation -/

private theorem trailingZeros_of_ne {w : BitVec 64} (h : w ≠ BitVec.allOnes 64) :
    trailingZeros (~~~w) < 64 ∧ w.getLsbD (trailingZeros (~~~w)) = false := by
  have hex : ∃ i, i < 64 ∧ w.getLsbD i = false := by
    by_contra hno
    push Not at hno
    refine h (BitVec.eq_of_getLsbD_eq fun i hi => ?_)
    rw [BitVec.getLsbD_allOnes, decide_eq_true hi]
    simpa using hno i hi
  obtain ⟨i, hi, hbit⟩ := hex
  have hsome : ((List.range 64).find? (~~~w).getLsbD).isSome := by
    rw [List.find?_isSome]
    refine ⟨i, List.mem_range.mpr hi, ?_⟩
    rw [BitVec.getLsbD_not, hbit, decide_eq_true hi]
    rfl
  obtain ⟨j, hj⟩ := Option.isSome_iff_exists.mp hsome
  have hmem := List.mem_range.mp (List.mem_of_find?_eq_some hj)
  have hset := List.find?_some hj
  unfold trailingZeros
  rw [hj]
  rw [BitVec.getLsbD_not, decide_eq_true hmem] at hset
  exact ⟨hmem, by simpa using hset⟩

/-- The number of low zero bits is at most the position of a set bit. -/
private theorem trailingZeros_le {w : BitVec 64} {bit : Nat} (hbit : bit < 64)
    (hclear : w.getLsbD bit = false) : trailingZeros (~~~w) ≤ bit := by
  by_contra hlt
  have hset : (~~~w).getLsbD bit = true := by
    rw [BitVec.getLsbD_not, hclear, decide_eq_true hbit]
    rfl
  unfold trailingZeros at hlt
  cases hfind : (List.range 64).find? (~~~w).getLsbD with
  | none =>
    have hno := List.find?_eq_none.mp hfind bit (List.mem_range.mpr hbit)
    exact hno hset
  | some j =>
    rw [hfind, Option.getD_some] at hlt
    have hfirst := List.find?_range_eq_some.mp hfind
    have hno := hfirst.2.2 bit (by omega)
    rw [hset] at hno
    cases hno

/-- The word loop finds a clear bit below `frames` and sets it. -/
theorem allocWords_spec {frames wi idx : Nat} {ws ws' : List (BitVec 64)}
    (h : allocWords frames wi ws = some (idx, ws')) :
    ∃ n bit, n < ws.length ∧ bit < 64 ∧ idx = (wi + n) * 64 + bit ∧ idx < frames ∧
      (ws.getD n 0#64).getLsbD bit = false ∧
      ws' = ws.set n (ws.getD n 0#64 ||| (1#64 <<< bit)) := by
  induction ws generalizing wi ws' with
  | nil => simp [allocWords] at h
  | cons w ws ih =>
    unfold allocWords at h
    split at h
    · obtain ⟨⟨idx', ws''⟩, hrec, heq⟩ := Option.map_eq_some_iff.mp h
      simp only [Prod.mk.injEq] at heq
      obtain ⟨rfl, rfl⟩ := heq
      obtain ⟨n, bit, hn, hbit, hidx, hlt, hclear, hws⟩ := ih hrec
      refine ⟨n + 1, bit, by simpa using hn, hbit, by omega, hlt, ?_, ?_⟩
      · simpa using hclear
      · simp [hws]
    · rename_i hne
      obtain ⟨hbit, hclear⟩ := trailingZeros_of_ne hne
      dsimp only at h
      split at h
      · cases h
      · rename_i hlt
        simp only [Option.some.injEq, Prod.mk.injEq] at h
        obtain ⟨rfl, rfl⟩ := h
        refine ⟨0, trailingZeros (~~~w), by simp, hbit, by simp, by omega, ?_, ?_⟩
        · simpa using hclear
        · simp

theorem getD_set {ws : List (BitVec 64)} {n m : Nat} (v : BitVec 64)
    (hn : n < ws.length) :
    (ws.set n v).getD m 0#64 = if m = n then v else ws.getD m 0#64 := by
  by_cases h : m = n
  · subst h
    simp [List.getD, hn]
  · simp [List.getD, h, Ne.symm h]

theorem getLsbD_setBit {w : BitVec 64} {bit j : Nat} (hj : j < 64) :
    (w ||| (1#64 <<< bit)).getLsbD j = (w.getLsbD j || decide (j = bit)) := by
  simp only [BitVec.getLsbD_or, BitVec.getLsbD_shiftLeft, BitVec.getLsbD_one]
  by_cases h : j = bit
  · subst h
    simp [hj]
  · by_cases hlt : j < bit
    · simp [hlt, h]
    · have hsub : j - bit ≠ 0 := by omega
      simp [hsub, h]

theorem getLsbD_clearBit {w : BitVec 64} {bit j : Nat} (hj : j < 64) :
    (w &&& ~~~(1#64 <<< bit)).getLsbD j = (w.getLsbD j && !decide (j = bit)) := by
  simp only [BitVec.getLsbD_and, BitVec.getLsbD_not, BitVec.getLsbD_shiftLeft,
    BitVec.getLsbD_one]
  by_cases h : j = bit
  · subst h
    simp [hj]
  · by_cases hlt : j < bit
    · simp [hlt, h, hj]
    · have hsub : j - bit ≠ 0 := by omega
      simp [hsub, h, hj]

/-- A write of the word that holds `idx` changes the bits of that word only. -/
theorem isUsed_set {fa : FrameAlloc} {n : Nat} (v : BitVec 64) (idx free : Nat)
    (hn : n < fa.bitmap.length) :
    ({ fa with bitmap := fa.bitmap.set n v, free := free } : FrameAlloc).isUsed idx
      = if idx / 64 = n then v.getLsbD (idx % 64) else fa.isUsed idx := by
  unfold isUsed word
  rw [getD_set v hn]
  split <;> rfl

/-- The frame that `alloc` returns was not marked, and it is the only one that becomes
marked. -/
theorem alloc_marked {fa fa' : FrameAlloc} {a : Nat} (h : fa.alloc = .ok (a, fa')) :
    fa.marked a = 0 ∧ (∀ b, fa'.marked b = fa.marked b + if b = a then 1 else 0) ∧
      fa'.refused = fa.refused := by
  unfold alloc at h
  split at h
  · rename_i idx bitmap hwords
    simp only [Except.ok.injEq, Prod.mk.injEq] at h
    obtain ⟨rfl, rfl⟩ := h
    obtain ⟨n, bit, hn, hbit, hidx, hlt, hclear, rfl⟩ := allocWords_spec hwords
    have hdiv : idx / 64 = n := by omega
    have hmod : idx % 64 = bit := by omega
    have haddr : idx * frameSize / frameSize = idx := by
      unfold frameSize
      omega
    have hold : fa.isUsed idx = false := by
      unfold isUsed word
      rw [hdiv, hmod]
      exact hclear
    refine ⟨?_, ?_, rfl⟩
    · unfold marked
      rw [haddr, hold]
      simp
    · intro b
      have hnew : ∀ j, ({ fa with
            bitmap := fa.bitmap.set n (fa.bitmap.getD n 0#64 ||| 1#64 <<< bit)
            free := fa.free - 1 } : FrameAlloc).isUsed j
          = (fa.isUsed j || decide (j = idx)) := by
        intro j
        rw [isUsed_set _ _ _ hn]
        split
        · rename_i hj
          rw [getLsbD_setBit (Nat.mod_lt _ (by omega))]
          have hword : (fa.bitmap.getD n 0#64).getLsbD (j % 64)
              = fa.isUsed j := by
            unfold isUsed word
            rw [hj]
          rw [hword]
          congr 1
          simp only [decide_eq_decide]
          omega
        · rename_i hj
          have hne : j ≠ idx := by
            rintro rfl
            exact hj hdiv
          simp [hne]
      unfold marked
      simp only [hnew]
      by_cases hb : b = idx * frameSize
      · subst hb
        simp [haddr, hold, hlt]
      · have hne : b % frameSize = 0 → b / frameSize ≠ idx := by
          intro hmod0 hq
          apply hb
          unfold frameSize at *
          omega
        by_cases hal : b % frameSize = 0
        · simp [hb, hne hal]
        · simp [hb, hal]
  · cases h

/-- The word loop fails only if every tracked bit is set. -/
theorem allocWords_none {frames wi : Nat} {ws : List (BitVec 64)}
    (h : allocWords frames wi ws = none) (n bit : Nat) (hn : n < ws.length) (hbit : bit < 64)
    (hlt : (wi + n) * 64 + bit < frames) : (ws.getD n 0#64).getLsbD bit = true := by
  induction ws generalizing wi n with
  | nil => cases hn
  | cons w ws ih =>
    unfold allocWords at h
    split at h
    · rename_i hfull
      cases n with
      | zero =>
        rw [List.getD_cons_zero, hfull, BitVec.getLsbD_allOnes]
        exact decide_eq_true hbit
      | succ n =>
        have hrest := ih (Option.map_eq_none_iff.mp h) n (by simpa using hn) (by omega)
        simpa using hrest
    · rename_i hne
      obtain ⟨htz, hclear⟩ := trailingZeros_of_ne hne
      dsimp only at h
      split at h
      · rename_i hge
        cases n with
        | succ n => omega
        | zero =>
          -- Every clear bit of this word is at or above the lowest one, and that is not tracked.
          by_contra hno
          have hbitClear : w.getLsbD bit = false := by simpa using hno
          have hlow : trailingZeros (~~~w) ≤ bit := trailingZeros_le hbit hbitClear
          omega
      · cases h

/-- The tracked frames that are not allocated. -/
def freeFrames (fa : FrameAlloc) : Finset Nat :=
  (Finset.range (fa.bitmap.length * 64)).filter fun i =>
    i < fa.frames ∧ fa.marked (i * frameSize) = 0

/-- The number of frames that `alloc` can still give. -/
def available (fa : FrameAlloc) : Nat := fa.freeFrames.card

/-- `alloc` fails only if no frame is free. -/
theorem available_of_error {fa : FrameAlloc} {e : FrameError} (h : fa.alloc = .error e) :
    fa.available = 0 := by
  unfold alloc at h
  split at h
  · cases h
  · rename_i hnone
    unfold available
    rw [Finset.card_eq_zero, Finset.eq_empty_iff_forall_notMem]
    intro i hi
    unfold freeFrames at hi
    rw [Finset.mem_filter, Finset.mem_range] at hi
    obtain ⟨hlen, hlt, hmark⟩ := hi
    have hused : fa.isUsed i = true := by
      unfold isUsed word
      exact allocWords_none hnone (i / 64) (i % 64) (by omega) (Nat.mod_lt _ (by omega)) (by omega)
    have haddr : i * frameSize / frameSize = i := Nat.mul_div_cancel i (by decide)
    unfold marked at hmark
    rw [haddr, if_pos ⟨Nat.mul_mod_left i frameSize, hlt, hused⟩] at hmark
    cases hmark

/-- `alloc` takes one of the free frames. -/
theorem alloc_available {fa fa' : FrameAlloc} {a : Nat} (h : fa.alloc = .ok (a, fa')) :
    fa.available = fa'.available + 1 := by
  obtain ⟨hfree, hmarks, -⟩ := alloc_marked h
  obtain ⟨i, hi, hlen, hlt, hsize, hframes⟩ : ∃ i, a = i * frameSize ∧
      i < fa.bitmap.length * 64 ∧ i < fa.frames ∧ fa'.bitmap.length = fa.bitmap.length ∧
      fa'.frames = fa.frames := by
    unfold alloc at h
    split at h
    · rename_i idx bitmap hwords
      simp only [Except.ok.injEq, Prod.mk.injEq] at h
      obtain ⟨rfl, rfl⟩ := h
      obtain ⟨n, bit, hn, hbit, hidx, hlt, -, rfl⟩ := allocWords_spec hwords
      exact ⟨idx, rfl, by omega, hlt, by simp, rfl⟩
    · cases h
  have herase : fa'.freeFrames = fa.freeFrames.erase i := by
    ext j
    unfold freeFrames
    rw [Finset.mem_erase, Finset.mem_filter, Finset.mem_filter, hsize, hframes, hmarks, hi]
    by_cases hj : j = i
    · subst hj
      simp
    · have hne : j * frameSize ≠ i * frameSize := fun heq =>
        hj (Nat.eq_of_mul_eq_mul_right (by decide) heq)
      simp [hj, hne]
  have hmem : i ∈ fa.freeFrames := by
    unfold freeFrames
    rw [Finset.mem_filter, Finset.mem_range, ← hi]
    exact ⟨hlen, hlt, hfree⟩
  unfold available
  rw [herase, Finset.card_erase_of_mem hmem]
  have hpos := Finset.card_pos.mpr ⟨i, hmem⟩
  omega

/-! ### The effect of a deallocation -/

/-- To give back an allocated frame succeeds, and that frame is the only one that stops being
marked. -/
theorem giveBack_marked {fa : FrameAlloc} {a : Nat} (h : 0 < fa.marked a) :
    (fa.giveBack a).refused = fa.refused ∧
      ∀ b, (fa.giveBack a).marked b + (if b = a then 1 else 0) = fa.marked b := by
  have hcond : a % frameSize = 0 ∧ a / frameSize < fa.frames ∧
      fa.isUsed (a / frameSize) = true := by
    unfold marked at h
    split at h
    · assumption
    · omega
  obtain ⟨hal, hlt, hused⟩ := hcond
  have hlen : a / frameSize / 64 < fa.bitmap.length := by
    by_contra hge
    unfold isUsed word at hused
    rw [List.getD_eq_default _ _ (by omega)] at hused
    simp at hused
  have hok : fa.dealloc a = .ok { fa with
      bitmap := fa.bitmap.set (a / frameSize / 64)
        (fa.word (a / frameSize / 64) &&& ~~~(1#64 <<< (a / frameSize % 64)))
      free := fa.free + 1 } := by
    have hbit : (fa.word (a / frameSize / 64)).getLsbD (a / frameSize % 64) = true := hused
    unfold dealloc
    simp only [hal, ne_eq, not_true_eq_false, ↓reduceIte, Nat.not_le.mpr hlt, hbit,
      Bool.true_eq_false]
  unfold giveBack
  rw [hok]
  refine ⟨rfl, fun b => ?_⟩
  have hnew : ∀ j, ({ fa with
        bitmap := fa.bitmap.set (a / frameSize / 64)
          (fa.word (a / frameSize / 64) &&& ~~~(1#64 <<< (a / frameSize % 64)))
        free := fa.free + 1 } : FrameAlloc).isUsed j
      = (fa.isUsed j && !decide (j = a / frameSize)) := by
    intro j
    rw [isUsed_set _ _ _ hlen]
    split
    · rename_i hj
      rw [getLsbD_clearBit (Nat.mod_lt _ (by omega))]
      have hword : (fa.word (a / frameSize / 64)).getLsbD (j % 64) = fa.isUsed j := by
        unfold isUsed
        rw [hj]
      rw [hword]
      congr 2
      simp only [decide_eq_decide]
      omega
    · rename_i hj
      have hne : j ≠ a / frameSize := by
        rintro rfl
        exact hj rfl
      simp [hne]
  unfold marked
  simp only [hnew]
  by_cases hb : b = a
  · subst hb
    simp [hal, hlt, hused]
  · have hne : b % frameSize = 0 → b / frameSize ≠ a / frameSize := by
      intro hmod0 hq
      apply hb
      unfold frameSize at *
      omega
    by_cases hbal : b % frameSize = 0
    · simp [hb, hne hbal]
    · simp [hb, hbal]

/-- To give back a list of frames, each of them allocated and none twice, refuses nothing and
unmarks exactly these frames. `extra` counts other owners. -/
theorem giveBackAll_marked {fa : FrameAlloc} {addrs : List Nat} {extra : Nat → Nat}
    (h : ∀ b, extra b + addrs.count b ≤ fa.marked b) :
    (fa.giveBackAll addrs).refused = fa.refused ∧
      ∀ b, (fa.giveBackAll addrs).marked b + addrs.count b = fa.marked b := by
  induction addrs generalizing fa with
  | nil => simp [giveBackAll]
  | cons a addrs ih =>
    have ha := h a
    rw [List.count_cons_self] at ha
    have hpos : 0 < fa.marked a := by omega
    obtain ⟨hrefused, hmarked⟩ := giveBack_marked hpos
    have hrest : ∀ b, extra b + addrs.count b ≤ (fa.giveBack a).marked b := by
      intro b
      have hb := h b
      have hm := hmarked b
      rw [List.count_cons] at hb
      by_cases heq : b = a
      · subst heq
        simp only [beq_self_eq_true, ↓reduceIte] at hb hm
        omega
      · have heq' : ¬ a = b := fun hab => heq hab.symm
        simp only [beq_iff_eq, heq', ↓reduceIte, heq] at hb hm
        omega
    obtain ⟨hrefused', hmarked'⟩ := ih hrest
    have hfold : fa.giveBackAll (a :: addrs) = (fa.giveBack a).giveBackAll addrs := rfl
    rw [hfold]
    refine ⟨hrefused'.trans hrefused, fun b => ?_⟩
    have hm := hmarked b
    have hm' := hmarked' b
    rw [List.count_cons]
    by_cases heq : b = a
    · subst heq
      simp only [beq_self_eq_true, ↓reduceIte] at hm ⊢
      omega
    · have heq' : ¬ a = b := fun hab => heq hab.symm
      simp only [beq_iff_eq, heq', ↓reduceIte, heq] at hm ⊢
      omega

/-! ### The tracked frames and the other bits -/

theorem alloc_frames {fa fa' : FrameAlloc} {a : Nat} (h : fa.alloc = .ok (a, fa')) :
    fa'.frames = fa.frames := by
  unfold alloc at h
  split at h
  · obtain ⟨-, rfl⟩ := Prod.mk.inj (Except.ok.inj h)
    rfl
  · cases h

/-- A frame that is not allocated is refused, and nothing else changes. -/
theorem giveBack_refused {fa : FrameAlloc} {a : Nat} (h : fa.marked a = 0) :
    fa.giveBack a = { fa with refused := a :: fa.refused } := by
  unfold giveBack
  cases hfree : fa.dealloc a with
  | error e => rfl
  | ok fa' =>
    unfold dealloc at hfree
    dsimp only at hfree
    split at hfree
    · cases hfree
    · rename_i haligned
      split at hfree
      · cases hfree
      · rename_i hbelow
        split at hfree
        · cases hfree
        · rename_i hset
          unfold marked at h
          rw [if_pos ⟨not_not.mp haligned, Nat.lt_of_not_le hbelow, eq_true_of_ne_false hset⟩] at h
          cases h

theorem giveBack_frames (fa : FrameAlloc) (a : Nat) : (fa.giveBack a).frames = fa.frames := by
  unfold giveBack
  cases hfree : fa.dealloc a with
  | error e => rfl
  | ok fa' =>
    unfold dealloc at hfree
    dsimp only at hfree
    split at hfree
    · cases hfree
    · split at hfree
      · cases hfree
      · split at hfree
        · cases hfree
        · rw [← Except.ok.inj hfree]

theorem giveBackAll_frames (fa : FrameAlloc) (addrs : List Nat) :
    (fa.giveBackAll addrs).frames = fa.frames := by
  induction addrs generalizing fa with
  | nil => rfl
  | cons a addrs ih => exact (ih (fa.giveBack a)).trans (giveBack_frames fa a)

/-- To give a frame back concerns no other. -/
theorem giveBack_other {fa : FrameAlloc} {a t : Nat} (hne : t ≠ a) :
    (fa.giveBack a).marked t = fa.marked t := by
  rcases Nat.eq_zero_or_pos (fa.marked a) with hzero | hpos
  · rw [giveBack_refused hzero]
    rfl
  · have hmarked := (giveBack_marked hpos).2 t
    rw [if_neg hne] at hmarked
    exact hmarked

end FrameAlloc

end Plinth
