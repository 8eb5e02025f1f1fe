import Plinth.Storage.Bitmap

/-!
# `Plinth.Storage.FirstFit`: the calls of the bitmap allocator

`alloc` and `free` of `bitmap.rs` as calls that write to a slice. A call gives what it returns and
the slice afterwards, on an error as well. The slice is threaded through the loop of `alloc`, which
writes to it only when it has found a run.

`AllocExact` and `FreeExact` say what the two calls do on any slice and for any arguments.
`calls_exact` proves it from the lemmas on the loop of `alloc`.
-/

set_option autoImplicit false

namespace Plinth.Rwfs.Bitmap

/-- A call: its result, and the slice afterwards. -/
abbrev Call (α : Type) := Except BitmapError α × List UInt8

/-- The loop of `alloc`, with `left` bits from `i` still to be looked at. -/
def scanSlice (n : Nat) : (left i runStart runLen : Nat) → List UInt8 → Call Nat
  | 0, _, _, _, slice => (.error .outOfSpace, slice)
  | left + 1, i, runStart, runLen, slice =>
    if bit slice i then scanSlice n left (i + 1) (i + 1) 0 slice
    else if runLen + 1 = n then (.ok runStart, setBits slice runStart n true)
    else scanSlice n left (i + 1) runStart (runLen + 1) slice

/-- `alloc`. -/
def allocSlice (slice : List UInt8) (total n : Nat) : Call Nat :=
  if n = 0 ∨ n > total ∨ total > capacity slice.length then (.error .outOfRange, slice)
  else scanSlice n total 0 0 0 slice

/-- `free`. The end of the run is a checked sum of words. -/
def freeSlice (slice : List UInt8) (total start n : Nat) : Call Unit :=
  if total > capacity slice.length then (.error .outOfRange, slice)
  else if 2 ^ 64 ≤ start + n then (.error .outOfRange, slice)
  else if start + n > total then (.error .outOfRange, slice)
  else (.ok (), setBits slice start n false)

variable {slice after : List UInt8} {total n start s i j left runStart runLen : Nat}

/-! ### Runs -/

/-- The `n` bits from `start` are clear and inside the first `total`. -/
def RunAt (slice : List UInt8) (total n start : Nat) : Prop :=
  start + n ≤ total ∧ ∀ j, start ≤ j → j < start + n → bit slice j = false

/-- The first run of `n` clear bits. -/
def LeastRun (slice : List UInt8) (total n start : Nat) : Prop :=
  RunAt slice total n start ∧ ∀ s, RunAt slice total n s → start ≤ s

/-- The `n` bits from `start` are as given, and all others are as before. -/
structure Sets (start n : Nat) (used : Bool) (before after : List UInt8) : Prop where
  length : after.length = before.length
  run : ∀ j, start ≤ j → j < start + n → bit after j = used
  others : ∀ j, ¬ (start ≤ j ∧ j < start + n) → bit after j = bit before j

theorem sets_setBits (used : Bool) (h : start + n ≤ capacity slice.length) :
    Sets start n used slice (setBits slice start n used) where
  length := length_setBits ..
  run j hlow hhigh := by rw [bit_setBits h, if_pos ⟨hlow, hhigh⟩]
  others j hout := by rw [bit_setBits h, if_neg hout]

theorem LeastRun.unique (h : LeastRun slice total n start) (hs : LeastRun slice total n s) :
    start = s :=
  Nat.le_antisymm (h.2 s hs.1) (hs.2 start h.1)

/-! ### The calls and the results -/

/-- The call with the result of `alloc`: an error leaves the slice. -/
def Call.of (slice : List UInt8) : Except BitmapError (Nat × List UInt8) → Call Nat
  | .ok r => (.ok r.1, r.2)
  | .error e => (.error e, slice)

/-- No bit is written before a run is found. -/
theorem scanSlice_eq (left i runStart runLen : Nat) :
    scanSlice n left i runStart runLen slice =
      .of slice (allocLoop slice n left i runStart runLen) := by
  induction left generalizing i runStart runLen with
  | zero => rfl
  | succ left ih =>
    unfold scanSlice
    rw [allocLoop_succ]
    split
    · exact ih ..
    · split
      · rfl
      · exact ih ..

theorem allocSlice_eq : allocSlice slice total n = .of slice (alloc slice total n) := by
  unfold allocSlice alloc
  split
  · rfl
  · exact scanSlice_eq ..

/-- The only error of the loop. -/
theorem allocLoop_outOfSpace {e : BitmapError}
    (h : allocLoop slice n left i runStart runLen = .error e) : e = .outOfSpace := by
  induction left generalizing i runStart runLen with
  | zero =>
    cases h
    rfl
  | succ left ih =>
    rw [allocLoop_succ] at h
    split at h
    · exact ih h
    · split at h
      · cases h
      · exact ih h

/-- The arguments that `alloc` takes. -/
def Asks (slice : List UInt8) (total n : Nat) : Prop :=
  total ≤ capacity slice.length ∧ 1 ≤ n ∧ n ≤ total

/-- `alloc` takes the first run, or there is none. -/
theorem allocSlice_cases (h : Asks slice total n) :
    (∃ s, LeastRun slice total n s ∧
      allocSlice slice total n = (.ok s, setBits slice s n true)) ∨
    (¬ ∃ s, RunAt slice total n s) ∧ allocSlice slice total n = (.error .outOfSpace, slice) := by
  obtain ⟨htotal, hn, hfit⟩ := h
  have halloc : alloc slice total n = allocLoop slice n total 0 0 0 := if_neg (by omega)
  rw [allocSlice_eq]
  cases hr : alloc slice total n with
  | error e =>
    have hnone : ¬ ClearRun slice total n := alloc_error hn htotal hr
    rw [halloc] at hr
    rw [allocLoop_outOfSpace hr]
    exact Or.inr ⟨hnone, rfl⟩
  | ok r =>
    obtain ⟨hmap, hend, -, hclear⟩ := alloc_ok hr
    rw [halloc] at hr
    have hleast := allocLoop_least (Nat.zero_add 0) hn (fun start _ _ => Nat.zero_le start) hr
    rw [Nat.zero_add] at hleast
    refine Or.inl ⟨r.1, ⟨⟨hend, hclear⟩, fun s hs => hleast s hs.1 hs.2⟩, ?_⟩
    rw [← hmap]
    rfl

theorem allocSlice_refused (h : ¬ Asks slice total n) :
    allocSlice slice total n = (.error .outOfRange, slice) := by
  unfold Asks at h
  exact if_pos (by omega)

/-! ### What the calls do -/

/-- What `alloc` does: it takes the first run of clear bits, and it fails only if there is none. -/
structure AllocExact (slice : List UInt8) (total n : Nat) : Prop where
  found : Asks slice total n →
    ∀ s, (allocSlice slice total n).1 = .ok s ↔ LeastRun slice total n s
  sets : ∀ s, (allocSlice slice total n).1 = .ok s →
    Sets s n true slice (allocSlice slice total n).2
  space : Asks slice total n →
    ((allocSlice slice total n).1 = .error .outOfSpace ↔ ¬ ∃ s, RunAt slice total n s)
  refused : ¬ Asks slice total n → (allocSlice slice total n).1 = .error .outOfRange
  beyond : ∀ j, total ≤ j → bit (allocSlice slice total n).2 j = bit slice j
  unchanged : ∀ e, (allocSlice slice total n).1 = .error e → (allocSlice slice total n).2 = slice

/-- What `free` does: it clears a run inside the first `total` bits. -/
structure FreeExact (slice : List UInt8) (total start n : Nat) : Prop where
  clears : total ≤ capacity slice.length → start + n ≤ total →
    (freeSlice slice total start n).1 = .ok () ∧
      Sets start n false slice (freeSlice slice total start n).2
  refused : ¬ (total ≤ capacity slice.length ∧ start + n ≤ total) →
    (freeSlice slice total start n).1 = .error .outOfRange
  beyond : ∀ j, total ≤ j → bit (freeSlice slice total start n).2 j = bit slice j
  unchanged : ∀ e, (freeSlice slice total start n).1 = .error e →
    (freeSlice slice total start n).2 = slice

theorem alloc_exact (slice : List UInt8) (total n : Nat) : AllocExact slice total n := by
  by_cases hasks : Asks slice total n
  · rcases allocSlice_cases hasks with ⟨s, hleast, hcall⟩ | ⟨hnone, hcall⟩
    · have hsets : Sets s n true slice (setBits slice s n true) :=
        sets_setBits true (Nat.le_trans hleast.1.1 hasks.1)
      constructor
      · intro _ t
        rw [hcall]
        constructor
        · intro ht
          cases ht
          exact hleast
        · intro ht
          rw [hleast.unique ht]
      · intro t ht
        rw [hcall] at ht ⊢
        cases ht
        exact hsets
      · intro _
        rw [hcall]
        exact ⟨nofun, fun h => absurd ⟨s, hleast.1⟩ h⟩
      · exact fun h => absurd hasks h
      · intro j hj
        rw [hcall]
        have hend := hleast.1.1
        exact hsets.others j (by omega)
      · intro e he
        rw [hcall] at he
        cases he
    · constructor
      · intro _ t
        rw [hcall]
        exact ⟨nofun, fun h => absurd ⟨t, h.1⟩ hnone⟩
      · intro t ht
        rw [hcall] at ht
        cases ht
      · intro _
        rw [hcall]
        exact ⟨fun _ => hnone, fun _ => rfl⟩
      · exact fun h => absurd hasks h
      · intro j _
        rw [hcall]
      · intro e _
        rw [hcall]
  · have hcall := allocSlice_refused hasks
    constructor
    · exact fun h => absurd h hasks
    · intro t ht
      rw [hcall] at ht
      cases ht
    · exact fun h => absurd h hasks
    · intro _
      rw [hcall]
    · intro j _
      rw [hcall]
    · intro e _
      rw [hcall]

/-- `total` is a word, so a sum that passes a word passes `total`. -/
theorem free_exact (hword : total < 2 ^ 64) : FreeExact slice total start n := by
  by_cases hrange : total ≤ capacity slice.length ∧ start + n ≤ total
  · obtain ⟨htotal, hend⟩ := hrange
    have hcall : freeSlice slice total start n = (.ok (), setBits slice start n false) := by
      unfold freeSlice
      rw [if_neg (by omega), if_neg (by omega), if_neg (by omega)]
    have hsets : Sets start n false slice (setBits slice start n false) :=
      sets_setBits false (Nat.le_trans hend htotal)
    constructor
    · intro _ _
      rw [hcall]
      exact ⟨rfl, hsets⟩
    · exact fun h => absurd ⟨htotal, hend⟩ h
    · intro j hj
      rw [hcall]
      exact hsets.others j (by omega)
    · intro e he
      rw [hcall] at he
      cases he
  · have hcall : freeSlice slice total start n = (.error .outOfRange, slice) := by
      unfold freeSlice
      split
      · rfl
      · split
        · rfl
        · exact if_pos (by omega)
    constructor
    · exact fun htotal hend => absurd ⟨htotal, hend⟩ hrange
    · intro _
      rw [hcall]
    · intro j _
      rw [hcall]
    · intro e _
      rw [hcall]

/-- `alloc` and `free` do what they should on every slice, for every `total`, start and length. -/
theorem calls_exact (slice : List UInt8) (total start n : Nat) (hword : total < 2 ^ 64) :
    AllocExact slice total n ∧ FreeExact slice total start n :=
  ⟨alloc_exact slice total n, free_exact hword⟩

/-- Twelve bits of two bytes, of which the first and the fourth are set. -/
theorem calls_exact_two :
    AllocExact [0x09, 0x00] 12 3 ∧ FreeExact [0x09, 0x00] 12 3 3 :=
  calls_exact [0x09, 0x00] 12 3 3 (by decide)

end Plinth.Rwfs.Bitmap
