import Mathlib.Data.List.Nodup
import Plinth.Iommu.Tables

/-!
# `Plinth.Iommu.Windows`: what the IOVA allocator hands out

The IOVA allocator goes through its window with a cursor, and keeps freed IOVAs on a stack of 64
entries. An IOVA that is freed while the stack is full is dropped, and the window loses its page.

`Issued` relates an allocator to the number of pages that the cursor has passed: the IOVAs that are
out and the ones on the stack are different pages among these. `Kept` says that no page was dropped.
While at most 64 IOVAs are out at a time this stays so, and the cursor does not pass more than 64
pages. `iova_windows` is about every sequence of calls.
-/

set_option autoImplicit false

namespace Plinth.Iommu

/-- A window of IOVAs: its base is page-aligned and not zero, and its end is a word. -/
structure IovaWindow where
  base : Nat
  pages : Nat
  nonzero : base ≠ 0
  aligned : base % 2 ^ pageShift = 0
  fits : base + pages * 2 ^ pageShift < 2 ^ 64

/-- A call on the allocator. -/
inductive IovaCall where
  | alloc
  | free (iova : Nat)
  deriving DecidableEq, Repr

/-- The allocator, and the IOVAs that are live: returned by `alloc` and not freed since. -/
structure IovaSession where
  iovas : IovaAllocator
  live : List Nat
  deriving DecidableEq

namespace IovaSession

/-- A fresh allocator. -/
def start (w : IovaWindow) : IovaSession := ⟨IovaAllocator.new w.base w.pages, []⟩

/-- One call. -/
def step (s : IovaSession) : IovaCall → IovaSession
  | .alloc => ⟨s.iovas.alloc.2, s.iovas.alloc.1.toList ++ s.live⟩
  | .free iova => ⟨s.iovas.release iova, s.live.erase iova⟩

/-- A sequence of calls. -/
def run (s : IovaSession) (calls : List IovaCall) : IovaSession := calls.foldl step s

/-- Only live IOVAs are freed. -/
def Disciplined (s : IovaSession) : List IovaCall → Prop
  | [] => True
  | .alloc :: calls => (s.step .alloc).Disciplined calls
  | .free iova :: calls => iova ∈ s.live ∧ (s.step (.free iova)).Disciplined calls

/-- At most `n` IOVAs are live at a time. -/
def AtMost (n : Nat) (s : IovaSession) : List IovaCall → Prop
  | [] => s.live.length ≤ n
  | call :: calls => s.live.length ≤ n ∧ (s.step call).AtMost n calls

/-- No `alloc` of the run reports exhaustion. -/
def NeverExhausted (s : IovaSession) : List IovaCall → Prop
  | [] => True
  | call :: calls => (call = .alloc → s.iovas.alloc.1 ≠ none) ∧ (s.step call).NeverExhausted calls

/-- An `alloc` of the run reports exhaustion only if all the pages of the window are live, and there
are 64 of them. -/
def ExhaustedWhenFull (w : IovaWindow) (s : IovaSession) : List IovaCall → Prop
  | [] => True
  | call :: calls =>
    (call = .alloc → s.iovas.alloc.1 = none →
      w.pages = iovaFreelist ∧ s.live.length = iovaFreelist) ∧
      (s.step call).ExhaustedWhenFull w calls

instance decidableAtMost (n : Nat) :
    (s : IovaSession) → (calls : List IovaCall) → Decidable (s.AtMost n calls)
  | s, [] => inferInstanceAs (Decidable (s.live.length ≤ n))
  | s, call :: calls =>
    have := decidableAtMost n (s.step call) calls
    inferInstanceAs (Decidable (s.live.length ≤ n ∧ (s.step call).AtMost n calls))

instance decidableNeverExhausted :
    (s : IovaSession) → (calls : List IovaCall) → Decidable (s.NeverExhausted calls)
  | _, [] => inferInstanceAs (Decidable True)
  | s, call :: calls =>
    have := decidableNeverExhausted (s.step call) calls
    inferInstanceAs (Decidable
      ((call = .alloc → s.iovas.alloc.1 ≠ none) ∧ (s.step call).NeverExhausted calls))

/-- The live IOVAs are distinct pages of the window, and not zero. -/
structure Safe (w : IovaWindow) (s : IovaSession) : Prop where
  distinct : s.live.Nodup
  nonzero : ∀ iova ∈ s.live, iova ≠ 0
  aligned : ∀ iova ∈ s.live, iova % 2 ^ pageShift = 0
  inside : ∀ iova ∈ s.live,
    w.base ≤ iova ∧ iova + 2 ^ pageShift ≤ w.base + w.pages * 2 ^ pageShift

/-! ### The pages that the cursor has passed -/

/-- The cursor has passed `n` pages, and each IOVA that is live or on the stack is one of them. -/
structure Issued (w : IovaWindow) (s : IovaSession) (n : Nat) : Prop where
  le : n ≤ w.pages
  next : s.iovas.next = w.base + n * 2 ^ pageShift
  limit : s.iovas.limit = w.base + w.pages * 2 ^ pageShift
  distinct : (s.live ++ s.iovas.free).Nodup
  page : ∀ iova ∈ s.live ++ s.iovas.free, ∃ k < n, iova = w.base + k * 2 ^ pageShift

/-- None of the `n` pages was dropped, and there are at most 64. -/
structure Kept (s : IovaSession) (n : Nat) : Prop where
  count : n = s.live.length + s.iovas.free.length
  few : n ≤ iovaFreelist

variable {w : IovaWindow} {s : IovaSession} {n iova : Nat}

theorem issued_start (w : IovaWindow) : (start w).Issued w 0 :=
  ⟨Nat.zero_le _, by rw [Nat.zero_mul]; rfl, rfl, List.nodup_nil, fun _ h => (by cases h)⟩

theorem kept_start (w : IovaWindow) : (start w).Kept 0 := ⟨rfl, Nat.zero_le _⟩

theorem Issued.safe (h : s.Issued w n) : s.Safe w := by
  have hpage : ∀ iova ∈ s.live, ∃ k < n, iova = w.base + k * 2 ^ pageShift :=
    fun iova hmem => h.page iova (List.mem_append_left _ hmem)
  refine ⟨(List.nodup_append.mp h.distinct).1, fun iova hmem => ?_, fun iova hmem => ?_,
    fun iova hmem => ?_⟩
  all_goals obtain ⟨k, hk, rfl⟩ := hpage iova hmem
  · have hnonzero := w.nonzero
    omega
  · rw [Nat.add_mul_mod_self_right]
    exact w.aligned
  · have hle : (k + 1) * 2 ^ pageShift ≤ w.pages * 2 ^ pageShift :=
      Nat.mul_le_mul_right _ (Nat.le_trans hk h.le)
    rw [Nat.add_mul, Nat.one_mul] at hle
    omega

/-! ### One call -/

/-- What `alloc` does: it takes the top of the stack, or the next page, or finds no page left. -/
theorem alloc_cases (a : IovaAllocator) :
    (∃ iova rest, a.free = iova :: rest ∧ a.alloc = (some iova, { a with free := rest })) ∨
    (a.free = [] ∧ a.next < a.limit ∧
      a.alloc = (some a.next, { a with next := a.next + 2 ^ pageShift })) ∨
    (a.free = [] ∧ a.limit ≤ a.next ∧ a.alloc = (none, a)) := by
  unfold IovaAllocator.alloc
  cases hfree : a.free with
  | cons iova rest => exact Or.inl ⟨iova, rest, rfl, rfl⟩
  | nil =>
    dsimp only
    by_cases hlt : a.next < a.limit
    · rw [if_pos hlt]
      exact Or.inr (Or.inl ⟨rfl, hlt, rfl⟩)
    · rw [if_neg hlt]
      exact Or.inr (Or.inr ⟨rfl, Nat.le_of_not_lt hlt, rfl⟩)

/-- `alloc` keeps the relation. It passes one more page only when the stack is empty, and finds none
left only when the cursor has passed them all. -/
theorem Issued.alloc (h : s.Issued w n) :
    (∃ n', (s.step .alloc).Issued w n' ∧ (n' = n ∨ (n' = n + 1 ∧ s.iovas.free = [])) ∧
      (s.step .alloc).live.length + (s.step .alloc).iovas.free.length =
        s.live.length + s.iovas.free.length + (n' - n)) ∧
    (s.iovas.alloc.1 = none → s.iovas.free = [] ∧ n = w.pages) := by
  unfold step
  dsimp only
  rcases alloc_cases s.iovas with ⟨iova, rest, hfree, heq⟩ | ⟨hfree, hlt, heq⟩ | ⟨hfree, hge, heq⟩
  · rw [heq]
    have hperm : List.Perm (s.live ++ s.iovas.free) ((iova :: s.live) ++ rest) := by
      rw [hfree]
      exact List.perm_middle
    refine ⟨⟨n, ⟨h.le, h.next, h.limit, hperm.nodup_iff.mp h.distinct,
      fun i hi => h.page i (hperm.mem_iff.mpr hi)⟩, Or.inl rfl, ?_⟩, fun hnone => (by cases hnone)⟩
    rw [hfree]
    simp only [Option.toList_some, List.singleton_append, List.length_cons]
    omega
  · rw [heq]
    have hlimit := h.limit
    have hnext := h.next
    have hstep : 0 < 2 ^ pageShift := by decide
    have hn : n < w.pages := by
      rw [hnext, hlimit] at hlt
      exact Nat.lt_of_mul_lt_mul_right (Nat.lt_of_add_lt_add_left hlt)
    refine ⟨⟨n + 1, ⟨hn, ?_, hlimit, ?_, ?_⟩, Or.inr ⟨rfl, hfree⟩, ?_⟩,
      fun hnone => (by cases hnone)⟩
    · dsimp only
      rw [hnext, Nat.add_mul, Nat.one_mul, Nat.add_assoc]
    · -- The next page is not among the ones that the cursor has passed.
      refine List.nodup_cons.mpr ⟨fun hmem => ?_, h.distinct⟩
      obtain ⟨k, hk, heq⟩ := h.page _ hmem
      rw [hnext] at heq
      exact absurd (Nat.eq_of_mul_eq_mul_right hstep (Nat.add_left_cancel heq)) (Nat.ne_of_gt hk)
    · intro i hi
      rcases List.mem_cons.mp hi with rfl | hi
      · exact ⟨n, Nat.lt_succ_self n, hnext⟩
      · obtain ⟨k, hk, heq⟩ := h.page i hi
        exact ⟨k, Nat.lt_succ_of_lt hk, heq⟩
    · simp only [Option.toList_some, List.singleton_append, List.length_cons]
      omega
  · rw [heq]
    refine ⟨⟨n, h, Or.inl rfl, ?_⟩, fun _ => ⟨hfree, ?_⟩⟩
    · simp only [Option.toList_none, List.nil_append]
      omega
    · rw [h.next, h.limit] at hge
      have hle := Nat.le_of_mul_le_mul_right (Nat.le_of_add_le_add_left hge)
        (show 0 < 2 ^ pageShift by decide)
      exact Nat.le_antisymm h.le hle

/-- `free` keeps the relation. It drops the IOVA only when the stack is full. -/
theorem Issued.free (h : s.Issued w n) (hiova : iova ∈ s.live) :
    (s.step (.free iova)).Issued w n ∧
      (s.iovas.free.length < iovaFreelist →
        (s.step (.free iova)).live.length + (s.step (.free iova)).iovas.free.length =
          s.live.length + s.iovas.free.length) := by
  have hperm : List.Perm (s.live ++ s.iovas.free) (s.live.erase iova ++ iova :: s.iovas.free) := by
    have hlive : List.Perm s.live (iova :: s.live.erase iova) := List.perm_cons_erase hiova
    exact (hlive.append_right _).trans List.perm_middle.symm
  unfold step IovaAllocator.release
  dsimp only
  split
  · refine ⟨⟨h.le, h.next, h.limit, hperm.nodup_iff.mp h.distinct,
      fun i hi => h.page i (hperm.mem_iff.mpr hi)⟩, fun _ => ?_⟩
    have hlength := hperm.length_eq
    rw [List.length_append, List.length_append] at hlength
    exact hlength.symm
  · rename_i hfull
    have hsub : List.Sublist (s.live.erase iova ++ s.iovas.free) (s.live ++ s.iovas.free) :=
      List.erase_sublist.append_right _
    exact ⟨⟨h.le, h.next, h.limit, h.distinct.sublist hsub,
      fun i hi => h.page i (hsub.subset hi)⟩, fun hlt => absurd hlt hfull⟩

/-- While at most 64 IOVAs are live, `alloc` passes at most 64 pages. -/
theorem Kept.alloc (hk : s.Kept n) (h : s.Issued w n)
    (hfew : (s.step .alloc).live.length ≤ iovaFreelist) :
    ∃ n', (s.step .alloc).Issued w n' ∧ (s.step .alloc).Kept n' := by
  obtain ⟨⟨n', h', hn', hlength⟩, -⟩ := h.alloc
  have hcount := hk.count
  rcases hn' with rfl | ⟨rfl, hfree⟩
  · exact ⟨n', h', ⟨by omega, hk.few⟩⟩
  · -- The stack was empty, so every page that was passed is live.
    have hfree' : (s.step .alloc).iovas.free = [] := by
      unfold step
      dsimp only
      rcases alloc_cases s.iovas with ⟨_, _, hf, _⟩ | ⟨_, _, heq⟩ | ⟨_, _, heq⟩
      · rw [hf] at hfree
        cases hfree
      · rw [heq]
        exact hfree
      · rw [heq]
        exact hfree
    rw [hfree', List.length_nil] at hlength
    exact ⟨n + 1, h', ⟨by rw [hfree', List.length_nil]; omega, by omega⟩⟩

/-- While no page was dropped, the stack has room for a live IOVA. -/
theorem Kept.free (hk : s.Kept n) (h : s.Issued w n) (hiova : iova ∈ s.live) :
    (s.step (.free iova)).Kept n := by
  have hcount := hk.count
  have hfew := hk.few
  have hpos := List.length_pos_of_mem hiova
  obtain ⟨-, hlength⟩ := h.free hiova
  exact ⟨by rw [hlength (by omega)]; exact hcount, hfew⟩

/-! ### Every sequence of calls -/

theorem Issued.run {calls : List IovaCall} (h : s.Issued w n) (hcalls : s.Disciplined calls) :
    ∃ n', (s.run calls).Issued w n' := by
  induction calls generalizing s n with
  | nil => exact ⟨n, h⟩
  | cons call calls ih =>
    cases call with
    | alloc =>
      obtain ⟨⟨n', h', -, -⟩, -⟩ := h.alloc
      exact ih h' hcalls
    | free iova => exact ih (h.free hcalls.1).1 hcalls.2

theorem AtMost.here {m : Nat} {calls : List IovaCall} (h : s.AtMost m calls) :
    s.live.length ≤ m := by
  cases calls with
  | nil => exact h
  | cons call calls => exact h.1

theorem Kept.run {calls : List IovaCall} (hk : s.Kept n) (h : s.Issued w n)
    (hpages : iovaFreelist ≤ w.pages) (hcalls : s.Disciplined calls)
    (hmost : s.AtMost iovaFreelist calls) : s.ExhaustedWhenFull w calls := by
  induction calls generalizing s n with
  | nil => trivial
  | cons call calls ih =>
    cases call with
    | alloc =>
      obtain ⟨n', h', hk'⟩ := hk.alloc h hmost.2.here
      refine ⟨fun _ hnone => ?_, ih hk' h' hcalls hmost.2⟩
      obtain ⟨hfree, rfl⟩ := h.alloc.2 hnone
      have hcount := hk.count
      have hfew := hk.few
      rw [hfree, List.length_nil] at hcount
      omega
    | free iova =>
      exact ⟨fun hcall => (by cases hcall),
        ih (hk.free h hcalls.1) (h.free hcalls.1).1 hcalls.2 hmost.2⟩

/-- Over every sequence of calls that frees live IOVAs only, the live IOVAs are distinct pages of
the window. If the window has at least 64 pages and at most 64 IOVAs are live at a time, an `alloc`
reports exhaustion only if the window has exactly 64 pages and all of them are live. -/
theorem iova_windows (w : IovaWindow) (calls : List IovaCall)
    (hcalls : (start w).Disciplined calls) :
    ((start w).run calls).Safe w ∧
      (64 ≤ w.pages → (start w).AtMost 64 calls → (start w).ExhaustedWhenFull w calls) := by
  obtain ⟨n, hissued⟩ := (issued_start w).run hcalls
  exact ⟨hissued.safe, fun hpages hmost =>
    (kept_start w).run (issued_start w) hpages hcalls hmost⟩

/-- A window of 65 pages, with 64 IOVAs live, one of them freed and one allocated again. -/
theorem iova_windows_small :
    (start ⟨4096, 65, by decide, by decide, by decide⟩).ExhaustedWhenFull
      ⟨4096, 65, by decide, by decide, by decide⟩
      (List.replicate 64 .alloc ++ [.free 8192, .alloc]) := by
  refine (iova_windows ⟨4096, 65, by decide, by decide, by decide⟩ _ ?_).2 (by decide)
    (by decide +kernel)
  exact ⟨by decide +kernel, trivial⟩

/-- In a window of 64 pages at most 64 IOVAs can be live, and the next `alloc` reports
exhaustion. -/
theorem iova_exhausted :
    (start ⟨4096, 64, by decide, by decide, by decide⟩).Disciplined (List.replicate 65 .alloc) ∧
      (start ⟨4096, 64, by decide, by decide, by decide⟩).AtMost 64 (List.replicate 65 .alloc) ∧
      ¬ (start ⟨4096, 64, by decide, by decide, by decide⟩).NeverExhausted
        (List.replicate 65 .alloc) :=
  ⟨trivial, by decide +kernel, by decide +kernel⟩

end IovaSession

end Plinth.Iommu
