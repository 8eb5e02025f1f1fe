import Plinth.Elf.Parse

/-!
# `Plinth.Elf.Plan`: what the parser accepts

`parse` crashes on no input, and what it accepts is a load plan that the loader can carry out
without any check (`Loadable`). The loop over the program headers keeps `Scan.Ok`, and `accept` is
the only step that adds a segment.

The parser compares the bytes of segments and not their pages. Segments start at page boundaries, so
segments that share no byte share no page.
-/

set_option autoImplicit false

namespace Plinth

namespace Elf

open Bytes Checked

variable {bytes : List UInt8} {imageBase imageEnd maxImagePages : Nat} {e : ElfError}
  {i n off phoff v : Nat} {st st' : Scan} {p : Phdr}

/-- What the parser ensures for a segment. -/
structure Fits (bytes : List UInt8) (imageBase imageEnd : Nat) (seg : LoadSeg) : Prop where
  aligned : seg.vaddr % frameSize = 0
  base : imageBase ≤ seg.vaddr
  stop : seg.vaddr + seg.memsz ≤ imageEnd
  word : seg.vaddr + seg.memsz < 2 ^ 64
  sizes : seg.filesz ≤ seg.memsz
  pos : 0 < seg.memsz
  file : seg.offset + seg.filesz ≤ bytes.length
  fileWord : seg.offset + seg.filesz < 2 ^ 64
  wx : ¬ (seg.writable = true ∧ seg.executable = true)

/-- Two segments share no byte. -/
def Apart (a b : LoadSeg) : Prop := a.vaddr + a.memsz ≤ b.vaddr ∨ b.vaddr + b.memsz ≤ a.vaddr

/-- What holds after `i` rounds of the loop. -/
structure Scan.Ok (bytes : List UInt8) (imageBase imageEnd maxImagePages i : Nat) (st : Scan) :
    Prop where
  fits : ∀ seg ∈ st.segs, Fits bytes imageBase imageEnd seg
  apart : st.segs.Pairwise Apart
  total : st.totalPages = (st.segs.map LoadSeg.pages).sum
  budget : st.totalPages ≤ maxImagePages
  count : st.segs.length ≤ i

/-! ### Fields -/

/-- To read a field crashes only if its end is no word. -/
theorem field_safe (h : off + n < 2 ^ 64) (e : ElfError) : Safe (field n bytes off e) :=
  Safe.bind (Safe.bind (Safe.add h) fun _ _ => Safe.pure _) fun _ _ => Safe.okOr _ _

/-! ### The file header -/

theorem header_safe (bytes : List UInt8) : Safe (header bytes) := by
  unfold header
  refine Safe.bind (Safe.reject _ _) fun _ hsize => ?_
  rw [reject_eq_ok, Nat.not_lt] at hsize
  unfold ehdrSize at hsize
  refine Safe.bind (Safe.range (by omega)) fun _ _ => Safe.bind (Safe.reject _ _) fun _ _ => ?_
  refine Safe.bind (Safe.index (by omega)) fun _ _ => Safe.bind (Safe.reject _ _) fun _ _ => ?_
  refine Safe.bind (Safe.index (by omega)) fun _ _ => Safe.bind (Safe.reject _ _) fun _ _ => ?_
  refine Safe.bind (Safe.index (by omega)) fun _ _ => Safe.bind (Safe.reject _ _) fun _ _ => ?_
  refine Safe.bind (field_safe (by decide) _) fun _ _ => Safe.bind (Safe.reject _ _) fun _ _ => ?_
  refine Safe.bind (field_safe (by decide) _) fun _ _ => Safe.bind (Safe.reject _ _) fun _ _ => ?_
  refine Safe.bind (field_safe (by decide) _) fun _ _ => Safe.bind (Safe.reject _ _) fun _ _ => ?_
  refine Safe.bind (field_safe (by decide) _) fun _ _ => ?_
  refine Safe.bind (field_safe (by decide) _) fun _ _ => ?_
  refine Safe.bind (field_safe (by decide) _) fun _ _ => ?_
  refine Safe.bind (field_safe (by decide) _) fun _ _ => ?_
  refine Safe.bind (Safe.reject _ _) fun _ _ => Safe.bind (Safe.reject _ _) fun _ _ => ?_
  exact Safe.bind (Safe.okOr _ _) fun _ _ => Safe.bind (Safe.reject _ _) fun _ _ => Safe.pure _

/-- The program headers are in the file, and there are not too many. -/
theorem header_eq_ok {hd : Header} (h : header bytes = .ok hd) :
    hd.phnum ≤ maxPhdrs ∧ hd.phoff + hd.phnum * phdrSize < 2 ^ 64 ∧
      hd.phoff + hd.phnum * phdrSize ≤ bytes.length := by
  unfold header at h
  simp only [bind_eq_ok, reject_eq_ok, okOr_eq_ok, Option.bind_eq_some_iff, checkedMul_eq_some,
    checkedAdd_eq_some] at h
  obtain ⟨-, -, -, -, -, -, -, -, -, -, -, -, -, -, -, -, -, -, -, -, -, -, -, -, -, -, -, -, -, -,
    entry, -, phoff, -, phentsize, -, phnum, -, -, -, -, hphnum, phTable, ⟨_, ⟨-, rfl⟩, hword, rfl⟩,
    -, hle, hret⟩ := h
  cases hret
  exact ⟨Nat.le_of_not_lt hphnum, hword, Nat.le_of_not_lt hle⟩

/-! ### The program headers -/

theorem overlaps_safe {vaddr segEnd : Nat} {segs : List LoadSeg}
    (h : ∀ seg ∈ segs, seg.vaddr + seg.memsz < 2 ^ 64) : Safe (overlaps vaddr segEnd segs) := by
  induction segs with
  | nil => exact Safe.pure _
  | cons prior rest ih =>
    refine Safe.bind (Safe.add (h prior List.mem_cons_self)) fun _ _ => ?_
    refine Safe.bind (Safe.reject _ _) fun _ _ => ?_
    exact ih fun seg hseg => h seg (List.mem_cons_of_mem _ hseg)

/-- A segment that passes shares no byte with the accepted ones. -/
theorem overlaps_eq_ok {vaddr segEnd : Nat} {segs : List LoadSeg} {u : Unit}
    (h : overlaps vaddr segEnd segs = .ok u) :
    ∀ seg ∈ segs, seg.vaddr + seg.memsz ≤ vaddr ∨ segEnd ≤ seg.vaddr := by
  induction segs with
  | nil => exact nofun
  | cons prior rest ih =>
    unfold overlaps at h
    simp only [bind_eq_ok, add_eq_ok, reject_eq_ok] at h
    obtain ⟨_, ⟨-, rfl⟩, -, hno, hrest⟩ := h
    intro seg hseg
    rcases List.mem_cons.mp hseg with rfl | hmem
    · omega
    · exact ih hrest seg hmem

theorem readPhdr_safe {base : Nat} (h : base + phdrSize < 2 ^ 64) : Safe (readPhdr bytes base) := by
  unfold phdrSize at h
  -- Every field ends inside of the header.
  have hend : ∀ {n k off : Nat}, n + k ≤ 56 →
      (add base n : Call ElfError Nat) = .ok off → off + k < 2 ^ 64 := by
    intro n k off hn hoff
    rw [add_eq_ok] at hoff
    omega
  unfold readPhdr
  refine Safe.bind (Safe.add (by omega)) fun _ hoff => ?_
  refine Safe.bind (field_safe (hend (by decide) hoff) _) fun _ _ => ?_
  refine Safe.bind (Safe.add (by omega)) fun _ hoff => ?_
  refine Safe.bind (field_safe (hend (by decide) hoff) _) fun _ _ => ?_
  refine Safe.bind (Safe.add (by omega)) fun _ hoff => ?_
  refine Safe.bind (field_safe (hend (by decide) hoff) _) fun _ _ => ?_
  refine Safe.bind (Safe.add (by omega)) fun _ hoff => ?_
  refine Safe.bind (field_safe (hend (by decide) hoff) _) fun _ _ => ?_
  refine Safe.bind (Safe.add (by omega)) fun _ hoff => ?_
  exact Safe.bind (field_safe (hend (by decide) hoff) _) fun _ _ => Safe.pure _

theorem accept_safe (h : st.Ok bytes imageBase imageEnd maxImagePages i) (hi : i < maxLoadSegs)
    (p : Phdr) : Safe (accept bytes imageBase imageEnd maxImagePages p st) := by
  unfold accept
  refine Safe.bind (Safe.reject _ _) fun _ _ => Safe.bind (Safe.okOr _ _) fun _ _ => ?_
  refine Safe.bind (Safe.reject _ _) fun _ _ => Safe.bind (Safe.reject _ _) fun _ _ => ?_
  refine Safe.bind (Safe.okOr _ _) fun _ _ => Safe.bind (Safe.reject _ _) fun _ _ => ?_
  refine Safe.bind (Safe.reject _ _) fun _ _ => Safe.bind (Safe.reject _ _) fun _ _ => ?_
  refine Safe.bind (overlaps_safe fun seg hseg => (h.fits seg hseg).word) fun _ _ => ?_
  refine Safe.bind (Safe.okOr _ _) fun _ _ => Safe.bind (Safe.reject _ _) fun _ _ => ?_
  rw [if_pos (lt_of_le_of_lt h.count hi)]
  exact Safe.pure _

/-- A segment that is accepted keeps what holds of the plan. -/
theorem accept_ok (h : st.Ok bytes imageBase imageEnd maxImagePages i) (hpos : p.memsz ≠ 0)
    (hst : accept bytes imageBase imageEnd maxImagePages p st = .ok st') :
    st'.Ok bytes imageBase imageEnd maxImagePages (i + 1) := by
  unfold accept at hst
  simp only [bind_eq_ok, reject_eq_ok, okOr_eq_ok, checkedAdd_eq_some] at hst
  obtain ⟨-, hsizes, _, ⟨hfileWord, rfl⟩, -, hfile, -, halign, _,
    ⟨hword, rfl⟩, -, hwin, -, -, -, hwx, _,
    hover, _, ⟨-, rfl⟩, -, hbudget, hret⟩ := hst
  split at hret
  · cases hret
    have hapart := overlaps_eq_ok hover
    refine ⟨fun seg hseg => ?_, ?_, ?_, Nat.le_of_not_lt hbudget, ?_⟩
    · rcases List.mem_append.mp hseg with hold | hnew
      · exact h.fits seg hold
      · obtain rfl := List.mem_singleton.mp hnew
        refine ⟨?_, ?_, ?_, hword, ?_, ?_, ?_, hfileWord, ?_⟩
        · exact of_not_not halign
        · show imageBase ≤ p.vaddr
          omega
        · show p.vaddr + p.memsz ≤ imageEnd
          omega
        · exact Nat.le_of_not_lt hsizes
        · exact Nat.pos_of_ne_zero hpos
        · exact Nat.le_of_not_lt hfile
        · exact fun hboth => hwx ⟨of_decide_eq_true hboth.1, of_decide_eq_true hboth.2⟩
    · rw [List.pairwise_append]
      refine ⟨h.apart, List.pairwise_singleton _ _, fun a ha b hb => ?_⟩
      obtain rfl := List.mem_singleton.mp hb
      exact hapart a ha
    · rw [List.map_append, List.sum_append, ← h.total]
      rfl
    · rw [List.length_append]
      exact Nat.add_le_add_right h.count 1
  · cases hret

/-- A round that adds nothing. -/
theorem Scan.Ok.next (h : st.Ok bytes imageBase imageEnd maxImagePages i) :
    st.Ok bytes imageBase imageEnd maxImagePages (i + 1) :=
  { h with count := Nat.le_succ_of_le h.count }

theorem phdr_safe (h : st.Ok bytes imageBase imageEnd maxImagePages i) (hi : i < maxLoadSegs)
    (hword : phoff + (i + 1) * phdrSize < 2 ^ 64) :
    Safe (phdr bytes imageBase imageEnd maxImagePages phoff i st) := by
  unfold phdrSize at hword
  unfold phdr
  refine Safe.bind (Safe.mul (by unfold phdrSize; omega)) fun m hm => ?_
  rw [mul_eq_ok] at hm
  unfold phdrSize at hm
  refine Safe.bind (Safe.add (by omega)) fun base hbase => ?_
  rw [add_eq_ok] at hbase
  refine Safe.bind (field_safe (by omega) _) fun _ _ => Safe.bind (Safe.reject _ _) fun _ _ => ?_
  split
  · exact Safe.pure _
  · refine Safe.bind (readPhdr_safe (by unfold phdrSize; omega)) fun p _ => ?_
    split
    · exact Safe.pure _
    · exact accept_safe h hi p

theorem phdr_ok (h : st.Ok bytes imageBase imageEnd maxImagePages i)
    (hst : phdr bytes imageBase imageEnd maxImagePages phoff i st = .ok st') :
    st'.Ok bytes imageBase imageEnd maxImagePages (i + 1) := by
  unfold phdr at hst
  simp only [bind_eq_ok, reject_eq_ok] at hst
  obtain ⟨_, -, base, -, pType, -, -, -, hst⟩ := hst
  split at hst
  · cases hst
    exact h.next
  · rw [bind_eq_ok] at hst
    obtain ⟨p, -, hst⟩ := hst
    split at hst
    · cases hst
      exact h.next
    · rename_i hpos
      exact accept_ok h hpos hst

/-- The loop crashes on no program header, and its plan is as its rounds make it. -/
theorem phdrs_ok (h : st.Ok bytes imageBase imageEnd maxImagePages i) (hi : i + n ≤ maxLoadSegs)
    (hword : phoff + (i + n) * phdrSize < 2 ^ 64) :
    Safe (phdrs bytes imageBase imageEnd maxImagePages phoff n i st) ∧
      ∀ st', phdrs bytes imageBase imageEnd maxImagePages phoff n i st = .ok st' →
        st'.Ok bytes imageBase imageEnd maxImagePages (i + n) := by
  induction n generalizing i st with
  | zero =>
    refine ⟨Safe.pure _, fun st' hst => ?_⟩
    cases hst
    exact h
  | succ n ih =>
    have hnext : i + (n + 1) = i + 1 + n := by omega
    rw [hnext] at hi hword ⊢
    have hfirst : phoff + (i + 1) * phdrSize < 2 ^ 64 := by
      unfold phdrSize at hword ⊢
      omega
    unfold phdrs
    refine ⟨Safe.bind (phdr_safe h (by omega) hfirst) fun st' hst => ?_, fun st' hst => ?_⟩
    · exact (ih (phdr_ok h hst) hi hword).1
    · rw [bind_eq_ok] at hst
      obtain ⟨mid, hmid, hst⟩ := hst
      exact (ih (phdr_ok h hmid) hi hword).2 st' hst

/-! ### The entry point -/

theorem entryOk_safe {entry : Nat} {segs : List LoadSeg}
    (h : ∀ seg ∈ segs, seg.vaddr + seg.memsz < 2 ^ 64) : Safe (entryOk entry segs) := by
  induction segs with
  | nil => exact Safe.pure _
  | cons s rest ih =>
    have hrest := ih fun seg hseg => h seg (List.mem_cons_of_mem _ hseg)
    unfold entryOk
    split
    · refine Safe.bind (Safe.add (h s List.mem_cons_self)) fun _ _ => ?_
      split
      · exact Safe.pure _
      · exact hrest
    · exact hrest

theorem entryOk_eq_ok {entry : Nat} {segs : List LoadSeg} (h : entryOk entry segs = .ok true) :
    ∃ seg ∈ segs, seg.executable = true ∧ seg.vaddr ≤ entry ∧ entry < seg.vaddr + seg.memsz := by
  induction segs with
  | nil => cases h
  | cons s rest ih =>
    have hrest : entryOk entry rest = .ok true → ∃ seg ∈ s :: rest, seg.executable = true ∧
        seg.vaddr ≤ entry ∧ entry < seg.vaddr + seg.memsz := fun hr => by
      obtain ⟨seg, hseg, hin⟩ := ih hr
      exact ⟨seg, List.mem_cons_of_mem _ hseg, hin⟩
    unfold entryOk at h
    split at h
    · rename_i hexec
      simp only [bind_eq_ok, add_eq_ok] at h
      obtain ⟨_, ⟨-, rfl⟩, h⟩ := h
      split at h
      · rename_i hin
        exact ⟨s, List.mem_cons_self, hexec, hin⟩
      · exact hrest h
    · exact hrest h

/-! ### The result -/

/-- The address after the last page of a segment. -/
def pagesEnd (seg : LoadSeg) : Nat := seg.vaddr + seg.pages * frameSize

/-- A load plan that can be carried out without any check. -/
structure Loadable (bytes : List UInt8) (imageBase imageEnd maxImagePages : Nat) (img : Image) :
    Prop where
  some : img.segs ≠ []
  /-- The pages of the segments lie in the window. -/
  window : ∀ seg ∈ img.segs, imageBase ≤ seg.vaddr ∧ pagesEnd seg ≤ imageEnd
  aligned : ∀ seg ∈ img.segs, seg.vaddr % frameSize = 0
  /-- No two segments have a page in common. -/
  apart : img.segs.Pairwise fun a b => pagesEnd a ≤ b.vaddr ∨ pagesEnd b ≤ a.vaddr
  budget : (img.segs.map LoadSeg.pages).sum ≤ maxImagePages
  /-- No page can be written and executed. -/
  wx : ∀ seg ∈ img.segs, ¬ (seg.pageFlags.writable = true ∧ seg.pageFlags.noExecute = false)
  /-- The bytes of a segment are in the file, and they fit. -/
  file : ∀ seg ∈ img.segs, seg.offset + seg.filesz ≤ bytes.length ∧ seg.filesz ≤ seg.memsz
  word : ∀ seg ∈ img.segs, seg.offset + seg.filesz < 2 ^ 64
  entry : ∃ seg ∈ img.segs, seg.executable = true ∧ seg.vaddr ≤ img.entry ∧
    img.entry < seg.vaddr + seg.memsz

/-- A segment ends in its last page. -/
theorem Fits.pages {seg : LoadSeg} {x : Nat} (h : Fits bytes imageBase imageEnd seg)
    (hx : x % frameSize = 0) (hle : seg.vaddr + seg.memsz ≤ x) : pagesEnd seg ≤ x := by
  have haligned := h.aligned
  unfold pagesEnd LoadSeg.pages
  unfold frameSize at *
  omega

/-- `parse` crashes on no input, and what it accepts can be loaded. -/
theorem parse_ok (bytes : List UInt8) (imageBase : Nat) {imageEnd : Nat} (maxImagePages : Nat)
    (hend : imageEnd % frameSize = 0) :
    Safe (parse bytes imageBase imageEnd maxImagePages) ∧
      ∀ img, parse bytes imageBase imageEnd maxImagePages = .ok img →
        Loadable bytes imageBase imageEnd maxImagePages img := by
  have hstart : Scan.Ok bytes imageBase imageEnd maxImagePages 0 ⟨[], 0⟩ :=
    ⟨nofun, List.Pairwise.nil, rfl, Nat.zero_le _, Nat.le_refl 0⟩
  have hloop : ∀ hd, header bytes = .ok hd →
      Safe (phdrs bytes imageBase imageEnd maxImagePages hd.phoff hd.phnum 0 ⟨[], 0⟩) ∧
        ∀ st, phdrs bytes imageBase imageEnd maxImagePages hd.phoff hd.phnum 0 ⟨[], 0⟩ = .ok st →
          st.Ok bytes imageBase imageEnd maxImagePages (0 + hd.phnum) := by
    intro hd hhd
    obtain ⟨hnum, hword, -⟩ := header_eq_ok hhd
    rw [← Nat.zero_add hd.phnum] at hnum hword
    exact phdrs_ok hstart hnum hword
  unfold parse
  refine ⟨Safe.bind (header_safe bytes) fun hd hhd => ?_, fun img himg => ?_⟩
  · refine Safe.bind (hloop hd hhd).1 fun st hst => Safe.bind (Safe.reject _ _) fun _ _ => ?_
    have hok := (hloop hd hhd).2 st hst
    refine Safe.bind (entryOk_safe fun seg hseg => (hok.fits seg hseg).word) fun _ _ => ?_
    exact Safe.bind (Safe.reject _ _) fun _ _ => Safe.pure _
  · simp only [bind_eq_ok, reject_eq_ok] at himg
    obtain ⟨hd, hhd, st, hst, -, hsome, ok, hentry, -, htrue, hret⟩ := himg
    have hok := (hloop hd hhd).2 st hst
    cases hret
    rw [Bool.not_eq_false] at htrue
    subst htrue
    refine ⟨hsome, fun seg hseg => ?_, fun seg hseg => (hok.fits seg hseg).aligned, ?_, ?_,
      fun seg hseg => ?_, fun seg hseg => ?_, fun seg hseg => (hok.fits seg hseg).fileWord,
      entryOk_eq_ok hentry⟩
    · have hfits := hok.fits seg hseg
      exact ⟨hfits.base, hfits.pages hend hfits.stop⟩
    · refine hok.apart.imp_of_mem fun {a b} ha hb hab => ?_
      have hfa := hok.fits a ha
      have hfb := hok.fits b hb
      exact hab.imp (hfa.pages hfb.aligned) (hfb.pages hfa.aligned)
    · show (st.segs.map LoadSeg.pages).sum ≤ maxImagePages
      rw [← hok.total]
      exact hok.budget
    · rintro ⟨hw, hx⟩
      refine (hok.fits seg hseg).wx ⟨hw, ?_⟩
      have hx : (!seg.executable) = false := hx
      rwa [Bool.not_eq_false'] at hx
    · exact ⟨(hok.fits seg hseg).file, (hok.fits seg hseg).sizes⟩

end Elf

end Plinth
