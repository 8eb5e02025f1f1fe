import Plinth.Binding.Confinement
import Plinth.Elf.Plan
import Plinth.Spawning.Setup

/-!
# `Plinth.Elf.Load`: the bytes that the loader writes

`load_and_map` with the bytes of the binary and of physical memory. Each page of the plan takes a
frame. The loader zeroes it, copies the bytes of the segment that land in it, and maps it.

`load_filled` is the result: the loader does not crash, it writes to frames that were free before
and nowhere else, it maps no page twice, and after a load that succeeds every page holds the bytes
of the file, followed by zeros. `load_loadAndMap` says that this is the loader of the rest of the
model, which takes the verdict of the parser (`verdict`) and leaves the bytes out.
-/

set_option autoImplicit false

namespace Plinth

/-- Write bytes from an address on. -/
def Ram.put (ram : Ram) (a : Nat) (b : List UInt8) : Ram := fun x =>
  if a ≤ x ∧ x < a + b.length then (b[x - a]?).getD 0 else ram x

namespace Elf

open Bytes Checked

/-! ### The model -/

/-- `VirtAddr::new` takes a canonical address. -/
def canonical (va : Nat) : Bool := va < 2 ^ 47 ∨ (2 ^ 64 - 2 ^ 47 ≤ va ∧ va < 2 ^ 64)

/-- A page that the loader fills: where it goes, and which page of which segment it is. A page of
the stack is of no segment. -/
structure Job where
  va : Nat
  flags : PageFlags
  source : Option (LoadSeg × Nat)
  deriving DecidableEq, Repr

/-- The error if there is no frame for the page. -/
def Job.outOfFrames (job : Job) : String :=
  match job.source with
  | some _ => "out of frames for user image"
  | none => "out of frames for user stack"

/-- The pages of an image, and then those of the stack from the top down. -/
def Image.jobs (img : Image) : List Job :=
  (img.segs.flatMap fun seg => (List.range seg.pages).map fun i =>
    ⟨seg.vaddr + i * frameSize, seg.pageFlags, some (seg, i)⟩) ++
  (List.range userStackPages).map fun i =>
    ⟨userStackTop - (i + 1) * frameSize, userDataFlags, none⟩

/-- Fill the frame of a page: zeros, and then the bytes of the segment that land in the page. -/
def fill (binary : List UInt8) (ram : Ram) (phys : Nat) (job : Job) : Call String Ram :=
  let ram := ram.put phys (zeros frameSize)
  match job.source with
  | none => pure ram
  | some (seg, i) => do
    let pageLo ← mul i frameSize
    if pageLo < seg.filesz then
      let src ← add seg.offset pageLo
      let bytes ← range binary src (min frameSize (seg.filesz - pageLo))
      return ram.put phys bytes
    else return ram

/-- What the loader changes. -/
structure Loader where
  mem : Mem
  ram : Ram
  /-- The entries of `boot_frames`. -/
  boot : List (Nat × Nat)
  /-- Ghost: the frames that were allocated for pages. -/
  taken : List Nat

/-- The pages of the plan. `capacity` is the length of `boot_frames`. -/
def setup (binary : List UInt8) (capacity l4 : Nat) : List Job → Loader → Call String Unit × Loader
  | [], st => (.ok (), st)
  | job :: rest, st =>
    match st.mem.fa.alloc with
    | .error _ => (.error (.error job.outOfFrames), st)
    | .ok (phys, fa) =>
      let st := { st with mem := { st.mem with fa }, taken := phys :: st.taken }
      match fill binary st.ram phys job with
      | .error e => (.error e, st)
      | .ok ram =>
        if ¬ canonical job.va then (.error .crash, { st with ram })
        else
          let r := st.mem.mapUserPage l4 job.va phys job.flags
          let st := { st with ram, mem := r.2 }
          if r.1 = false then
            (.error (.error "page already mapped or table allocation failed"), st)
          else if st.boot.length < capacity then
            setup binary capacity l4 rest { st with boot := st.boot ++ [(job.va, phys)] }
          else (.error .crash, st)

/-- `load_and_map`. -/
def load (binary : List UInt8) (capacity l4 : Nat) (m : Mem) (ram : Ram) :
    Call String Nat × Loader :=
  match parse binary userImageBase userImageEnd (capacity - userStackPages) with
  | .error (.error e) => (.error (.error e.asStr), ⟨m, ram, [], []⟩)
  | .error .crash => (.error .crash, ⟨m, ram, [], []⟩)
  | .ok image =>
    match setup binary capacity l4 image.jobs ⟨m, ram, [], []⟩ with
    | (.ok (), st) => (.ok image.entry, st)
    | (.error e, st) => (.error e, { st with mem := unloadPages l4 st.boot st.mem })

/-! ### The content of a page -/

variable {binary : List UInt8} {job : Job} {done jobs : List Job} {ram ram' : Ram}
  {capacity l4 phys i j : Nat} {m : Mem} {st : Loader} {img : Image} {seg : LoadSeg}

/-- The byte that a page holds at an offset: a byte of the file, or zero. -/
def Job.content (binary : List UInt8) (job : Job) (j : Nat) : UInt8 :=
  match job.source with
  | some (seg, i) =>
    if i * frameSize + j < seg.filesz then (binary[seg.offset + (i * frameSize + j)]?).getD 0 else 0
  | none => 0

/-- The bytes of a page are in the file, and its address is one of the user half. -/
structure Job.Fits (binary : List UInt8) (job : Job) : Prop where
  aligned : job.va % frameSize = 0
  low : job.va < 2 ^ 39
  file : ∀ seg i, job.source = some (seg, i) → i * frameSize < 2 ^ 39 ∧
    seg.offset + seg.filesz ≤ binary.length ∧ seg.offset + seg.filesz < 2 ^ 64

theorem put_of_outside {a x : Nat} {b : List UInt8} (h : ¬ (a ≤ x ∧ x < a + b.length)) :
    ram.put a b x = ram x := if_neg h

theorem put_at {a : Nat} {b : List UInt8} (h : j < b.length) :
    ram.put a b (a + j) = (b[j]?).getD 0 := by
  unfold Ram.put
  rw [if_pos ⟨Nat.le_add_right a j, Nat.add_lt_add_left h a⟩, Nat.add_sub_cancel_left]

/-- A zeroed frame. -/
theorem put_zeros (h : j < frameSize) : ram.put phys (zeros frameSize) (phys + j) = 0 := by
  rw [put_at (by rwa [length_zeros])]
  unfold zeros
  rw [List.getElem?_replicate, if_pos h]
  rfl

/-- To fill a frame writes its bytes and no others. -/
theorem fill_ok (h : job.Fits binary) (ram : Ram) (phys : Nat) :
    ∃ ram', fill binary ram phys job = .ok ram' ∧
      (∀ x, ¬ (phys ≤ x ∧ x < phys + frameSize) → ram' x = ram x) ∧
      ∀ j, j < frameSize → ram' (phys + j) = job.content binary j := by
  have hout : ∀ x, ¬ (phys ≤ x ∧ x < phys + frameSize) →
      ram.put phys (zeros frameSize) x = ram x := fun x hx =>
    put_of_outside (by rwa [length_zeros])
  unfold fill Job.content
  cases hsource : job.source with
  | none => exact ⟨_, rfl, hout, fun j hj => put_zeros hj⟩
  | some e =>
    obtain ⟨seg, i⟩ := e
    obtain ⟨hi, hfile, hword⟩ := h.file seg i hsource
    have hmul : (mul i frameSize : Call String Nat) = .ok (i * frameSize) :=
      mul_eq_ok.mpr ⟨by omega, rfl⟩
    dsimp only
    rw [hmul]
    by_cases hlo : i * frameSize < seg.filesz
    · generalize hlen : min frameSize (seg.filesz - i * frameSize) = len
      have hadd : (add seg.offset (i * frameSize) : Call String Nat) =
          .ok (seg.offset + i * frameSize) := add_eq_ok.mpr ⟨by omega, rfl⟩
      have hin : seg.offset + i * frameSize + len ≤ binary.length := by omega
      have hrange : (range binary (seg.offset + i * frameSize) len : Call String (List UInt8)) =
          .ok (slice binary (seg.offset + i * frameSize) len) := if_pos hin
      have hslice := length_slice hin
      refine ⟨(ram.put phys (zeros frameSize)).put phys
        (slice binary (seg.offset + i * frameSize) len), ?_, fun x hx => ?_, fun j hj => ?_⟩
      · show (if i * frameSize < seg.filesz then _ else _) = _
        rw [if_pos hlo, hadd]
        show (range binary (seg.offset + i * frameSize)
          (min frameSize (seg.filesz - i * frameSize)) >>= _) = _
        rw [hlen, hrange]
        rfl
      · rw [put_of_outside (by rw [hslice]; omega), hout x hx]
      · by_cases hjl : j < len
        · rw [put_at (by rwa [hslice]), slice_getElem?, if_pos hjl, if_pos (by omega),
            Nat.add_assoc]
        · rw [put_of_outside (by rw [hslice]; omega), put_zeros hj, if_neg (by omega)]
    · refine ⟨_, ?_, hout, fun j hj => ?_⟩
      · show (if i * frameSize < seg.filesz then _ else _) = _
        rw [if_neg hlo]
        rfl
      · rw [put_zeros hj, if_neg (by omega)]

/-! ### The loop -/

/-- The address is in the frame. -/
def InFrame (a x : Nat) : Prop := a ≤ x ∧ x < a + frameSize

/-- What holds in the middle of a load that started with the memory `m` and `ram`: every frame that
was taken was free, and nothing else was written. -/
structure Spared (m : Mem) (ram : Ram) (st : Loader) : Prop where
  frames : st.mem.fa.frames = m.fa.frames
  grows : ∀ a, m.fa.marked a ≤ st.mem.fa.marked a
  free : ∀ a ∈ st.taken, m.fa.IsFree a
  held : ∀ a ∈ st.taken, st.mem.fa.marked a = 1
  nodup : st.taken.Nodup
  outside : ∀ x, (∀ a ∈ st.taken, ¬ InFrame a x) → st.ram x = ram x

/-- The entry of `boot_frames` for a page: the frame is mapped at the address of the page, and holds
its content. -/
structure Loaded (binary : List UInt8) (l4 : Nat) (st : Loader) (job : Job) (e : Nat × Nat) :
    Prop where
  va : e.1 = job.va
  taken : e.2 ∈ st.taken
  leaf : (st.mem.spaces l4).leaf job.va = some ⟨e.2, job.flags⟩
  content : ∀ j, j < frameSize → st.ram (e.2 + j) = job.content binary j

/-- Two frames share no byte. -/
theorem inFrame_unique {a b x : Nat} (ha : a % frameSize = 0) (hb : b % frameSize = 0)
    (hax : InFrame a x) (hbx : InFrame b x) : a = b := by
  unfold InFrame frameSize at *
  omega

/-- A frame is taken for the next page, and filled. -/
theorem Spared.take {fa : FrameAlloc} (h : Spared m ram st)
    (halloc : st.mem.fa.alloc = .ok (phys, fa))
    (hout : ∀ x, ¬ InFrame phys x → ram' x = st.ram x) :
    Spared m ram { st with mem := { st.mem with fa }, taken := phys :: st.taken, ram := ram' } ∧
      m.fa.IsFree phys ∧ phys ∉ st.taken := by
  obtain ⟨hzero, hmarks, -⟩ := FrameAlloc.alloc_marked halloc
  have hframes := FrameAlloc.alloc_frames halloc
  have hgrows := h.grows phys
  have hfree : m.fa.IsFree phys := by
    have hmore : st.mem.fa.marked phys < fa.marked phys := by
      rw [hmarks, if_pos rfl]
      exact Nat.lt_succ_self _
    have hbefore := (FrameAlloc.isFree_of_marked hframes hmore).1
    rw [FrameAlloc.isFree_iff] at hbefore ⊢
    rw [h.frames] at hbefore
    exact ⟨hbefore.1, hbefore.2.1, by omega⟩
  have hnew : phys ∉ st.taken := fun hmem => by
    have hone := h.held phys hmem
    omega
  refine ⟨⟨hframes.trans h.frames, fun a => ?_, fun a ha => ?_, fun a ha => ?_,
    List.nodup_cons.mpr ⟨hnew, h.nodup⟩, fun x hx => ?_⟩, hfree, hnew⟩
  · have ha := h.grows a
    have hb := hmarks a
    dsimp only
    omega
  · rcases List.mem_cons.mp ha with rfl | ha
    · exact hfree
    · exact h.free a ha
  · have hb := hmarks a
    dsimp only
    rcases List.mem_cons.mp ha with rfl | ha
    · rw [if_pos rfl] at hb
      omega
    · have hone := h.held a ha
      have hne : a ≠ phys := fun heq => hnew (heq ▸ ha)
      rw [if_neg hne] at hb
      omega
  · exact (hout x (hx phys List.mem_cons_self)).trans
      (h.outside x fun a ha => hx a (List.mem_cons_of_mem _ ha))

/-- A page is mapped, or not: frames go to the tables, and no other frame changes. -/
theorem Spared.map (h : Spared m ram st) (l4 va phys : Nat) (flags : PageFlags) :
    Spared m ram { st with mem := (st.mem.mapUserPage l4 va phys flags).2 } := by
  obtain ⟨fa', t', hlinks, hmem, -⟩ := mapUserPage_spec st.mem l4 va phys flags
  have hfa : (st.mem.mapUserPage l4 va phys flags).2.fa = fa' := by
    rw [hmem]
    rfl
  have hgrows := hlinks.grows
  refine ⟨?_, fun a => ?_, h.free, fun a ha => ?_, h.nodup, h.outside⟩
  · dsimp only
    rw [hfa, hlinks.frames]
    exact h.frames
  · dsimp only
    rw [hfa]
    exact (h.grows a).trans (hgrows.marked a)
  · have hone := h.held a ha
    have hmore := hgrows.marked a
    have hle := fa'.marked_le_one a
    dsimp only
    rw [hfa]
    omega

/-- A page that was mapped stays mapped while another one is, and its content stays. -/
theorem Loaded.keep {st' : Loader} {e : Nat × Nat} (h : Loaded binary l4 st job e)
    (haligned : e.2 % frameSize = 0) (hphys : phys % frameSize = 0) (hnew : phys ∉ st.taken)
    (htaken : ∀ a ∈ st.taken, a ∈ st'.taken)
    (hleaf : ∀ va l, (st.mem.spaces l4).leaf va = some l → (st'.mem.spaces l4).leaf va = some l)
    (hout : ∀ x, ¬ InFrame phys x → st'.ram x = st.ram x) : Loaded binary l4 st' job e := by
  refine ⟨h.va, htaken _ h.taken, hleaf _ _ h.leaf, fun j hj => ?_⟩
  rw [hout, h.content j hj]
  intro hin
  have heq := inFrame_unique haligned hphys ⟨Nat.le_add_right _ _, Nat.add_lt_add_left hj _⟩ hin
  exact hnew (heq ▸ h.taken)

/-- What mapping a page does to the entries of the address space. -/
theorem mapUserPage_leaf (m : Mem) (l4 va phys : Nat) (flags : PageFlags)
    (h : (m.mapUserPage l4 va phys flags).1 = true) :
    (∀ va' l, (m.spaces l4).leaf va' = some l →
      ((m.mapUserPage l4 va phys flags).2.spaces l4).leaf va' = some l) ∧
    ((m.mapUserPage l4 va phys flags).2.spaces l4).leaf va = some ⟨phys, flags⟩ := by
  obtain ⟨fa', t', -, hmem, hnone⟩ := mapUserPage_spec m l4 va phys flags
  rw [h, if_pos rfl] at hmem
  have hspace : ∀ va', ((m.mapUserPage l4 va phys flags).2.spaces l4).leaf va' =
      if va' / frameSize = va / frameSize then some ⟨phys, flags⟩
      else (m.spaces l4).leaf va' := fun va' => by
    rw [hmem, Mem.setSpace_spaces_self]
    exact AddressSpace.addLeaf_leaf (m.spaces l4) va va' ⟨phys, flags⟩
  refine ⟨fun va' l hl => ?_, ?_⟩
  · rw [hspace, if_neg]
    · exact hl
    · intro heq
      have hsame : (m.spaces l4).leaf va' = (m.spaces l4).leaf va := by
        unfold AddressSpace.leaf
        rw [heq]
      rw [hsame, hnone h] at hl
      cases hl
  · rw [hspace, if_pos rfl]

/-- The recorded addresses are those of the first pages of the plan. -/
theorem boot_prefix {boot : List (Nat × Nat)}
    (h : List.Forall₂ (Loaded binary l4 st) done boot) (rest : List Job) :
    boot.map Prod.fst <+: (done ++ rest).map Job.va := by
  have heq : boot.map Prod.fst = done.map Job.va := by
    induction h with
    | nil => rfl
    | cons hjob _ ih => rw [List.map_cons, List.map_cons, ih, hjob.va]
  rw [heq, List.map_append]
  exact List.prefix_append _ _

/-- The loop does not crash. It maps pages of the plan in order, and if it succeeds all of them are
loaded. -/
theorem setup_ok (hfits : ∀ job ∈ jobs, job.Fits binary)
    (hcap : st.boot.length + jobs.length ≤ capacity) (h : Spared m ram st)
    (hdone : List.Forall₂ (Loaded binary l4 st) done st.boot) :
    Safe (setup binary capacity l4 jobs st).1 ∧ Spared m ram (setup binary capacity l4 jobs st).2 ∧
      (setup binary capacity l4 jobs st).2.boot.map Prod.fst <+: (done ++ jobs).map Job.va ∧
      ((setup binary capacity l4 jobs st).1 = .ok () →
        List.Forall₂ (Loaded binary l4 (setup binary capacity l4 jobs st).2) (done ++ jobs)
          (setup binary capacity l4 jobs st).2.boot) := by
  induction jobs generalizing done st with
  | nil =>
    have hstop := boot_prefix hdone []
    rw [List.append_nil] at hstop ⊢
    exact ⟨Safe.ok (), h, hstop, fun _ => hdone⟩
  | cons job rest ih =>
    have hjob := hfits job List.mem_cons_self
    have hstop := boot_prefix hdone (job :: rest)
    unfold setup
    cases halloc : st.mem.fa.alloc with
    | error err => exact ⟨Safe.error _, h, hstop, nofun⟩
    | ok r =>
      obtain ⟨phys, fa⟩ := r
      obtain ⟨ram', hfill, hout, hcontent⟩ := fill_ok hjob st.ram phys
      obtain ⟨htake, hfree, hnew⟩ := h.take halloc hout
      have hcanonical : canonical job.va = true := by
        have hlow := hjob.low
        unfold canonical
        rw [decide_eq_true_eq]
        omega
      have hmap := htake.map l4 job.va phys job.flags
      dsimp only at hmap ⊢
      rw [hfill]
      dsimp only
      rw [hcanonical, if_neg (by simp)]
      cases hok : (({ st.mem with fa := fa } : Mem).mapUserPage l4 job.va phys job.flags).1 with
      | false =>
        rw [if_pos rfl]
        exact ⟨Safe.error _, hmap, hstop, nofun⟩
      | true =>
        rw [List.length_cons] at hcap
        rw [if_neg (by simp), if_pos (by omega)]
        obtain ⟨hold, hleaf⟩ := mapUserPage_leaf _ l4 job.va phys job.flags hok
        have haligned := ((FrameAlloc.isFree_iff phys).mp hfree).1
        generalize hst :
          (⟨(({ st.mem with fa := fa } : Mem).mapUserPage l4 job.va phys job.flags).2,
          ram', st.boot ++ [(job.va, phys)], phys :: st.taken⟩ : Loader) = st'
        have hspared : Spared m ram st' := by
          rw [← hst]
          exact { hmap with }
        have hloaded : List.Forall₂ (Loaded binary l4 st') (done ++ [job]) st'.boot := by
          rw [← hst]
          refine List.rel_append (hdone.imp fun x e hx => ?_) (.cons ?_ .nil)
          · -- The pages that were loaded before are still there.
            have hfreeE := h.free e.2 hx.taken
            exact hx.keep ((FrameAlloc.isFree_iff e.2).mp hfreeE).1 haligned hnew
              (fun a ha => List.mem_cons_of_mem _ ha) hold hout
          · exact ⟨rfl, List.mem_cons_self, hleaf, hcontent⟩
        have hlen : st'.boot.length + rest.length ≤ capacity := by
          rw [← hst, List.length_append, List.length_singleton]
          omega
        have hrest := ih (fun x hx => hfits x (List.mem_cons_of_mem _ hx)) hlen hspared hloaded
        rwa [List.append_assoc] at hrest

/-! ### The plan -/

theorem pages_pos (seg : LoadSeg) (h : 0 < seg.memsz) : 0 < seg.pages := by
  unfold LoadSeg.pages frameSize
  omega

/-- A page of the plan is a page of a segment, or one of the stack. -/
theorem mem_jobs : job ∈ img.jobs ↔
    (∃ seg ∈ img.segs, ∃ i < seg.pages,
      job = ⟨seg.vaddr + i * frameSize, seg.pageFlags, some (seg, i)⟩) ∨
    ∃ i < userStackPages, job = ⟨userStackTop - (i + 1) * frameSize, userDataFlags, none⟩ := by
  unfold Image.jobs
  rw [List.mem_append, List.mem_flatMap, List.mem_map]
  constructor
  · rintro (⟨seg, hseg, hjob⟩ | ⟨i, hi, rfl⟩)
    · obtain ⟨i, hi, rfl⟩ := List.mem_map.mp hjob
      exact Or.inl ⟨seg, hseg, i, List.mem_range.mp hi, rfl⟩
    · exact Or.inr ⟨i, List.mem_range.mp hi, rfl⟩
  · rintro (⟨seg, hseg, i, hi, rfl⟩ | ⟨i, hi, rfl⟩)
    · exact Or.inl ⟨seg, hseg, List.mem_map.mpr ⟨i, List.mem_range.mpr hi, rfl⟩⟩
    · exact Or.inr ⟨i, List.mem_range.mpr hi, rfl⟩

variable {maxImagePages : Nat}

/-- The pages of an accepted image are in the file and in the user half. -/
theorem Loadable.fits (h : Loadable binary userImageBase userImageEnd maxImagePages img) :
    ∀ job ∈ img.jobs, job.Fits binary := by
  intro job hjob
  rcases mem_jobs.mp hjob with ⟨seg, hseg, i, hi, rfl⟩ | ⟨i, hi, rfl⟩
  · have hwin := h.window seg hseg
    have haligned := h.aligned seg hseg
    have hfile := (h.file seg hseg).1
    have hword := h.word seg hseg
    unfold pagesEnd userImageEnd at hwin
    unfold frameSize at *
    refine ⟨?_, ?_, fun seg' i' heq => ?_⟩
    · unfold frameSize
      dsimp only
      omega
    · dsimp only
      omega
    · simp only [Option.some.injEq, Prod.mk.injEq] at heq
      obtain ⟨rfl, rfl⟩ := heq
      unfold frameSize
      exact ⟨by omega, hfile, hword⟩
  · refine ⟨?_, ?_, nofun⟩
    · unfold userStackPages at hi
      unfold userStackTop frameSize
      dsimp only
      omega
    · unfold userStackTop
      dsimp only
      omega

/-- The plan fits `boot_frames`. -/
theorem Loadable.length_jobs {capacity : Nat}
    (h : Loadable binary userImageBase userImageEnd (capacity - userStackPages) img) :
    img.jobs.length ≤ capacity := by
  have hlen : img.jobs.length = (img.segs.map LoadSeg.pages).sum + userStackPages := by
    unfold Image.jobs
    rw [List.length_append, List.length_flatMap, List.length_map, List.length_range]
    simp only [List.length_map, List.length_range]
  obtain ⟨seg, hseg, -, hlow, hentry⟩ := h.entry
  have hpos := pages_pos seg (by omega)
  have hle := List.single_le_sum (l := img.segs.map LoadSeg.pages) (fun _ _ => Nat.zero_le _) _
    (List.mem_map_of_mem hseg)
  have hbudget := h.budget
  omega

/-- No two pages of the plan are the same page. -/
theorem Loadable.nodup (h : Loadable binary userImageBase userImageEnd maxImagePages img) :
    (img.jobs.map fun job => job.va / frameSize).Nodup := by
  unfold Image.jobs
  rw [List.map_append, List.nodup_append]
  refine ⟨?_, ?_, ?_⟩
  · rw [List.map_flatMap, List.nodup_flatMap]
    constructor
    · intro seg hseg
      have haligned := h.aligned seg hseg
      rw [List.map_map]
      refine List.Nodup.map ?_ List.nodup_range
      intro i i' heq
      simp only [Function.comp_apply] at heq
      unfold frameSize at haligned heq
      omega
    · refine h.apart.imp_of_mem fun {a b} ha hb hab => ?_
      have haa := h.aligned a ha
      have hba := h.aligned b hb
      intro x hxa hxb
      dsimp only at hxa hxb
      rw [List.map_map, List.mem_map] at hxa hxb
      obtain ⟨i, hi, rfl⟩ := hxa
      obtain ⟨i', hi', heq⟩ := hxb
      rw [List.mem_range] at hi hi'
      simp only [Function.comp_apply] at heq
      unfold pagesEnd frameSize at hab
      unfold frameSize at haa hba heq
      omega
  · rw [List.map_map]
    decide
  · intro x hx y hy heq
    subst heq
    rw [List.mem_map] at hx hy
    obtain ⟨job, hjob, rfl⟩ := hx
    obtain ⟨job', hjob', heq⟩ := hy
    obtain ⟨seg, hseg, hjob⟩ := List.mem_flatMap.mp hjob
    obtain ⟨i, hi, rfl⟩ := List.mem_map.mp hjob
    obtain ⟨i', hi', rfl⟩ := List.mem_map.mp hjob'
    have hwin := h.window seg hseg
    rw [List.mem_range] at hi hi'
    unfold pagesEnd userImageEnd at hwin
    unfold userStackPages at hi'
    unfold userStackTop at heq
    unfold frameSize at *
    dsimp only at heq
    omega

/-! ### The result -/

/-- A load that is safe, however it ends. -/
structure LoadsSafely (binary : List UInt8) (capacity l4 : Nat) (m : Mem) (ram : Ram)
    (r : Call String Nat × Loader) : Prop where
  safe : Safe r.1
  /-- The frames that were taken for pages were free before, and each was taken once. -/
  free : ∀ a ∈ r.2.taken, m.fa.IsFree a
  nodup : r.2.taken.Nodup
  /-- Nothing else was written. -/
  outside : ∀ x, (∀ a ∈ r.2.taken, ¬ InFrame a x) → r.2.ram x = ram x
  /-- No page was mapped twice. -/
  once : (r.2.boot.map fun e => e.1 / frameSize).Nodup
  room : r.2.boot.length ≤ capacity
  /-- After a load that succeeds every page is loaded. -/
  loaded : ∀ entry, r.1 = .ok entry → ∃ img,
    parse binary userImageBase userImageEnd (capacity - userStackPages) = .ok img ∧
      entry = img.entry ∧ List.Forall₂ (Loaded binary l4 r.2) img.jobs r.2.boot

theorem load_safely (binary : List UInt8) (capacity l4 : Nat) (m : Mem) (ram : Ram) :
    LoadsSafely binary capacity l4 m ram (load binary capacity l4 m ram) := by
  have haligned : userImageEnd % frameSize = 0 := by decide
  have hparse := parse_ok binary userImageBase (capacity - userStackPages) haligned
  have hstart : Spared m ram ⟨m, ram, [], []⟩ :=
    ⟨rfl, fun _ => le_refl _, nofun, nofun, List.nodup_nil, fun _ _ => rfl⟩
  unfold load
  split
  · exact ⟨Safe.error _, nofun, List.nodup_nil,
      fun _ _ => rfl, List.nodup_nil, Nat.zero_le _, nofun⟩
  · rename_i hcrash
    exact absurd hcrash hparse.1
  · rename_i img himg
    have hload := hparse.2 img himg
    have hlen := hload.length_jobs
    have hcap : (⟨m, ram, [], []⟩ : Loader).boot.length + img.jobs.length ≤ capacity := by
      rw [List.length_nil, Nat.zero_add]
      exact hlen
    obtain ⟨hsafe, hspared, hhead, hdone⟩ := setup_ok hload.fits hcap hstart
      (.nil : List.Forall₂ (Loaded binary l4 _) [] [])
    rw [List.nil_append] at hhead hdone
    have hroom : (setup binary capacity l4 img.jobs ⟨m, ram, [], []⟩).2.boot.length ≤ capacity := by
      have hle := hhead.length_le
      rw [List.length_map, List.length_map] at hle
      omega
    have honce : ((setup binary capacity l4 img.jobs ⟨m, ram, [], []⟩).2.boot.map
        fun e => e.1 / frameSize).Nodup := by
      have hsub := (hhead.map fun va => va / frameSize).sublist
      rw [List.map_map, List.map_map] at hsub
      exact hload.nodup.sublist hsub
    split
    · rename_i st hst
      rw [hst] at hsafe hspared hdone hroom honce
      refine ⟨Safe.ok _, hspared.free, hspared.nodup, hspared.outside, honce, hroom, ?_⟩
      intro entry hentry
      cases hentry
      exact ⟨img, himg, rfl, hdone rfl⟩
    · rename_i e st hst
      rw [hst] at hsafe hspared hdone hroom honce
      refine ⟨fun hcrash => hsafe ?_, hspared.free, hspared.nodup, hspared.outside, honce, hroom,
        nofun⟩
      cases hcrash
      rfl

/-! ### The loader without bytes -/

/-- The verdict of the parser on a binary, for a process of the kernel. -/
def verdict (binary : List UInt8) : Option Plinth.Image :=
  match h : parse binary userImageBase userImageEnd (maxBootFrames - userStackPages) with
  | .error _ => none
  | .ok img =>
    have hload := (parse_ok binary userImageBase _ (by decide)).2 img h
    some {
      entry := img.entry
      segments := img.segs
      window := fun seg hseg => by
        obtain ⟨hbase, hstop⟩ := hload.window seg hseg
        unfold pagesEnd LoadSeg.pages frameSize at hstop
        omega
      aligned := hload.aligned
      budget := hload.budget }

theorem verdict_of_error {e : Stop ElfError}
    (h : parse binary userImageBase userImageEnd (maxBootFrames - userStackPages) = .error e) :
    verdict binary = none := by
  unfold verdict
  split
  · rfl
  · rename_i heq
    rw [h] at heq
    cases heq

theorem verdict_of_ok
    (h : parse binary userImageBase userImageEnd (maxBootFrames - userStackPages) = .ok img) :
    ∃ image, verdict binary = some image ∧ image.entry = img.entry ∧
      image.segments = img.segs := by
  unfold verdict
  split
  · rename_i heq
    rw [h] at heq
    cases heq
  · rename_i heq
    rw [h] at heq
    cases heq
    exact ⟨_, rfl, rfl, rfl⟩

/-- The loop is the loop of the loader without bytes. -/
theorem setup_loadPages (l4 : Nat) (hfits : ∀ job ∈ jobs, job.Fits binary)
    (hcap : st.boot.length + jobs.length ≤ capacity) :
    loadPages l4 (jobs.map fun job => (job.va, job.flags)) st.mem st.boot =
      ((setup binary capacity l4 jobs st).1.isOk, (setup binary capacity l4 jobs st).2.mem,
        (setup binary capacity l4 jobs st).2.boot) := by
  induction jobs generalizing st with
  | nil => rfl
  | cons job rest ih =>
    have hjob := hfits job List.mem_cons_self
    rw [List.map_cons]
    unfold loadPages setup
    dsimp only
    cases halloc : st.mem.fa.alloc with
    | error err => rfl
    | ok r =>
      obtain ⟨phys, fa⟩ := r
      obtain ⟨ram', hfill, -⟩ := fill_ok hjob st.ram phys
      have hcanonical : canonical job.va = true := by
        have hlow := hjob.low
        unfold canonical
        rw [decide_eq_true_eq]
        omega
      dsimp only
      rw [hfill]
      dsimp only
      rw [hcanonical, if_neg (by simp : ¬ ¬ (true = true))]
      cases hok : (({ st.mem with fa := fa } : Mem).mapUserPage l4 job.va phys job.flags).1 with
      | false =>
        rw [if_pos rfl, if_neg Bool.false_ne_true]
        rfl
      | true =>
        rw [List.length_cons] at hcap
        rw [if_pos rfl, if_neg (by simp : ¬ (true = false)), if_pos (by omega)]
        refine @ih ⟨(({ st.mem with fa := fa } : Mem).mapUserPage l4 job.va phys job.flags).2, ram',
          st.boot ++ [(job.va, phys)], phys :: st.taken⟩
          (fun x hx => hfits x (List.mem_cons_of_mem _ hx)) ?_
        rw [List.length_append, List.length_singleton]
        omega

/-- The loader of the rest of the model is this one with the verdict of the parser. -/
theorem load_loadAndMap (binary : List UInt8) (l4 : Nat) (m : Mem) (ram : Ram) :
    loadAndMap m (verdict binary) l4 =
      ((load binary maxBootFrames l4 m ram).1.toOption, (load binary maxBootFrames l4 m ram).2.mem,
        (load binary maxBootFrames l4 m ram).2.boot) := by
  have haligned : userImageEnd % frameSize = 0 := by decide
  have hparse := (parse_ok binary userImageBase (maxBootFrames - userStackPages) haligned).2
  unfold load
  cases hp : parse binary userImageBase userImageEnd (maxBootFrames - userStackPages) with
  | error e =>
    rw [verdict_of_error hp]
    cases e with
    | error e => rfl
    | crash => rfl
  | ok img =>
    obtain ⟨image, hverdict, hentry, hsegs⟩ := verdict_of_ok hp
    have hload := hparse img hp
    have hplan : image.plan = img.jobs.map fun job => (job.va, job.flags) := by
      unfold Image.plan Image.jobs
      rw [List.map_append, List.map_flatMap, hsegs]
      simp only [List.map_map]
      rfl
    have hcap : (⟨m, ram, [], []⟩ : Loader).boot.length + img.jobs.length ≤ maxBootFrames := by
      rw [List.length_nil, Nat.zero_add]
      exact hload.length_jobs
    have hloop := setup_loadPages l4 hload.fits hcap
    rw [hverdict]
    unfold loadAndMap
    dsimp only at hloop ⊢
    rw [hplan, hloop, hentry]
    rcases hsetup : setup binary maxBootFrames l4 img.jobs ⟨m, ram, [], []⟩ with ⟨r, st⟩
    cases r with
    | ok u => rfl
    | error e => rfl

/-- For every binary, window and budget the parser does not crash, and what it accepts is a load
plan in the window and in the budget. The loader carries out such a plan safely. -/
theorem parse_load_safe (binary : List UInt8) (imageBase : Nat) {imageEnd : Nat}
    (maxImagePages capacity l4 : Nat) (m : Mem) (ram : Ram) (hend : imageEnd % frameSize = 0) :
    Safe (parse binary imageBase imageEnd maxImagePages) ∧
      (∀ img, parse binary imageBase imageEnd maxImagePages = .ok img →
        Loadable binary imageBase imageEnd maxImagePages img) ∧
      LoadsSafely binary capacity l4 m ram (load binary capacity l4 m ram) :=
  ⟨(parse_ok binary imageBase maxImagePages hend).1,
    (parse_ok binary imageBase maxImagePages hend).2, load_safely binary capacity l4 m ram⟩

/-- A binary with one segment: 16 bytes of code at the start of the image window. -/
def codeBinary : List UInt8 :=
  elfMagic ++ [2, 1, 1] ++ zeros 9 ++ leBytes 2 2 ++ leBytes 2 62 ++ leBytes 4 1 ++
    leBytes 8 userImageBase ++ leBytes 8 64 ++ zeros 12 ++ leBytes 2 64 ++ leBytes 2 56 ++
    leBytes 2 1 ++ zeros 6 ++
  leBytes 4 1 ++ leBytes 4 5 ++ leBytes 8 120 ++ leBytes 8 userImageBase ++
    leBytes 8 userImageBase ++ leBytes 8 16 ++ leBytes 8 16 ++ leBytes 8 4096 ++
  List.replicate 16 0xcc

/-- A memory of 64 free frames. -/
def freshMem : Mem := ⟨⟨[0], 64, 64, []⟩, fun _ => AddressSpace.empty⟩

theorem parse_load_safe_codeBinary :
    (load codeBinary maxBootFrames 0 freshMem fun _ => 0).1 = .ok userImageBase ∧
      Safe (parse codeBinary userImageBase userImageEnd 60) ∧
      (∀ img, parse codeBinary userImageBase userImageEnd 60 = .ok img →
        Loadable codeBinary userImageBase userImageEnd 60 img) ∧
      LoadsSafely codeBinary maxBootFrames 0 freshMem (fun _ => 0)
        (load codeBinary maxBootFrames 0 freshMem fun _ => 0) :=
  ⟨by decide +kernel, parse_load_safe codeBinary userImageBase 60 maxBootFrames 0 freshMem
    (fun _ => 0) (by decide)⟩

end Elf

end Plinth
