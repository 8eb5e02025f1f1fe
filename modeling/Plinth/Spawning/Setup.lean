import Plinth.Spawning.Atomic

/-!
# `Plinth.Spawning.Setup`: the frames of a failed set-up

`setup_process` makes an address space, loads the image into it and installs the grants. An error
comes from the allocator, from the parser, or from a full table. Then the frames that were free are
free again, with two exceptions.

The loader records the frame of a page after the page is mapped. So a load that finds a frame for a
page but none for a table above it loses the frame of the page. And a table that is too full for the
grants is found after the load, when nobody gives the frames of the image back. `setUpRestores`
tells these two from the rest, and `failed_setup_iff` is the main result.
-/

set_option autoImplicit false

namespace Plinth

/-! ### The free frames -/

namespace FrameAlloc

variable {fa fa' : FrameAlloc}

/-- The address `a` is that of a free frame. -/
def IsFree (fa : FrameAlloc) (a : Nat) : Prop :=
  a % frameSize = 0 ∧ a / frameSize < fa.frames ∧ fa.isUsed (a / frameSize) = false

instance (fa : FrameAlloc) (a : Nat) : Decidable (fa.IsFree a) :=
  inferInstanceAs (Decidable (_ ∧ _ ∧ _))

/-- A tracked frame is free if it is not marked. -/
theorem isFree_iff (a : Nat) :
    fa.IsFree a ↔ a % frameSize = 0 ∧ a / frameSize < fa.frames ∧ fa.marked a = 0 := by
  unfold IsFree marked
  constructor
  · rintro ⟨haligned, hbelow, hclear⟩
    refine ⟨haligned, hbelow, if_neg fun h => ?_⟩
    rw [hclear] at h
    exact Bool.false_ne_true h.2.2
  · rintro ⟨haligned, hbelow, hzero⟩
    refine ⟨haligned, hbelow, eq_false_of_ne_true fun hset => ?_⟩
    rw [if_pos ⟨haligned, hbelow, hset⟩] at hzero
    cases hzero

/-- The same frames are free if the same frames are tracked and marked. -/
theorem isFree_congr (hframes : fa'.frames = fa.frames) (hmarks : ∀ a, fa'.marked a = fa.marked a)
    (a : Nat) : fa'.IsFree a ↔ fa.IsFree a := by
  rw [isFree_iff, isFree_iff, hframes, hmarks]

/-- A frame that becomes marked was free. -/
theorem isFree_of_marked {a : Nat} (hframes : fa'.frames = fa.frames)
    (hmore : fa.marked a < fa'.marked a) : fa.IsFree a ∧ ¬ fa'.IsFree a := by
  have hone := fa'.marked_le_one a
  have hset : fa'.marked a = 1 := by omega
  have htracked : a % frameSize = 0 ∧ a / frameSize < fa'.frames := by
    unfold marked at hset
    split at hset
    · rename_i h
      exact ⟨h.1, h.2.1⟩
    · cases hset
  rw [isFree_iff, isFree_iff, hset]
  refine ⟨⟨htracked.1, ?_, by omega⟩, fun h => ?_⟩
  · rw [← hframes]
    exact htracked.2
  · cases h.2.2

end FrameAlloc

/-! ### The tracked frames -/

theorem Links.frames {fa fa' : FrameAlloc} {t t' : List (TableKey × Nat)} (h : Links fa t fa' t') :
    fa'.frames = fa.frames := by
  induction h with
  | refl => rfl
  | step halloc _ ih => exact ih.trans (FrameAlloc.alloc_frames halloc)

namespace Mem

theorem mapUserPage_frames (m : Mem) (l4 va phys : Nat) (flags : PageFlags) :
    (m.mapUserPage l4 va phys flags).2.fa.frames = m.fa.frames := by
  have hlinks := linkTables_links (tableKeys va) m.fa (m.spaces l4).tables
  unfold mapUserPage
  dsimp only
  split
  · split
    · exact hlinks.frames
    · exact hlinks.frames
  · exact hlinks.frames

theorem destroyAddressSpace_frames (m : Mem) (l4 : Nat) :
    (m.destroyAddressSpace l4).fa.frames = m.fa.frames :=
  FrameAlloc.giveBackAll_frames _ _

theorem createAddressSpace_frames {m m' : Mem} {l4 : Nat}
    (h : m.createAddressSpace = some (l4, m')) : m'.fa.frames = m.fa.frames := by
  unfold createAddressSpace at h
  split at h
  · rename_i halloc
    simp only [Option.some.injEq, Prod.mk.injEq] at h
    rw [← h.2]
    exact FrameAlloc.alloc_frames halloc
  · cases h

end Mem

theorem loadPages_frames (l4 : Nat) (plan : List (Nat × PageFlags)) (m : Mem)
    (boot : List (Nat × Nat)) : (loadPages l4 plan m boot).2.1.fa.frames = m.fa.frames := by
  induction plan generalizing m boot with
  | nil => rfl
  | cons e plan ih =>
    obtain ⟨va, flags⟩ := e
    unfold loadPages
    split
    · rfl
    · rename_i phys fa halloc
      have hmap := Mem.mapUserPage_frames { m with fa := fa } l4 va phys flags
      have hone := FrameAlloc.alloc_frames halloc
      dsimp only at hmap ⊢
      split
      · rw [ih, hmap, hone]
      · rw [hmap, hone]

theorem unloadPages_frames (l4 : Nat) (boot : List (Nat × Nat)) (m : Mem) :
    (unloadPages l4 boot m).fa.frames = m.fa.frames := by
  induction boot generalizing m with
  | nil => rfl
  | cons e boot ih => exact (ih _).trans (FrameAlloc.giveBack_frames m.fa e.2)

theorem loadAndMap_frames (m : Mem) (image : Option Image) (l4 : Nat) :
    (loadAndMap m image l4).2.1.fa.frames = m.fa.frames := by
  unfold loadAndMap
  cases image with
  | none => rfl
  | some image =>
    dsimp only
    split
    · exact loadPages_frames l4 image.plan m []
    · exact (unloadPages_frames _ _ _).trans (loadPages_frames l4 image.plan m [])

/-! ### A load that succeeds -/

/-- Every page of a load that succeeds is recorded. -/
theorem loadPages_loaded {fa : FrameAlloc} {l4 : Nat} (plan : List (Nat × PageFlags))
    (hlow : ∀ e ∈ plan, e.1 < 2 ^ 39) {m : Mem} {boot : List (Nat × Nat)}
    (h : Loading fa l4 m boot []) (hok : (loadPages l4 plan m boot).1 = true) :
    Loading fa l4 (loadPages l4 plan m boot).2.1 (loadPages l4 plan m boot).2.2 [] ∧
      (loadPages l4 plan m boot).2.2.length = boot.length + plan.length := by
  induction plan generalizing m boot with
  | nil => exact ⟨h, rfl⟩
  | cons e plan ih =>
    obtain ⟨va, flags⟩ := e
    unfold loadPages at hok ⊢
    cases halloc : m.fa.alloc with
    | error err =>
      rw [halloc] at hok
      cases hok
    | ok r =>
      obtain ⟨phys, fa'⟩ := r
      have hpage := h.page (hlow (va, flags) List.mem_cons_self) halloc flags
      rw [halloc] at hok
      dsimp only at hok ⊢
      by_cases hmap : (({ m with fa := fa' } : Mem).mapUserPage l4 va phys flags).1 = true
      · rw [if_pos hmap] at hok ⊢
        obtain ⟨hleft, hlen⟩ := ih (fun e he => hlow e (List.mem_cons_of_mem _ he)) hpage.record hok
        refine ⟨hleft, ?_⟩
        rw [hlen, List.length_append, List.length_singleton, List.length_cons]
        omega
      · rw [if_neg hmap] at hok
        cases hok

/-- The frames of the pages are lost if nobody gives them back. -/
theorem Loading.forget {fa : FrameAlloc} {l4 : Nat} {m : Mem} {boot : List (Nat × Nat)}
    (h : Loading fa l4 m boot []) : Loading fa l4 m [] (boot.map Prod.snd) := by
  refine ⟨fun b => ?_, h.user⟩
  have hb := h.marked b
  rw [List.count_nil] at hb
  rw [List.map_nil, List.count_nil]
  omega

/-- An image has a page: the stack is not empty. -/
theorem Image.plan_pos (image : Image) : 0 < image.plan.length := by
  unfold Image.plan
  rw [List.length_append, List.length_map, List.length_range]
  have hstack : 0 < userStackPages := by decide
  omega

/-- After a load that succeeds, the destruction of the address space leaves the frame of some page
allocated. -/
theorem loadAndMap_kept {m m' : Mem} {l4 : Nat} (hcreate : m.createAddressSpace = some (l4, m'))
    (image : Image) (hok : (loadAndMap m' (some image) l4).1.isSome = true) :
    ∃ a, m.fa.marked a <
      ((loadAndMap m' (some image) l4).2.1.destroyAddressSpace l4).fa.marked a := by
  unfold Mem.createAddressSpace at hcreate
  split at hcreate
  · rename_i a fa' halloc
    simp only [Option.some.injEq, Prod.mk.injEq] at hcreate
    obtain ⟨rfl, rfl⟩ := hcreate
    have hstart := Loading.start { m with fa := fa' } a
    unfold loadAndMap at hok ⊢
    dsimp only at hok ⊢
    by_cases hpages : (loadPages a image.plan
        (({ m with fa := fa' } : Mem).setSpace a AddressSpace.empty) []).1 = true
    · rw [if_pos hpages]
      obtain ⟨hleft, hlen⟩ := loadPages_loaded image.plan image.plan_low hstart hpages
      have hsome := image.plan_pos
      have hback := hleft.forget.destroy halloc
      dsimp only
      generalize (loadPages a image.plan
        (({ m with fa := fa' } : Mem).setSpace a AddressSpace.empty) []) = r at *
      cases hboot : r.2.2 with
      | nil =>
        rw [hboot, List.length_nil] at hlen
        omega
      | cons e boot =>
        refine ⟨e.2, ?_⟩
        rw [hback e.2, hboot, List.map_cons, List.count_cons_self]
        omega
    · rw [if_neg hpages] at hok
      cases hok
  · cases hcreate

/-! ### The grants -/

/-- The grants of a set-up fill the table by their number. -/
theorem installGrants_used {caps : List Capability} {t t' : CapTable} {ipc ipc' : Ipc}
    (h : Kernel.installGrants caps t ipc = (some t', ipc')) :
    t'.used = t.used + caps.length := by
  induction caps generalizing t ipc with
  | nil =>
    unfold Kernel.installGrants at h
    simp only [Prod.mk.injEq, Option.some.injEq] at h
    rw [← h.1, List.length_nil, Nat.add_zero]
  | cons cap caps ih =>
    unfold Kernel.installGrants at h
    split at h
    · cases h
    · rename_i k t₁ hin
      rw [ih h, (CapTable.install_ok hin).1.used, List.length_cons]
      omega

theorem CapTable.used_le (t : CapTable) : t.used ≤ maxCaps := by
  have hle : ∀ k ∈ Finset.univ, Tally.entry (fun _ : Capability => 1) (t.slots k) ≤ 1 := by
    intro k _
    cases t.slots k with
    | none => exact Nat.zero_le _
    | some cap => exact le_refl _
  have hsum := Finset.sum_le_card_nsmul Finset.univ _ 1 hle
  rw [Finset.card_univ, Fintype.card_fin, smul_eq_mul, Nat.mul_one] at hsum
  exact hsum

/-- A new process has room for the grants exactly if they leave a slot for its CPU budget. -/
theorem installGrants_isSome (caps : List Capability) (ipc : Ipc) :
    (Kernel.installGrants caps spawnProcess.caps ipc).1.isSome = decide
      (caps.length < maxCaps) := by
  by_cases hroom : caps.length < maxCaps
  · obtain ⟨t, ipc', hin⟩ := installGrants_some caps (t := spawnProcess.caps) ipc (fun _ => rfl)
      (by rw [spawnProcess_used]; omega)
    rw [hin, decide_eq_true hroom]
    rfl
  · rw [decide_eq_false hroom]
    rcases hin : Kernel.installGrants caps spawnProcess.caps ipc with ⟨t, ipc'⟩
    cases t with
    | none => rfl
    | some t =>
      have hused := installGrants_used hin
      have hle := t.used_le
      rw [spawnProcess_used] at hused
      omega

/-! ### The whole set-up -/

/-- A set-up of the image with this number of grants gives back every frame if it fails. -/
def Mem.setUpRestores (m : Mem) (image : Option Image) (grants : Nat) : Bool :=
  match m.loadEnd image with
  | .loads => decide (grants < maxCaps)
  | .refused => true
  | .leaks => false

namespace Kernel

theorem setupProcess_frames (s : Kernel) (id : ProcSlot) (image : Option Image)
    (caps : List Capability) :
    (s.setupProcess id image caps).2.mem.fa.frames = s.mem.fa.frames := by
  unfold setupProcess
  cases hcreate : s.mem.createAddressSpace with
  | none => rfl
  | some r =>
    obtain ⟨l4, m⟩ := r
    have hnew := Mem.createAddressSpace_frames hcreate
    have hload := loadAndMap_frames m image l4
    dsimp only
    rcases hr : loadAndMap m image l4 with ⟨entry, mem, boot⟩
    rw [hr] at hload
    dsimp only at hload ⊢
    have hsame : mem.fa.frames = s.mem.fa.frames := hload.trans hnew
    have hdone := (mem.destroyAddressSpace_frames l4).trans hsame
    cases entry with
    | none => exact hdone
    | some e =>
      dsimp only
      rcases installGrants caps spawnProcess.caps s.ipc with ⟨t, ipc⟩
      cases t with
      | none => exact hdone
      | some t => exact hsame

/-- How the set-up ends: it is refused, it fails with one frame more allocated than before, or it
succeeds. -/
theorem setupProcess_ends (s : Kernel) (id : ProcSlot) (image : Option Image)
    (caps : List Capability) :
    let r := s.setupProcess id image caps
    match s.mem.loadEnd image with
    | .loads =>
      if caps.length < maxCaps then r.1 = true
      else r.1 = false ∧ ∃ a, s.mem.fa.marked a < r.2.mem.fa.marked a
    | .refused => r.1 = false ∧ ∀ a, r.2.mem.fa.marked a = s.mem.fa.marked a
    | .leaks => r.1 = false ∧ ∃ a, s.mem.fa.marked a < r.2.mem.fa.marked a := by
  unfold setupProcess
  cases hcreate : s.mem.createAddressSpace with
  | none =>
    rw [createAddressSpace_none hcreate image]
    exact ⟨rfl, fun _ => rfl⟩
  | some r =>
    obtain ⟨l4, m⟩ := r
    have hends := loadAndMap_ends hcreate image
    have hkept := fun image' => loadAndMap_kept hcreate image'
    dsimp only at hends ⊢
    cases hend : s.mem.loadEnd image with
    | refused =>
      rw [hend] at hends
      obtain ⟨hnone, hmarks⟩ := hends
      rcases hload : loadAndMap m image l4 with ⟨entry, mem, boot⟩
      rw [hload] at hnone hmarks
      obtain rfl : entry = none := hnone
      exact ⟨rfl, hmarks⟩
    | leaks =>
      rw [hend] at hends
      obtain ⟨hnone, a, hmarks⟩ := hends
      rcases hload : loadAndMap m image l4 with ⟨entry, mem, boot⟩
      rw [hload] at hnone hmarks
      obtain rfl : entry = none := hnone
      refine ⟨rfl, a, ?_⟩
      have ha := hmarks a
      rw [List.count_singleton_self] at ha
      dsimp only at ha ⊢
      omega
    | loads =>
      rw [hend] at hends
      dsimp only at hends ⊢
      -- Only an image that the parser accepts is loaded.
      cases image with
      | none => cases hends
      | some image =>
        obtain ⟨a, hlost⟩ := hkept image hends
        rcases hload : loadAndMap m (some image) l4 with ⟨entry, mem, boot⟩
        rw [hload] at hends hlost
        obtain ⟨e, rfl⟩ := Option.isSome_iff_exists.mp hends
        have hgrants := installGrants_isSome caps s.ipc
        dsimp only at hlost ⊢
        rcases hin : installGrants caps spawnProcess.caps s.ipc with ⟨t, ipc⟩
        rw [hin] at hgrants
        by_cases hroom : caps.length < maxCaps
        · rw [if_pos hroom]
          rw [decide_eq_true hroom] at hgrants
          obtain ⟨t', rfl⟩ := Option.isSome_iff_exists.mp hgrants
          rfl
        · rw [if_neg hroom]
          rw [decide_eq_false hroom] at hgrants
          obtain rfl : t = none := Option.not_isSome_iff_eq_none.mp
            (Bool.eq_false_iff.mp hgrants)
          exact ⟨rfl, a, hlost⟩

/-- A set-up that fails leaves the same frames free exactly if `setUpRestores` says so. -/
theorem failed_setup_iff (s : Kernel) (id : ProcSlot) (image : Option Image)
    (caps : List Capability) :
    ((s.setupProcess id image caps).1 = false →
        ∀ a, (s.setupProcess id image caps).2.mem.fa.IsFree a ↔ s.mem.fa.IsFree a) ↔
      s.mem.setUpRestores image caps.length = true := by
  have hframes := s.setupProcess_frames id image caps
  have hends := s.setupProcess_ends id image caps
  have hlost : (∃ a, s.mem.fa.marked a < (s.setupProcess id image caps).2.mem.fa.marked a) →
      ¬ ∀ a, (s.setupProcess id image caps).2.mem.fa.IsFree a ↔ s.mem.fa.IsFree a := by
    rintro ⟨a, hmore⟩ hsame
    obtain ⟨hfree, hgone⟩ := FrameAlloc.isFree_of_marked hframes hmore
    exact hgone ((hsame a).mpr hfree)
  unfold Mem.setUpRestores
  dsimp only at hends
  cases hend : s.mem.loadEnd image with
  | loads =>
    rw [hend] at hends
    dsimp only at hends ⊢
    rw [decide_eq_true_iff]
    by_cases hroom : caps.length < maxCaps
    · rw [if_pos hroom] at hends
      refine iff_of_true (fun hfail => ?_) hroom
      rw [hends] at hfail
      cases hfail
    · rw [if_neg hroom] at hends
      exact iff_of_false (fun h => hlost hends.2 (h hends.1)) hroom
  | refused =>
    rw [hend] at hends
    exact iff_of_true (fun _ => FrameAlloc.isFree_congr hframes hends.2) rfl
  | leaks =>
    rw [hend] at hends
    exact iff_of_false (fun h => hlost hends.2 (h hends.1)) Bool.false_ne_true

/-- An allocator with two free frames, those at 4096 and 8192. -/
def twoFrames : FrameAlloc where
  bitmap := [1#64]
  frames := 3
  free := 2
  refused := []

/-- The machine with these two frames left. -/
def scarceMachine : Kernel := (smallMachine.runFrom []).setFa twoFrames

/-- The level-4 table takes the first frame and the page of code the second. There is no frame for
the tables above it: the set-up fails, and the second frame stays allocated. -/
theorem scarceMachine_loses :
    (scarceMachine.setupProcess 0 (some codeImage) []).1 = false ∧
      scarceMachine.mem.fa.IsFree 8192 ∧
      ¬ (scarceMachine.setupProcess 0 (some codeImage) []).2.mem.fa.IsFree 8192 := by
  decide +kernel

end Kernel

end Plinth
