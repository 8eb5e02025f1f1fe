import Plinth.Refine.Memory

/-!
# `Plinth.Spawning.Load`: the frames of a load

`load_and_map` takes frames for the pages of an image and for the page tables above them. On an
error it gives back the pages that it recorded, and the destruction of the address space gives back
the tables. A page is recorded after it is mapped, so the frame of a page whose mapping fails is
lost.

How a load ends depends only on the number of free frames and on the pages of the image. `loadEnd`
is this function, and `loadAndMap_ends` says which frames are allocated after each end.
-/

set_option autoImplicit false

namespace Plinth

/-- The tables of a walk that are not there yet. -/
def missingTables : List TableKey → List TableKey → List TableKey
  | _, [] => []
  | old, key :: keys =>
    if key ∈ old then missingTables old keys
    else key :: missingTables (old ++ [key]) keys

/-- How a load ends. -/
inductive LoadEnd where
  /-- Every page is mapped. -/
  | loads
  /-- It stops, and gives back every frame that it took. -/
  | refused
  /-- It stops, and the frame of the last page is lost. -/
  | leaks
  deriving DecidableEq, Repr

/-- The end of a load of the pages at `vas` with `n` free frames, from an address space that has
the tables `keys` and the pages `pages`. A page takes a frame, and then the tables that it needs. -/
def loadEnd : List Nat → List TableKey → List Nat → Nat → LoadEnd
  | [], _, _, _ => .loads
  | va :: vas, keys, pages, n =>
    if n = 0 then .refused
    else
      let missing := missingTables keys (tableKeys va)
      if n - 1 < missing.length ∨ va / frameSize ∈ pages then .leaks
      else loadEnd vas (keys ++ missing) (va / frameSize :: pages) (n - 1 - missing.length)

/-! ### The page tables -/

/-- To link tables takes one frame for each missing table, or fails for lack of frames. -/
theorem linkTables_missing (keys : List TableKey) (fa : FrameAlloc)
    (tables : List (TableKey × Nat)) :
    if fa.available < (missingTables (tables.map Prod.fst) keys).length then
      (linkTables keys fa tables).1 = false
    else (linkTables keys fa tables).1 = true ∧
      (linkTables keys fa tables).2.2.map Prod.fst =
        tables.map Prod.fst ++ missingTables (tables.map Prod.fst) keys ∧
      (linkTables keys fa tables).2.1.available +
        (missingTables (tables.map Prod.fst) keys).length = fa.available := by
  induction keys generalizing fa tables with
  | nil => simp [missingTables, linkTables]
  | cons key keys ih =>
    unfold linkTables missingTables
    cases hlookup : tables.lookup key with
    | some a =>
      have hmem : key ∈ tables.map Prod.fst := by
        obtain ⟨l, r, heq, -⟩ := List.lookup_eq_some_iff.mp hlookup
        simp [heq]
      rw [if_pos hmem]
      exact ih fa tables
    | none =>
      have hnot : key ∉ tables.map Prod.fst := by
        intro hmem
        obtain ⟨e, he, hkey⟩ := List.mem_map.mp hmem
        have hne := List.lookup_eq_none_iff.mp hlookup e he
        simp [hkey] at hne
      rw [if_neg hnot, List.length_cons]
      dsimp only
      cases halloc : fa.alloc with
      | error e =>
        have hzero := FrameAlloc.available_of_error halloc
        rw [if_pos (by omega)]
      | ok r =>
        obtain ⟨a, fa'⟩ := r
        dsimp only
        have hone := FrameAlloc.alloc_available halloc
        have hrest := ih fa' (tables ++ [(key, a)])
        rw [List.map_append, List.map_singleton] at hrest
        dsimp only at hrest
        by_cases hfew : fa'.available < (missingTables (tables.map Prod.fst ++ [key]) keys).length
        · rw [if_pos hfew] at hrest
          rw [if_pos (by omega)]
          exact hrest
        · rw [if_neg hfew] at hrest
          rw [if_neg (by omega)]
          obtain ⟨hok, hkeys, hcount⟩ := hrest
          refine ⟨hok, ?_, by omega⟩
          rw [hkeys, List.append_assoc]
          rfl

/-- The frames of the new tables become allocated, and no other frame does. -/
theorem Links.marked {fa fa' : FrameAlloc} {t t' : List (TableKey × Nat)} (h : Links fa t fa' t')
    (b : Nat) :
      fa'.marked b + (t.map Prod.snd).count b = fa.marked b + (t'.map Prod.snd).count b := by
  induction h with
  | refl => rfl
  | @step fa fa' fa'' tables tables' key a halloc _ ih =>
    obtain ⟨-, hmarks, -⟩ := FrameAlloc.alloc_marked halloc
    have hone := hmarks b
    rw [List.map_append, List.count_append, List.map_singleton, List.count_singleton] at ih
    by_cases hb : b = a
    · subst hb
      simp only [beq_self_eq_true, ↓reduceIte] at ih hone
      omega
    · have hb' : ¬ a = b := fun heq => hb heq.symm
      simp only [beq_iff_eq, hb', hb, ↓reduceIte] at ih hone
      omega

/-- A table that is linked was there before, or the walk passes it. -/
theorem linkTables_mem (keys : List TableKey) (fa : FrameAlloc) (tables : List (TableKey × Nat)) :
    ∀ e ∈ (linkTables keys fa tables).2.2, e ∈ tables ∨ e.1 ∈ keys := by
  induction keys generalizing fa tables with
  | nil => exact fun e he => Or.inl he
  | cons key keys ih =>
    intro e he
    unfold linkTables at he
    split at he
    · exact (ih fa tables e he).imp_right (List.mem_cons_of_mem _)
    · split at he
      · exact Or.inl he
      · rename_i a fa' _
        rcases ih fa' _ e he with hold | hkey
        · rcases List.mem_append.mp hold with hmem | hnew
          · exact Or.inl hmem
          · obtain rfl := List.mem_singleton.mp hnew
            exact Or.inr List.mem_cons_self
        · exact Or.inr (List.mem_cons_of_mem _ hkey)

/-! ### The pages -/

/-- The frames of an address space in the making, over the allocator `fa` from before: its tables,
its pages in `boot`, and the lost ones. -/
structure Loading (fa : FrameAlloc) (l4 : Nat) (m : Mem) (boot : List (Nat × Nat))
    (lost : List Nat) : Prop where
  marked : ∀ b, m.fa.marked b = fa.marked b + (((m.spaces l4).tables.map Prod.snd).count b +
    (boot.map Prod.snd).count b + lost.count b)
  user : ∀ e ∈ (m.spaces l4).tables, underUserHalf e.1 = true

/-- A new address space has no table and no page. -/
theorem Loading.start (m : Mem) (l4 : Nat) :
    Loading m.fa l4 (m.setSpace l4 AddressSpace.empty) [] [] := by
  constructor
  · intro b
    rw [Mem.setSpace_spaces_self]
    rfl
  · rw [Mem.setSpace_spaces_self]
    exact nofun

theorem leaf_isSome (sp : AddressSpace) (va : Nat) :
    (sp.leaf va).isSome = true ↔ va / frameSize ∈ sp.leaves.map Prod.fst := by
  unfold AddressSpace.leaf
  rw [Option.isSome_iff_exists]
  constructor
  · rintro ⟨l, hl⟩
    obtain ⟨before, after, heq, -⟩ := List.lookup_eq_some_iff.mp hl
    simp [heq]
  · intro hmem
    obtain ⟨e, he, hpage⟩ := List.mem_map.mp hmem
    cases hlookup : sp.leaves.lookup (va / frameSize) with
    | some l => exact ⟨l, rfl⟩
    | none =>
      have hne := List.lookup_eq_none_iff.mp hlookup e he
      simp [hpage] at hne

/-- To map a page takes one frame for each missing table, and fails for lack of frames or if the
page is mapped. -/
theorem mapUserPage_ends (m : Mem) (l4 va phys : Nat) (flags : PageFlags) :
    let missing := missingTables ((m.spaces l4).tables.map Prod.fst) (tableKeys va)
    let r := m.mapUserPage l4 va phys flags
    if m.fa.available < missing.length ∨ va / frameSize ∈ (m.spaces l4).leaves.map Prod.fst then
      r.1 = false
    else r.1 = true ∧
      (r.2.spaces l4).tables.map Prod.fst = (m.spaces l4).tables.map Prod.fst ++ missing ∧
      (r.2.spaces l4).leaves.map Prod.fst =
        va / frameSize :: (m.spaces l4).leaves.map Prod.fst ∧
      r.2.fa.available = m.fa.available - missing.length := by
  have hlink := linkTables_missing (tableKeys va) m.fa (m.spaces l4).tables
  dsimp only
  unfold Mem.mapUserPage
  dsimp only
  by_cases hfew : m.fa.available <
      (missingTables ((m.spaces l4).tables.map Prod.fst) (tableKeys va)).length
  · rw [if_pos hfew] at hlink
    rw [if_pos (Or.inl hfew), hlink, if_neg Bool.false_ne_true]
  · rw [if_neg hfew] at hlink
    obtain ⟨hok, hkeys, hcount⟩ := hlink
    rw [hok, if_pos rfl]
    by_cases hmapped : va / frameSize ∈ (m.spaces l4).leaves.map Prod.fst
    · rw [if_pos (Or.inr hmapped)]
      obtain ⟨l, hl⟩ := Option.isSome_iff_exists.mp ((leaf_isSome _ va).mpr hmapped)
      have hl' : AddressSpace.leaf ⟨(linkTables (tableKeys va) m.fa (m.spaces l4).tables).2.2,
        (m.spaces l4).leaves⟩ va = some l := hl
      rw [hl']
    · rw [if_neg (not_or.mpr ⟨hfew, hmapped⟩)]
      have hnone : (m.spaces l4).leaf va = none := by
        rw [← Option.not_isSome_iff_eq_none]
        exact fun hsome => hmapped ((leaf_isSome _ va).mp hsome)
      have hnone' : AddressSpace.leaf ⟨(linkTables (tableKeys va) m.fa (m.spaces l4).tables).2.2,
        (m.spaces l4).leaves⟩ va = none := hnone
      rw [hnone']
      dsimp only
      rw [Mem.setSpace_spaces_self, Mem.setSpace_fa]
      refine ⟨rfl, hkeys, rfl, ?_⟩
      dsimp only
      omega

/-- A page of the loader: its frame is taken, and then the tables above it. -/
theorem Loading.page {fa fa' : FrameAlloc} {l4 va phys : Nat} {m : Mem}
    {boot : List (Nat × Nat)} (h : Loading fa l4 m boot []) (hva : va < 2 ^ 39)
    (halloc : m.fa.alloc = .ok (phys, fa')) (flags : PageFlags) :
    Loading fa l4 (({ m with fa := fa' } : Mem).mapUserPage l4 va phys flags).2 boot [phys] := by
  have hlinks := linkTables_links (tableKeys va) fa' (m.spaces l4).tables
  have hmem := linkTables_mem (tableKeys va) fa' (m.spaces l4).tables
  have hfa : (({ m with fa := fa' } : Mem).mapUserPage l4 va phys flags).2.fa =
      (linkTables (tableKeys va) fa' (m.spaces l4).tables).2.1 := by
    unfold Mem.mapUserPage
    dsimp only
    split
    · split
      · rfl
      · rfl
    · rfl
  have htables : ((({ m with fa := fa' } : Mem).mapUserPage l4 va phys flags).2.spaces l4).tables =
      (linkTables (tableKeys va) fa' (m.spaces l4).tables).2.2 := by
    unfold Mem.mapUserPage
    dsimp only
    split
    · split
      · rw [Mem.setSpace_spaces_self]
      · rw [Mem.setSpace_spaces_self]
        rfl
    · rw [Mem.setSpace_spaces_self]
  obtain ⟨-, hmarks, -⟩ := FrameAlloc.alloc_marked halloc
  constructor
  · intro b
    have hbefore := h.marked b
    have htaken := hmarks b
    have htables' := hlinks.marked b
    rw [hfa, htables, List.count_singleton]
    rw [List.count_nil] at hbefore
    by_cases hb : b = phys
    · subst hb
      simp only [beq_self_eq_true, ↓reduceIte] at htaken ⊢
      omega
    · have hb' : ¬ phys = b := fun heq => hb heq.symm
      simp only [beq_iff_eq, hb', hb, ↓reduceIte] at htaken ⊢
      omega
  · intro e he
    rw [htables] at he
    rcases hmem e he with hold | hkey
    · exact h.user e hold
    · exact underUserHalf_of_low hva e.1 hkey

/-- The page is recorded. -/
theorem Loading.record {fa : FrameAlloc} {l4 va phys : Nat} {m : Mem} {boot : List (Nat × Nat)}
    (h : Loading fa l4 m boot [phys]) : Loading fa l4 m (boot ++ [(va, phys)]) [] := by
  refine ⟨fun b => ?_, h.user⟩
  have hb := h.marked b
  rw [List.map_append, List.count_append, List.map_singleton, List.count_nil]
  dsimp only
  omega

/-- The loop of the loader ends as `loadEnd` says. -/
theorem loadPages_ends {fa : FrameAlloc} {l4 : Nat} (plan : List (Nat × PageFlags))
    (hlow : ∀ e ∈ plan, e.1 < 2 ^ 39) {m : Mem} {boot : List (Nat × Nat)}
    (h : Loading fa l4 m boot []) :
    let r := loadPages l4 plan m boot
    match loadEnd (plan.map Prod.fst) ((m.spaces l4).tables.map Prod.fst)
        ((m.spaces l4).leaves.map Prod.fst) m.fa.available with
    | .loads => r.1 = true
    | .refused => r.1 = false ∧ Loading fa l4 r.2.1 r.2.2 []
    | .leaks => r.1 = false ∧ ∃ a, Loading fa l4 r.2.1 r.2.2 [a] := by
  induction plan generalizing m boot with
  | nil => rfl
  | cons e plan ih =>
    obtain ⟨va, flags⟩ := e
    have hva := hlow (va, flags) List.mem_cons_self
    have hrest : ∀ e ∈ plan, e.1 < 2 ^ 39 := fun e he => hlow e (List.mem_cons_of_mem _ he)
    unfold loadPages
    rw [List.map_cons]
    unfold loadEnd
    cases halloc : m.fa.alloc with
    | error err =>
      rw [if_pos (FrameAlloc.available_of_error halloc)]
      exact ⟨rfl, h⟩
    | ok r =>
      obtain ⟨phys, fa'⟩ := r
      have hone := FrameAlloc.alloc_available halloc
      have hpage := h.page hva halloc flags
      have hmap := mapUserPage_ends { m with fa := fa' } l4 va phys flags
      have hleft : fa'.available = m.fa.available - 1 := by omega
      rw [if_neg (by omega)]
      dsimp only at hmap ⊢
      rw [hleft] at hmap
      split at hmap
      · rename_i hstop
        rw [if_pos hstop, hmap, if_neg Bool.false_ne_true]
        exact ⟨rfl, phys, hpage⟩
      · rename_i hgo
        obtain ⟨hok, hkeys, hpages, hcount⟩ := hmap
        rw [if_neg hgo, hok, if_pos rfl, ← hkeys, ← hpages, ← hcount]
        exact ih hrest hpage.record

/-! ### The rollback -/

/-- The recorded pages are unmapped and given back. -/
theorem Loading.unload {fa : FrameAlloc} {l4 : Nat} {lost : List Nat} (boot : List (Nat × Nat))
    {m : Mem} (h : Loading fa l4 m boot lost) : Loading fa l4 (unloadPages l4 boot m) [] lost := by
  induction boot generalizing m with
  | nil => exact h
  | cons e boot ih =>
    have hpos : 0 < m.fa.marked e.2 := by
      have he := h.marked e.2
      rw [List.map_cons, List.count_cons_self] at he
      omega
    obtain ⟨-, hback⟩ := FrameAlloc.giveBack_marked hpos
    have htables : ∀ fa', (({ m.unmapUserPage l4 e.1 with fa := fa' } : Mem).spaces l4).tables =
        (m.spaces l4).tables := fun _ => Mem.unmapUserPage_tables m l4 e.1 l4
    refine ih ⟨fun b => ?_, fun x hx => ?_⟩
    · have hb := h.marked b
      have hgiven := hback b
      rw [htables]
      rw [List.map_cons, List.count_cons] at hb
      change (m.fa.giveBack e.2).marked b = _
      by_cases heq : b = e.2
      · subst heq
        simp only [beq_self_eq_true, ↓reduceIte] at hb hgiven
        omega
      · have heq' : ¬ e.2 = b := fun hab => heq hab.symm
        simp only [beq_iff_eq, heq', heq, ↓reduceIte] at hb hgiven
        omega
    · rw [htables] at hx
      exact h.user x hx

/-- The address space is destroyed: all that is left are the lost frames. -/
theorem Loading.destroy {fa fa' : FrameAlloc} {l4 : Nat} {lost : List Nat} {m : Mem}
    (h : Loading fa' l4 m [] lost) (halloc : fa.alloc = .ok (l4, fa')) (b : Nat) :
    (m.destroyAddressSpace l4).fa.marked b = fa.marked b + lost.count b := by
  obtain ⟨-, hmarks, -⟩ := FrameAlloc.alloc_marked halloc
  have huser : (m.spaces l4).userTables = (m.spaces l4).tables.map Prod.snd := by
    unfold AddressSpace.userTables
    rw [List.filter_eq_self.mpr h.user]
  have hsplit : ∀ b, m.fa.marked b = fa.marked b + lost.count b +
      ((m.spaces l4).userTables ++ [l4]).count b := by
    intro b
    have hb := h.marked b
    have hl4 := hmarks b
    rw [huser, List.count_append, List.count_singleton]
    rw [List.map_nil, List.count_nil] at hb
    by_cases heq : b = l4
    · subst heq
      simp only [beq_self_eq_true, ↓reduceIte] at hl4 ⊢
      omega
    · have heq' : ¬ l4 = b := fun hab => heq hab.symm
      simp only [beq_iff_eq, heq', heq, ↓reduceIte] at hl4 ⊢
      omega
  have hheld :
    ∀ b, (fun _ => 0) b + ((m.spaces l4).userTables ++ [l4]).count b ≤ m.fa.marked b := by
    intro b
    have hb := hsplit b
    dsimp only
    omega
  obtain ⟨-, hback⟩ := FrameAlloc.giveBackAll_marked hheld
  have hb := hsplit b
  have hgiven := hback b
  unfold Mem.destroyAddressSpace
  dsimp only
  omega

/-- How the set-up of an address space with the image ends. The level-4 table takes a frame
first. -/
def Mem.loadEnd (m : Mem) (image : Option Image) : LoadEnd :=
  match image with
  | none => .refused
  | some image =>
    if m.fa.available = 0 then .refused
    else Plinth.loadEnd (image.plan.map Prod.fst) [] [] (m.fa.available - 1)

/-- A load into a new address space ends as `Mem.loadEnd` says. After a refusal the allocated frames
are the ones from before, and after a leak there is one more. -/
theorem loadAndMap_ends {m m' : Mem} {l4 : Nat} (hcreate : m.createAddressSpace = some (l4, m'))
    (image : Option Image) :
    let r := loadAndMap m' image l4
    match m.loadEnd image with
    | .loads => r.1.isSome = true
    | .refused => r.1 = none ∧ ∀ b, (r.2.1.destroyAddressSpace l4).fa.marked b = m.fa.marked b
    | .leaks => r.1 = none ∧
        ∃ a, ∀ b, (r.2.1.destroyAddressSpace l4).fa.marked b = m.fa.marked b + [a].count b := by
  unfold Mem.createAddressSpace at hcreate
  split at hcreate
  · rename_i a fa' halloc
    simp only [Option.some.injEq, Prod.mk.injEq] at hcreate
    obtain ⟨rfl, rfl⟩ := hcreate
    have hone := FrameAlloc.alloc_available halloc
    have hspace : (({ m with fa := fa' } : Mem).setSpace a AddressSpace.empty).spaces a =
        AddressSpace.empty := Mem.setSpace_spaces_self ..
    have hstart := Loading.start { m with fa := fa' } a
    unfold Mem.loadEnd loadAndMap
    cases image with
    | none =>
      refine ⟨rfl, fun b => ?_⟩
      rw [hstart.destroy halloc b]
      rfl
    | some image =>
      have hends := loadPages_ends image.plan image.plan_low hstart
      dsimp only at hends ⊢
      rw [hspace, Mem.setSpace_fa] at hends
      rw [if_neg (by omega), show m.fa.available - 1 = fa'.available by omega]
      change match Plinth.loadEnd (image.plan.map Prod.fst) [] [] fa'.available with
        | .loads => _ | .refused => _ | .leaks => _ at hends
      split at hends
      · rw [if_pos hends]
        rfl
      · obtain ⟨hno, hleft⟩ := hends
        rw [hno, if_neg Bool.false_ne_true]
        refine ⟨rfl, fun b => ?_⟩
        rw [(hleft.unload _).destroy halloc b]
        rfl
      · obtain ⟨hno, lost, hleft⟩ := hends
        rw [hno, if_neg Bool.false_ne_true]
        exact ⟨rfl, lost, fun b => (hleft.unload _).destroy halloc b⟩
  · cases hcreate

/-- No address space is made without a frame. -/
theorem createAddressSpace_none {m : Mem} (h : m.createAddressSpace = none) (image : Option Image) :
    m.loadEnd image = .refused := by
  unfold Mem.createAddressSpace at h
  split at h
  · cases h
  · rename_i e halloc
    have hzero := FrameAlloc.available_of_error halloc
    unfold Mem.loadEnd
    cases image with
    | none => rfl
    | some image =>
      dsimp only
      rw [if_pos hzero]

end Plinth
