import Plinth.Ledger.Act
import Plinth.Proofs.Memory

/-!
# `Plinth.Refine.Memory`: the memory functions as paths of memory actions

Each memory function of the kernel is a path of `MemAct` steps. To map a page links page tables
(`Links`) and adds a leaf entry. The loader and the destruction of an address space move frames
between the allocator, the frames in motion, and the address spaces.
-/

set_option autoImplicit false

namespace Plinth

/-- A sequence of memory actions. -/
abbrev MemPath : Store → Store → Prop := Relation.ReflTransGen MemAct

/-- A sequence of memory actions is a path of the ledger. -/
theorem MemPath.path (g : Guard) {m m' : Store} (h : MemPath m m') {v : Ledger}
    (hv : v.store = m) : Path g v (v.setStore m') := by
  induction h with
  | refl =>
    subst hv
    exact Relation.ReflTransGen.refl
  | tail _ act ih => exact ih.tail (Act.mem act)

/-! ### Page tables -/

/-- The allocator and the tables after some missing tables were allocated and linked. -/
inductive Links : FrameAlloc → List (TableKey × Nat) → FrameAlloc → List (TableKey × Nat) →
    Prop where
  | refl (fa : FrameAlloc) (tables : List (TableKey × Nat)) : Links fa tables fa tables
  | step {fa fa' fa'' : FrameAlloc} {tables tables' : List (TableKey × Nat)} {key : TableKey}
      {a : Nat} (halloc : fa.alloc = .ok (a, fa'))
      (rest : Links fa' (tables ++ [(key, a)]) fa'' tables') : Links fa tables fa'' tables'

theorem Links.trans {fa fa' fa'' : FrameAlloc} {t t' t'' : List (TableKey × Nat)}
    (h : Links fa t fa' t') (h' : Links fa' t' fa'' t'') : Links fa t fa'' t'' := by
  induction h with
  | refl => exact h'
  | step halloc _ ih => exact .step halloc (ih h')

theorem linkTables_links (keys : List TableKey) (fa : FrameAlloc)
    (tables : List (TableKey × Nat)) :
    Links fa tables (linkTables keys fa tables).2.1 (linkTables keys fa tables).2.2 := by
  induction keys generalizing fa tables with
  | nil => exact .refl fa tables
  | cons key keys ih =>
    unfold linkTables
    split
    · exact ih fa tables
    · split
      · exact .refl fa tables
      · rename_i a fa' halloc
        exact .step halloc (ih fa' _)

/-- The tables of `t'` that are not in `t` are of the user half. -/
def NewLow (t t' : List (TableKey × Nat)) : Prop :=
  ∃ new, t' = t ++ new ∧ ∀ e ∈ new, underUserHalf e.1 = true

theorem NewLow.refl (t : List (TableKey × Nat)) : NewLow t t :=
  ⟨[], (List.append_nil t).symm, nofun⟩

theorem NewLow.trans {t t' t'' : List (TableKey × Nat)} (h : NewLow t t') (h' : NewLow t' t'') :
    NewLow t t'' := by
  obtain ⟨new, rfl, hlow⟩ := h
  obtain ⟨new', rfl, hlow'⟩ := h'
  refine ⟨new ++ new', List.append_assoc .., fun e he => ?_⟩
  rcases List.mem_append.mp he with hold | hnew
  · exact hlow e hold
  · exact hlow' e hnew

theorem Links.append {fa fa' : FrameAlloc} {t t' : List (TableKey × Nat)} (h : Links fa t fa' t') :
    ∃ new, t' = t ++ new := by
  induction h with
  | refl fa t => exact ⟨[], (List.append_nil t).symm⟩
  | step halloc _ ih =>
    obtain ⟨new, rfl⟩ := ih
    exact ⟨_, List.append_assoc ..⟩

theorem linkTables_newLow {keys : List TableKey} (hkeys : ∀ key ∈ keys, underUserHalf key = true)
    (fa : FrameAlloc) (tables : List (TableKey × Nat)) :
    NewLow tables (linkTables keys fa tables).2.2 := by
  induction keys generalizing fa tables with
  | nil => exact .refl tables
  | cons key keys ih =>
    obtain ⟨hkey, hrest⟩ := List.forall_mem_cons.mp hkeys
    unfold linkTables
    split
    · exact ih hrest fa tables
    · split
      · exact .refl tables
      · rename_i a fa' _
        exact NewLow.trans ⟨[(key, a)], rfl, by simpa using hkey⟩ (ih hrest fa' _)

/-- The tables above a page of the user half. -/
theorem underUserHalf_of_low {va : Nat} (h : va < 2 ^ 39) :
    ∀ key ∈ tableKeys va, underUserHalf key = true := by
  intro key hkey
  unfold tableKeys at hkey
  unfold underUserHalf
  rw [beq_iff_eq]
  simp only [List.mem_cons, List.not_mem_nil, or_false] at hkey
  rcases hkey with rfl | rfl | rfl
  · show va / 2 ^ 39 / 512 ^ (3 - 3) = 0
    omega
  · show va / 2 ^ 30 / 512 ^ (3 - 2) = 0
    omega
  · show va / 2 ^ 21 / 512 ^ (3 - 1) = 0
    omega

/-- To link tables of the user half into an address space is a path of memory actions. -/
theorem Links.path {fa fa' : FrameAlloc} {t t' : List (TableKey × Nat)} (h : Links fa t fa' t')
    (hlow : NewLow t t')
    {m : Store} {l4 : Nat} (hfa : m.mem.fa = fa) (ht : (m.mem.spaces l4).tables = t) :
    MemPath m { m with
      mem := (Mem.setSpace ⟨fa', m.mem.spaces⟩ l4 ⟨t', (m.mem.spaces l4).leaves⟩) } := by
  induction h generalizing m with
  | refl fa t =>
    have heq : Mem.setSpace ⟨fa, m.mem.spaces⟩ l4 ⟨t, (m.mem.spaces l4).leaves⟩ = m.mem := by
      unfold Mem.setSpace
      rw [← ht, Function.update_eq_self, ← hfa]
    rw [heq]
  | @step fa fa' fa'' tables tables' key a halloc rest ih =>
    have halloc' : m.mem.fa.alloc = .ok (a, fa') := by
      rw [hfa]
      exact halloc
    obtain ⟨new, hnew, hlownew⟩ := hlow
    obtain ⟨new', hnew'⟩ := rest.append
    rw [hnew', List.append_assoc] at hnew
    obtain rfl := List.append_cancel_left hnew
    obtain ⟨hkey, hlow'⟩ := List.forall_mem_cons.mp hlownew
    have hact := @MemAct.link m a l4 fa' key halloc' hkey
    have hrest := ih ⟨new', hnew', hlow'⟩ (m := { m with mem := (Mem.setSpace ⟨fa', m.mem.spaces⟩ l4
      ⟨(m.mem.spaces l4).tables ++ [(key, a)], (m.mem.spaces l4).leaves⟩) }) rfl (by
        rw [Mem.setSpace_spaces_self, ht])
    rw [Mem.setSpace_spaces_self] at hrest
    have heq : Mem.setSpace ⟨fa'', (Mem.setSpace ⟨fa', m.mem.spaces⟩ l4
        ⟨(m.mem.spaces l4).tables ++ [(key, a)], (m.mem.spaces l4).leaves⟩).spaces⟩ l4
        ⟨tables', (m.mem.spaces l4).leaves⟩
          = Mem.setSpace ⟨fa'', m.mem.spaces⟩ l4 ⟨tables', (m.mem.spaces l4).leaves⟩ := by
      unfold Mem.setSpace
      rw [Function.update_idem]
    dsimp only at hrest
    rw [heq] at hrest
    exact hrest.head hact

/-- To add a leaf entry to an address space that was just written. -/
theorem Mem.setSpace_addLeaf (m : Mem) (l4 va : Nat) (t : List (TableKey × Nat))
    (leaves : List (Nat × Leaf)) (l : Leaf) :
    (m.setSpace l4 ⟨t, leaves⟩).setSpace l4
        (((m.setSpace l4 ⟨t, leaves⟩).spaces l4).addLeaf va l)
      = m.setSpace l4 ⟨t, (va / frameSize, l) :: leaves⟩ := by
  rw [Mem.setSpace_setSpace, Mem.setSpace_spaces_self]
  rfl

/-- What mapping a page does: it links tables, and on success it adds one leaf entry for a page
that had none. -/
theorem mapUserPage_spec (m : Mem) (l4 va phys : Nat) (flags : PageFlags) :
    ∃ fa' t', Links m.fa (m.spaces l4).tables fa' t' ∧
      (m.mapUserPage l4 va phys flags).2 = Mem.setSpace ⟨fa', m.spaces⟩ l4 ⟨t',
        if (m.mapUserPage l4 va phys flags).1 then
          (va / frameSize, ⟨phys, flags⟩) :: (m.spaces l4).leaves
        else (m.spaces l4).leaves⟩ ∧
      ((m.mapUserPage l4 va phys flags).1 = true → (m.spaces l4).leaf va = none) := by
  refine ⟨_, _, linkTables_links (tableKeys va) m.fa (m.spaces l4).tables, ?_⟩
  unfold Mem.mapUserPage
  dsimp only
  split
  · split
    · rename_i l hl
      exact ⟨rfl, fun h => by cases h⟩
    · rename_i hl
      exact ⟨rfl, fun _ => hl⟩
  · exact ⟨rfl, fun h => by cases h⟩

/-! ### The loader -/

/-- The loader maps no page in the window for user-chosen mappings. -/
theorem plan_outside (image : Image) : ∀ e ∈ image.plan, outsideMapWindow e.1 := by
  intro e he
  unfold Image.plan at he
  rcases List.mem_append.mp he with hseg | hstack
  · obtain ⟨seg, hmem, hpage⟩ := List.mem_flatMap.mp hseg
    obtain ⟨i, hi, rfl⟩ := List.mem_map.mp hpage
    have hwin := image.window seg hmem
    have hlt := List.mem_range.mp hi
    left
    unfold LoadSeg.pages userImageEnd at *
    unfold frameSize userMapBase at *
    omega
  · obtain ⟨i, hi, rfl⟩ := List.mem_map.mp hstack
    have hlt := List.mem_range.mp hi
    left
    unfold userStackTop userStackPages frameSize userMapBase at *
    dsimp only
    omega

/-- The loader maps pages of the user half. -/
theorem Image.plan_low (image : Image) : ∀ e ∈ image.plan, e.1 < 2 ^ 39 := by
  intro e he
  unfold Image.plan at he
  rcases List.mem_append.mp he with hseg | hstack
  · obtain ⟨seg, hmem, hpage⟩ := List.mem_flatMap.mp hseg
    obtain ⟨i, hi, rfl⟩ := List.mem_map.mp hpage
    have hwin := image.window seg hmem
    have hlt := List.mem_range.mp hi
    unfold LoadSeg.pages userImageEnd at *
    unfold frameSize at *
    dsimp only
    omega
  · obtain ⟨i, hi, rfl⟩ := List.mem_map.mp hstack
    unfold userStackTop
    dsimp only
    omega

/-- The page tables that a walk for a page of the user half links. -/
theorem mapUserPage_newLow {va : Nat} (hva : va < 2 ^ 39) (m : Mem) (l4 phys : Nat)
    (flags : PageFlags) :
    NewLow (m.spaces l4).tables ((m.mapUserPage l4 va phys flags).2.spaces l4).tables := by
  have hnew := linkTables_newLow (underUserHalf_of_low hva) m.fa (m.spaces l4).tables
  unfold Mem.mapUserPage
  dsimp only
  split
  · split
    · rw [Mem.setSpace_spaces_self]
      exact hnew
    · rw [Mem.setSpace_spaces_self]
      exact hnew
  · rw [Mem.setSpace_spaces_self]
    exact hnew

/-- One page of the loader, from the frame in motion. -/
theorem mapUserPage_load_path {m : Store} {l4 va phys : Nat} {flags : PageFlags}
    (hout : outsideMapWindow va) (hva : va < 2 ^ 39) :
    MemPath m { m with mem := (m.mem.mapUserPage l4 va phys flags).2 } := by
  obtain ⟨fa', t', hlinks, hmem, -⟩ := mapUserPage_spec m.mem l4 va phys flags
  have hlow := mapUserPage_newLow hva m.mem l4 phys flags
  rw [hmem, Mem.setSpace_spaces_self] at hlow
  have hpath := hlinks.path hlow (m := m) rfl rfl
  rw [hmem]
  split
  · have hact := @MemAct.load { m with mem := (Mem.setSpace ⟨fa', m.mem.spaces⟩ l4
      ⟨t', (m.mem.spaces l4).leaves⟩) } l4 va ⟨phys, flags⟩ hout
    dsimp only at hact
    rw [Mem.setSpace_addLeaf] at hact
    exact hpath.tail hact
  · exact hpath

/-- The loader: the mapped frames are in motion afterwards. A frame whose mapping failed is
lost. -/
theorem loadPages_path (l4 : Nat) (plan : List (Nat × PageFlags))
    (hout : ∀ e ∈ plan, outsideMapWindow e.1) (hlow : ∀ e ∈ plan, e.1 < 2 ^ 39)
    (base spaces : List Nat) (mem : Mem) (boot : List (Nat × Nat)) :
    MemPath ⟨mem, (boot.map Prod.snd).reverse ++ base, spaces⟩
      ⟨(loadPages l4 plan mem boot).2.1,
        ((loadPages l4 plan mem boot).2.2.map Prod.snd).reverse ++ base, spaces⟩ := by
  induction plan generalizing mem boot with
  | nil => exact Relation.ReflTransGen.refl
  | cons e plan ih =>
    obtain ⟨va, flags⟩ := e
    have hva : outsideMapWindow va := hout (va, flags) List.mem_cons_self
    have hrest : ∀ e ∈ plan, outsideMapWindow e.1 := fun e he =>
      hout e (List.mem_cons_of_mem _ he)
    obtain ⟨hvalow, hrestlow⟩ := List.forall_mem_cons.mp hlow
    unfold loadPages
    split
    · exact Relation.ReflTransGen.refl
    · rename_i phys fa halloc
      have hact := MemAct.alloc
        (m := ⟨mem, (boot.map Prod.snd).reverse ++ base, spaces⟩) halloc
      have hmap := @mapUserPage_load_path ⟨⟨fa, mem.spaces⟩,
        phys :: ((boot.map Prod.snd).reverse ++ base), spaces⟩ l4 va phys flags hva hvalow
      have hpath := hmap.head hact
      dsimp only at hpath ⊢
      split
      · have hloop := ih hrest hrestlow (Mem.mapUserPage ⟨fa, mem.spaces⟩ l4 va phys flags).2
          (boot ++ [(va, phys)])
        rw [List.map_append, List.reverse_append] at hloop
        exact hpath.trans hloop
      · exact hpath.tail (MemAct.leak rfl)

theorem unloadPages_path (l4 : Nat) (boot : List (Nat × Nat)) (base spaces : List Nat)
    (mem : Mem) : MemPath ⟨mem, boot.map Prod.snd ++ base, spaces⟩
      ⟨unloadPages l4 boot mem, base, spaces⟩ := by
  induction boot generalizing mem with
  | nil => exact Relation.ReflTransGen.refl
  | cons e boot ih =>
    have hun := MemAct.unmap (m := ⟨mem, (e :: boot).map Prod.snd ++ base, spaces⟩) l4 [e.1]
    have hfree := @MemAct.giveBack ⟨mem.unmapUserPage l4 e.1,
      (e :: boot).map Prod.snd ++ base, spaces⟩ e.2 (boot.map Prod.snd ++ base) rfl
    exact ((ih _).head hfree).head hun

theorem giveBackAll_path (mem : Mem) (l base spaces : List Nat) :
    MemPath ⟨mem, l ++ base, spaces⟩
      ⟨{ mem with fa := mem.fa.giveBackAll l }, base, spaces⟩ := by
  induction l generalizing mem with
  | nil => exact Relation.ReflTransGen.refl
  | cons a l ih =>
    have hfree := @MemAct.giveBack ⟨mem, a :: l ++ base, spaces⟩ a (l ++ base) rfl
    exact (ih { mem with fa := mem.fa.giveBack a }).head hfree

/-- The destruction of an address space without a process. -/
theorem destroyAddressSpace_path (mem : Mem) (l4 : Nat) (frames rest : List Nat) :
    MemPath ⟨mem, frames, l4 :: rest⟩ ⟨mem.destroyAddressSpace l4, frames, rest⟩ := by
  have hclose := MemAct.closeSpace (m := ⟨mem, frames, l4 :: rest⟩) rfl
  have hfree := giveBackAll_path mem ((mem.spaces l4).userTables ++ [l4]) frames rest
  rw [List.append_assoc] at hfree
  exact hfree.head hclose

theorem createAddressSpace_path {mem mem' : Mem} {l4 : Nat}
    (h : mem.createAddressSpace = some (l4, mem')) (frames spaces : List Nat) :
    MemPath ⟨mem, frames, spaces⟩ ⟨mem', frames, l4 :: spaces⟩ := by
  unfold Mem.createAddressSpace at h
  split at h
  · rename_i a fa halloc
    simp only [Option.some.injEq, Prod.mk.injEq] at h
    obtain ⟨rfl, rfl⟩ := h
    have hact := MemAct.alloc (m := ⟨mem, frames, spaces⟩) halloc
    have hopen := @MemAct.openSpace ⟨⟨fa, mem.spaces⟩, a :: frames, spaces⟩ a frames rfl
    exact (Relation.ReflTransGen.single hopen).head hact
  · cases h

theorem MemPath.perm {mem : Mem} {l l' spaces : List Nat} (h : l'.Perm l) :
    MemPath ⟨mem, l, spaces⟩ ⟨mem, l', spaces⟩ :=
  Relation.ReflTransGen.single (MemAct.reorder (m := ⟨mem, l, spaces⟩) h)

/-- The loader on success: the boot frames are in motion. On a failure nothing is. -/
theorem loadAndMap_path (mem : Mem) (image : Option Image) (l4 : Nat)
    (frames spaces : List Nat) :
    MemPath ⟨mem, frames, spaces⟩ ⟨(loadAndMap mem image l4).2.1,
      (if (loadAndMap mem image l4).1.isSome then
        (loadAndMap mem image l4).2.2.map Prod.snd else []) ++ frames, spaces⟩ := by
  unfold loadAndMap
  cases image with
  | none => exact Relation.ReflTransGen.refl
  | some image =>
    have hload := loadPages_path l4 image.plan (plan_outside image) image.plan_low frames
      spaces mem []
    have hperm : MemPath ⟨(loadPages l4 image.plan mem []).2.1,
        ((loadPages l4 image.plan mem []).2.2.map Prod.snd).reverse ++ frames, spaces⟩
        ⟨(loadPages l4 image.plan mem []).2.1,
        (loadPages l4 image.plan mem []).2.2.map Prod.snd ++ frames, spaces⟩ :=
      MemPath.perm ((List.reverse_perm _).symm.append_right frames)
    have hpath : MemPath ⟨mem, frames, spaces⟩ _ := hload.trans hperm
    dsimp only
    split
    · exact hpath
    · exact hpath.trans (unloadPages_path l4 _ frames spaces _)

/-! ### User mappings -/

/-- The entries that `unmapAll` keeps. -/
theorem unmapAll_leaves (m : Mem) (l4 : Nat) (vas : List Nat) :
    ((m.unmapAll l4 vas).spaces l4).leaves
      = (m.spaces l4).leaves.filter fun e => e.1 ∉ vas.map (· / frameSize) := by
  induction vas generalizing m with
  | nil =>
    simp [Mem.unmapAll]
  | cons va vas ih =>
    have hstep : ((m.unmapUserPage l4 va).spaces l4).leaves
        = (m.spaces l4).leaves.filter fun e => e.1 != va / frameSize := by
      unfold Mem.unmapUserPage
      rw [Mem.setSpace_spaces_self]
      rfl
    have htail := ih (m.unmapUserPage l4 va)
    rw [hstep, List.filter_filter] at htail
    refine htail.trans (List.filter_congr fun e _ => ?_)
    by_cases he : e.1 = va / frameSize <;> simp [he]

/-- What mapping a list of pages does to an address space. On success every leaf entry was
there before or belongs to the list. On a failure no entry is added, and the pages of `mapped`
are gone. -/
theorem mapPages_spec (l4 : Nat) (pages : List (Nat × Nat × PageFlags)) (mapped : List Nat)
    (m : Mem) : ∃ fa' sp', Links m.fa (m.spaces l4).tables fa' sp'.tables ∧
      (mapPages l4 pages mapped m).2 = Mem.setSpace ⟨fa', m.spaces⟩ l4 sp' ∧
      ((mapPages l4 pages mapped m).1 = true → ∀ va l, sp'.leaf va = some l →
        (m.spaces l4).leaf va = some l ∨
          ∃ e ∈ pages, va / frameSize = e.1 / frameSize ∧ l.phys = e.2.1) ∧
      ((mapPages l4 pages mapped m).1 = false → sp'.leaves
        = (m.spaces l4).leaves.filter fun e => e.1 ∉ mapped.map (· / frameSize)) := by
  induction pages generalizing mapped m with
  | nil =>
    refine ⟨m.fa, m.spaces l4, .refl _ _, ?_, fun _ va l h => Or.inl h, fun h => (by cases h)⟩
    unfold mapPages Mem.setSpace
    rw [Function.update_eq_self]
  | cons e pages ih =>
    obtain ⟨va₀, phys, flags⟩ := e
    obtain ⟨fa', t', hlinks, hmem, hfresh⟩ := mapUserPage_spec m l4 va₀ phys flags
    unfold mapPages
    dsimp only
    cases hone : (m.mapUserPage l4 va₀ phys flags).1 with
    | true =>
      rw [hone, if_pos rfl] at hmem
      simp only [if_true]
      obtain ⟨fa'', sp', hlinks', hmem', htrue, hfalse⟩ :=
        ih (mapped ++ [va₀]) (m.mapUserPage l4 va₀ phys flags).2
      have hspace : (m.mapUserPage l4 va₀ phys flags).2.spaces l4
          = ⟨t', (va₀ / frameSize, ⟨phys, flags⟩) :: (m.spaces l4).leaves⟩ := by
        rw [hmem, Mem.setSpace_spaces_self]
      refine ⟨fa'', sp', ?_, ?_, ?_, ?_⟩
      · rw [hspace] at hlinks'
        refine hlinks.trans ?_
        rw [hmem] at hlinks'
        exact hlinks'
      · rw [hmem', hmem]
        unfold Mem.setSpace
        rw [Function.update_idem]
      · intro hok va l hl
        rcases htrue hok va l hl with hold | ⟨e, he, hpage, hphys⟩
        · rw [hspace] at hold
          have hleaf := AddressSpace.addLeaf_leaf (m.spaces l4) va₀ va ⟨phys, flags⟩
          rw [show (AddressSpace.leaf ⟨t', (va₀ / frameSize, ⟨phys, flags⟩) ::
            (m.spaces l4).leaves⟩ va) = _ from hleaf] at hold
          split at hold
          · rename_i hpage
            simp only [Option.some.injEq] at hold
            subst hold
            exact Or.inr ⟨(va₀, phys, flags), List.mem_cons_self, hpage, rfl⟩
          · exact Or.inl hold
        · exact Or.inr ⟨e, List.mem_cons_of_mem _ he, hpage, hphys⟩
      · intro hno
        have hnone := List.lookup_eq_none_iff.mp (hfresh hone)
        rw [hfalse hno, hspace, List.filter_cons_of_neg (by simp)]
        refine List.filter_congr fun e he => ?_
        have hne : e.1 ≠ va₀ / frameSize := fun heq => by
          simpa [heq] using hnone e he
        simp [hne]
    | false =>
      rw [hone] at hmem
      simp only [Bool.false_eq_true, if_false] at hmem ⊢
      have hun := Mem.unmapAll_unmaps (m.mapUserPage l4 va₀ phys flags).2 l4 mapped
      refine ⟨fa', ((m.mapUserPage l4 va₀ phys flags).2.unmapAll l4 mapped).spaces l4,
        ?_, ?_, fun h => (by cases h), fun _ => ?_⟩
      · rw [hun.tables, hmem, Mem.setSpace_spaces_self]
        exact hlinks
      · have hfa : ((m.mapUserPage l4 va₀ phys flags).2.unmapAll l4 mapped).fa = fa' := by
          rw [hun.fa, hmem, Mem.setSpace_fa]
        have hspaces : ((m.mapUserPage l4 va₀ phys flags).2.unmapAll l4 mapped).spaces
            = Function.update m.spaces l4
              (((m.mapUserPage l4 va₀ phys flags).2.unmapAll l4 mapped).spaces l4) := by
          funext l
          by_cases hl : l = l4
          · subst hl
            rw [Function.update_self]
          · rw [Function.update_of_ne hl, hun.other l hl, hmem,
              Mem.setSpace_spaces_of_ne _ _ hl]
        unfold Mem.setSpace
        rw [← hspaces, ← hfa]
      · rw [unmapAll_leaves, hmem, Mem.setSpace_spaces_self]

/-- The page tables that mapping a list of pages of the user half links. -/
theorem mapPages_newLow {l4 : Nat} {pages : List (Nat × Nat × PageFlags)}
    (hpages : ∀ e ∈ pages, e.1 < 2 ^ 39) (mapped : List Nat) (m : Mem) :
    NewLow (m.spaces l4).tables ((mapPages l4 pages mapped m).2.spaces l4).tables := by
  induction pages generalizing mapped m with
  | nil => exact .refl _
  | cons e pages ih =>
    obtain ⟨va, phys, flags⟩ := e
    obtain ⟨hva, hrest⟩ := List.forall_mem_cons.mp hpages
    have hone := mapUserPage_newLow hva m l4 phys flags
    unfold mapPages
    dsimp only
    split
    · exact hone.trans (ih hrest _ _)
    · rw [(Mem.unmapAll_unmaps _ l4 mapped).tables]
      exact hone

/-- A page that is mapped stays mapped while a list of pages is mapped with success. -/
theorem mapPages_keeps {l4 va : Nat} {l : Leaf} {pages : List (Nat × Nat × PageFlags)}
    {mapped : List Nat} {m : Mem} (hok : (mapPages l4 pages mapped m).1 = true)
    (h : (m.spaces l4).leaf va = some l) :
    ((mapPages l4 pages mapped m).2.spaces l4).leaf va = some l := by
  induction pages generalizing mapped m with
  | nil => exact h
  | cons e pages ih =>
    obtain ⟨va₀, phys, flags⟩ := e
    unfold mapPages at hok ⊢
    dsimp only at hok ⊢
    cases hone : (m.mapUserPage l4 va₀ phys flags).1 with
    | true =>
      rw [hone] at hok
      simp only [if_true] at hok ⊢
      refine ih hok ?_
      obtain ⟨fa', t', -, hmem, hfresh⟩ := mapUserPage_spec m l4 va₀ phys flags
      rw [hmem, Mem.setSpace_spaces_self, if_pos hone]
      refine (AddressSpace.addLeaf_leaf (m.spaces l4) va₀ va ⟨phys, flags⟩).trans ?_
      rw [if_neg, h]
      intro hpage
      have hnone := hfresh hone
      unfold AddressSpace.leaf at h hnone
      rw [hpage, hnone] at h
      cases h
    | false =>
      rw [hone] at hok
      cases hok

/-- The first page of a list that is mapped with success. -/
theorem mapPages_head {l4 va phys : Nat} {flags : PageFlags}
    {pages : List (Nat × Nat × PageFlags)} {mapped : List Nat} {m : Mem}
    (hok : (mapPages l4 ((va, phys, flags) :: pages) mapped m).1 = true) :
    ((mapPages l4 ((va, phys, flags) :: pages) mapped m).2.spaces l4).leaf va =
      some ⟨phys, flags⟩ := by
  unfold mapPages at hok ⊢
  dsimp only at hok ⊢
  cases hone : (m.mapUserPage l4 va phys flags).1 with
  | true =>
    rw [hone] at hok
    simp only [if_true] at hok ⊢
    refine mapPages_keeps hok ?_
    obtain ⟨fa', t', -, hmem, -⟩ := mapUserPage_spec m l4 va phys flags
    rw [hmem, Mem.setSpace_spaces_self, if_pos hone]
    refine (AddressSpace.addLeaf_leaf (m.spaces l4) va va ⟨phys, flags⟩).trans ?_
    rw [if_pos rfl]
  | false =>
    rw [hone] at hok
    cases hok

/-- Mapping a list of pages fails: only page tables were linked. -/
theorem mapPages_fail_path {l4 : Nat} {pages : List (Nat × Nat × PageFlags)} {m : Mem}
    (hlow : ∀ e ∈ pages, e.1 < 2 ^ 39) (h : (mapPages l4 pages [] m).1 = false)
    (frames spaces : List Nat) :
    MemPath ⟨m, frames, spaces⟩ ⟨(mapPages l4 pages [] m).2, frames, spaces⟩ := by
  obtain ⟨fa', sp', hlinks, hmem, -, hfalse⟩ := mapPages_spec l4 pages [] m
  have hleaves : sp'.leaves = (m.spaces l4).leaves := by
    rw [hfalse h]
    simp
  have hnew := @mapPages_newLow l4 pages hlow [] m
  rw [hmem, Mem.setSpace_spaces_self] at hnew
  have hpath := hlinks.path hnew (m := ⟨m, frames, spaces⟩) rfl rfl
  dsimp only at hpath
  rw [hmem]
  rw [← hleaves] at hpath
  exact hpath

end Plinth
