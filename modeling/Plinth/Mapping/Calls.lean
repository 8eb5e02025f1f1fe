import Plinth.Binding.InfoPointer
import Plinth.Display.Bands
import Plinth.Spawning.Load

/-!
# `Plinth.Mapping.Calls`: what the mapping calls change

`frame_map`, `fb_map` and `bind_device` check their arguments, map the pages of an object from a
user-chosen address on, and take the pages back if one of them cannot be mapped. `request` is what a
call asks to be mapped, and `run_request` is the one fact about the three calls that the rest uses.

A page is mapped by a walk that takes frames for the missing page tables and clears them.
`tableWrites` lists the frames that the page-table code writes.
-/

set_option autoImplicit false

namespace Plinth

/-! ### A list of pages -/

/-- A list of pages concerns one address space. -/
theorem mapPages_other {l4 l : Nat} (pages : List (Nat × Nat × PageFlags)) (mapped : List Nat)
    (m : Mem) (h : l ≠ l4) : (mapPages l4 pages mapped m).2.spaces l = m.spaces l := by
  obtain ⟨fa', sp', -, hmem, -⟩ := mapPages_spec l4 pages mapped m
  rw [hmem, Mem.setSpace_spaces_of_ne _ _ h]

/-- A list of pages that cannot be mapped leaves every translation as it was. -/
theorem mapPages_failed {l4 : Nat} {pages : List (Nat × Nat × PageFlags)} {m : Mem}
    (h : (mapPages l4 pages [] m).1 = false) (l va : Nat) :
    ((mapPages l4 pages [] m).2.spaces l).leaf va = (m.spaces l).leaf va := by
  by_cases hl : l = l4
  · subst hl
    obtain ⟨fa', sp', -, hmem, -, hfalse⟩ := mapPages_spec l pages [] m
    rw [hmem, Mem.setSpace_spaces_self]
    unfold AddressSpace.leaf
    rw [hfalse h]
    simp
  · rw [mapPages_other pages [] m hl]

/-- A list of pages that is mapped changes no other page. -/
theorem mapPages_outside {l4 va : Nat} {pages : List (Nat × Nat × PageFlags)} {m : Mem}
    (hok : (mapPages l4 pages [] m).1 = true)
    (h : ∀ e ∈ pages, va / frameSize ≠ e.1 / frameSize) :
    ((mapPages l4 pages [] m).2.spaces l4).leaf va = (m.spaces l4).leaf va := by
  cases hold : (m.spaces l4).leaf va with
  | some l => exact mapPages_keeps hok hold
  | none =>
    obtain ⟨fa', sp', -, hmem, htrue, -⟩ := mapPages_spec l4 pages [] m
    rw [hmem, Mem.setSpace_spaces_self]
    cases hnew : sp'.leaf va with
    | none => rfl
    | some l =>
      rcases htrue hok va l hnew with hwas | ⟨e, he, hpage, -⟩
      · rw [hold] at hwas
        cases hwas
      · exact absurd hpage (h e he)

/-! ### The frames that the page-table code writes -/

/-- The frames that a walk writes, from the table at `prev` on, and the last table that it reaches.
A missing table is taken from the allocator and cleared, and its parent gets an entry. -/
def linkWrites : List TableKey → FrameAlloc → List (TableKey × Nat) → Nat → List Nat × Nat
  | [], _, _, prev => ([], prev)
  | key :: keys, fa, tables, prev =>
    match tables.lookup key with
    | some table => linkWrites keys fa tables table
    | none =>
      match fa.alloc with
      | .error _ => ([], prev)
      | .ok (frame, fa') =>
        let r := linkWrites keys fa' (tables ++ [(key, frame)]) frame
        (frame :: prev :: r.1, r.2)

/-- The frames that `map_user_page` writes: those of the walk, and on success the last table, which
gets the entry of the page. -/
def Mem.mapWrites (m : Mem) (l4 va phys : Nat) (flags : PageFlags) : List Nat :=
  let r := linkWrites (tableKeys va) m.fa (m.spaces l4).tables l4
  r.1 ++ if (m.mapUserPage l4 va phys flags).1 then [r.2] else []

/-- The table with the entry of the page of `va`. -/
def AddressSpace.leafTable (sp : AddressSpace) (va : Nat) : Option Nat :=
  sp.tables.lookup (1, va / 2 ^ 21)

/-- The frames that the page-table code writes for a list of pages. On a failure the entries of the
pages in `mapped` are cleared. -/
def mapPagesWrites (l4 : Nat) : List (Nat × Nat × PageFlags) → List Nat → Mem → List Nat
  | [], _, _ => []
  | (va, phys, flags) :: rest, mapped, m =>
    let r := m.mapUserPage l4 va phys flags
    m.mapWrites l4 va phys flags ++
      if r.1 then mapPagesWrites l4 rest (mapped ++ [va]) r.2
      else mapped.filterMap (r.2.spaces l4).leafTable

/-- A frame of an address space is its level-4 table or a table of the user half. -/
theorem mem_spaceFrames {m : Mem} {l4 a : Nat} :
    a ∈ m.spaceFrames l4 ↔
      a = l4 ∨ ∃ key, (key, a) ∈ (m.spaces l4).tables ∧ underUserHalf key = true := by
  unfold Mem.spaceFrames AddressSpace.userTables
  rw [List.mem_append, List.mem_singleton, List.mem_map, or_comm]
  simp only [List.mem_filter, Prod.exists, exists_eq_right]

theorem Links.subset {fa fa' : FrameAlloc} {t t' : List (TableKey × Nat)} (h : Links fa t fa' t') :
    ∀ e ∈ t, e ∈ t' := by
  induction h with
  | refl => exact fun _ he => he
  | step _ _ ih => exact fun e he => ih e (List.mem_append_left _ he)

/-- What holds of the tables of a walk afterwards holds of the frames that it writes. -/
theorem linkWrites_all {P : Nat → Prop} (keys : List TableKey) (fa : FrameAlloc)
    (tables : List (TableKey × Nat)) (prev : Nat) (hprev : P prev)
    (htables : ∀ e ∈ (linkTables keys fa tables).2.2, e.1 ∈ keys → P e.2) :
    P (linkWrites keys fa tables prev).2 ∧ ∀ a ∈ (linkWrites keys fa tables prev).1, P a := by
  induction keys generalizing fa tables prev with
  | nil => exact ⟨hprev, fun a ha => absurd ha List.not_mem_nil⟩
  | cons key keys ih =>
    unfold linkWrites
    unfold linkTables at htables
    cases hlookup : tables.lookup key with
    | some table =>
      rw [hlookup] at htables
      dsimp only at htables ⊢
      have hold : (key, table) ∈ tables := by
        obtain ⟨l, r, heq, -⟩ := List.lookup_eq_some_iff.mp hlookup
        simp [heq]
      have hthere := (linkTables_links keys fa tables).subset _ hold
      exact ih fa tables table (htables _ hthere List.mem_cons_self)
        fun e he hkey => htables e he (List.mem_cons_of_mem _ hkey)
    | none =>
      rw [hlookup] at htables
      dsimp only at htables ⊢
      cases halloc : fa.alloc with
      | error e => exact ⟨hprev, fun a ha => absurd ha List.not_mem_nil⟩
      | ok r =>
        obtain ⟨frame, fa'⟩ := r
        rw [halloc] at htables
        dsimp only at htables ⊢
        have hthere := (linkTables_links keys fa' (tables ++ [(key, frame)])).subset (key, frame)
          (List.mem_append_right _ (List.mem_singleton_self _))
        have hframe := htables _ hthere List.mem_cons_self
        obtain ⟨hlast, hrest⟩ := ih fa' (tables ++ [(key, frame)]) frame hframe
          fun e he hkey => htables e he (List.mem_cons_of_mem _ hkey)
        refine ⟨hlast, fun a ha => ?_⟩
        rcases List.mem_cons.mp ha with rfl | ha
        · exact hframe
        · rcases List.mem_cons.mp ha with rfl | ha
          · exact hprev
          · exact hrest a ha

theorem mapUserPage_tables (m : Mem) (l4 va phys : Nat) (flags : PageFlags) :
    ((m.mapUserPage l4 va phys flags).2.spaces l4).tables =
      (linkTables (tableKeys va) m.fa (m.spaces l4).tables).2.2 := by
  unfold Mem.mapUserPage
  dsimp only
  split
  · split
    · rw [Mem.setSpace_spaces_self]
    · rw [Mem.setSpace_spaces_self]
      rfl
  · rw [Mem.setSpace_spaces_self]

/-- The tables of an address space stay while pages are mapped. -/
theorem mapPages_grows {l4 a : Nat} (pages : List (Nat × Nat × PageFlags)) (mapped : List Nat)
    (m : Mem) (h : a ∈ m.spaceFrames l4) :
    a ∈ (mapPages l4 pages mapped m).2.spaceFrames l4 := by
  obtain ⟨fa', sp', hlinks, hmem, -⟩ := mapPages_spec l4 pages mapped m
  rw [mem_spaceFrames] at h ⊢
  rcases h with rfl | ⟨key, hkey, huser⟩
  · exact Or.inl rfl
  · refine Or.inr ⟨key, ?_, huser⟩
    rw [hmem, Mem.setSpace_spaces_self]
    exact hlinks.subset _ hkey

/-- The page-table code writes tables of the address space. -/
theorem mapPagesWrites_mem {l4 a : Nat} (pages : List (Nat × Nat × PageFlags))
    (hlow : ∀ e ∈ pages, e.1 < 2 ^ 39) (mapped : List Nat) (hmapped : ∀ va ∈ mapped, va < 2 ^ 39)
    (m : Mem) (h : a ∈ mapPagesWrites l4 pages mapped m) :
    a ∈ (mapPages l4 pages mapped m).2.spaceFrames l4 := by
  induction pages generalizing mapped m with
  | nil => cases h
  | cons e pages ih =>
    obtain ⟨va, phys, flags⟩ := e
    have hva : va < 2 ^ 39 := hlow _ List.mem_cons_self
    have hone : ∀ a ∈ m.mapWrites l4 va phys flags,
        a ∈ (m.mapUserPage l4 va phys flags).2.spaceFrames l4 := by
      have hwalk := linkWrites_all
        (P := fun a => a ∈ (m.mapUserPage l4 va phys flags).2.spaceFrames l4)
        (tableKeys va) m.fa (m.spaces l4).tables l4 (mem_spaceFrames.mpr (Or.inl rfl))
        (fun e he hkey => mem_spaceFrames.mpr (Or.inr ⟨e.1, by
          rw [mapUserPage_tables]
          exact he, underUserHalf_of_low hva e.1 hkey⟩))
      intro b hb
      unfold Mem.mapWrites at hb
      rcases List.mem_append.mp hb with hb | hb
      · exact hwalk.2 b hb
      · split at hb
        · rw [List.mem_singleton.mp hb]
          exact hwalk.1
        · cases hb
    unfold mapPagesWrites at h
    unfold mapPages
    dsimp only at h ⊢
    by_cases hok : (m.mapUserPage l4 va phys flags).1 = true
    · rw [if_pos hok] at h ⊢
      rcases List.mem_append.mp h with h | h
      · exact mapPages_grows pages _ _ (hone a h)
      · refine ih (fun e he => hlow e (List.mem_cons_of_mem _ he)) _ (fun b hb => ?_) _ h
        rcases List.mem_append.mp hb with hb | hb
        · exact hmapped b hb
        · rw [List.mem_singleton.mp hb]
          exact hva
    · rw [if_neg hok] at h ⊢
      have htables := (Mem.unmapAll_unmaps (m.mapUserPage l4 va phys flags).2 l4 mapped).tables l4
      rw [spaceFrames_of_tables htables]
      rcases List.mem_append.mp h with h | h
      · exact hone a h
      · -- The rollback clears entries in tables that are there.
        obtain ⟨b, hb, htable⟩ := List.mem_filterMap.mp h
        unfold AddressSpace.leafTable at htable
        obtain ⟨l, r, heq, -⟩ := List.lookup_eq_some_iff.mp htable
        refine mem_spaceFrames.mpr (Or.inr ⟨(1, b / 2 ^ 21), by simp [heq], ?_⟩)
        exact underUserHalf_of_low (hmapped b hb) _ (by simp [tableKeys])

end Plinth
