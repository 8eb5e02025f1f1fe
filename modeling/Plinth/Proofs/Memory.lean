import Plinth.Process

/-!
# `Plinth.Proofs.Memory`: what the mapping operations change

To unmap changes the leaf entries of one address space, and neither the allocator nor the page
tables. To map links page tables (`Linked`) and adds at most one leaf entry.
-/

set_option autoImplicit false

namespace Plinth

@[simp] theorem AddressSpace.unmap_tables (sp : AddressSpace) (va : Nat) :
    (sp.unmap va).tables = sp.tables := rfl

theorem lookup_filter_ne {β : Type} (l : List (Nat × β)) (a b : Nat) :
    (l.filter fun e => e.1 != a).lookup b = if b = a then none else l.lookup b := by
  induction l with
  | nil => simp
  | cons e l ih =>
    obtain ⟨x, y⟩ := e
    by_cases hx : x = a
    · subst hx
      have hdrop : ((x, y) :: l).filter (fun e => e.1 != x) = l.filter fun e => e.1 != x := by
        simp
      rw [hdrop, ih]
      by_cases hb : b = x
      · simp [hb]
      · rw [if_neg hb, if_neg hb, List.lookup_cons, beq_false_of_ne hb]
    · have hkeep : ((x, y) :: l).filter (fun e => e.1 != a)
          = (x, y) :: l.filter fun e => e.1 != a := by
        simp [hx]
      rw [hkeep, List.lookup_cons, List.lookup_cons, ih]
      by_cases hb : b = x
      · subst hb
        simp [hx]
      · rw [beq_false_of_ne hb]

/-- The leaf entry of a page after another page, or the same one, is unmapped. -/
theorem AddressSpace.unmap_leaf (sp : AddressSpace) (va va' : Nat) :
    (sp.unmap va).leaf va'
      = if va' / frameSize = va / frameSize then none else sp.leaf va' := by
  unfold AddressSpace.unmap AddressSpace.leaf
  exact lookup_filter_ne sp.leaves _ _

theorem AddressSpace.addLeaf_leaf (sp : AddressSpace) (va va' : Nat) (l : Leaf) :
    (sp.addLeaf va l).leaf va'
      = if va' / frameSize = va / frameSize then some l else sp.leaf va' := by
  unfold AddressSpace.addLeaf AddressSpace.leaf
  rw [List.lookup_cons]
  by_cases h : va' / frameSize = va / frameSize
  · simp [h]
  · rw [if_neg h, beq_false_of_ne h]

namespace Mem

@[simp] theorem setSpace_fa (m : Mem) (l4 : Nat) (sp : AddressSpace) :
    (m.setSpace l4 sp).fa = m.fa := rfl

@[simp] theorem setSpace_spaces_self (m : Mem) (l4 : Nat) (sp : AddressSpace) :
    (m.setSpace l4 sp).spaces l4 = sp := by
  simp [setSpace]

theorem setSpace_spaces_of_ne (m : Mem) {l4 l : Nat} (sp : AddressSpace) (h : l ≠ l4) :
    (m.setSpace l4 sp).spaces l = m.spaces l := by
  simp [setSpace, h]

theorem setSpace_setSpace (m : Mem) (l4 : Nat) (sp sp' : AddressSpace) :
    (m.setSpace l4 sp).setSpace l4 sp' = m.setSpace l4 sp' := by
  simp [setSpace]

/-- What unmapping a list of pages changes: the leaves of one space, and only those pages. -/
structure Unmaps (m : Mem) (l4 : Nat) (vas : List Nat) (m' : Mem) : Prop where
  fa : m'.fa = m.fa
  other : ∀ l, l ≠ l4 → m'.spaces l = m.spaces l
  tables : ∀ l, (m'.spaces l).tables = (m.spaces l).tables
  leaf : ∀ va, (m'.spaces l4).leaf va
    = if va / frameSize ∈ vas.map (· / frameSize) then none else (m.spaces l4).leaf va

theorem unmaps_nil (m : Mem) (l4 : Nat) : Unmaps m l4 [] m :=
  ⟨rfl, fun _ _ => rfl, fun _ => rfl, fun _ => by simp⟩

theorem unmapUserPage_tables (m : Mem) (l4 va l : Nat) :
    ((m.unmapUserPage l4 va).spaces l).tables = (m.spaces l).tables := by
  unfold unmapUserPage
  by_cases hl : l = l4
  · subst hl
    rw [setSpace_spaces_self]
    rfl
  · rw [setSpace_spaces_of_ne _ _ hl]

theorem unmapAll_unmaps (m : Mem) (l4 : Nat) (vas : List Nat) :
    Unmaps m l4 vas (m.unmapAll l4 vas) := by
  induction vas generalizing m with
  | nil => exact unmaps_nil m l4
  | cons va vas ih =>
    have hrest := ih (m.unmapUserPage l4 va)
    have hfold : m.unmapAll l4 (va :: vas) = (m.unmapUserPage l4 va).unmapAll l4 vas := rfl
    rw [hfold]
    refine ⟨hrest.fa, ?_, ?_, ?_⟩
    · intro l hl
      rw [hrest.other l hl]
      exact setSpace_spaces_of_ne _ _ hl
    · intro l
      rw [hrest.tables l, unmapUserPage_tables]
    · intro va'
      have hone : ((m.unmapUserPage l4 va).spaces l4).leaf va'
          = if va' / frameSize = va / frameSize then none else (m.spaces l4).leaf va' := by
        unfold unmapUserPage
        rw [setSpace_spaces_self]
        exact AddressSpace.unmap_leaf _ _ _
      rw [hrest.leaf va', hone]
      simp only [List.map_cons, List.mem_cons]
      by_cases h : va' / frameSize = va / frameSize
      · simp [h]
      · simp [h]

@[simp] theorem unmapAll_fa (m : Mem) (l4 : Nat) (vas : List Nat) :
    (m.unmapAll l4 vas).fa = m.fa := (unmapAll_unmaps m l4 vas).fa

/-- An unmapping that shrinks the leaves keeps no entry that was not there. -/
theorem Unmaps.leaf_some {m m' : Mem} {l4 : Nat} {vas : List Nat} (h : Unmaps m l4 vas m')
    {va : Nat} {l : Leaf} (hl : (m'.spaces l4).leaf va = some l) :
    (m.spaces l4).leaf va = some l ∧ va / frameSize ∉ vas.map (· / frameSize) := by
  rw [h.leaf va] at hl
  split at hl
  · cases hl
  · exact ⟨hl, by assumption⟩

end Mem

/-! ### Unmapping with the records of a process -/

/-- The addresses that go with the capability `cap` when it leaves `slot`. -/
def Process.vasFor (proc : Process) (cap : Capability) (slot : Nat) : List Nat :=
  match cap.object with
  | .frame _ => proc.mapsOf slot
  | .framebuffer .. => proc.fbOf slot
  | _ => []

theorem unmapForSlot_mem (m : Mem) (proc : Process) (cap : Capability) (slot : Nat) :
    (unmapForSlot m proc cap slot).2 = m.unmapAll proc.l4 (proc.vasFor cap slot) := by
  unfold unmapForSlot Process.vasFor
  cases cap.object <;> rfl

@[simp] theorem unmapForSlot_caps (m : Mem) (proc : Process) (cap : Capability) (slot : Nat) :
    (unmapForSlot m proc cap slot).1.caps = proc.caps := by
  unfold unmapForSlot
  split <;> rfl

@[simp] theorem unmapForSlot_l4 (m : Mem) (proc : Process) (cap : Capability) (slot : Nat) :
    (unmapForSlot m proc cap slot).1.l4 = proc.l4 := by
  unfold unmapForSlot
  split <;> rfl

@[simp] theorem unmapForSlot_fa (m : Mem) (proc : Process) (cap : Capability) (slot : Nat) :
    (unmapForSlot m proc cap slot).2.fa = m.fa := by
  rw [unmapForSlot_mem]
  exact Mem.unmapAll_fa _ _ _

end Plinth
