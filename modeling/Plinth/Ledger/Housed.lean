import Plinth.Ledger.Keys
import Plinth.Ledger.Frames

/-!
# `Plinth.Ledger.Housed`: what a process lives in

A process lives in an address space and in the pages that were loaded for it. Both are fixed at its
set-up. Every page table of the address space is one of the user half, since every walk that links a
table is for an address of the user half. The record of the boot frames lists the pages of the
image and of the stack.

`Housed` says so for every live process, and for the address spaces on the way to a process. Every
action keeps it. `destroy_address_space` frees the tables of the user half only, so this is why it
frees all of them.
-/

set_option autoImplicit false

namespace Plinth

variable {g : Guard} {v v' : Ledger} {P Q : ProcSlot → Option Process} {p q : ProcSlot}
  {x y : Process}

/-- Every page table of the address space is one of the user half. -/
def Mem.UserHalf (m : Mem) (l4 : Nat) : Prop :=
  ∀ e ∈ (m.spaces l4).tables, underUserHalf e.1 = true

/-- The address spaces hold tables of the user half only, and the boot record of a process lists the
pages of an image and the stack. -/
structure Ledger.Housed (v : Ledger) : Prop where
  live : ∀ p x, v.proc p = some x → v.mem.UserHalf x.l4
  spaces : ∀ l4 ∈ v.spaces, v.mem.UserHalf l4
  image : ∀ p x, v.proc p = some x →
    ∃ image : Image, (v.boot p).map Prod.fst = image.plan.map Prod.fst

/-! ### Tables of the user half -/

theorem Mem.UserHalf.of_tables {m n : Mem} {l4 : Nat} (h : m.UserHalf l4)
    (htables : (n.spaces l4).tables = (m.spaces l4).tables) : n.UserHalf l4 := by
  unfold Mem.UserHalf
  rw [htables]
  exact h

/-- The tables of the user half are all tables. -/
theorem Mem.UserHalf.userTables {m : Mem} {l4 : Nat} (h : m.UserHalf l4) :
    (m.spaces l4).userTables = (m.spaces l4).tables.map Prod.snd := by
  unfold AddressSpace.userTables
  rw [List.filter_eq_self.mpr h]

theorem Mem.setSpace_tables (m : Mem) (l4 : Nat) {sp : AddressSpace}
    (h : sp.tables = (m.spaces l4).tables) (l : Nat) :
    ((m.setSpace l4 sp).spaces l).tables = (m.spaces l).tables := by
  by_cases heq : l = l4
  · subst heq
    rw [Mem.setSpace_spaces_self, h]
  · rw [Mem.setSpace_spaces_of_ne _ _ heq]

/-- A memory action links tables of the user half only. -/
theorem MemAct.userHalf {m m' : Store} (act : MemAct m m') {l4 : Nat} (h : m.mem.UserHalf l4) :
    m'.mem.UserHalf l4 := by
  cases act with
  | @link a l fa key halloc hlow =>
    intro e he
    by_cases heq : l4 = l
    · subst heq
      rw [Mem.setSpace_spaces_self] at he
      rcases List.mem_append.mp he with hold | hnew
      · exact h e hold
      · rw [List.mem_singleton.mp hnew]
        exact hlow
    · rw [Mem.setSpace_spaces_of_ne _ _ heq] at he
      exact h e he
  | @openSpace l rest hframes =>
    intro e he
    by_cases heq : l4 = l
    · -- The new address space has no tables.
      subst heq
      rw [Mem.setSpace_spaces_self] at he
      cases he
    · rw [Mem.setSpace_spaces_of_ne _ _ heq] at he
      exact h e he
  | unmap l vas => exact h.of_tables ((Mem.unmapAll_unmaps _ _ _).tables _)
  | @load l va leaf hout =>
    have hsame : ((m.mem.spaces l).addLeaf va leaf).tables = (m.mem.spaces l).tables := rfl
    exact h.of_tables (Mem.setSpace_tables _ _ hsame _)
  | _ => exact h

/-- An address space on the way was there before, or it is a new one without tables. -/
theorem MemAct.spaces_mem {m m' : Store} (act : MemAct m m') {l4 : Nat} (h : l4 ∈ m'.spaces) :
    l4 ∈ m.spaces ∨ m'.mem.UserHalf l4 := by
  cases act with
  | @openSpace l rest hframes =>
    rcases List.mem_cons.mp h with rfl | hold
    · right
      intro e he
      rw [Mem.setSpace_spaces_self] at he
      cases he
    · exact Or.inl hold
  | closeSpace hspaces =>
    left
    rw [hspaces]
    exact List.mem_cons_of_mem _ h
  | _ => exact Or.inl h

/-! ### The processes of an action -/

/-- Every process of `Q` is one of `P` with the same address space. -/
def Housekeeps (P Q : ProcSlot → Option Process) : Prop :=
  ∀ p y, Q p = some y → ∃ x, P p = some x ∧ y.l4 = x.l4

theorem Housekeeps.refl (P : ProcSlot → Option Process) : Housekeeps P P :=
  fun _ y hy => ⟨y, hy, rfl⟩

/-- A rewrite of a process that keeps its address space. -/
theorem Housekeeps.put (hq : P q = some x) (hl4 : y.l4 = x.l4) :
    Housekeeps P (Function.update P q (some y)) := by
  intro p z hz
  by_cases heq : p = q
  · subst heq
    rw [Function.update_self, Option.some.injEq] at hz
    subst hz
    exact ⟨x, hq, hl4⟩
  · rw [Function.update_of_ne heq] at hz
    exact ⟨z, hz, rfl⟩

theorem TableAct.housekeeps {give : ProcSlot → CapSlot → Fate → Prop}
    {take : ProcSlot → CapSlot → Prop} {strand : Capability → Prop} {h h' : Holdings}
    (act : TableAct give take strand h h') : Housekeeps h.proc h'.proc := by
  cases act with
  | charge hq hk hobj hnone => exact .put hq rfl
  | give hq hk hnone hdying hfirst hg => exact .put hq (giveAway_l4 _ _ _ _)
  | land htr hpq hq hin => exact .put hq rfl
  | child htr hpq hq hlender hin => exact .put hq rfl
  | back htr hq hin => exact .put hq rfl
  | undo htr hq hin hown hfree => exact .put hq rfl
  | take hq hk hkind hnone hdying hfirst hg => exact .put hq (by simp)
  | home hheld hor hkind hq hnone hin => exact .put hq rfl
  | unmapFb k hq => exact .put hq rfl
  | @clearOrigins d hdying hd hnone =>
    intro p y hy
    obtain ⟨x, hx, rfl⟩ := Option.map_eq_some_iff.mp hy
    exact ⟨x, hx, rfl⟩
  | _ => exact .refl _

namespace Ledger

/-- Nobody moves, and nobody moves in. -/
theorem Housed.stay (h : v.Housed) (hproc : Housekeeps v.proc v'.proc)
    (htables : ∀ l4, (v'.mem.spaces l4).tables = (v.mem.spaces l4).tables)
    (hspaces : v'.spaces = v.spaces) (hboot : v'.boot = v.boot) : v'.Housed where
  live := fun p y hy => by
    obtain ⟨x, hx, hl4⟩ := hproc p y hy
    rw [hl4]
    exact (h.live p x hx).of_tables (htables _)
  spaces := fun l4 hl4 => by
    rw [hspaces] at hl4
    exact (h.spaces l4 hl4).of_tables (htables _)
  image := fun p y hy => by
    obtain ⟨x, hx, -⟩ := hproc p y hy
    rw [hboot]
    exact h.image p x hx

end Ledger

/-- An action keeps what the processes live in. -/
theorem Act.housed (act : Act g v v') (h : v.Housed) : v'.Housed := by
  have hput : ∀ {q : ProcSlot} {x y : Process}, v.proc q = some x → y.l4 = x.l4 →
      Housekeeps v.proc (Function.update v.proc q (some y)) := fun hq hl4 => .put hq hl4
  cases act with
  | table act => exact h.stay act.housekeeps act.store.2.1 rfl rfl
  | @mem m act =>
    refine ⟨fun p x hx => act.userHalf (h.live p x hx), fun l4 hl4 => ?_, h.image⟩
    rcases act.spaces_mem hl4 with hold | hnew
    · exact act.userHalf (h.spaces l4 hold)
    · exact hnew
  | grant hq hok hg hgiver hbound hin => exact h.stay (hput hq rfl) (fun _ => rfl) rfl rfl
  | mintFrame hq hframes hnone hin => exact h.stay (hput hq rfl) (fun _ => rfl) rfl rfl
  | mintRing hq hfree huse howner hwait hnone hsq hcq hmask hin hg =>
    exact h.stay (hput hq rfl) (fun _ => rfl) rfl rfl
  | mapFrame hq hk hobj hrec =>
    exact h.stay (hput hq rfl) (Mem.setSpace_tables _ _ rfl) rfl rfl
  | mapFb hq hk hobj hslot hrec htables hleaves =>
    exact h.stay (hput hq rfl) (Mem.setSpace_tables _ _ htables) rfl rfl
  | mapBound hq hk hobj hdev htables hleaves =>
    exact h.stay (.refl _) (Mem.setSpace_tables _ _ htables) rfl rfl
  | takeEndpoint hq hk hobj hstate hnone hfirst hg hn =>
    exact h.stay (hput hq rfl) (fun _ => rfl) rfl rfl
  | takeBound hq hk hobj hstate hnone hfirst hg =>
    exact h.stay (hput hq rfl) (fun _ => rfl) rfl rfl
  | parkCall hstate hpq hq hnone hin hg => exact h.stay (hput hq rfl) (fun _ => rfl) rfl rfl
  | receiveCall hqueue hside hcall hq hnone hin hg =>
    exact h.stay (hput hq rfl) (fun _ => rfl) rfl rfl
  | @leave q x hq hstate hheld hdying htransit hcalm hg =>
    -- The address space of the process joins those on the way.
    have hne : ∀ {p y}, Function.update v.proc q none p = some y → p ≠ q ∧ v.proc p = some y := by
      intro p y hy
      by_cases heq : p = q
      · subst heq
        rw [Function.update_self] at hy
        cases hy
      · rw [Function.update_of_ne heq] at hy
        exact ⟨heq, hy⟩
    refine ⟨fun p y hy => h.live p y (hne hy).2, fun l4 hl4 => ?_, fun p y hy => ?_⟩
    · rcases List.mem_cons.mp hl4 with rfl | hold
      · exact h.live q x hq
      · exact h.spaces l4 hold
    · obtain ⟨hpq, hy⟩ := hne hy
      dsimp only
      rw [Function.update_of_ne hpq]
      exact h.image p y hy
  | @enter q x boot rest spaces k budget rights hq hstate hcaps hspaces hframes hdying hwindow
      himage =>
    -- The process takes an address space that is on the way, and its boot record is that of the
    -- loader.
    refine ⟨fun p y hy => ?_, fun l4 hl4 => h.spaces l4 ?_, fun p y hy => ?_⟩
    · dsimp only at hy
      by_cases heq : p = q
      · subst heq
        rw [Function.update_self, Option.some.injEq] at hy
        rw [← hy]
        exact h.spaces _ (by rw [hspaces]; exact List.mem_cons_self)
      · rw [Function.update_of_ne heq] at hy
        exact h.live p y hy
    · rw [hspaces]
      exact List.mem_cons_of_mem _ hl4
    · by_cases heq : p = q
      · subst heq
        dsimp only
        rw [Function.update_self]
        exact himage
      · dsimp only at hy ⊢
        rw [Function.update_of_ne heq] at hy ⊢
        exact h.image p y hy
  | _ => exact h.stay (.refl _) (fun _ => rfl) rfl rfl

end Plinth
