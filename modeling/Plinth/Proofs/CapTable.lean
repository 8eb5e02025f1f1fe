import Plinth.Capability
import Plinth.Common.Tally

/-!
# `Plinth.Proofs.CapTable`: what the operations of a capability table do

Every operation that puts a capability into a table puts it into one slot that was empty, and
clears the reservation of that slot (`Places`). Every operation that takes one out empties one
slot. So a tally over the table changes by the weight of the capability that moved.

A *steady* weight does not look at the origin of a capability, and gives CPU budgets no
weight. Steady tallies do not change when a capability is lent, returned or charged.
-/

set_option autoImplicit false

namespace Plinth

/-- A weight that ignores origins and CPU budgets. -/
structure Steady (w : Capability → Nat) : Prop where
  origin : ∀ cap o, w { cap with origin := o } = w cap
  cpuTime : ∀ cap budget, cap.object = .cpuTime budget → w cap = 0

namespace Steady

variable {w : Capability → Nat}

theorem lentTo (hw : Steady w) (cap : Capability) (source : Origin) (dest : ProcSlot) :
    w (cap.lentTo source dest) = w cap := by
  unfold Capability.lentTo
  split
  · split
    · exact hw.origin cap none
    · rfl
  · exact hw.origin cap _

theorem clearLender (hw : Steady w) (p : ProcSlot) (cap : Capability) :
    w (CapTable.clearLender p cap) = w cap := by
  unfold CapTable.clearLender
  split
  · exact hw.origin cap none
  · rfl

end Steady

/-- `lentTo` changes the origin only. -/
@[simp] theorem Capability.lentTo_object (cap : Capability) (source : Origin)
    (dest : ProcSlot) : (cap.lentTo source dest).object = cap.object := by
  unfold Capability.lentTo
  split
  · split <;> rfl
  · rfl

@[simp] theorem Capability.lentTo_rights (cap : Capability) (source : Origin)
    (dest : ProcSlot) : (cap.lentTo source dest).rights = cap.rights := by
  unfold Capability.lentTo
  split
  · split <;> rfl
  · rfl

@[simp] theorem CapTable.clearLender_object (p : ProcSlot) (cap : Capability) :
    (CapTable.clearLender p cap).object = cap.object := by
  unfold CapTable.clearLender
  split <;> rfl

@[simp] theorem CapTable.clearLender_rights (p : ProcSlot) (cap : Capability) :
    (CapTable.clearLender p cap).rights = cap.rights := by
  unfold CapTable.clearLender
  split <;> rfl

theorem Origin.new_fin (p : ProcSlot) (k : CapSlot) : Origin.new p k = ⟨p, k⟩ := by
  unfold Origin.new
  rw [Fin.ofNat_eq_cast, Fin.cast_val_eq_self]

theorem capSlot?_eq_some {slot : Nat} {k : CapSlot} : capSlot? slot = some k ↔ slot = k := by
  unfold capSlot?
  constructor
  · intro h
    split at h
    · simp only [Option.some.injEq] at h
      rw [← h]
    · cases h
  · rintro rfl
    rw [dif_pos k.isLt]

@[simp] theorem capSlot?_val (k : CapSlot) : capSlot? k = some k := capSlot?_eq_some.mpr rfl

namespace CapTable

@[simp] theorem set_slots (t : CapTable) (k : CapSlot) (c : Option Capability) :
    (t.set k c).slots = Function.update t.slots k c := rfl

@[simp] theorem set_reserved (t : CapTable) (k : CapSlot) (c : Option Capability) :
    (t.set k c).reserved = t.reserved := rfl

@[simp] theorem mark_slots (t : CapTable) (k : CapSlot) (b : Bool) :
    (t.mark k b).slots = t.slots := rfl

@[simp] theorem mark_reserved (t : CapTable) (k : CapSlot) (b : Bool) :
    (t.mark k b).reserved = Function.update t.reserved k b := rfl

@[simp] theorem clearOrigin_slots (t : CapTable) (p : ProcSlot) (k : CapSlot) :
    (t.clearOrigin p).slots k = (t.slots k).map (clearLender p) := rfl

@[simp] theorem clearOrigin_reserved (t : CapTable) (p : ProcSlot) :
    (t.clearOrigin p).reserved = t.reserved := rfl

/-- The mark that a slot has already changes nothing. -/
theorem mark_self {t : CapTable} {k : CapSlot} {b : Bool} (h : t.reserved k = b) :
    t.mark k b = t := by
  unfold mark
  rw [← h, Function.update_eq_self]

/-! ### Putting a capability in -/

/-- `t'` is `t` with `cap` in the empty slot `k`, and without the reservation of `k`. -/
structure Places (t : CapTable) (cap : Capability) (k : CapSlot) (t' : CapTable) : Prop where
  empty : t.slots k = none
  slots : t'.slots = Function.update t.slots k (some cap)
  reserved : t'.reserved = Function.update t.reserved k false

theorem Places.slot_self {t t' : CapTable} {cap : Capability} {k : CapSlot}
    (h : Places t cap k t') : t'.slots k = some cap := by
  rw [h.slots, Function.update_self]

theorem Places.slot_of_ne {t t' : CapTable} {cap : Capability} {k j : CapSlot}
    (h : Places t cap k t') (hj : j ≠ k) : t'.slots j = t.slots j := by
  rw [h.slots, Function.update_of_ne hj]

theorem Places.reserved_of_ne {t t' : CapTable} {cap : Capability} {k j : CapSlot}
    (h : Places t cap k t') (hj : j ≠ k) : t'.reserved j = t.reserved j := by
  rw [h.reserved, Function.update_of_ne hj]

theorem Places.reserved_self {t t' : CapTable} {cap : Capability} {k : CapSlot}
    (h : Places t cap k t') : t'.reserved k = false := by
  rw [h.reserved, Function.update_self]

/-- A capability that was there stays where it was. -/
theorem Places.keeps {t t' : CapTable} {cap c : Capability} {k j : CapSlot}
    (h : Places t cap k t') (hj : t.slots j = some c) : t'.slots j = some c := by
  by_cases heq : j = k
  · subst heq
    rw [h.empty] at hj
    cases hj
  · rw [h.slot_of_ne heq, hj]

/-- A capability of the new table is the placed one or was there before. -/
theorem Places.slot_cases {t t' : CapTable} {cap c : Capability} {k j : CapSlot}
    (h : Places t cap k t') (hj : t'.slots j = some c) :
    (j = k ∧ c = cap) ∨ (j ≠ k ∧ t.slots j = some c) := by
  by_cases heq : j = k
  · subst heq
    rw [h.slot_self] at hj
    exact Or.inl ⟨rfl, (Option.some.inj hj).symm⟩
  · rw [h.slot_of_ne heq] at hj
    exact Or.inr ⟨heq, hj⟩

theorem Places.tally {t t' : CapTable} {cap : Capability} {k : CapSlot}
    (w : Capability → Nat) (h : Places t cap k t') :
    Tally.tally w t'.slots = Tally.tally w t.slots + w cap := by
  rw [h.slots]
  exact Tally.tally_insert w cap h.empty

theorem firstFree_some {t : CapTable} {k : CapSlot} (h : t.firstFree = some k) :
    t.slots k = none ∧ t.reserved k = false := by
  have hfree := List.find?_some h
  simpa [isFree] using hfree

/-- No slot is free: each is occupied or reserved. -/
theorem firstFree_none {t : CapTable} (h : t.firstFree = none) (k : CapSlot) :
    t.slots k ≠ none ∨ t.reserved k = true := by
  have hall := List.find?_eq_none.mp h k (List.mem_finRange k)
  unfold isFree at hall
  cases hk : t.slots k with
  | none =>
    rw [hk] at hall
    right
    simpa using hall
  | some c =>
    left
    simp

theorem firstFree_isSome {t : CapTable} {k : CapSlot} (hk : t.slots k = none)
    (hr : t.reserved k = false) : ∃ j, t.firstFree = some j := by
  cases h : t.firstFree with
  | some j => exact ⟨j, rfl⟩
  | none =>
    rcases firstFree_none h k with h' | h'
    · exact absurd hk h'
    · rw [hr] at h'
      cases h'

theorem places_of_firstFree {t : CapTable} {c : Capability} {k : CapSlot}
    (h : t.firstFree = some k) : Places t c k (t.set k (some c)) := by
  obtain ⟨hempty, hres⟩ := firstFree_some h
  refine ⟨hempty, rfl, ?_⟩
  rw [set_reserved, ← hres, Function.update_eq_self]

/-- A table that takes a capability has a free slot. -/
theorem room_of_install {t t' : CapTable} {cap : Capability} {k : CapSlot}
    (h : t.install cap = .ok (k, t')) : t.firstFree.isSome = true := by
  unfold install at h
  split at h
  · rename_i j hj
    rw [hj]
    rfl
  · cases h

theorem install_ok {t t' : CapTable} {cap : Capability} {k : CapSlot}
    (h : t.install cap = .ok (k, t')) : Places t cap k t' ∧ t.reserved k = false := by
  unfold install at h
  split at h
  · rename_i j hj
    simp only [Except.ok.injEq, Prod.mk.injEq] at h
    obtain ⟨rfl, rfl⟩ := h
    exact ⟨places_of_firstFree hj, (firstFree_some hj).2⟩
  · cases h

theorem install_error {t : CapTable} {cap : Capability} {e : CapError}
    (h : t.install cap = .error e) : t.firstFree = none := by
  unfold install at h
  split at h
  · cases h
  · assumption

theorem reclaim_some {t t' : CapTable} {cap : Capability} {k : CapSlot}
    (h : t.reclaim cap = some (k, t')) : Places t cap k t' ∧ t.reserved k = false := by
  unfold reclaim at h
  cases hi : t.install cap with
  | ok r =>
    rw [hi] at h
    simp only [Except.toOption, Option.some.injEq] at h
    subst h
    exact install_ok hi
  | error e =>
    rw [hi] at h
    cases h

theorem reclaim_eq (t : CapTable) (cap : Capability) :
    t.reclaim cap = t.firstFree.map fun k => (k, t.set k (some cap)) := by
  unfold reclaim install
  cases t.firstFree <;> rfl

theorem reclaim_none {t : CapTable} {cap : Capability} (h : t.reclaim cap = none) :
    t.firstFree = none := by
  unfold reclaim at h
  cases hi : t.install cap with
  | ok r =>
    rw [hi] at h
    cases h
  | error e => exact install_error hi

theorem reclaimTo_some {t t' : CapTable} {cap : Capability} {slot : Nat} {k : CapSlot}
    (h : t.reclaimTo slot cap = some (k, t')) :
    Places t cap k t' ∧ t.reserved k = true ∧ slot = k := by
  unfold reclaimTo at h
  split at h
  · rename_i j hj
    split at h
    · cases h
    · rename_i hno
      simp only [Option.some.injEq, Prod.mk.injEq] at h
      obtain ⟨rfl, rfl⟩ := h
      push Not at hno
      exact ⟨⟨by simpa using hno.2, rfl, rfl⟩, by simpa using hno.1, capSlot?_eq_some.mp hj⟩
  · cases h

/-- A slot that is reserved and empty takes the capability that comes home to it. -/
theorem reclaimTo_of_reserved {t : CapTable} {k : CapSlot} (cap : Capability)
    (hres : t.reserved k = true) (hempty : t.slots k = none) :
    t.reclaimTo k cap = some (k, (t.set k (some cap)).mark k false) := by
  unfold reclaimTo
  rw [capSlot?_val]
  simp [hres, hempty]

theorem reclaimTo_of_unreserved {t : CapTable} {k : CapSlot} (cap : Capability)
    (hres : t.reserved k = false) : t.reclaimTo k cap = none := by
  unfold reclaimTo
  rw [capSlot?_val]
  simp [hres]

/-- The placement of a capability that comes home: into the slot it left if that slot is
reserved, else into the first free slot. -/
def goHome (t : CapTable) (home : CapSlot) (cap : Capability) : Option (CapSlot × CapTable) :=
  match t.reclaimTo home cap with
  | some r => some r
  | none => t.reclaim cap

theorem goHome_some {t t' : CapTable} {cap : Capability} {home k : CapSlot}
    (h : t.goHome home cap = some (k, t')) :
    Places t cap k t' ∧ (t.reserved k = true → k = home) := by
  unfold goHome at h
  split at h
  · rename_i r hr
    simp only [Option.some.injEq] at h
    subst h
    obtain ⟨hp, -, hk⟩ := reclaimTo_some hr
    exact ⟨hp, fun _ => (Fin.ext hk).symm⟩
  · obtain ⟨hp, hres⟩ := reclaim_some h
    refine ⟨hp, fun h' => ?_⟩
    rw [hres] at h'
    cases h'

/-- A capability whose home slot is reserved and empty lands there. -/
theorem goHome_reserved {t t' : CapTable} {cap : Capability} {home k : CapSlot}
    (hres : t.reserved home = true) (hempty : t.slots home = none)
    (h : t.goHome home cap = some (k, t')) : k = home := by
  unfold goHome at h
  rw [reclaimTo_of_reserved _ hres hempty] at h
  simp only [Option.some.injEq, Prod.mk.injEq] at h
  exact h.1.symm

theorem installHome_eq (t : CapTable) (cap : Capability) (prior : Option Origin)
    (dest : ProcSlot) :
    t.installHome cap prior dest = t.reclaim cap ∨
      ∃ o, prior = some o ∧ o.lender = dest ∧
        t.installHome cap prior dest = t.goHome o.home cap := by
  unfold installHome
  cases prior with
  | none => exact Or.inl rfl
  | some o =>
    dsimp only
    by_cases ho : o.lender = dest
    · right
      refine ⟨o, rfl, ho, ?_⟩
      rw [if_pos ho]
      rfl
    · left
      rw [if_neg ho]

theorem installHome_some {t t' : CapTable} {cap : Capability} {prior : Option Origin}
    {dest : ProcSlot} {k : CapSlot} (h : t.installHome cap prior dest = some (k, t')) :
    Places t cap k t' ∧ (t.reserved k = true → prior = some ⟨dest, k⟩) := by
  rcases installHome_eq t cap prior dest with heq | ⟨o, rfl, rfl, heq⟩
  · rw [heq] at h
    obtain ⟨hp, hres⟩ := reclaim_some h
    refine ⟨hp, fun h' => ?_⟩
    rw [hres] at h'
    cases h'
  · rw [heq] at h
    obtain ⟨hp, hhome⟩ := goHome_some h
    refine ⟨hp, fun h' => ?_⟩
    rw [hhome h']
    rfl

theorem installHome_reserved {t t' : CapTable} {cap : Capability} {dest : ProcSlot}
    {j k : CapSlot} (hres : t.reserved j = true) (hempty : t.slots j = none)
    (h : t.installHome cap (some ⟨dest, j⟩) dest = some (k, t')) : k = j := by
  unfold installHome at h
  simp only [Origin.lender, ↓reduceIte] at h
  exact goHome_reserved hres hempty h

/-! ### Taking a capability out -/

theorem revoke_ok {t t' : CapTable} {slot : Nat} {cap : Capability}
    (h : t.revoke slot = .ok (cap, t')) :
    ∃ k : CapSlot, slot = k ∧ t.slots k = some cap ∧ t' = t.set k none := by
  unfold revoke at h
  split at h
  · cases h
  · rename_i k hk
    split at h
    · cases h
    · rename_i c hc
      simp only [Except.ok.injEq, Prod.mk.injEq] at h
      obtain ⟨rfl, rfl⟩ := h
      exact ⟨k, capSlot?_eq_some.mp hk, hc, rfl⟩

theorem revoke_of_slot {t : CapTable} {k : CapSlot} {cap : Capability}
    (h : t.slots k = some cap) : t.revoke k = .ok (cap, t.set k none) := by
  unfold revoke
  rw [capSlot?_val]
  simp only [h]

/-- Every capability covers no rights. -/
theorem lookup_any {t : CapTable} {k : CapSlot} {cap : Capability} (h : t.slots k = some cap) :
    t.lookup k 0 = .ok cap := by
  have hcovers : cap.rights.covers 0 = true := by simp [Rights.covers]
  unfold lookup
  rw [capSlot?_val]
  simp only [h, hcovers, if_true]

theorem peek_of_slot (t : CapTable) (k : CapSlot) : t.peek k = t.slots k := by
  unfold peek
  rw [capSlot?_val]
  rfl

theorem lookup_ok {t : CapTable} {slot : Nat} {required : Rights} {cap : Capability}
    (h : t.lookup slot required = .ok cap) :
    ∃ k : CapSlot, slot = k ∧ t.slots k = some cap ∧ cap.rights.covers required = true := by
  unfold lookup at h
  split at h
  · cases h
  · rename_i k hk
    split at h
    · cases h
    · rename_i c hc
      split at h
      · rename_i hcov
        simp only [Except.ok.injEq] at h
        subst h
        exact ⟨k, capSlot?_eq_some.mp hk, hc, hcov⟩
      · cases h

/-- A charge replaces a CPU budget by a CPU budget. -/
theorem charge_ok {t t' : CapTable} {slot amount remaining : Nat} {required : Rights}
    (h : t.charge slot amount required = .ok (remaining, t')) :
    ∃ (k : CapSlot) (cap : Capability) (budget : Nat), t.slots k = some cap ∧
      cap.object = .cpuTime budget ∧
      t' = t.set k (some { cap with object := .cpuTime remaining }) := by
  unfold charge at h
  split at h
  · cases h
  · rename_i k hk
    split at h
    · cases h
    · rename_i cap hcap
      split at h
      · split at h
        · rename_i budget hobj
          split at h
          · simp only [Except.ok.injEq, Prod.mk.injEq] at h
            obtain ⟨rfl, rfl⟩ := h
            exact ⟨k, cap, budget, hcap, hobj, rfl⟩
          · cases h
        · cases h
      · cases h

theorem tally_charge {t : CapTable} {k : CapSlot} {cap : Capability} {budget budget' : Nat}
    {w : Capability → Nat} (hw : Steady w) (hk : t.slots k = some cap)
    (hobj : cap.object = .cpuTime budget) :
    Tally.tally w (t.set k (some { cap with object := .cpuTime budget' })).slots
      = Tally.tally w t.slots := by
  refine Tally.tally_update_same w ?_
  rw [hk, Tally.entry_some, Tally.entry_some, hw.cpuTime _ budget' rfl, hw.cpuTime cap _ hobj]

theorem tally_clearOrigin {w : Capability → Nat} (hw : Steady w) (t : CapTable)
    (p : ProcSlot) : Tally.tally w (t.clearOrigin p).slots = Tally.tally w t.slots := by
  refine Tally.tally_congr fun k => ?_
  rw [clearOrigin_slots]
  cases t.slots k with
  | none => rfl
  | some cap => exact hw.clearLender p cap

/-- The listed capabilities are the ones of the slots. -/
theorem mem_iter {t : CapTable} {cap : Capability} :
    cap ∈ t.iter ↔ ∃ k, t.slots k = some cap := by
  unfold iter
  rw [List.mem_filterMap]
  exact ⟨fun ⟨k, _, h⟩ => ⟨k, h⟩, fun ⟨k, h⟩ => ⟨k, List.mem_finRange k, h⟩⟩

theorem iter_sum (w : Capability → Nat) (t : CapTable) :
    (t.iter.map w).sum = Tally.tally w t.slots :=
  (Tally.tally_eq_sum_filterMap w t.slots).symm

end CapTable

end Plinth
