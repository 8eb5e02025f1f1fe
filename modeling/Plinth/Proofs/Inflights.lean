import Mathlib.Data.List.Nodup
import Plinth.VirtioBlk

/-!
# `Plinth.Proofs.Inflights`: the pool of request slots

`Inflights.WF` is the invariant of the pool: every slot is either free or live, and none is both.
`submit` hands out a free slot, and `complete` takes a live slot back and leaves a slot that is not
live alone. So the pool conserves its slots (`Inflights.WF.count`).
-/

set_option autoImplicit false

namespace Plinth

namespace Inflights

variable {inf inf' : Inflights} {target : Completion} {head slot : Nat}

/-- Every slot of the pool is free or live, and none is both. -/
structure WF (inf : Inflights) : Prop where
  nodup : inf.free.Nodup
  free : ∀ slot ∈ inf.free, slot < inf.slots ∧ inf.routing slot = none
  live : ∀ slot, inf.routing slot ≠ none → slot < inf.slots
  all : ∀ slot < inf.slots, inf.routing slot = none → slot ∈ inf.free
  size : inf.slots ≤ maxSlots

/-- A fresh pool has free slots only. -/
theorem new_wf (n : Nat) : (new n).WF where
  nodup := List.nodup_reverse.mpr List.nodup_range
  free := fun _ hmem => ⟨List.mem_range.mp (List.mem_reverse.mp hmem), rfl⟩
  live := fun _ h => absurd rfl h
  all := fun _ hlt _ => List.mem_reverse.mpr (List.mem_range.mpr hlt)
  size := Nat.min_le_right ..

/-! ### What a submission does -/

/-- A submission claims a slot that is free, and records the target there. -/
theorem submit_some (h : inf.submit target = some (head, inf')) :
    ∃ slot, inf.free = slot :: inf'.free ∧ head = slot * descPerReq ∧
      inf'.routing = Function.update inf.routing slot (some target) ∧ inf'.slots = inf.slots := by
  unfold submit at h
  split at h
  · cases h
  · rename_i slot free hfree
    cases h
    exact ⟨slot, hfree, rfl, rfl, rfl⟩

theorem submit_wf (hwf : inf.WF) (h : inf.submit target = some (head, inf')) : inf'.WF := by
  obtain ⟨slot, hfree, -, hroute, hslots⟩ := submit_some h
  have hnodup := hwf.nodup
  rw [hfree, List.nodup_cons] at hnodup
  have hclaimed := hwf.free slot (by rw [hfree]; exact List.mem_cons_self)
  refine ⟨hnodup.2, fun j hj => ?_, fun j hj => ?_, fun j hlt hnone => ?_, ?_⟩
  · have hne : j ≠ slot := by
      rintro rfl
      exact hnodup.1 hj
    rw [hroute, Function.update_of_ne hne, hslots]
    exact hwf.free j (by rw [hfree]; exact List.mem_cons_of_mem _ hj)
  · rw [hslots]
    rw [hroute] at hj
    by_cases hne : j = slot
    · rw [hne]
      exact hclaimed.1
    · rw [Function.update_of_ne hne] at hj
      exact hwf.live j hj
  · rw [hroute] at hnone
    rw [hslots] at hlt
    have hne : j ≠ slot := by
      rintro rfl
      rw [Function.update_self] at hnone
      cases hnone
    rw [Function.update_of_ne hne] at hnone
    have hmem := hwf.all j hlt hnone
    rw [hfree] at hmem
    exact (List.mem_cons.mp hmem).resolve_left hne
  · rw [hslots]
    exact hwf.size

/-! ### What a completion does -/

/-- A completion takes a live slot, and it becomes free. -/
theorem complete_some (h : inf.complete head = some (target, inf')) :
    ∃ slot, head = slot * descPerReq ∧ slot < inf.slots ∧ inf.routing slot = some target ∧
      inf'.routing = Function.update inf.routing slot none ∧ inf'.free = slot :: inf.free ∧
      inf'.slots = inf.slots := by
  unfold complete slotOf at h
  split at h
  · cases h
  · rename_i slot hslot
    split at hslot
    · cases hslot
    · rename_i hmod
      rw [not_not] at hmod
      split at hslot
      · rename_i hlt
        rw [Option.some.injEq] at hslot
        subst hslot
        split at h
        · cases h
        · rename_i found hfound
          cases h
          exact ⟨head / descPerReq, (Nat.div_mul_cancel (Nat.dvd_of_mod_eq_zero hmod)).symm, hlt,
            hfound, rfl, rfl, rfl⟩
      · cases hslot

theorem complete_wf (hwf : inf.WF) (h : inf.complete head = some (target, inf')) : inf'.WF := by
  obtain ⟨slot, -, hlt, hlive, hroute, hfree, hslots⟩ := complete_some h
  refine ⟨?_, fun j hj => ?_, fun j hj => ?_, fun j hj hnone => ?_, ?_⟩
  · rw [hfree, List.nodup_cons]
    refine ⟨fun hmem => ?_, hwf.nodup⟩
    rw [(hwf.free slot hmem).2] at hlive
    cases hlive
  · rw [hfree] at hj
    rw [hroute, hslots]
    by_cases hne : j = slot
    · rw [hne, Function.update_self]
      exact ⟨hlt, rfl⟩
    · rw [Function.update_of_ne hne]
      exact hwf.free j ((List.mem_cons.mp hj).resolve_left hne)
  · rw [hroute] at hj
    rw [hslots]
    have hne : j ≠ slot := by
      rintro rfl
      rw [Function.update_self] at hj
      exact hj rfl
    rw [Function.update_of_ne hne] at hj
    exact hwf.live j hj
  · rw [hroute] at hnone
    rw [hslots] at hj
    rw [hfree]
    by_cases hne : j = slot
    · rw [hne]
      exact List.mem_cons_self
    · rw [Function.update_of_ne hne] at hnone
      exact List.mem_cons_of_mem _ (hwf.all j hj hnone)
  · rw [hslots]
    exact hwf.size

/-! ### The count of the slots -/

/-- The live slots. -/
def liveSlots (inf : Inflights) : List Nat :=
  (List.range inf.slots).filter fun slot => (inf.routing slot).isSome

theorem mem_liveSlots (hwf : inf.WF) : slot ∈ inf.liveSlots ↔ inf.routing slot ≠ none := by
  unfold liveSlots
  rw [List.mem_filter, List.mem_range, Option.isSome_iff_ne_none]
  exact ⟨fun h => h.2, fun h => ⟨hwf.live slot h, h⟩⟩

/-- The live and the free slots together are the pool. -/
theorem WF.count (hwf : inf.WF) : inf.liveSlots.length + inf.free.length = inf.slots := by
  have hnodup : (inf.liveSlots ++ inf.free).Nodup := by
    refine List.Nodup.append (List.nodup_range.filter _) hwf.nodup ?_
    intro slot hlive hfree
    exact (mem_liveSlots hwf).mp hlive (hwf.free slot hfree).2
  have hperm : (inf.liveSlots ++ inf.free).Perm (List.range inf.slots) := by
    refine (List.perm_ext_iff_of_nodup hnodup List.nodup_range).mpr fun slot => ?_
    rw [List.mem_append, mem_liveSlots hwf, List.mem_range]
    constructor
    · rintro (hlive | hfree)
      · exact hwf.live slot hlive
      · exact (hwf.free slot hfree).1
    · intro hlt
      by_cases hnone : inf.routing slot = none
      · exact Or.inr (hwf.all slot hlt hnone)
      · exact Or.inl hnone
  have hlen := hperm.length_eq
  rw [List.length_append, List.length_range] at hlen
  exact hlen

end Inflights

/-! ### The drain of a used ring -/

theorem drainOne_wf {inf : Inflights} (hwf : inf.WF) (elem : Nat × UInt8) :
    (Devices.drainOne inf elem).2.WF := by
  unfold Devices.drainOne
  dsimp only
  split
  · rename_i target inf' hcomplete
    exact Inflights.complete_wf hwf hcomplete
  · exact hwf

theorem drainCompletions_wf {inf : Inflights} (hwf : inf.WF) (used : List (Nat × UInt8))
    (out : List (Completion × Nat)) : (Devices.drainCompletions used inf out).2.WF := by
  induction used generalizing inf out with
  | nil => exact hwf
  | cons elem used ih => exact ih (drainOne_wf hwf elem) _

end Plinth
