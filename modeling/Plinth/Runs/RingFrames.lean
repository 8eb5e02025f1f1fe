import Plinth.Ledger.RingFrames
import Plinth.Runs.Frames
import Plinth.Runs.Leaving
import Plinth.Runs.RingEffects

/-!
# `Plinth.Runs.RingFrames`: the frames of a ring belong to its owner

A ring keeps the addresses of two frames, and the kernel reads and writes there as long as the
ring is in use. `ring_register` checks that the caller holds both frames. After that nothing does:
`cap_release`, a transfer and an exit take a frame away and leave the ring in use.

`ring_frames_held` says that these are the only gaps. In every run in which no owner of a ring
loses a frame of it, and every process that exits holds the capabilities for its rings, the
kernel writes to frames that their owners hold. `releasedCqRun` is a run with such a release.
-/

set_option autoImplicit false

namespace Plinth

open Transition

/-! ### Rings over a whole entry -/

section

variable {g : Guard} {v v' v'' : Ledger} {id : RingId}

theorem SameRing.refl (huse : (v.rings id).inUse = true) : SameRing v v id :=
  ⟨huse, rfl, rfl, rfl, rfl⟩

theorem SameRing.trans (h : SameRing v v' id) (h' : SameRing v' v'' id) : SameRing v v'' id :=
  ⟨h.inUse, h'.owner.trans h.owner, h'.sqPhys.trans h.sqPhys, h'.cqPhys.trans h.cqPhys,
    h'.mask.trans h.mask⟩

/-- A ring in use after a path was in use before it, or the path registered it. -/
theorem Path.ring_before (path : Path g v v') (huse : (v'.rings id).inUse = true) :
    SameRing v v' id ∨ g.register (v'.rings id).owner id := by
  induction path with
  | refl => exact Or.inl (.refl huse)
  | tail path act ih =>
    rcases act.ring_next huse with hsame | hnew
    · rcases ih hsame.inUse with hbefore | hreg
      · exact Or.inl (hbefore.trans hsame)
      · rw [hsame.owner]
        exact Or.inr hreg
    · exact Or.inr hnew.guard

/-- Every ring in use has at most `maxEntries` entries. -/
def Ledger.RingsSized (v : Ledger) : Prop :=
  ∀ id, (v.rings id).inUse = true → (v.rings id).mask.toNat < maxEntries

theorem Act.ringsSized (act : Act g v v') (h : v.RingsSized) : v'.RingsSized := by
  intro id huse
  rcases act.ring_next huse with hsame | hnew
  · rw [hsame.mask]
    exact h id hsame.inUse
  · exact hnew.mask

end

/-- The capability names a frame of a ring in use that the process in slot `p` owns. -/
def Ledger.PinsRingFrame (v : Ledger) (p : ProcSlot) (cap : Capability) : Prop :=
  ∃ id, (v.rings id).inUse = true ∧ (v.rings id).owner = p ∧
    (cap.object = .frame (v.rings id).sqPhys ∨ cap.object = .frame (v.rings id).cqPhys)

instance (v : Ledger) (p : ProcSlot) (cap : Capability) : Decidable (v.PinsRingFrame p cap) :=
  inferInstanceAs (Decidable (∃ id, (v.rings id).inUse = true ∧ (v.rings id).owner = p ∧
    (cap.object = .frame (v.rings id).sqPhys ∨ cap.object = .frame (v.rings id).cqPhys)))

/-- The process holds the capabilities for the rings in use that slot `p` owns. -/
def Ledger.TakesRings (v : Ledger) (p : ProcSlot) (proc : Process) : Prop :=
  ∀ id, (v.rings id).inUse = true → (v.rings id).owner = p → proc.Names (.ring id)

/-- The process holds a capability for `o`. -/
def Process.names (proc : Process) (o : CapObject) : Bool :=
  decide (∃ k, (proc.caps.slots k).map Capability.object = some o)

theorem Process.names_iff {proc : Process} {o : CapObject} :
    proc.names o = true ↔ proc.Names o := by
  unfold names Names
  rw [decide_eq_true_iff]
  constructor
  · rintro ⟨k, hk⟩
    obtain ⟨cap, hcap, hobj⟩ := Option.map_eq_some_iff.mp hk
    exact ⟨k, cap, hcap, hobj⟩
  · rintro ⟨k, cap, hk, hobj⟩
    exact ⟨k, by rw [hk, Option.map_some, hobj]⟩

namespace Kernel

variable {s t : Kernel} {ℓ : Label} {p : ProcSlot} {id : RingId}

/-- The entry takes a frame of a ring in use from the owner of the ring. -/
def losesRingFrame (s : Kernel) (ℓ : Label) : Bool :=
  (s.parted ℓ).any fun x => decide (s.ledger.PinsRingFrame x.1 x.2)

/-- A process exits that owns a ring in use and holds no capability for it. -/
def leavesRing (s : Kernel) (ℓ : Label) : Bool :=
  (s.leaver ℓ).any fun p => (s.procs.proc p).any fun proc => decide (∃ id,
    (s.rings.rings id).inUse = true ∧ (s.rings.rings id).owner = p ∧ proc.names (.ring id) = false)

/-- The guard of the runs in which the owners of rings keep their frames. -/
def keepsRingFrames (s : Kernel) (ℓ : Label) : Prop :=
  s.losesRingFrame ℓ = false ∧ s.leavesRing ℓ = false

instance : ∀ s ℓ, Decidable (keepsRingFrames s ℓ) := fun s ℓ =>
  inferInstanceAs (Decidable (s.losesRingFrame ℓ = false ∧ s.leavesRing ℓ = false))

theorem losesRingFrame_false (h : s.losesRingFrame ℓ = false) {cap : Capability}
    (hpart : s.parted ℓ = some (p, cap)) : ¬ s.ledger.PinsRingFrame p cap := by
  unfold losesRingFrame at h
  rw [hpart] at h
  simpa using h

theorem leavesRing_false (h : s.leavesRing ℓ = false) {proc : Process}
    (hleaver : s.leaver ℓ = some p) (hp : s.procs.proc p = some proc) :
    s.ledger.TakesRings p proc := by
  intro id huse howner
  unfold leavesRing at h
  rw [hleaver] at h
  simp only [Option.any_some, hp, decide_eq_false_iff_not, not_exists, not_and] at h
  have hnamed := h id huse howner
  rw [Bool.not_eq_false] at hnamed
  exact Process.names_iff.mp hnamed

/-- The actions of the runs in which a process exits with the capabilities for its rings. -/
def ringOwnerGuard : Guard := keepGuard (fun _ _ _ => False) Ledger.TakesRings

/-- The actions of the runs in which the owners of rings keep their frames too. -/
def ringFrameGuard : Guard := keepGuard Ledger.PinsRingFrame Ledger.TakesRings

theorem ringOwnerGuard_takesRings (v : Ledger) : ringOwnerGuard.TakesRings v :=
  fun _ proc id hleave hp huse howner => hleave proc hp id huse howner

theorem ringFrameGuard_takesRings (v : Ledger) : ringFrameGuard.TakesRings v :=
  fun _ proc id hleave hp huse howner => hleave proc hp id huse howner

theorem ringFrameGuard_keeps (v : Ledger) : ringFrameGuard.KeepsRingFrames v := by
  intro id huse
  constructor
  · exact keepGuard_retentive fun cap hobj => ⟨id, huse, rfl, Or.inl hobj⟩
  · exact keepGuard_retentive fun cap hobj => ⟨id, huse, rfl, Or.inr hobj⟩

/-- A process that is reclaimed takes its rings along, if the entry does. The rollback of a launch
reclaims processes of an empty table, and there no ring is in use. -/
theorem takesRings_of_reclaims (hleave : s.leavesRing ℓ = false)
    (hidle : s.tableEmpty = true → ∀ id, (s.rings.rings id).inUse = false) {v : Ledger}
    {proc : Process} (hrec : s.Reclaims ℓ v p) (hp : v.proc p = some proc) :
    v.TakesRings p proc := by
  rcases reclaims_cases hrec with ⟨rfl, hleaver⟩ | ⟨hempty, hrings, -⟩
  · exact leavesRing_false hleave hleaver hp
  · intro id huse
    rw [hrings, hidle hempty id] at huse
    cases huse

/-- No process is alive when the table is empty. -/
theorem Good.dead_of_empty (hgood : s.Good) (h : s.tableEmpty = true) (p : ProcSlot) :
    s.procs.proc p = none := by
  have hslot := List.all_eq_true.mp h p (List.mem_finRange p)
  rw [beq_iff_eq] at hslot
  exact hgood.rep.procs.placed.proc_of_empty hslot

theorem permits_ringOwner (hgood : s.Good) (hI : s.ledger.RingsOwned)
    (hok : s.leavesRing ℓ = false) : s.Permits ringOwnerGuard ℓ := by
  refine permits_keep (fun _ _ _ _ h => h) (fun _ _ _ h => h) fun v p proc hrec hp => ?_
  refine takesRings_of_reclaims hok (fun hempty id => ?_) hrec hp
  by_contra huse
  rw [Bool.not_eq_false] at huse
  rcases hI id huse with ⟨cap, hmem, -⟩ | ⟨x, hx⟩
  · cases hmem
  · have hx' : s.procs.proc (s.rings.rings id).owner = some x := hx
    rw [hgood.dead_of_empty hempty] at hx'
    cases hx'

theorem permits_ringFrame (hgood : s.Good) (hI : s.ledger.RingsFramed)
    (hok : keepsRingFrames s ℓ) : s.Permits ringFrameGuard ℓ := by
  refine permits_keep (fun v p cap hlike hpin => ?_)
    (fun p cap hpart => losesRingFrame_false hok.1 hpart) fun v p proc hrec hp => ?_
  · unfold Ledger.PinsRingFrame at hpin ⊢
    rwa [hlike.rings] at hpin
  · refine takesRings_of_reclaims hok.2 (fun hempty id => ?_) hrec hp
    by_contra huse
    rw [Bool.not_eq_false] at huse
    rcases hI id huse with ⟨cap, hmem, -⟩ | ⟨hsq, -⟩
    · cases hmem
    · obtain ⟨x, hx⟩ := hsq.alive hgood.base.sound
      have hx' : s.procs.proc (s.rings.rings id).owner = some x := hx
      rw [hgood.dead_of_empty hempty] at hx'
      cases hx'

/-! ### The frames of a ring -/

theorem ringsFramed_of_reachable (hs : Reachable system keepsRingFrames s) :
    s.ledger.RingsFramed := by
  refine invariant (g := ringFrameGuard) ?_ (fun _ _ h => h) ?_ ?_ hs
  · intro s hinit id huse
    rw [show (s.ledger.rings id).inUse = false from (hinit.rings id).1] at huse
    cases huse
  · intro v v' act _ h
    exact act.ringsFramed (ringFrameGuard_keeps v) (ringFrameGuard_takesRings v) h
  · intro s ℓ hgood hI hok
    exact permits_ringFrame hgood hI hok

theorem ringsSized_of_reachable {ok : Kernel → Label → Prop} (hs : Reachable system ok s) :
    s.rings.Sized := by
  refine invariant (g := Guard.any) (I := Ledger.RingsSized) ?_ (fun _ _ h => h)
    (fun v v' act _ h => act.ringsSized h) (fun s ℓ _ _ _ => s.permits_any ℓ) hs
  intro s hinit id huse
  rw [show (s.ledger.rings id).inUse = false from (hinit.rings id).1] at huse
  cases huse

/-- The frames of the rings belong to their owners, and the kernel writes to such frames only. -/
structure RingFramesHeld (s : Kernel) : Prop where
  /-- The owner of a ring in use holds the capabilities for its two frames. -/
  held : ∀ id, (s.rings.rings id).inUse = true →
    s.ledger.Holds (s.rings.rings id).owner (.frame (s.rings.rings id).sqPhys) ∧
      s.ledger.Holds (s.rings.rings id).owner (.frame (s.rings.rings id).cqPhys)
  /-- A byte that an entry writes is in a frame of a ring in use, and the owner of the ring holds
  the frame. The other writes are the headers that `ring_register` writes for its caller. -/
  writes : ∀ ℓ t, s.step ℓ = some t → (∀ ram, ℓ ≠ .memory ram) → ∀ a, t.ram a ≠ s.ram a →
    ∃ p b, s.ledger.Holds p (.frame b) ∧ b ≤ a ∧ a < b + frameSize ∧
      ((∃ id, (s.rings.rings id).inUse = true ∧ (s.rings.rings id).owner = p ∧
        (b = (s.rings.rings id).sqPhys ∨ b = (s.rings.rings id).cqPhys)) ∨
        ∃ core sqSlot cqSlot entries, ℓ = .ringRegister core sqSlot cqSlot entries ∧
          s.procs.currentSlot core = p)

/-- In every run in which no owner of a ring loses a frame of it, and every process that exits
holds the capabilities for its rings, the frames of the rings belong to their owners. -/
theorem ring_frames_held (hs : Reachable system keepsRingFrames s) : s.RingFramesHeld := by
  have hgood := good_of_reachable hs
  have hframed := ringsFramed_of_reachable hs
  have hheld : ∀ id, (s.rings.rings id).inUse = true →
      s.ledger.Holds (s.rings.rings id).owner (.frame (s.rings.rings id).sqPhys) ∧
        s.ledger.Holds (s.rings.rings id).owner (.frame (s.rings.rings id).cqPhys) := by
    intro id huse
    rcases hframed id huse with ⟨cap, hmem, -⟩ | ⟨hsq, hcq⟩
    · cases hmem
    · exact ⟨hsq.holds rfl, hcq.holds rfl⟩
  refine ⟨hheld, fun ℓ t hnext hmemory a hne => ?_⟩
  rcases step_rings hnext with hdrop | hwork | ⟨core, sqSlot, cqSlot, entries, hℓ, hreg⟩ |
    ⟨ram, hℓ, -⟩
  · rw [hdrop.ram] at hne
    exact absurd rfl hne
  · obtain ⟨id, huse, hcov | hcov⟩ := hwork.writes (ringsSized_of_reachable hs) a hne
    · exact ⟨_, _, (hheld id huse).1, hcov.1, hcov.2, Or.inl ⟨id, huse, rfl, Or.inl rfl⟩⟩
    · exact ⟨_, _, (hheld id huse).2, hcov.1, hcov.2, Or.inl ⟨id, huse, rfl, Or.inr rfl⟩⟩
  · obtain ⟨proc, b, hc, ⟨k, cap, hk, hobj⟩, hle, hlt⟩ := hreg.writes a hne
    exact ⟨_, b, .of_slot (hgood.proc_of_current hc) hk hobj, hle, hlt,
      Or.inr ⟨core, sqSlot, cqSlot, entries, hℓ, rfl⟩⟩
  · exact absurd hℓ (hmemory ram)

/-- A process registers a ring and releases it again. -/
def ringRun : List Label :=
  [.run 0 [some smallImage] [], .frameAlloc 0, .frameAlloc 0, .ringRegister 0 1 2 4]

/-- A process registers a ring and releases the frame of its CQ. -/
def releasedCqRun : List Label := ringRun ++ [.capRelease 0 2]

theorem ring_frames_held_ringRun : (smallMachine.runFrom ringRun).RingFramesHeld ∧
    ((smallMachine.runFrom ringRun).rings.rings 0).inUse = true := by
  refine ⟨ring_frames_held (reachable_small_of ?_), ?_⟩ <;> decide +kernel

/-- After the release the ring is in use, and its CQ frame is free. -/
theorem releasedCqRun_frees : ∃ s, Reachable system always s ∧
    (s.rings.rings 0).inUse = true ∧ s.frameCaps (s.rings.rings 0).cqPhys = 0 ∧
    s.mem.fa.marked (s.rings.rings 0).cqPhys = 0 :=
  ⟨_, reachable_small releasedCqRun, by decide +kernel⟩

end Kernel

end Plinth
