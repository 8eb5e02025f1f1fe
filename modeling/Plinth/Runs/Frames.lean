import Plinth.Runs.Boot

/-!
# `Plinth.Runs.Frames`: frame exclusivity

In every state of a run, a physical frame belongs to at most one owner: a Frame capability, a
page table, an image or stack page, or a device. An owned frame is allocated, and no frame is
given back to the allocator twice.

`Ledger.Owned` says so for the ledger, and every action keeps it. This module reads it off for
the kernel state.
-/

set_option autoImplicit false

namespace Plinth

open Transition

namespace Kernel

variable {s : Kernel}

/-- The number of live capabilities that name the frame at `a`. -/
def frameCaps (s : Kernel) (a : Nat) : Nat := liveTotal (objWeight (.frame a)) s.procs.proc

/-- Frames have at most one owner, and an owned frame is allocated. -/
structure FramesExclusive (s : Kernel) : Prop where
  /-- At most one live capability names a frame. -/
  once : ∀ a, s.frameCaps a ≤ 1
  /-- A frame that a live capability names is allocated. -/
  marked : ∀ a, 0 < s.frameCaps a → s.mem.fa.marked a = 1
  /-- It is no page table of a process. -/
  noTable : ∀ a p proc, 0 < s.frameCaps a → s.procs.proc p = some proc →
    a ∉ s.mem.spaceFrames proc.l4
  /-- It is no image or stack page of a process. -/
  noBoot : ∀ a p, 0 < s.frameCaps a → a ∉ ((s.procs.table p).bootFrames).map Prod.snd
  /-- It is no frame of a device. -/
  noDevice : ∀ a, 0 < s.frameCaps a → a ∉ s.devs.allFrames
  /-- No frame was given back when it was free. -/
  refused : s.mem.fa.refused = []

/-- The ledger of a reachable state owns its frames. -/
theorem owned_of_reachable (hs : Reachable system always s) : s.ledger.Owned :=
  invariant (g := Guard.any) (fun _ h => h.ledger_owned) (fun _ _ h => ⟨h.refused, h.owners⟩)
    (fun _ _ act hbase h => act.owned hbase.sound h) (fun s ℓ _ _ _ => s.permits_any ℓ) hs

/-- The owners of a frame, kind by kind. -/
theorem owners_le (h : s.ledger.Owned) (a : Nat) : s.frameCaps a + bootCount s.ledger.boot a
    + liveSpaceCount s.mem s.procs.proc a + s.devs.allFrames.count a ≤ s.mem.fa.marked a := by
  have howners := h.owners a
  unfold Ledger.owners at howners
  have htotal : s.ledger.total (objWeight (.frame a)) = s.frameCaps a := rfl
  change s.ledger.total (objWeight (.frame a)) + bootCount s.ledger.boot a
    + liveSpaceCount s.mem s.procs.proc a + spaceCount s.mem [] a
    + s.devs.allFrames.count a + ([] : List Nat).count a ≤ s.mem.fa.marked a at howners
  omega

theorem FramesExclusive.of_owned (h : s.ledger.Owned) : s.FramesExclusive := by
  have hsum := owners_le h
  have hone := fun a => FrameAlloc.marked_le_one s.mem.fa a
  refine ⟨fun a => ?_, fun a hpos => ?_, fun a p proc hpos hp hmem => ?_, fun a p hpos hmem => ?_,
    fun a hpos hmem => ?_, h.refused⟩
  · have hle := hsum a
    have hmark := hone a
    omega
  · have hle := hsum a
    have hmark := hone a
    omega
  · have hle := hsum a
    have hmark := hone a
    have htable : (s.mem.spaceFrames proc.l4).count a ≤ liveSpaceCount s.mem s.procs.proc a :=
      Tally.le_tally (fun proc => (s.mem.spaceFrames proc.l4).count a) hp
    have hcount := List.count_pos_iff.mpr hmem
    omega
  · have hle := hsum a
    have hmark := hone a
    have hboot : ((s.ledger.boot p).map Prod.snd).count a ≤ bootCount s.ledger.boot a :=
      Finset.single_le_sum (f := fun p => ((s.ledger.boot p).map Prod.snd).count a)
        (fun _ _ => Nat.zero_le _) (Finset.mem_univ p)
    have hcount : 0 < ((s.ledger.boot p).map Prod.snd).count a := List.count_pos_iff.mpr hmem
    omega
  · have hle := hsum a
    have hmark := hone a
    have hcount := List.count_pos_iff.mpr hmem
    omega

/-- In every state of a run, frames are exclusive. -/
theorem frames_exclusive (hs : Reachable system always s) : s.FramesExclusive :=
  .of_owned (owned_of_reachable hs)

/-- A process allocates a frame and maps it. -/
def frameRun : List Label :=
  [.run 0 [some smallImage] [], .frameAlloc 0, .frameMap 0 1 userMapBase]

theorem frames_exclusive_frameRun : (smallMachine.runFrom frameRun).frameCaps (74 * frameSize) = 1 ∧
    (smallMachine.runFrom frameRun).mem.fa.marked (74 * frameSize) = 1 := by
  have hone : (smallMachine.runFrom frameRun).frameCaps (74 * frameSize) = 1 := by
    decide +kernel
  exact ⟨hone, (frames_exclusive (reachable_small frameRun)).marked _ (by rw [hone]; decide)⟩

end Kernel

end Plinth
