import Plinth.Refine.Step

/-!
# `Plinth.Runs.Boot`: the first state, and concrete runs

`Kernel.atBoot` is the state that the boot code leaves, for any frame allocator and any devices
that own their frames. `smallMachine` is an instance with three devices: a block device that the
kernel drives, one that is bound to a library OS, and an absent one.

`runFrom` runs labels from a state, and `reachable_runFrom` says that its end is reachable.
-/

set_option autoImplicit false

namespace Plinth

open Transition

namespace Kernel

/-- The state before the first launch: the tables are empty. -/
def atBoot (fa : FrameAlloc) (devs : Devices) : Kernel where
  procs := ⟨fun _ => Slot.empty, fun _ => none, fun _ => 0, 0⟩
  ipc := ⟨fun _ => Endpoint.empty, fun _ => none, 0⟩
  mem := ⟨fa, fun _ => AddressSpace.empty⟩
  rings := ⟨fun _ => Ring.empty, List.replicate maxSubs none⟩
  devs := devs
  ram := fun _ => 0

/-- The frames of the devices are allocated, and none is listed twice. -/
theorem atBoot_booted {fa : FrameAlloc} {devs : Devices} (hrefused : fa.refused = [])
    (hquiet : ∀ dev d, devs.devices dev = some d → Devices.quiet d)
    (hnodup : devs.allFrames.Nodup) (hmarked : ∀ a ∈ devs.allFrames, 0 < fa.marked a) :
    Booted (atBoot fa devs) := by
  refine ⟨fun _ => rfl, fun _ => rfl, fun _ => rfl, rfl, rfl, fun _ => ⟨rfl, rfl⟩,
    fun sub hsub => ?_, hquiet, fun a => ?_, hrefused⟩
  · cases List.eq_of_mem_replicate hsub
  change devs.allFrames.count a ≤ fa.marked a
  by_cases hmem : a ∈ devs.allFrames
  · exact le_trans (List.nodup_iff_count_le_one.mp hnodup a) (hmarked a hmem)
  · rw [List.count_eq_zero_of_not_mem hmem]
    exact Nat.zero_le _

/-! ### A small machine -/

/-- 128 frames. The first 64 belong to the kernel and its devices. -/
def smallFrames : FrameAlloc := ⟨[BitVec.allOnes 64, 0#64], 128, 64, []⟩

/-- A block device with a queue of 21 requests. -/
def blockDevice : VirtioBlk where
  qsize := 64
  inflights := Inflights.new maxSlots
  chains := fun _ => ⟨0, 0, 0, .read⟩
  ringFrames := [1 * frameSize, 2 * frameSize]
  bound := none

/-- A device that is bound to a library OS. -/
def boundDevice : VirtioBlk where
  qsize := 64
  inflights := Inflights.new maxSlots
  chains := fun _ => ⟨0, 0, 0, .read⟩
  ringFrames := []
  bound := some {
    bufIova := 0, notifyPagePhys := 0xFE000000, descPhys := 3 * frameSize
    availPhys := 4 * frameSize, usedPhys := 5 * frameSize, bufPhys := 6 * frameSize
    dataPhys := 7 * frameSize, dataIova := 0, waiter := none }

/-- The devices of the small machine. -/
def smallDevices : Devices where
  devices := fun dev => if dev = 0 then some blockDevice else if dev = 1 then some boundDevice
    else none
  iommu := none

/-- The small machine before the first launch. -/
def smallMachine : Kernel := atBoot smallFrames smallDevices

theorem smallMachine_booted : Booted smallMachine := by
  refine atBoot_booted rfl (fun dev d hd => ?_) (by decide) (by decide)
  simp only [smallDevices] at hd
  split at hd
  · simp only [Option.some.injEq] at hd
    subst hd
    exact ⟨rfl, rfl⟩
  · split at hd
    · simp only [Option.some.injEq] at hd
      subst hd
      exact ⟨rfl, rfl⟩
    · cases hd

/-- The image of a binary with 16 bytes of code. -/
def smallImage : Image where
  entry := userImageBase
  segments := [⟨userImageBase, 120, 16, 16, false, true⟩]
  window := by decide
  aligned := by decide
  budget := by decide

/-- An image with one page of code. -/
def codeImage : Image where
  entry := userImageBase
  segments := [⟨userImageBase, 0, 0, frameSize, false, true⟩]
  window := by decide
  aligned := by decide
  budget := by decide

/-- Run labels from `s`. A label that is not enabled is passed over. -/
def runFrom (s : Kernel) (labels : List Label) : Kernel :=
  labels.foldl (fun s ℓ => (s.step ℓ).getD s) s

theorem runFrom_cons (s : Kernel) (ℓ : Label) (labels : List Label) :
    s.runFrom (ℓ :: labels) = ((s.step ℓ).getD s).runFrom labels := rfl

/-- Every label satisfies the guard in the state where it is taken. -/
def Follows (ok : Kernel → Label → Prop) : Kernel → List Label → Prop
  | _, [] => True
  | s, ℓ :: labels => ok s ℓ ∧ Follows ok ((s.step ℓ).getD s) labels

instance Follows.decidable {ok : Kernel → Label → Prop} [∀ s ℓ, Decidable (ok s ℓ)] :
    ∀ s labels, Decidable (Follows ok s labels)
  | _, [] => inferInstanceAs (Decidable True)
  | s, ℓ :: labels =>
    have : Decidable (Follows ok ((s.step ℓ).getD s) labels) := Follows.decidable _ _
    inferInstanceAs (Decidable (ok s ℓ ∧ Follows ok ((s.step ℓ).getD s) labels))

/-- The end of a run that follows the guard, from a reachable state. -/
theorem reachable_runFrom {ok : Kernel → Label → Prop} {s : Kernel} {labels : List Label}
    (hs : Reachable system ok s) (hok : Follows ok s labels) :
    Reachable system ok (s.runFrom labels) := by
  induction labels generalizing s with
  | nil => exact hs
  | cons ℓ labels ih =>
    obtain ⟨hguard, hrest⟩ := hok
    rw [runFrom_cons]
    refine ih ?_ hrest
    cases hnext : s.step ℓ with
    | none => exact hs
    | some t => exact hs.next hguard hnext

/-- A run of labels from a first state, with its history. -/
theorem run_historyFrom {s : Kernel} (h : Booted s) (labels : List Label) :
    Run system always (system.historyFrom s [] labels) (s.runFrom labels) :=
  system.run h labels

theorem follows_always (s : Kernel) (labels : List Label) : Follows always s labels := by
  induction labels generalizing s with
  | nil => trivial
  | cons ℓ labels ih => exact ⟨trivial, ih _⟩

/-- A guarded run of the small machine. -/
theorem reachable_small_of {ok : Kernel → Label → Prop} {labels : List Label}
    (hok : Follows ok smallMachine labels) :
    Reachable system ok (smallMachine.runFrom labels) :=
  reachable_runFrom ⟨[], .start smallMachine_booted⟩ hok

/-- Every run of the small machine reaches a state. -/
theorem reachable_small (labels : List Label) :
    Reachable system always (smallMachine.runFrom labels) :=
  reachable_small_of (follows_always _ _)

end Kernel

end Plinth
