import Plinth.Ledger.Targets
import Plinth.Runs.Completions

/-!
# `Plinth.Runs.Targets`: the frames of requests in flight

`ring_submit` checks that the caller holds the data frame of a request. Then the device can access
the frame until the completion is drained, and nothing ties the capability to the request.
`cap_release`, a transfer and an exit take the frame away while the request is in flight.

`targets_held` says that these are the only gaps. In every run in which no holder loses the data
frame of a request in flight, and no process exits that holds one, the process that posted the
request holds the frame until the completion. `releasedTargetRun` is a run with such a release.
-/

set_option autoImplicit false

namespace Plinth

open Transition

/-- A request in flight has the data frame at `a`. -/
def Devices.targets (ds : Devices) (a : Nat) : Bool :=
  (List.finRange maxDevices).any fun dev => (ds.devices dev).any fun d =>
    (List.range maxSlots).any fun slot =>
      (d.inflights.routing slot).isSome && (d.chains slot).dataAddr == a

/-- The object is the data frame of a request in flight. -/
def Devices.targetsObject (ds : Devices) : CapObject → Bool
  | .frame a => ds.targets a
  | _ => false

namespace Kernel

variable {s t : Kernel} {ℓ : Label} {p q : ProcSlot} {x : Request}

theorem targetsObject_of (hwf : s.ledger.PoolsWF) (h : s.devs.Live x) :
    s.devs.targetsObject x.frame = true := by
  obtain ⟨d, hd, hslot, hchain⟩ := h
  have hpool : d.inflights.WF := hwf x.dev d hd
  have hlt : x.slot < maxSlots := by
    have hlive := hpool.live x.slot (by rw [hslot]; simp)
    have hsize := hpool.size
    omega
  change s.devs.targets x.chain.dataAddr = true
  refine List.any_eq_true.mpr ⟨x.dev, List.mem_finRange x.dev, ?_⟩
  rw [hd]
  refine List.any_eq_true.mpr ⟨x.slot, List.mem_range.mpr hlt, ?_⟩
  rw [hslot, hchain]
  simp

/-- The entry takes the data frame of a request in flight from its holder. -/
def losesTarget (s : Kernel) (ℓ : Label) : Bool :=
  (s.parted ℓ).any fun x => s.devs.targetsObject x.2.object

/-- A process exits that holds the data frame of a request in flight. -/
def leavesTarget (s : Kernel) (ℓ : Label) : Bool :=
  (s.leaver ℓ).any fun p => (s.procs.proc p).any fun proc =>
    proc.caps.iter.any fun cap => s.devs.targetsObject cap.object

/-- The guard of the runs in which the data frames of requests in flight stay. -/
def keepsTargets (s : Kernel) (ℓ : Label) : Prop :=
  s.losesTarget ℓ = false ∧ s.leavesTarget ℓ = false

instance : ∀ s ℓ, Decidable (keepsTargets s ℓ) := fun s ℓ =>
  inferInstanceAs (Decidable (s.losesTarget ℓ = false ∧ s.leavesTarget ℓ = false))

theorem losesTarget_false (h : s.losesTarget ℓ = false) (hwf : s.ledger.PoolsWF)
    (hlive : s.devs.Live x) {cap : Capability} (hpart : s.parted ℓ = some (p, cap)) :
    cap.object ≠ x.frame := by
  intro hobj
  unfold losesTarget at h
  rw [hpart, Option.any_some, hobj, targetsObject_of hwf hlive] at h
  cases h

theorem leavesTarget_false (h : s.leavesTarget ℓ = false) (hwf : s.ledger.PoolsWF)
    (hlive : s.devs.Live x) (hleaver : s.leaver ℓ = some p) : ¬ s.ledger.Holds p x.frame := by
  rintro ⟨k, rights, proc, cap, hp, hk, hobj, -⟩
  have hp' : s.procs.proc p = some proc := hp
  unfold leavesTarget at h
  rw [hleaver, Option.any_some, hp', Option.any_some, List.any_eq_false] at h
  have hcap := h cap (CapTable.mem_iter.mpr ⟨k, hk⟩)
  rw [hobj, targetsObject_of hwf hlive] at hcap
  exact hcap rfl

/-- The entry posts requests, so it moves no capability and no process leaves. -/
theorem stepGuard_of_poster {id : RingId} (h : s.poster ℓ = some (p, id)) (u : Ledger)
    (r : ProcSlot) (o : CapObject) :
    (s.stepGuard ℓ).Retentive u r o ∧ ¬ (s.stepGuard ℓ).leave u r := by
  cases ℓ with
  | ringSubmit core slot =>
    refine ⟨⟨fun k f proc cap hg => ?_, fun k proc cap hg => ?_⟩, fun h => h⟩
    · cases hg.2
    · cases hg.2
  | _ => cases h

/-- The process that submits through a ring is alive. -/
theorem Good.poster_alive (hgood : s.Good) {id : RingId} (h : s.poster ℓ = some (p, id)) :
    ∃ proc, s.procs.proc p = some proc := by
  cases ℓ with
  | ringSubmit core slot =>
    obtain ⟨id', hid, heq⟩ := Option.map_eq_some_iff.mp h
    cases heq
    obtain ⟨-, -, proc, hc, -⟩ := ringIdFor_some hid
    exact ⟨proc, hgood.proc_of_current hc⟩
  | _ => cases h

/-! ### What an entry does to a request in flight -/

/-- The data frame of the request in flight `x` belongs to the process in slot `p`. -/
structure OwnsTarget (s : Kernel) (p : ProcSlot) (x : Request) : Prop where
  live : s.devs.Live x
  held : s.ledger.Holds p x.frame
  /-- Nobody else has the frame. -/
  only : ∀ q, s.ledger.Holds q x.frame → q = p
  /-- The frame is not returned to the allocator. -/
  allocated : s.mem.fa.marked x.chain.dataAddr = 1

/-- The process in slot `p` posts the request. -/
structure PostsRequest (p : ProcSlot) (x : Request) (s : Kernel) (ℓ : Label) (t : Kernel) :
    Prop where
  poster : ∃ id userData, s.poster ℓ = some (p, id) ∧ x.target = .ring id userData
  new : ¬ s.devs.Live x
  after : t.OwnsTarget p x
  same : SameProcess s.procs.proc t.procs.proc p

/-- The request stays in flight, and the process in slot `p` has the data frame all the time. -/
structure KeepsTarget (p : ProcSlot) (x : Request) (s : Kernel) (ℓ : Label) (t : Kernel) :
    Prop where
  before : s.OwnsTarget p x
  after : t.OwnsTarget p x
  same : SameProcess s.procs.proc t.procs.proc p

/-- A held data frame is allocated and has one holder. -/
theorem ownsTarget_of (hs : Reachable system always s) (hlive : s.devs.Live x)
    (hheld : s.ledger.Holds p x.frame) : s.OwnsTarget p x := by
  have howned := owned_of_reachable hs
  have hone : s.ledger.total (objWeight x.frame) ≤ 1 := howned.frame_le_one
  refine ⟨hlive, hheld, fun q hq => hq.unique hheld hone, ?_⟩
  obtain ⟨k, rights, proc, cap, hp, hk, hobj, -⟩ := hheld
  refine (FramesExclusive.of_owned howned).marked _
    (liveTotal_pos.mpr ⟨p, proc, k, cap, hp, hk, ?_⟩)
  rw [show CapObject.frame x.chain.dataAddr = cap.object from hobj.symm, objWeight_self]
  exact Nat.one_pos

/-- The data frame of every request in flight is held. -/
def TargetsHeld (s : Kernel) : Prop := ∀ x, s.devs.Live x → ∃ p, s.ledger.Holds p x.frame

/-- No request is in flight when the table is empty. -/
theorem TargetsHeld.idle (h : s.TargetsHeld) (hgood : s.Good) (hempty : s.tableEmpty = true) :
    ¬ s.devs.Live x := by
  intro hlive
  obtain ⟨p, k, rights, proc, cap, hp, -⟩ := h x hlive
  have hp' : s.procs.proc p = some proc := hp
  rw [hgood.dead_of_empty hempty] at hp'
  cases hp'

theorem keepsTargets.retentive (hok : keepsTargets s ℓ) (hwf : s.ledger.PoolsWF) {u : Ledger}
    (hlive : u.devs.Live x) : (s.stepGuard ℓ).Retentive u q x.frame := by
  constructor
  · rintro k f proc cap ⟨hlike, hgiven⟩ hp hk hobj
    by_contra hf
    rw [Bool.not_eq_true] at hf
    rw [hlike.proc] at hp
    rw [hlike.devs] at hlive
    exact losesTarget_false hok.1 hwf hlive (parted_of_given hgiven hp hk hf) hobj
  · rintro k proc cap ⟨rfl, htaken⟩ hp hk
    exact losesTarget_false hok.1 hwf hlive (parted_of_taken htaken hp hk)

theorem keepsTargets.stays (hok : keepsTargets s ℓ) (hwf : s.ledger.PoolsWF) (hgood : s.Good)
    (hheld : s.TargetsHeld) {u : Ledger} (hlive : u.devs.Live x) (hret : u.Retains q x.frame) :
    ¬ (s.stepGuard ℓ).leave u q := by
  intro hleave
  rcases reclaims_cases hleave with ⟨rfl, hleaver⟩ | ⟨hempty, -, hdevs, -⟩
  · exact leavesTarget_false hok.2 hwf hlive hleaver (hret.holds rfl)
  · rw [hdevs] at hlive
    exact hheld.idle hgood hempty hlive

/-- A request in flight after an entry: the entry posts it, or it was in flight before, and its
holder keeps the data frame. -/
theorem target_step (hs : Reachable system keepsTargets s) (hheld : s.TargetsHeld)
    (hok : keepsTargets s ℓ) (hnext : s.step ℓ = some t) (hlive : t.devs.Live x) :
    ∃ p, PostsRequest p x s ℓ t ∨ KeepsTarget p x s ℓ t := by
  have hgood := good_of_reachable hs
  have hwf := poolsWF_of_reachable hs
  have ht : Reachable system always t := (hs.next hok hnext).forget
  obtain ⟨-, spent, hpath⟩ := hgood.step_path hnext
  have hcases := Path.live_before hpath hgood.base (fun u q => hok.retentive hwf)
    (fun u q => hok.stays hwf hgood hheld) (fun q id hpost u r => stepGuard_of_poster hpost u r _)
    hlive
  by_cases hstart : s.devs.Live x
  · obtain ⟨p, hp⟩ := hheld x hstart
    have hkeep : ({t.ledger with spent} : Ledger).Retains p x.frame ∧
        SameProcess s.procs.proc t.procs.proc p := by
      rcases hcases with ⟨-, hkeep⟩ | ⟨q, id, userData, hpost, -⟩
      · exact hkeep p (Or.inl hp)
      · exact Path.retains hpath hgood.base x.frame_steady
          (fun u => (stepGuard_of_poster hpost u p _).1)
          (fun u => (stepGuard_of_poster hpost u p x.frame).2) (Or.inl hp)
    exact ⟨p, Or.inr ⟨ownsTarget_of hs.forget hstart hp,
      ownsTarget_of ht hlive (hkeep.1.holds rfl), hkeep.2⟩⟩
  · rcases hcases with ⟨hbefore, -⟩ | ⟨q, id, userData, hpost, htarget, hq⟩
    · exact absurd hbefore hstart
    · have hafter := ownsTarget_of ht hlive (hq.holds rfl)
      obtain ⟨proc, hp⟩ := hgood.poster_alive hpost
      exact ⟨q, Or.inl ⟨⟨id, userData, hpost, htarget⟩, hstart, hafter, Path.same_process hpath
        (fun u => (stepGuard_of_poster hpost u q x.frame).2) hp⟩⟩

theorem targetsHeld_of_reachable (hs : Reachable system keepsTargets s) : s.TargetsHeld := by
  have hinit : ∀ s, Booted s → s.TargetsHeld := by
    rintro s h x ⟨d, hd, hslot, -⟩
    rw [(h.quiet x.dev d hd).1] at hslot
    cases hslot
  refine hs.invariant (I := TargetsHeld) hinit ?_
  intro s ℓ t hs hheld hok hnext x hlive
  obtain ⟨p, hpost | hkeep⟩ := target_step hs hheld hok hnext hlive
  · exact ⟨p, hpost.after.held⟩
  · exact ⟨p, hkeep.after.held⟩

/-- In every run in which no holder loses the data frame of a request in flight, and no process
exits that holds one, the process that posted a request has its data frame until the completion. -/
theorem targets_held {hist : List (Kernel × Label)} (run : Run system keepsTargets hist s)
    (hlive : s.devs.Live x) :
    ∃ p, s.OwnsTarget p x ∧ Since (PostsRequest p x) (KeepsTarget p x) hist s := by
  obtain ⟨p, hp⟩ := targetsHeld_of_reachable run.reachable x hlive
  have howns := ownsTarget_of run.reachable.forget hlive hp
  refine ⟨p, howns, Run.since (R := fun u => u.OwnsTarget p x) ?_ ?_ run howns⟩
  · intro u hinit hu
    obtain ⟨d, hd, hslot, -⟩ := hu.live
    rw [(hinit.quiet x.dev d hd).1] at hslot
    cases hslot
  · intro u ℓ t hs hok hnext ht
    obtain ⟨q, hpost | hkeep⟩ := target_step hs (targetsHeld_of_reachable hs) hok hnext ht.live
    · rw [ht.only q hpost.after.held] at hpost
      exact Or.inl hpost
    · rw [ht.only q hkeep.after.held] at hkeep
      exact Or.inr ⟨hkeep.before, hkeep⟩

/-- The request of `submitRun`. -/
def submitted : Request where
  dev := 0
  slot := 20
  target := .ring 0 7
  chain := ⟨0, 512, 76 * frameSize, .read⟩

/-- The process releases the data frame of its request. -/
def releasedTargetRun : List Label := submitRun ++ [.capRelease 0 4]

/-- The slot of a device holds the request. -/
def hasRequest (s : Kernel) (x : Request) : Bool :=
  (s.devs.devices x.dev).any fun d =>
    d.inflights.routing x.slot == some x.target && d.chains x.slot == x.chain

theorem live_of_hasRequest (h : s.hasRequest x = true) : s.devs.Live x := by
  unfold hasRequest at h
  rw [Option.any_eq_true] at h
  obtain ⟨d, hd, hboth⟩ := h
  rw [Bool.and_eq_true, beq_iff_eq, beq_iff_eq] at hboth
  exact ⟨d, hd, hboth⟩

theorem targets_held_submitRun : ∃ hist p, (smallMachine.runFrom submitRun).OwnsTarget p submitted ∧
    Since (PostsRequest p submitted) (KeepsTarget p submitted) hist
      (smallMachine.runFrom submitRun) := by
  have hs : Reachable system keepsTargets (smallMachine.runFrom submitRun) :=
    reachable_small_of (by decide +kernel)
  have hlive : (smallMachine.runFrom submitRun).hasRequest submitted = true := by decide +kernel
  obtain ⟨hist, run⟩ := hs
  exact ⟨hist, targets_held run (live_of_hasRequest hlive)⟩

/-- After the release the frame is free, and the device still writes to it. -/
theorem releasedTargetRun_frees : ∃ s, Reachable system always s ∧ s.devs.Live submitted ∧
    submitted.chain.dir = .read ∧ s.frameCaps submitted.chain.dataAddr = 0 ∧
    s.mem.fa.marked submitted.chain.dataAddr = 0 := by
  have hend : (smallMachine.runFrom releasedTargetRun).hasRequest submitted = true ∧
      (smallMachine.runFrom releasedTargetRun).frameCaps submitted.chain.dataAddr = 0 ∧
      (smallMachine.runFrom releasedTargetRun).mem.fa.marked submitted.chain.dataAddr = 0 := by
    decide +kernel
  exact ⟨_, reachable_small releasedTargetRun, live_of_hasRequest hend.1, rfl, hend.2⟩

end Kernel

end Plinth
