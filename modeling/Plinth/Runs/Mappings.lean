import Plinth.Ledger.Mappings
import Plinth.Runs.Frames
import Plinth.Runs.Leaving

/-!
# `Plinth.Runs.Mappings`: a mapping of user code is backed by a capability

`Backed` says that every page in the window for user-chosen mappings is a page of something that
the process has a capability for. A process that loses the last such capability has no mapping of
the page then.

The kernel unmaps what `frame_map` and `fb_map` mapped when the capability leaves its slot. It does
not unmap what `bind_device` mapped. So the theorem is about the runs in which no process parts with
a bound device while it maps pages of it, and `releasedDeviceRun` shows what happens otherwise.
-/

set_option autoImplicit false

namespace Plinth

open Transition

/-! ### Bound devices with mapped pages -/

/-- The process in slot `p` maps a page of the bound device that `cap` names, and no record stands
for the mapping. -/
def Ledger.PinsMapping (v : Ledger) (p : ProcSlot) (cap : Capability) : Prop :=
  ∃ proc va l dev b, v.proc p = some proc ∧ (v.mem.spaces proc.l4).leaf va = some l ∧
    ¬ outsideMapWindow va ∧ ¬ proc.Recorded va l.phys ∧ cap.object = .boundDevice dev ∧
      (v.devs.devices dev).bind VirtioBlk.bound = some b ∧ l.phys ∈ b.pages

/-- The record for the page `page` of the frame or framebuffer that the slot `k` holds. -/
def Process.recordedAt (proc : Process) (page phys : Nat) (k : CapSlot) : Bool :=
  match (proc.caps.slots k).map Capability.object with
  | some (.frame addr) =>
    addr == phys && proc.maps.any fun e => e.any fun x =>
      page == x.1 / frameSize && x.2 == k.val
  | some (.framebuffer physBase _ height stride bpp _) =>
    proc.fbMaps.any fun e => e.any fun f => f.slot == k.val && (List.range f.pages).any fun i =>
      page == (f.vaBase + i * frameSize) / frameSize && phys == physBase + i * frameSize &&
        decide (i * frameSize < height * stride * bpp)
  | _ => false

/-- The mapping of the page `page` to `phys` is recorded with a capability. -/
def Process.recorded (proc : Process) (page phys : Nat) : Bool :=
  (List.finRange maxCaps).any (proc.recordedAt page phys)

theorem Process.recorded_sound {proc : Process} {va phys : Nat}
    (h : proc.recorded (va / frameSize) phys = true) : proc.Recorded va phys := by
  obtain ⟨k, -, hk⟩ := List.any_eq_true.mp h
  unfold recordedAt at hk
  split at hk
  · rename_i addr hobj
    obtain ⟨cap, hcap, hobj⟩ := Option.map_eq_some_iff.mp hobj
    rw [Bool.and_eq_true, beq_iff_eq] at hk
    obtain ⟨rfl, hrec⟩ := hk
    obtain ⟨e, he, hmatch⟩ := List.any_eq_true.mp hrec
    obtain ⟨⟨va', slot⟩, rfl, hx⟩ := (Option.any_eq_true _ _).mp hmatch
    rw [Bool.and_eq_true, beq_iff_eq, beq_iff_eq] at hx
    obtain ⟨hpage, rfl⟩ := hx
    exact Or.inl ⟨va', k, cap, he, hpage, hcap, hobj⟩
  · rename_i physBase width height stride bpp format hobj
    obtain ⟨cap, hcap, hobj⟩ := Option.map_eq_some_iff.mp hobj
    obtain ⟨e, he, hmatch⟩ := List.any_eq_true.mp hk
    obtain ⟨f, rfl, hx⟩ := (Option.any_eq_true _ _).mp hmatch
    rw [Bool.and_eq_true, beq_iff_eq] at hx
    obtain ⟨hslot, hpages⟩ := hx
    obtain ⟨i, hi, hat⟩ := List.any_eq_true.mp hpages
    rw [Bool.and_eq_true, Bool.and_eq_true, beq_iff_eq, beq_iff_eq, decide_eq_true_iff] at hat
    exact Or.inr ⟨f, k, cap, he, hslot, hcap, physBase, width, height, stride, bpp, format, i,
      hobj, List.mem_range.mp hi, hat.1.1, hat.1.2, hat.2⟩
  · cases hk

/-- The test for `PinsMapping`. -/
def Ledger.pinsMapping (v : Ledger) (p : ProcSlot) (cap : Capability) : Bool :=
  match v.proc p, cap.object with
  | some proc, .boundDevice dev =>
    ((v.devs.devices dev).bind VirtioBlk.bound).any fun b =>
      (v.mem.spaces proc.l4).leaves.any fun e =>
        decide (userMapBase / frameSize ≤ e.1) && decide (e.1 < userMapEnd / frameSize) &&
          b.pages.contains e.2.phys && !proc.recorded e.1 e.2.phys
  | _, _ => false

theorem Ledger.PinsMapping.test {v : Ledger} {p : ProcSlot} {cap : Capability}
    (h : v.PinsMapping p cap) : v.pinsMapping p cap = true := by
  obtain ⟨proc, va, l, dev, b, hp, hl, hin, hrec, hobj, hb, hphys⟩ := h
  unfold pinsMapping
  rw [hp, hobj]
  dsimp only
  rw [hb, Option.any_some, List.any_eq_true]
  obtain ⟨before, after, heq, -⟩ := List.lookup_eq_some_iff.mp hl
  refine ⟨(va / frameSize, l), by simp [heq], ?_⟩
  have hnot : proc.recorded (va / frameSize) l.phys = false := by
    by_contra hyes
    rw [Bool.not_eq_false] at hyes
    exact hrec (Process.recorded_sound hyes)
  unfold outsideMapWindow at hin
  push Not at hin
  simp [hin.1, hin.2, hnot, hphys]

namespace Kernel

variable {s t : Kernel} {ℓ : Label} {p : ProcSlot}

/-- The entry takes a bound device from a process that maps pages of it. -/
def stripsMapping (s : Kernel) (ℓ : Label) : Bool :=
  (s.parted ℓ).any fun x => s.ledger.pinsMapping x.1 x.2

/-- The guard of the runs in which no process parts with a bound device that it maps. -/
def keepsMappings (s : Kernel) (ℓ : Label) : Prop := s.stripsMapping ℓ = false

instance : ∀ s ℓ, Decidable (keepsMappings s ℓ) := fun s ℓ =>
  inferInstanceAs (Decidable (s.stripsMapping ℓ = false))

/-- The actions of these runs. -/
def mappingGuard : Guard := keepGuard Ledger.PinsMapping fun _ _ _ => True

theorem mappingGuard_keeps (v : Ledger) : mappingGuard.KeepsMapped v :=
  fun _ proc va l dev b hp hl hin hrec hb hphys => keepGuard_retentive fun _ hobj =>
    ⟨proc, va, l, dev, b, hp, hl, hin, hrec, hobj, hb, hphys⟩

theorem permits_mapping (hok : keepsMappings s ℓ) : s.Permits mappingGuard ℓ := by
  refine permits_keep (fun v p cap hlike hpin => ?_) (fun p cap hpart hpin => ?_)
    fun _ _ _ _ _ => trivial
  · unfold Ledger.PinsMapping at hpin ⊢
    rwa [hlike.proc, hlike.mem, hlike.devs] at hpin
  · unfold keepsMappings stripsMapping at hok
    rw [hpart, Option.any_some, hpin.test] at hok
    cases hok

theorem warranted_of_reachable (hs : Reachable system keepsMappings s) :
    s.ledger.Owned ∧ s.ledger.Warranted := by
  refine invariant (g := mappingGuard) (I := fun v => v.Owned ∧ v.Warranted) ?_ ?_ ?_ ?_ hs
  · intro s hinit
    refine ⟨hinit.ledger_owned, fun p proc va l hp hl => ?_⟩
    rw [show s.ledger.proc p = none from hinit.proc_none p] at hp
    cases hp
  · exact fun v b h => ⟨⟨h.1.refused, h.1.owners⟩, h.2⟩
  · exact fun v v' act hbase h =>
      ⟨act.owned hbase.sound h.1, act.warranted hbase h.1 (mappingGuard_keeps v) h.2⟩
  · exact fun s ℓ _ _ hok => permits_mapping hok

/-! ### The main result -/

/-- The object has the page at `phys`: it is the frame there, or the page is a part of the
framebuffer, or the page is one of those that `bind_device` maps. -/
def Covers (s : Kernel) (o : CapObject) (phys : Nat) : Prop :=
  match o with
  | .frame addr => addr = phys
  | .framebuffer physBase _ height stride bpp _ =>
    physBase ≤ phys ∧ phys < physBase + height * stride * bpp
  | .boundDevice dev => ∃ b, (s.devs.devices dev).bind VirtioBlk.bound = some b ∧ phys ∈ b.pages
  | _ => False

/-- Every page that a process maps in the window is a page of something that the process holds a
capability for. -/
def Backed (s : Kernel) : Prop :=
  ∀ p proc va l, s.procs.proc p = some proc → (s.mem.spaces proc.l4).leaf va = some l →
    ¬ outsideMapWindow va → ∃ k cap, proc.caps.slots k = some cap ∧ s.Covers cap.object l.phys

/-- In every run in which no process parts with a bound device that it maps, the mappings are
backed. -/
theorem mappings_backed (hs : Reachable system keepsMappings s) : s.Backed := by
  intro p proc va l hp hl hin
  obtain ⟨-, hwarranted⟩ := warranted_of_reachable hs
  rcases (hwarranted p proc va l hp hl).resolve_left hin with hrec | ⟨dev, b, hret, hb, hphys⟩
  · rcases hrec with ⟨va', k, cap, -, -, hk, hobj⟩ | ⟨f, k, cap, -, -, hk, hshows⟩
    · refine ⟨k, cap, hk, ?_⟩
      rw [hobj]
      rfl
    · obtain ⟨physBase, width, height, stride, bpp, format, i, hobj, -, -, hphys, hspan⟩ := hshows
      refine ⟨k, cap, hk, ?_⟩
      rw [hobj]
      show physBase ≤ l.phys ∧ l.phys < physBase + height * stride * bpp
      omega
  · obtain ⟨k, rights, x, cap, hx, hk, hobj, -⟩ := hret.holds rfl
    obtain rfl : proc = x := Option.some.inj (hp.symm.trans hx)
    refine ⟨k, cap, hk, ?_⟩
    rw [hobj]
    exact ⟨b, hb, hphys⟩

/-- A process maps a frame and a bound device, and gives the frame back. -/
def boundRun : List Label :=
  [.run 0 [some smallImage] [some ⟨.boundDevice 1, rightMap, none⟩], .frameAlloc 0,
    .frameMap 0 2 userMapBase,
    .bindDevice 0 1 (userMapBase + frameSize) (userStackTop - frameSize), .capRelease 0 2]

/-- The page of the frame is gone, and the page of the doorbell is there. -/
theorem mappings_backed_boundRun : (smallMachine.runFrom boundRun).Backed ∧
    ((smallMachine.runFrom boundRun).procs.proc 0).map (fun proc =>
      (((smallMachine.runFrom boundRun).mem.spaces proc.l4).leaf userMapBase).isSome) = some false ∧
    ((smallMachine.runFrom boundRun).procs.proc 0).map (fun proc =>
      (((smallMachine.runFrom boundRun).mem.spaces proc.l4).leaf
        (userMapBase + frameSize)).map Leaf.phys) = some (some 0xFE000000) := by
  refine ⟨mappings_backed (reachable_small_of ?_), ?_⟩
  · decide +kernel
  · decide +kernel

/-- After that the process releases the device. -/
def releasedDeviceRun : List Label := boundRun ++ [.capRelease 0 1]

/-- The process maps the data buffer of the device still. Its frame is free, and no capability of
the process is for it. -/
theorem releasedDeviceRun_maps : ∃ s, Reachable system always s ∧ ¬ s.Backed ∧
    s.mem.fa.marked (7 * frameSize) = 0 := by
  refine ⟨_, reachable_small releasedDeviceRun, ?_, by decide +kernel⟩
  intro hbacked
  have hmaps : ((smallMachine.runFrom releasedDeviceRun).procs.proc 0).bind (fun proc =>
      if (List.finRange maxCaps).all (fun k => (proc.caps.slots k).all fun cap =>
        cap.object == .cpuTime initialCpuBudget) then
        (((smallMachine.runFrom releasedDeviceRun).mem.spaces proc.l4).leaf
          (userMapBase + 6 * frameSize)).map Leaf.phys
      else none) = some (7 * frameSize) := by decide +kernel
  obtain ⟨proc, hp, hrest⟩ := Option.bind_eq_some_iff.mp hmaps
  split at hrest
  · rename_i hall
    obtain ⟨l, hl, hphys⟩ := Option.map_eq_some_iff.mp hrest
    obtain ⟨k, cap, hk, hcovers⟩ := hbacked 0 proc _ l hp hl (by
      unfold outsideMapWindow userMapBase userMapEnd frameSize
      omega)
    have hcap := List.all_eq_true.mp hall k (List.mem_finRange k)
    rw [hk, Option.all_some, beq_iff_eq] at hcap
    rw [hcap] at hcovers
    exact hcovers
  · cases hrest

end Kernel

end Plinth
