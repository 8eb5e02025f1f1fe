import Plinth.Ledger.Frames
import Plinth.Refine.Launch
import Plinth.Refine.Messages
import Plinth.Refine.Release
import Plinth.Refine.Rings

/-!
# `Plinth.Refine.Step`: every kernel entry is a path of actions

`step_refines` collects the entries: a step of the kernel implements a path of ledger actions
that satisfy the guard. `booted_good` is the first state.

`Kernel.invariant` is the rule for runs that follows: what holds of the ledger of a booted kernel,
and is kept by every guarded action, holds of the ledger of every state that a guarded run reaches.
-/

set_option autoImplicit false

namespace Plinth

open Transition

namespace Kernel

variable {g : Guard} {s s' : Kernel} {core : Core} {ℓ : Label}

theorem onCore_some {t : Kernel} (h : s.onCore core t = some s') :
    (∃ proc, s.procs.current core = some proc) ∧ s' = t := by
  unfold onCore at h
  split at h
  · rename_i hsome
    simp only [Option.some.injEq] at h
    exact ⟨Option.isSome_iff_exists.mp hsome, h.symm⟩
  · cases h

/-- A call of a process on a core refines if its function does. -/
theorem onCore_refines {t : Kernel} (h : s.onCore core t = some s') (ht : s.Refines g t) :
    s.Refines g s' := by
  rw [(onCore_some h).2]
  exact ht

/-- Stores to physical memory do not show in the ledger. -/
theorem Good.refines_ram (h : s.Good) (ram : Ram) : s.Refines g { s with ram } :=
  ⟨s.ledger, Relation.ReflTransGen.refl,
    ⟨h.rep.procs, h.rep.ipc, h.rep.mem, h.rep.rings, h.rep.devs⟩, s.ledger_idle⟩

theorem sysCpuCharge_refines (h : s.Good) {slot amount : Nat}
    (hg : s.Permits g (.cpuCharge core slot amount)) :
    s.Refines g (s.sysCpuCharge core slot amount).2 := by
  unfold sysCpuCharge
  split
  · exact h.refines_self
  · rename_i proc hc
    split
    · rename_i remaining t hcharge
      exact charge_refines h hc hcharge
    · rename_i hcharge
      have hover : s.overdraws core slot amount := ⟨proc, hc, hcharge⟩
      split
      · rename_i s' hexit
        exact onExit_refines h hexit (hg.leave _ _ ⟨rfl, rfl, hover⟩)
          (fun p hp r hr => hg.wake p r hp hr) fun hs => hg.strand ⟨hover, hs⟩
      · exact h.refines_self
    · exact h.refines_self

/-- A kernel entry is a path of actions that satisfy the guard. -/
theorem step_refines (h : s.Good) (hnext : s.step ℓ = some s') (hg : s.Permits g ℓ) :
    s.Refines g s' := by
  cases ℓ with
  | createEndpoint =>
    obtain ⟨⟨id, ipc⟩, hcreate, rfl⟩ := Option.map_eq_some_iff.mp hnext
    exact createEndpoint_refines h hcreate
  | run core images extra =>
    unfold step at hnext
    dsimp only at hnext
    split at hnext
    · rename_i hcan
      simp only [Option.some.injEq] at hnext
      rw [← hnext]
      exact run_refines h hcan hg
    · cases hnext
  | frameAlloc core => exact onCore_refines hnext (sysFrameAlloc_refines h core)
  | frameMap core slot va => exact onCore_refines hnext (sysFrameMap_refines h core slot va)
  | fbMap core slot va infoPtr =>
    exact onCore_refines hnext (sysFbMap_refines h core slot va infoPtr)
  | bindDevice core slot va infoPtr =>
    exact onCore_refines hnext (sysBindDevice_refines h core slot va infoPtr)
  | capRelease core slot => exact onCore_refines hnext (sysCapRelease_refines h hg)
  | cpuCharge core slot amount => exact onCore_refines hnext (sysCpuCharge_refines h hg)
  | spawn core binary slot =>
    obtain ⟨⟨proc, hc⟩, rfl⟩ := onCore_some hnext
    exact (sysSpawn_spawns h hc binary slot hg).1
  | spawnFromBuffer core bufVa len image slot =>
    obtain ⟨⟨proc, hc⟩, rfl⟩ := onCore_some hnext
    exact (sysSpawnFromBuffer_spawns h hc bufVa len image slot hg).1
  | send core epSlot msg capSlot => exact onCore_refines hnext (ipcSend_refines h hg)
  | recv core epSlot => exact onCore_refines hnext (ipcRecv_refines h hg)
  | call core epSlot req => exact onCore_refines hnext (ipcCall_refines h hg)
  | reply core slot msg => exact onCore_refines hnext (ipcReply_refines h hg)
  | ringRegister core sqSlot cqSlot entries =>
    exact onCore_refines hnext (ringRegister_refines h hg)
  | ringSubmit core slot => exact onCore_refines hnext (ringSubmit_refines h hg)
  | ringWait core slot => exact onCore_refines hnext (ringWait_refines h hg)
  | bindWait core slot seen idx => exact onCore_refines hnext (bindWait_refines h hg)
  | exit core =>
    exact onExit_refines h hnext (hg.leave _ _ ⟨rfl, rfl⟩) (fun p hp r hr => hg.wake p r hp hr)
      fun hs => hg.strand hs
  | preempt core =>
    obtain ⟨P, hP, rfl⟩ := Option.map_eq_some_iff.mp hnext
    exact preempt_refines h hP
  | resume core p =>
    obtain ⟨P, hP, rfl⟩ := Option.map_eq_some_iff.mp hnext
    exact resume_refines h hP
  | completeIrq dev used =>
    obtain rfl : s.completeIrq dev used = s' := by simpa [step] using hnext
    exact completeIrq_refines h dev used hg
  | deliverEvent source event =>
    obtain rfl : s.deliverEvent source event = s' := by simpa [step] using hnext
    exact deliverEvent_refines h source event hg
  | memory ram =>
    obtain rfl : { s with ram } = s' := by simpa [step] using hnext
    exact h.refines_ram ram

/-- The path of an entry, with the tightest guard. -/
theorem Good.step_path (h : s.Good) (hnext : s.step ℓ = some s') :
    s'.Good ∧ ∃ spent, Path (s.stepGuard ℓ) s.ledger { s'.ledger with spent := spent } :=
  (step_refines h hnext (s.permits_stepGuard ℓ)).good h

/-! ### The first state -/

namespace Booted

variable (h : Booted s)

include h

theorem placed : Placed s.procs := by
  refine ⟨fun c hc => absurd (h.idle c) hc, fun c _ hc => absurd (h.idle c) hc, fun p hp => ?_⟩
  rw [h.table p] at hp
  exact absurd rfl hp

theorem proc_none (p : ProcSlot) : s.procs.proc p = none :=
  h.placed.proc_of_empty (by unfold Procs.state; rw [h.table p]; rfl)

theorem waiting_nil (id : EndpointId) : s.ipc.waiting id = [] := by
  unfold Ipc.waiting
  rw [h.endpoints id]
  rfl

theorem total_zero (w : Capability → Nat) : s.ledger.total w = 0 := by
  have hlive : liveTotal w s.ledger.proc = 0 := by
    rw [show s.ledger.proc = fun _ => none from funext h.proc_none]
    exact Tally.tally_none _
  unfold Holdings.total
  rw [hlive]
  rfl

theorem rep : Rep s none s.ledger := by
  refine ⟨⟨h.placed, rfl, fun p _ => ⟨rfl, rfl, rfl⟩, fun p _ _ => h.table p,
    fun p hp => (by cases hp), h.wakes⟩, ⟨fun id => ?_, fun _ => rfl, fun _ => rfl, fun id => ?_,
    fun id => ?_, h.asserts⟩, rfl, rfl, rfl⟩
  · change Fifo.Holds _ _ _ (s.ipc.waiting id)
    rw [h.waiting_nil id, h.endpoints id]
    exact Fifo.Holds.nil _
  · rw [h.endpoints id, peers_of_unnamed (h.total_zero _)]
    rfl
  · rw [h.endpoints id, peers_of_unnamed (h.total_zero _)]
    rfl

theorem waiterOf_none (dev : DevId) : waiterOf (s.devs.devices dev) = none := by
  unfold waiterOf
  cases hd : s.devs.devices dev with
  | none => rfl
  | some d => rw [Option.bind_some, (h.quiet dev d hd).2]

theorem regs_zero (p : ProcSlot) : s.ledger.regs p = 0 := by
  have hqueued : queued s.ledger.queue p = 0 := Finset.sum_eq_zero fun id _ => by
    change (s.ipc.waiting id).count p = 0
    rw [h.waiting_nil id]
    rfl
  have hrings : ringWaits s.ledger.rings p = 0 := Finset.sum_eq_zero fun id _ =>
    if_neg fun hwait => by
      have hquiet := (h.rings id).2
      change (s.rings.rings id).waiting = true ∧ _ at hwait
      rw [hquiet] at hwait
      cases hwait.1
  have hbound : boundWaits s.ledger.devs.devices p = 0 := Finset.sum_eq_zero fun dev _ =>
    if_neg fun hwait => by
      change waiterOf (s.devs.devices dev) = some p at hwait
      rw [h.waiterOf_none dev] at hwait
      cases hwait
  unfold Ledger.regs
  rw [hqueued, hrings, hbound, h.total_zero]
  rfl

theorem base : s.ledger.Base where
  sound := by
    refine ⟨fun p proc hp => ?_, fun p proc k cap o hp => ?_, fun cap hcap => ?_,
      fun tr htr => ?_⟩
    · rw [show s.ledger.proc p = none from h.proc_none p] at hp
      cases hp
    · rw [show s.ledger.proc p = none from h.proc_none p] at hp
      cases hp
    · cases hcap
    · cases htr
  registered := fun p => by
    rw [h.regs_zero p]
    exact Nat.zero_le _
  noStray := h.total_zero _
  holders := fun id p hp => by
    rw [show s.ledger.queue id = [] from h.waiting_nil id] at hp
    cases hp
  keyed := by
    refine ⟨fun id => ?_, fun dev => ?_, fun id hwait => ?_, fun dev p hwait => ?_⟩
    · rw [h.total_zero]
      exact Nat.zero_le _
    · rw [h.total_zero]
      exact Nat.zero_le _
    · rw [show (s.ledger.rings id).waiting = false from (h.rings id).2] at hwait
      cases hwait
    · rw [show waiterOf (s.ledger.devs.devices dev) = none from h.waiterOf_none dev] at hwait
      cases hwait

theorem good : s.Good := ⟨h.rep, h.base⟩

theorem ledger_owned : s.ledger.Owned := by
  refine ⟨h.refused, fun a => ?_⟩
  have hboot : bootCount s.ledger.boot a = 0 := Finset.sum_eq_zero fun p _ => by
    change ((s.procs.table p).bootFrames.map Prod.snd).count a = 0
    rw [h.table p]
    rfl
  have hspace : liveSpaceCount s.ledger.mem s.ledger.proc a = 0 := by
    rw [show s.ledger.proc = fun _ => none from funext h.proc_none]
    exact Tally.tally_none _
  unfold Ledger.owners
  rw [h.total_zero, hboot, hspace]
  have howned := h.owned a
  simp only [Kernel.ledger, spaceCount, List.map_nil, List.sum_nil, List.count_nil]
  omega

end Booted

/-! ### Runs -/

/-- Every state of a run is good. -/
theorem good_of_reachable {ok : Kernel → Label → Prop} (hs : Reachable system ok s) :
    s.Good := by
  refine hs.invariant (I := Good) (fun _ h => Booted.good h) fun s ℓ t _ hgood _ hnext => ?_
  exact ((step_refines hgood hnext (s.permits_any ℓ)).good hgood).1

/-- The invariant rule: what holds of the ledger of a booted kernel, and is kept by every guarded
action, holds of the ledger of every state that a guarded run reaches. -/
theorem invariant {ok : Kernel → Label → Prop} {I : Ledger → Prop}
    (hinit : ∀ s, Booted s → I s.ledger)
    (hspent : ∀ v b, I v → I { v with spent := b })
    (hact : ∀ v v', Act g v v' → v.Base → I v → I v')
    (hok : ∀ s ℓ, s.Good → I s.ledger → ok s ℓ → s.Permits g ℓ)
    (hs : Reachable system ok s) : I s.ledger := by
  refine hs.invariant (I := fun s => I s.ledger) hinit fun s ℓ t hreach hI hguard hnext => ?_
  have hgood := good_of_reachable hreach
  obtain ⟨-, spent, hpath⟩ :=
    (step_refines hgood hnext (hok s ℓ hgood hI hguard)).good hgood
  exact hspent _ false (hpath.keeps hact hgood.base hI)

end Kernel

end Plinth
