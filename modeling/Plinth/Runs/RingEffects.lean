import Plinth.Refine.Step
import Plinth.Runs.RingWork

/-!
# `Plinth.Runs.RingEffects`: what an entry does to rings and memory

Most entries leave the rings, the subscriptions and the memory alone (`RingsKept`). A release or an
exit may free rings with their subscriptions (`RingsDropped`). The ring calls, the completion
interrupt and the event delivery work on the rings (`Works`). `step_rings` says which one holds,
for every entry.
-/

set_option autoImplicit false

namespace Plinth

namespace Kernel

variable {s t u : Kernel} {core : Core} {ℓ : Label}

/-- The entry posts a completion with the cookie `userData` to the ring `id`. -/
def Posts (s : Kernel) : Label → RingId → Nat → Prop
  | .completeIrq dev _, id, userData => ∃ d slot, s.devs.devices dev = some d ∧ d.bound = none ∧
      d.inflights.routing slot = some (.ring id userData)
  | .deliverEvent source _, id, userData => ∃ sub, some sub ∈ s.rings.subs ∧
      sub.source = source ∧ sub.ring = id ∧ sub.userData = userData
  | .ringSubmit core slot, id, _ => s.ringIdFor core slot = some id
  | _, _, _ => False

/-- The rings, the subscriptions and the memory are the same. -/
structure RingsKept (s t : Kernel) : Prop where
  rings : t.rings = s.rings
  ram : t.ram = s.ram

theorem RingsKept.refl (s : Kernel) : RingsKept s s := ⟨rfl, rfl⟩

theorem RingsKept.trans (h : RingsKept s t) (h' : RingsKept t u) : RingsKept s u :=
  ⟨h'.rings.trans h.rings, h'.ram.trans h.ram⟩

/-- Some rings are freed with their subscriptions, and the rest is the same. -/
structure RingsDropped (s t : Kernel) : Prop where
  rings : ∀ id, t.rings.rings id = s.rings.rings id ∨ t.rings.rings id = Ring.empty
  subs : ∀ sub, some sub ∈ t.rings.subs →
    some sub ∈ s.rings.subs ∧ t.rings.rings sub.ring = s.rings.rings sub.ring
  ram : t.ram = s.ram

theorem RingsKept.dropped (h : RingsKept s t) : RingsDropped s t where
  rings := fun id => Or.inl (by rw [h.rings])
  subs := fun sub hsub => ⟨by rwa [← h.rings], by rw [h.rings]⟩
  ram := h.ram

theorem RingsDropped.of_eq (hrings : t.rings = s.rings) (hram : t.ram = s.ram) :
    RingsDropped s t := RingsKept.dropped ⟨hrings, hram⟩

theorem RingsDropped.refl (s : Kernel) : RingsDropped s s := .of_eq rfl rfl

theorem RingsDropped.trans (h : RingsDropped s t) (h' : RingsDropped t u) : RingsDropped s u where
  rings := by
    intro id
    rcases h'.rings id with heq | hempty
    · rw [heq]
      exact h.rings id
    · exact Or.inr hempty
  subs := by
    intro sub hsub
    obtain ⟨hmid, heq⟩ := h'.subs sub hsub
    obtain ⟨hold, heq'⟩ := h.subs sub hmid
    exact ⟨hold, heq.trans heq'⟩
  ram := h'.ram.trans h.ram

/-- A fold of operations that drop rings. -/
theorem RingsDropped.foldl {α : Type} {f : Kernel → α → Kernel}
    (hone : ∀ s x, RingsDropped s (f s x)) (xs : List α) (s : Kernel) :
    RingsDropped s (xs.foldl f s) := by
  induction xs generalizing s with
  | nil => exact .refl s
  | cons x xs ih => exact (hone s x).trans (ih _)

/-! ### Entries that keep the rings -/

theorem reclaimCapHome_kept (cap : Capability) (origin : Origin) (home : Capability) :
    RingsKept s (s.reclaimCapHome cap origin home).2 := by
  unfold reclaimCapHome
  split <;> exact ⟨rfl, rfl⟩

theorem reclaimLentCap_kept (dyingSlot : ProcSlot) (cap : Capability) :
    RingsKept s (reclaimLentCap dyingSlot s cap) := by
  unfold reclaimLentCap
  split
  · exact .refl s
  · rename_i origin home _
    have hhome := reclaimCapHome_kept (s := s) cap origin home
    split
    · rename_i heq
      rw [heq] at hhome
      exact ⟨hhome.rings, hhome.ram⟩
    · rename_i heq
      rw [heq] at hhome
      exact hhome
    · rename_i heq
      rw [heq] at hhome
      exact ⟨hhome.rings, hhome.ram⟩

theorem setupProcess_kept (id : ProcSlot) (image : Option Image) (caps : List Capability) :
    RingsKept s (s.setupProcess id image caps).2 := by
  unfold setupProcess
  split
  · exact .refl s
  · split
    · exact ⟨rfl, rfl⟩
    · split <;> exact ⟨rfl, rfl⟩

theorem schedSpawn_kept (image : Option Image) (caps : List Capability) :
    RingsKept s (s.schedSpawn image caps).2 := by
  unfold schedSpawn
  split
  · exact .refl s
  · rename_i id _
    have hsetup := setupProcess_kept (s := s) id image caps
    split
    · rename_i heq
      rw [heq] at hsetup
      exact hsetup
    · rename_i heq
      rw [heq] at hsetup
      exact hsetup

theorem giveFromCurrent_kept {capSlot : Nat} {cap : Capability}
    (h : s.giveFromCurrent core capSlot = some (cap, t)) : RingsKept s t := by
  unfold giveFromCurrent at h
  split at h
  · cases h
  · split at h
    · cases h
    · cases h
      exact ⟨rfl, rfl⟩

theorem giveFromBlocked_kept {p : ProcSlot} {capSlot : Nat} {cap : Capability}
    (h : s.giveFromBlocked p capSlot = some (cap, t)) : RingsKept s t := by
  unfold giveFromBlocked at h
  split at h
  · cases h
  · split at h
    · cases h
    · cases h
      exact ⟨rfl, rfl⟩

theorem takeForSpawn_kept (slot : Nat) : RingsKept s (s.takeForSpawn core slot).2 := by
  unfold takeForSpawn
  split
  · exact .refl s
  · split
    · exact .refl s
    · rename_i heq
      exact giveFromCurrent_kept heq

theorem spawnScheduled_kept (image : Option Image) (slot : Nat) :
    RingsKept s (s.spawnScheduled core image slot).2 := by
  unfold spawnScheduled
  split
  · exact .refl s
  · rename_i ep ipc _
    dsimp only
    have htake := @takeForSpawn_kept { s with ipc } core slot
    split
    · rename_i s' heq
      have hspawn := schedSpawn_kept (s := (({ s with ipc } : Kernel).takeForSpawn core slot).2)
        image [some ⟨.endpoint ep, rightSend, none⟩,
          (({ s with ipc } : Kernel).takeForSpawn core slot).1.map fun cap =>
            spawnLoan cap ((({ s with ipc } : Kernel).takeForSpawn core slot).2.procs.currentSlot
              core) slot].reduceOption
      rw [heq] at hspawn
      have hall := htake.trans hspawn
      split
      · exact ⟨hall.rings, hall.ram⟩
      · exact ⟨hall.rings, hall.ram⟩
    · rename_i s' heq
      have hspawn := schedSpawn_kept (s := (({ s with ipc } : Kernel).takeForSpawn core slot).2)
        image [some ⟨.endpoint ep, rightSend, none⟩,
          (({ s with ipc } : Kernel).takeForSpawn core slot).1.map fun cap =>
            spawnLoan cap ((({ s with ipc } : Kernel).takeForSpawn core slot).2.procs.currentSlot
              core) slot].reduceOption
      rw [heq] at hspawn
      have hall := htake.trans hspawn
      split
      · exact ⟨hall.rings, hall.ram⟩
      · exact ⟨hall.rings, hall.ram⟩

theorem transferCurrentToBlocked_kept (q : ProcSlot) (capSlot : Nat) :
    RingsKept s (s.transferCurrentToBlocked core q capSlot).2 := by
  unfold transferCurrentToBlocked
  split
  · exact .refl s
  · rename_i cap s' heq
    have hgive := giveFromCurrent_kept heq
    dsimp only
    split <;> exact ⟨hgive.rings, hgive.ram⟩

theorem transferBlockedToCurrent_kept (p : ProcSlot) (capSlot : Nat) :
    RingsKept s (s.transferBlockedToCurrent core p capSlot).2 := by
  unfold transferBlockedToCurrent
  split
  · exact .refl s
  · rename_i cap s' heq
    have hgive := giveFromBlocked_kept heq
    dsimp only
    split <;> exact ⟨hgive.rings, hgive.ram⟩

theorem ipcSend_kept (epSlot msg capSlot : Nat) :
    RingsKept s (s.ipcSend core epSlot msg capSlot).2 := by
  unfold ipcSend
  split
  · exact .refl s
  · split
    · rename_i receiver ipc _
      dsimp only
      split
      · exact ⟨rfl, rfl⟩
      · have hmove := @transferCurrentToBlocked_kept { s with ipc } core receiver capSlot
        exact ⟨hmove.rings, hmove.ram⟩
    · split
      · exact .refl s
      · exact ⟨rfl, rfl⟩

theorem ipcRecv_kept (epSlot : Nat) : RingsKept s (s.ipcRecv core epSlot).2 := by
  unfold ipcRecv
  split
  · exact .refl s
  · split
    · rename_i sender ipc _
      dsimp only
      split
      · unfold mintReplyIntoCurrent
        split <;> exact ⟨rfl, rfl⟩
      · split
        · exact ⟨rfl, rfl⟩
        · have hmove := @transferBlockedToCurrent_kept { s with ipc } core sender
            (s.procs.table sender).pendingCap
          exact ⟨hmove.rings, hmove.ram⟩
    · dsimp only
      split <;> exact ⟨rfl, rfl⟩

theorem ipcCall_kept (epSlot req : Nat) : RingsKept s (s.ipcCall core epSlot req).2 := by
  unfold ipcCall
  split
  · exact .refl s
  · dsimp only
    split
    · unfold mintReplyIntoBlocked
      split <;> exact ⟨rfl, rfl⟩
    · split
      · exact .refl s
      · exact ⟨rfl, rfl⟩

theorem ipcReply_kept (slot msg : Nat) : RingsKept s (s.ipcReply core slot msg).2 := by
  unfold ipcReply
  split
  · exact .refl s
  · split
    · exact .refl s
    · split
      · split
        · exact ⟨rfl, rfl⟩
        · exact .refl s
      · exact .refl s

theorem sysFrameAlloc_kept : RingsKept s (s.sysFrameAlloc core).2 := by
  unfold sysFrameAlloc
  split
  · exact .refl s
  · split
    · exact .refl s
    · split <;> exact ⟨rfl, rfl⟩

theorem sysFrameMap_kept (slot va : Nat) : RingsKept s (s.sysFrameMap core slot va).2 := by
  unfold sysFrameMap
  repeat' split
  all_goals exact ⟨rfl, rfl⟩

theorem sysFbMap_kept (slot va infoPtr : Nat) :
    RingsKept s (s.sysFbMap core slot va infoPtr).2 := by
  unfold sysFbMap
  dsimp only
  repeat' split
  all_goals exact ⟨rfl, rfl⟩

theorem sysBindDevice_kept (slot va infoPtr : Nat) :
    RingsKept s (s.sysBindDevice core slot va infoPtr).2 := by
  unfold sysBindDevice
  repeat' split
  all_goals exact ⟨rfl, rfl⟩

theorem bindWait_kept (slot seen : Nat) (idx : UInt16) :
    RingsKept s (s.bindWait core slot seen idx).2 := by
  unfold bindWait
  repeat' split
  all_goals exact ⟨rfl, rfl⟩

/-! ### Entries that may free rings -/

/-- The release of a ring frees it, with its subscriptions. -/
theorem release_dropped (id : RingId) : RingsDropped s { s with rings := s.rings.release id } where
  rings := by
    intro j
    unfold RingTable.release RingTable.setRing
    dsimp only
    by_cases hj : j = id
    · subst hj
      rw [Function.update_self]
      exact Or.inr rfl
    · rw [Function.update_of_ne hj]
      exact Or.inl rfl
  subs := by
    intro sub hsub
    unfold RingTable.release RingTable.setRing at hsub ⊢
    dsimp only at hsub ⊢
    obtain ⟨old, hold, heq⟩ := List.mem_map.mp hsub
    cases old with
    | none => cases heq
    | some old =>
      dsimp only at heq
      split at heq
      · cases heq
      · rename_i hne
        rw [Option.some.injEq] at heq
        subst heq
        exact ⟨hold, by rw [Function.update_of_ne hne]⟩
  ram := rfl

theorem drainCap_dropped (s : Kernel) (cap : Capability) : RingsDropped s (s.drainCap cap) := by
  unfold drainCap
  split
  · exact .of_eq rfl rfl
  · exact release_dropped _
  all_goals exact .of_eq rfl rfl

theorem teardown_dropped (proc : Process) (boot : List (Nat × Nat)) :
    RingsDropped s (s.teardown proc boot) := by
  unfold teardown
  have hstart : RingsDropped s { s with
      mem := s.mem.unmapAll proc.l4 (proc.maps.filterMap fun e => e.map Prod.fst) } := .of_eq rfl
        rfl
  have hdrain := RingsDropped.foldl drainCap_dropped proc.caps.iter { s with
    mem := s.mem.unmapAll proc.l4 (proc.maps.filterMap fun e => e.map Prod.fst) }
  have hall := hstart.trans hdrain
  exact ⟨hall.rings, hall.subs, hall.ram⟩

theorem onExit_dropped (h : s.onExit core = some t) : RingsDropped s t := by
  unfold onExit at h
  split at h
  · cases h
  · rename_i proc hc
    dsimp only at h
    rw [Option.some.injEq] at h
    subst h
    have hreclaim : RingsDropped s (({ s with procs := s.procs.setCurrent core none } :
        Kernel).reclaimLentCaps proc.caps (s.procs.currentSlot core)) := by
      refine RingsDropped.trans (t := { s with procs := s.procs.setCurrent core none })
        (.of_eq rfl rfl) ?_
      exact RingsDropped.foldl (fun u cap => (reclaimLentCap_kept _ cap).dropped) _ _
    generalize ({ s with procs := s.procs.setCurrent core none } :
      Kernel).reclaimLentCaps proc.caps (s.procs.currentSlot core) = u at hreclaim ⊢
    have htear := teardown_dropped
      (s := { (u.reapDying proc.caps) with
        procs := (u.reapDying proc.caps).procs.clearOriginsNaming (s.procs.currentSlot core) }) proc
      ((((u.reapDying proc.caps).procs.clearOriginsNaming (s.procs.currentSlot core)).table
        (s.procs.currentSlot core)).bootFrames)
    have hall := hreclaim.trans (t := u) ⟨htear.rings, htear.subs, htear.ram⟩
    exact ⟨hall.rings, hall.subs, hall.ram⟩

theorem releaseCap_dropped (proc : Process) (cap : Capability) (slot : Nat) :
    RingsDropped s (s.releaseCap core proc cap slot) := by
  unfold releaseCap
  split
  · exact .of_eq rfl rfl
  · exact release_dropped _
  · exact .of_eq rfl rfl
  · exact .of_eq rfl rfl
  · dsimp only
    have hhome := reclaimCapHome_kept (s := s.setCurrentMem core (unmapFbForSlot s.mem proc slot))
      cap
    exact RingsKept.dropped ⟨(hhome _ _).rings, (hhome _ _).ram⟩
  all_goals exact .of_eq rfl rfl

theorem sysCapRelease_dropped (slot : Nat) : RingsDropped s (s.sysCapRelease core slot).2 := by
  unfold sysCapRelease
  split
  · exact .of_eq rfl rfl
  · rename_i proc hc
    split
    · exact .of_eq rfl rfl
    · rename_i cap hlookup
      split
      · exact .of_eq rfl rfl
      · split
        · exact .of_eq rfl rfl
        · rename_i x t hrevoke
          have hrelease := @releaseCap_dropped
            { s with procs := s.procs.setCurrent core (some (proc.setCaps t)) } core
            (proc.setCaps t) cap slot
          exact ⟨hrelease.rings, hrelease.subs, hrelease.ram⟩

theorem sysCpuCharge_dropped (slot amount : Nat) :
    RingsDropped s (s.sysCpuCharge core slot amount).2 := by
  unfold sysCpuCharge
  split
  · exact .of_eq rfl rfl
  · split
    · exact .of_eq rfl rfl
    · split
      · rename_i heq
        exact onExit_dropped heq
      · exact .of_eq rfl rfl
    · exact .of_eq rfl rfl

theorem launch_dropped (count : Nat) (extra : List (Option Capability))
    (images : List (ProcSlot × Option Image)) : RingsDropped s (launch count extra images s).2 := by
  induction images generalizing s with
  | nil => exact .of_eq rfl rfl
  | cons x rest ih =>
    obtain ⟨id, image⟩ := x
    have hsetup := setupProcess_kept (s := s) id image (grantsFor count extra id)
    unfold launch
    split
    · rename_i s' heq
      rw [heq] at hsetup
      exact hsetup.dropped.trans ih
    · rename_i s' heq
      rw [heq] at hsetup
      exact hsetup.dropped

theorem teardownSlot_dropped (s : Kernel) (p : ProcSlot) : RingsDropped s (s.teardownSlot p) := by
  unfold teardownSlot
  split
  · exact .of_eq rfl rfl
  · rename_i proc _
    have htear := teardown_dropped (s := s) proc (s.procs.table p).bootFrames
    exact ⟨htear.rings, htear.subs, htear.ram⟩

theorem run_dropped (core : Core) (images : List (Option Image))
    (extra : List (Option Capability)) : RingsDropped s (s.run core images extra) := by
  unfold run
  dsimp only
  have hlaunch := launch_dropped (s := s) (min images.length maxProcesses) extra
    ((List.finRange maxProcesses).zip images)
  split
  · split
    · exact ⟨hlaunch.rings, hlaunch.subs, hlaunch.ram⟩
    · exact hlaunch
  · have hall := hlaunch.trans (RingsDropped.foldl teardownSlot_dropped
      (List.finRange maxProcesses) _)
    exact ⟨hall.rings, hall.subs, hall.ram⟩

/-! ### The registration of a ring -/

/-- A `ring_register` call leaves the rings in use alone. It writes to frames that its caller
holds. -/
structure Registration (s : Kernel) (core : Core) (t : Kernel) : Prop where
  rings : ∀ id, (s.rings.rings id).inUse = true → t.rings.rings id = s.rings.rings id
  subs : t.rings.subs = s.rings.subs
  writes : ∀ a, t.ram a ≠ s.ram a → ∃ proc b, s.procs.current core = some proc ∧
    proc.Names (.frame b) ∧ b ≤ a ∧ a < b + frameSize

theorem Registration.refl (s : Kernel) (core : Core) : Registration s core s :=
  ⟨fun _ _ => rfl, rfl, fun _ h => absurd rfl h⟩

/-- The header of a ring is in the first 16 bytes of its frame. -/
theorem header_of_outside {ram : Ram} {base a : Nat} {mask : UInt32}
    (h : ¬ (base ≤ a ∧ a < base + frameSize)) :
    (((ram.w32 (base + hdrHead) 0).w32 (base + hdrTail) 0).w32 (base + hdrMask) mask).w32
      (base + 12) 0 a = ram a := by
  unfold frameSize at h
  unfold hdrHead hdrTail hdrMask
  rw [Ram.w32_of_outside _ _ _ (by omega), Ram.w32_of_outside _ _ _ (by omega),
    Ram.w32_of_outside _ _ _ (by omega), Ram.w32_of_outside _ _ _ (by omega)]

theorem ringRegister_registration (sqSlot cqSlot entries : Nat) :
    Registration s core (s.ringRegister core sqSlot cqSlot entries).2 := by
  unfold ringRegister
  split
  · exact .refl s core
  · split
    · exact .refl s core
    · rename_i proc hc
      split
      · rename_i sqPhys _ _ cqPhys _ _ hsq hcq
        split
        · exact .refl s core
        · split
          · exact .refl s core
          · rename_i id hfree
            obtain ⟨ksq, -, hksq, -⟩ := CapTable.lookup_ok hsq
            obtain ⟨kcq, -, hkcq, -⟩ := CapTable.lookup_ok hcq
            have hother : ∀ j, (s.rings.rings j).inUse = true → j ≠ id := by
              rintro j huse rfl
              rw [firstFree_inUse hfree] at huse
              cases huse
            -- Both headers are in frames of the caller.
            have hwrites : ∀ {mask : UInt32} {a : Nat},
                (((((((s.ram.w32 (sqPhys + hdrHead) 0).w32 (sqPhys + hdrTail) 0).w32
                  (sqPhys + hdrMask) mask).w32 (sqPhys + 12) 0).w32 (cqPhys + hdrHead) 0).w32
                  (cqPhys + hdrTail) 0).w32 (cqPhys + hdrMask) mask).w32 (cqPhys + 12) 0 a
                  ≠ s.ram a →
                ∃ proc b, s.procs.current core = some proc ∧ proc.Names (.frame b) ∧ b ≤ a ∧
                  a < b + frameSize := by
              intro mask a hne
              by_cases hcov : cqPhys ≤ a ∧ a < cqPhys + frameSize
              · exact ⟨proc, cqPhys, hc, ⟨kcq, _, hkcq, rfl⟩, hcov⟩
              · rw [header_of_outside hcov] at hne
                by_cases hcov' : sqPhys ≤ a ∧ a < sqPhys + frameSize
                · exact ⟨proc, sqPhys, hc, ⟨ksq, _, hksq, rfl⟩, hcov'⟩
                · rw [header_of_outside hcov'] at hne
                  exact absurd rfl hne
            dsimp only
            split
            · exact ⟨fun j huse => Function.update_of_ne (hother j huse) .., rfl,
                fun a hne => hwrites hne⟩
            · refine ⟨fun j huse => ?_, rfl, fun a hne => hwrites hne⟩
              unfold RingTable.setRing
              dsimp only
              rw [Function.update_idem, Function.update_of_ne (hother j huse)]
      · exact .refl s core

/-! ### All entries -/

/-- What an entry does to the rings and to memory. -/
theorem step_rings (hnext : s.step ℓ = some t) :
    RingsDropped s t ∨
      Work (fun id => ∃ userData, s.Posts ℓ id userData)
        (fun id => ∃ core slot, ℓ = .ringSubmit core slot ∧ s.ringIdFor core slot = some id) s t ∨
      (∃ core sqSlot cqSlot entries, ℓ = .ringRegister core sqSlot cqSlot entries ∧
        Registration s core t) ∨
      ∃ ram, ℓ = .memory ram ∧ t = { s with ram } := by
  cases ℓ with
  | createEndpoint =>
    obtain ⟨r, hr, rfl⟩ := Option.map_eq_some_iff.mp hnext
    exact Or.inl (.of_eq rfl rfl)
  | run core images extra =>
    change (if s.canRun core images extra then some (s.run core images extra) else none)
      = some t at hnext
    split at hnext
    · cases hnext
      exact Or.inl (run_dropped core images extra)
    · cases hnext
  | frameAlloc core =>
    obtain ⟨-, rfl⟩ := onCore_some hnext
    exact Or.inl sysFrameAlloc_kept.dropped
  | frameMap core slot va =>
    obtain ⟨-, rfl⟩ := onCore_some hnext
    exact Or.inl (sysFrameMap_kept slot va).dropped
  | fbMap core slot va infoPtr =>
    obtain ⟨-, rfl⟩ := onCore_some hnext
    exact Or.inl (sysFbMap_kept slot va infoPtr).dropped
  | bindDevice core slot va infoPtr =>
    obtain ⟨-, rfl⟩ := onCore_some hnext
    exact Or.inl (sysBindDevice_kept slot va infoPtr).dropped
  | capRelease core slot =>
    obtain ⟨-, rfl⟩ := onCore_some hnext
    exact Or.inl (sysCapRelease_dropped slot)
  | cpuCharge core slot amount =>
    obtain ⟨-, rfl⟩ := onCore_some hnext
    exact Or.inl (sysCpuCharge_dropped slot amount)
  | spawn core binary slot =>
    obtain ⟨-, rfl⟩ := onCore_some hnext
    unfold sysSpawn
    split
    · exact Or.inl (.refl s)
    · exact Or.inl (spawnScheduled_kept _ slot).dropped
  | spawnFromBuffer core bufVa len image slot =>
    obtain ⟨-, rfl⟩ := onCore_some hnext
    unfold sysSpawnFromBuffer
    split
    · exact Or.inl (.refl s)
    · split
      · exact Or.inl (.refl s)
      · split
        · exact Or.inl (spawnScheduled_kept image slot).dropped
        · exact Or.inl (.refl s)
  | send core epSlot msg capSlot =>
    obtain ⟨-, rfl⟩ := onCore_some hnext
    exact Or.inl (ipcSend_kept epSlot msg capSlot).dropped
  | recv core epSlot =>
    obtain ⟨-, rfl⟩ := onCore_some hnext
    exact Or.inl (ipcRecv_kept epSlot).dropped
  | call core epSlot req =>
    obtain ⟨-, rfl⟩ := onCore_some hnext
    exact Or.inl (ipcCall_kept epSlot req).dropped
  | reply core slot msg =>
    obtain ⟨-, rfl⟩ := onCore_some hnext
    exact Or.inl (ipcReply_kept slot msg).dropped
  | ringRegister core sqSlot cqSlot entries =>
    obtain ⟨-, rfl⟩ := onCore_some hnext
    exact Or.inr (Or.inr (Or.inl
      ⟨core, sqSlot, cqSlot, entries, rfl, ringRegister_registration sqSlot cqSlot entries⟩))
  | ringSubmit core slot =>
    obtain ⟨-, rfl⟩ := onCore_some hnext
    exact Or.inr (Or.inl (work_ringSubmit slot
      fun id hid => ⟨⟨0, hid⟩, core, slot, rfl, hid⟩))
  | ringWait core slot =>
    obtain ⟨-, rfl⟩ := onCore_some hnext
    exact Or.inr (Or.inl (work_ringWait slot))
  | bindWait core slot seen idx =>
    obtain ⟨-, rfl⟩ := onCore_some hnext
    exact Or.inl (bindWait_kept slot seen idx).dropped
  | exit core => exact Or.inl (onExit_dropped hnext)
  | preempt core =>
    obtain ⟨P, hP, rfl⟩ := Option.map_eq_some_iff.mp hnext
    exact Or.inl (.of_eq rfl rfl)
  | resume core p =>
    obtain ⟨P, hP, rfl⟩ := Option.map_eq_some_iff.mp hnext
    exact Or.inl (.of_eq rfl rfl)
  | completeIrq dev used =>
    cases hnext
    exact Or.inr (Or.inl (work_completeIrq dev used
      fun d slot id userData hd hbound hroute => ⟨userData, d, slot, hd, hbound, hroute⟩))
  | deliverEvent source event =>
    have ht : s.deliverEvent source event = t := Option.some.inj hnext
    rw [← ht]
    refine Or.inr (Or.inl (work_deliverEvent source event ?_
      fun sub hsub hsource => ⟨sub.userData, sub, hsub, hsource, rfl, rfl⟩))
    rintro id ⟨core, slot, hℓ, -⟩
    cases hℓ
  | memory ram =>
    cases hnext
    exact Or.inr (Or.inr (Or.inr ⟨ram, rfl, rfl⟩))

end Kernel

end Plinth
