import Plinth.Runs.Conserved
import Plinth.Runs.Homecoming

/-!
# `Plinth.Runs.Landings`: a landing slot that is reported holds what came home

When a process dies, the capabilities that it borrowed go home, and the kernel notes for each
lender the slot where the first one landed. A later wait of the lender that ends with
`IPC_PEER_DIED` reports the noted slot and clears the note.

The note is a bare slot number, and nothing stops the lender from giving the capability away or
releasing it before the report. `landing_truthful` says that this is the only gap: in every run in
which no entry takes a capability from a noted slot, a reported slot holds a capability that came
home to it from a process that died, and nothing has reported it before.
-/

set_option autoImplicit false

namespace Plinth

open Transition

namespace Procs

/-- The landing slot that is noted for the process in slot `p`. -/
def landing (P : Procs) (p : ProcSlot) : Nat := (P.table p).pendingLanding

/-- Nothing is noted anew: a landing slot that `P'` notes is noted in `P`. -/
structure Fades (P P' : Procs) : Prop where
  landing : ∀ p, P'.landing p = P.landing p ∨ P'.landing p = noCap

namespace Fades

variable {P P' P'' : Procs} {α : Type}

theorem refl (P : Procs) : Fades P P := ⟨fun _ => Or.inl rfl⟩

theorem trans (h : Fades P P') (h' : Fades P' P'') : Fades P P'' := by
  constructor
  intro p
  rcases h'.landing p with hsame | hnone
  · rw [hsame]
    exact h.landing p
  · exact Or.inr hnone

/-- The table of the slots is the same. -/
theorem of_table (h : P'.table = P.table) : Fades P P' :=
  ⟨fun p => Or.inl (by unfold Procs.landing; rw [h])⟩

/-- One slot of the table is written. -/
theorem of_update {p : ProcSlot} {x : Slot} (htable : P'.table = Function.update P.table p x)
    (h : x.pendingLanding = P.landing p ∨ x.pendingLanding = noCap) : Fades P P' := by
  constructor
  intro q
  unfold Procs.landing
  rw [htable]
  by_cases hq : q = p
  · subst hq
    rw [Function.update_self]
    exact h
  · rw [Function.update_of_ne hq]
    exact Or.inl rfl

theorem setSlot {p : ProcSlot} {x : Slot}
    (h : x.pendingLanding = P.landing p ∨ x.pendingLanding = noCap) :
    Fades P (P.setSlot p x) := of_update rfl h

theorem setTableProc (P : Procs) (p : ProcSlot) (proc : Option Process) :
    Fades P (P.setTableProc p proc) := setSlot (Or.inl rfl)

theorem wakeWith (P : Procs) (p : ProcSlot) (status payload landing : Nat) :
    Fades P (P.wakeWith p status payload landing) :=
  of_update (P := P) (p := p) rfl (Or.inl rfl)

theorem setPending (P : Procs) (p : ProcSlot) (msg cap : Nat) (isCall : Bool) :
    Fades P (P.setPending p msg cap isCall) := setSlot (Or.inl rfl)

theorem takeReclaimLanding (P : Procs) (p : ProcSlot) :
    Fades P (P.takeReclaimLanding p).2 := setSlot (Or.inr rfl)

theorem blockCurrent (P : Procs) (core : Core) : Fades P (P.blockCurrent core) := by
  unfold Procs.blockCurrent
  split
  · exact refl P
  · exact of_update rfl (Or.inl rfl)

theorem preempt {core : Core} (h : P.preempt core = some P') : Fades P P' := by
  unfold Procs.preempt at h
  split at h
  · cases h
  · cases h
    exact of_update rfl (Or.inl rfl)

theorem resume {core : Core} {p : ProcSlot} (h : P.resume core p = some P') : Fades P P' := by
  unfold Procs.resume at h
  split at h
  · split at h
    · cases h
    · cases h
      exact of_update rfl (Or.inl rfl)
  · cases h

theorem onCurrent {core : Core} {f : CapTable → Option (α × CapTable)} {a : α}
    (h : P.onCurrent core f = some (a, P')) : Fades P P' := by
  obtain ⟨x, t, -, -, rfl⟩ := onCurrent_eq_some.mp h
  exact of_table rfl

theorem onTable {p : ProcSlot} {f : CapTable → Option (α × CapTable)} {a : α}
    (h : P.onTable p f = some (a, P')) : Fades P P' := by
  obtain ⟨x, t, -, -, rfl⟩ := onTable_eq_some.mp h
  exact setTableProc P p _

theorem withLenderCaps {p : ProcSlot} {f : CapTable → Option (α × CapTable)} {a : α}
    (h : P.withLenderCaps p f = some (some (a, P'))) : Fades P P' := by
  unfold Procs.withLenderCaps at h
  split at h
  · simp only [Option.some.injEq] at h
    exact onTable h
  · split at h
    · simp only [Option.some.injEq] at h
      exact onCurrent h
    · cases h

theorem wakeAll (wakes : List ProcSlot) (P : Procs) : Fades P (Kernel.wakeAll P wakes) := by
  induction wakes generalizing P with
  | nil => exact refl P
  | cons w wakes ih => exact (wakeWith P w 0 0 noCap).trans (ih _)

end Fades

end Procs

namespace Kernel

open Procs (Fades)

variable {s t : Kernel} {core : Core}

/-! ### The entries without an exit note nothing -/

theorem setupProcess_fades (s : Kernel) (id : ProcSlot) (image : Option Image)
    (caps : List Capability) : Fades s.procs (s.setupProcess id image caps).2.procs := by
  unfold setupProcess
  split
  · exact .refl _
  · split
    · exact .refl _
    · split
      · exact .refl _
      · exact .setSlot (Or.inl rfl)

theorem launch_fades (count : Nat) (extra : List (Option Capability))
    (ids : List (ProcSlot × Option Image)) (s : Kernel) :
    Fades s.procs (launch count extra ids s).2.procs := by
  induction ids generalizing s with
  | nil => exact .refl _
  | cons x ids ih =>
    obtain ⟨id, image⟩ := x
    have hset := setupProcess_fades s id image (grantsFor count extra id)
    unfold launch
    split
    · rename_i s' heq
      rw [heq] at hset
      exact hset.trans (ih s')
    · rename_i s' heq
      rw [heq] at hset
      exact hset

theorem teardownSlot_fades (s : Kernel) (p : ProcSlot) :
    Fades s.procs (s.teardownSlot p).procs := by
  unfold teardownSlot
  split
  · exact .setSlot (Or.inr rfl)
  · dsimp only
    rw [teardown_procs]
    exact .setSlot (Or.inr rfl)

theorem teardownAll_fades (s : Kernel) : Fades s.procs s.teardownAll.procs := by
  have hall : ∀ (ids : List ProcSlot) (s : Kernel),
      Fades s.procs (ids.foldl teardownSlot s).procs := by
    intro ids
    induction ids with
    | nil => exact fun _ => .refl _
    | cons p ids ih => exact fun s => (teardownSlot_fades s p).trans (ih _)
  exact hall _ s

theorem run_fades (s : Kernel) (core : Core) (images : List (Option Image))
    (extra : List (Option Capability)) : Fades s.procs (s.run core images extra).procs := by
  have hlaunch := launch_fades (min images.length maxProcesses) extra
    ((List.finRange maxProcesses).zip images) s
  unfold run
  dsimp only
  split
  · split
    · rename_i procs hresume
      exact hlaunch.trans (.resume hresume)
    · exact hlaunch
  · exact hlaunch.trans (teardownAll_fades _)

theorem schedSpawn_fades (s : Kernel) (image : Option Image) (caps : List Capability) :
    Fades s.procs (s.schedSpawn image caps).2.procs := by
  unfold schedSpawn
  split
  · exact .refl _
  · rename_i id _
    have hset := setupProcess_fades s id image caps
    split
    · rename_i s' heq
      rw [heq] at hset
      exact hset
    · rename_i s' heq
      rw [heq] at hset
      exact hset

theorem onCore_fades {s' : Kernel} (h : s.onCore core s' = some t)
    (hfades : Fades s.procs s'.procs) : Fades s.procs t.procs := by
  rw [(onCore_some h).2]
  exact hfades

theorem reclaimCapHome_fades (s : Kernel) (cap : Capability) (o : Origin) (home : Capability) :
    Fades s.procs (s.reclaimCapHome cap o home).2.procs := by
  unfold reclaimCapHome
  split
  · exact .refl _
  · exact .refl _
  · rename_i landing procs hlender
    exact .withLenderCaps hlender

theorem releaseCap_fades (s : Kernel) (core : Core) (proc : Process) (cap : Capability)
    (slot : Nat) : Fades s.procs (s.releaseCap core proc cap slot).procs := by
  unfold releaseCap
  split
  · exact .of_table rfl
  · exact .refl _
  · exact .refl _
  · exact .of_table rfl
  · have hset : Fades s.procs (s.setCurrentMem core (unmapFbForSlot s.mem proc slot)).procs :=
      .of_table rfl
    exact hset.trans (reclaimCapHome_fades ..)
  · exact .refl _
  · exact .refl _
  · exact .refl _

theorem sysCapRelease_fades (s : Kernel) (core : Core) (slot : Nat) :
    Fades s.procs (s.sysCapRelease core slot).2.procs := by
  unfold sysCapRelease
  split
  · exact .refl _
  · split
    · exact .refl _
    · split
      · exact .refl _
      · split
        · exact .refl _
        · refine Fades.trans ?_ (releaseCap_fades ..)
          exact .of_table rfl

theorem sysFrameAlloc_fades (s : Kernel) (core : Core) :
    Fades s.procs (s.sysFrameAlloc core).2.procs := by
  unfold sysFrameAlloc
  split
  · exact .refl _
  · split
    · exact .refl _
    · split
      · exact .of_table rfl
      · exact .refl _

theorem sysFrameMap_fades (s : Kernel) (core : Core) (slot va : Nat) :
    Fades s.procs (s.sysFrameMap core slot va).2.procs := by
  unfold sysFrameMap
  split
  · exact .refl _
  · split
    · exact .refl _
    · split
      · split
        · exact .refl _
        · split
          · exact .refl _
          · split
            · exact .refl _
            · exact .of_table rfl
      · exact .refl _

theorem sysFbMap_fades (s : Kernel) (core : Core) (slot va infoPtr : Nat) :
    Fades s.procs (s.sysFbMap core slot va infoPtr).2.procs := by
  unfold sysFbMap
  split
  · exact .refl _
  · split
    · dsimp only
      split
      · exact .refl _
      · split
        · exact .refl _
        · split
          · exact .refl _
          · exact .of_table rfl
    · exact .refl _

theorem sysBindDevice_fades (s : Kernel) (core : Core) (slot va infoPtr : Nat) :
    Fades s.procs (s.sysBindDevice core slot va infoPtr).2.procs := by
  unfold sysBindDevice
  split
  · exact .refl _
  · split
    · split
      · exact .refl _
      · split
        · exact .refl _
        · split
          · exact .refl _
          · exact .refl _
    · exact .refl _

/-! ### Transfers -/

theorem giveFromCurrent_fades {cap : Capability} {slot : Nat}
    (h : s.giveFromCurrent core slot = some (cap, t)) : Fades s.procs t.procs := by
  unfold giveFromCurrent at h
  split at h
  · cases h
  · split at h
    · cases h
    · cases h
      exact .of_table rfl

theorem giveFromBlocked_fades {cap : Capability} {p : ProcSlot} {slot : Nat}
    (h : s.giveFromBlocked p slot = some (cap, t)) : Fades s.procs t.procs := by
  unfold giveFromBlocked at h
  split at h
  · cases h
  · split at h
    · cases h
    · cases h
      exact .setTableProc ..

theorem restoreToCurrent_fades (P : Procs) (core : Core) (cap : Capability) :
    Fades P (restoreToCurrent P core cap) := by
  unfold restoreToCurrent
  split
  · rename_i h
    exact .onCurrent h
  · exact .refl _

theorem restoreToBlocked_fades (P : Procs) (p : ProcSlot) (cap : Capability) :
    Fades P (restoreToBlocked P p cap) := by
  unfold restoreToBlocked
  split
  · rename_i h
    exact .onTable h
  · exact .refl _

theorem transferCurrentToBlocked_fades (s : Kernel) (core : Core) (receiver : ProcSlot)
    (slot : Nat) : Fades s.procs (s.transferCurrentToBlocked core receiver slot).2.procs := by
  unfold transferCurrentToBlocked
  split
  · exact .refl _
  · rename_i cap s' hgive
    refine (giveFromCurrent_fades hgive).trans ?_
    dsimp only
    split
    · rename_i landing procs hin
      exact .onTable hin
    · exact restoreToCurrent_fades ..

theorem transferBlockedToCurrent_fades (s : Kernel) (core : Core) (sender : ProcSlot)
    (slot : Nat) : Fades s.procs (s.transferBlockedToCurrent core sender slot).2.procs := by
  unfold transferBlockedToCurrent
  split
  · exact .refl _
  · rename_i cap s' hgive
    refine (giveFromBlocked_fades hgive).trans ?_
    dsimp only
    split
    · rename_i landing procs hin
      exact .onCurrent hin
    · exact restoreToBlocked_fades ..

theorem mintReplyIntoCurrent_fades (s : Kernel) (core : Core) (caller : ProcSlot) :
    Fades s.procs (s.mintReplyIntoCurrent core caller).2.procs := by
  unfold mintReplyIntoCurrent
  split
  · rename_i h
    exact .onCurrent h
  · exact .refl _

theorem mintReplyIntoBlocked_fades (s : Kernel) (server caller : ProcSlot) :
    Fades s.procs (s.mintReplyIntoBlocked server caller).2.procs := by
  unfold mintReplyIntoBlocked
  split
  · rename_i h
    exact .onTable h
  · exact .refl _

theorem ipcSend_fades (s : Kernel) (core : Core) (epSlot msg capSlot : Nat) :
    Fades s.procs (s.ipcSend core epSlot msg capSlot).2.procs := by
  unfold ipcSend
  split
  · exact .refl _
  · split
    · rename_i receiver ipc _
      dsimp only
      split
      · exact .wakeWith ..
      · exact (transferCurrentToBlocked_fades { s with ipc } core receiver capSlot).trans
          (.wakeWith ..)
    · split
      · exact .refl _
      · exact (Fades.setPending ..).trans (.blockCurrent ..)

theorem ipcRecv_fades (s : Kernel) (core : Core) (epSlot : Nat) :
    Fades s.procs (s.ipcRecv core epSlot).2.procs := by
  unfold ipcRecv
  split
  · exact .refl _
  · split
    · rename_i sender ipc _
      dsimp only
      split
      · exact mintReplyIntoCurrent_fades { s with ipc } core sender
      · split
        · exact .wakeWith ..
        · exact (transferBlockedToCurrent_fades { s with ipc } core sender _).trans (.wakeWith ..)
    · dsimp only
      split
      · exact .takeReclaimLanding ..
      · exact .blockCurrent ..

theorem ipcCall_fades (s : Kernel) (core : Core) (epSlot req : Nat) :
    Fades s.procs (s.ipcCall core epSlot req).2.procs := by
  unfold ipcCall
  split
  · exact .refl _
  · dsimp only
    split
    · rename_i server ipc _
      exact ((mintReplyIntoBlocked_fades { s with ipc } server _).trans (.wakeWith ..)).trans
        (.blockCurrent ..)
    · split
      · exact .refl _
      · exact (Fades.setPending ..).trans (.blockCurrent ..)

theorem ipcReply_fades (s : Kernel) (core : Core) (replySlot msg : Nat) :
    Fades s.procs (s.ipcReply core replySlot msg).2.procs := by
  unfold ipcReply
  split
  · exact .refl _
  · split
    · exact .refl _
    · split
      · rename_i caller _
        split
        · dsimp only
          have hwake : Fades s.procs (s.procs.wakeWith caller ipcOk msg noCap) := .wakeWith ..
          split
          · rename_i h
            exact hwake.trans (.onCurrent h)
          · exact hwake
        · exact .refl _
      · exact .refl _

theorem takeForSpawn_fades (s : Kernel) (core : Core) (slot : Nat) :
    Fades s.procs (s.takeForSpawn core slot).2.procs := by
  unfold takeForSpawn
  split
  · exact .refl _
  · split
    · exact .refl _
    · rename_i cap s' hgive
      exact giveFromCurrent_fades hgive

theorem undoTransfer_fades (s : Kernel) (core : Core) (slot : Nat) (cap : Capability) :
    Fades s.procs (s.undoTransfer core slot cap).procs := by
  unfold undoTransfer
  dsimp only
  split
  · split
    · rename_i h
      exact .onCurrent h
    · exact .refl _
  · refine .trans ?_ (restoreToCurrent_fades ..)
    split
    · rename_i h
      exact .onCurrent h
    · exact .refl _

theorem spawnScheduled_fades (s : Kernel) (core : Core) (image : Option Image) (slot : Nat) :
    Fades s.procs (s.spawnScheduled core image slot).2.procs := by
  unfold spawnScheduled
  split
  · exact .refl _
  · rename_i ep ipc _
    have htake := takeForSpawn_fades { s with ipc } core slot
    dsimp only
    split
    · rename_i s' hspawn
      have hset := schedSpawn_fades (({ s with ipc } : Kernel).takeForSpawn core slot).2 image
        ([some ⟨.endpoint ep, rightSend, none⟩,
          (({ s with ipc } : Kernel).takeForSpawn core slot).1.map fun cap =>
            spawnLoan cap ((({ s with ipc } : Kernel).takeForSpawn core slot).2.procs.currentSlot
              core) slot].reduceOption)
      rw [hspawn] at hset
      split
      · exact (htake.trans hset).trans (undoTransfer_fades ..)
      · exact htake.trans hset
    · rename_i id s' hspawn
      have hset := schedSpawn_fades (({ s with ipc } : Kernel).takeForSpawn core slot).2 image
        ([some ⟨.endpoint ep, rightSend, none⟩,
          (({ s with ipc } : Kernel).takeForSpawn core slot).1.map fun cap =>
            spawnLoan cap ((({ s with ipc } : Kernel).takeForSpawn core slot).2.procs.currentSlot
              core) slot].reduceOption)
      rw [hspawn] at hset
      split
      · rename_i h procs hmint
        exact (htake.trans hset).trans (.onCurrent hmint)
      · exact htake.trans hset

theorem sysSpawn_fades (s : Kernel) (core : Core) (binary : Option (Option Image)) (slot : Nat) :
    Fades s.procs (s.sysSpawn core binary slot).2.procs := by
  unfold sysSpawn
  split
  · exact .refl _
  · exact spawnScheduled_fades ..

theorem sysSpawnFromBuffer_fades (s : Kernel) (core : Core) (bufVa len : Nat)
    (image : Option Image) (slot : Nat) :
    Fades s.procs (s.sysSpawnFromBuffer core bufVa len image slot).2.procs := by
  unfold sysSpawnFromBuffer
  split
  · exact .refl _
  · split
    · exact .refl _
    · split
      · exact spawnScheduled_fades ..
      · exact .refl _

/-! ### Rings and devices -/

theorem ringRegister_fades (s : Kernel) (core : Core) (sqSlot cqSlot entries : Nat) :
    Fades s.procs (s.ringRegister core sqSlot cqSlot entries).2.procs := by
  unfold ringRegister
  split
  · exact .refl _
  · split
    · exact .refl _
    · split
      · split
        · exact .refl _
        · split
          · exact .refl _
          · dsimp only
            split
            · exact .of_table rfl
            · exact .refl _
      · exact .refl _

theorem ringWait_fades (s : Kernel) (core : Core) (ringSlot : Nat) :
    Fades s.procs (s.ringWait core ringSlot).2.procs := by
  unfold ringWait
  split
  · exact .refl _
  · dsimp only
    split
    · exact .refl _
    · exact .blockCurrent ..

theorem bindWait_fades (s : Kernel) (core : Core) (bindSlot usedSeen : Nat) (usedIdx : UInt16) :
    Fades s.procs (s.bindWait core bindSlot usedSeen usedIdx).2.procs := by
  unfold bindWait
  split
  · exact .refl _
  · split
    · split
      · exact .refl _
      · split
        · exact .refl _
        · split
          · exact .refl _
          · exact .blockCurrent ..
    · exact .refl _

theorem completeIrq_fades (s : Kernel) (dev : DevId) (used : List (Nat × UInt8)) :
    Fades s.procs (s.completeIrq dev used).procs := by
  unfold completeIrq
  split
  · exact .refl _
  · split
    · exact .wakeAll ..
    · exact .wakeAll ..

theorem deliverEvent_fades (s : Kernel) (source : Nat) (event : UInt32) :
    Fades s.procs (s.deliverEvent source event).procs := by
  unfold deliverEvent
  dsimp only
  exact .wakeAll ..

theorem postBlock_procs (s : Kernel) (caps : CapTable) (id : RingId) (e : SqEntry)
    (rangeRight frameRight : Rights) (dir : Direction) :
    (s.postBlock caps id e rangeRight frameRight dir).2.procs = s.procs := by
  unfold postBlock
  split
  · rfl
  · split
    · rfl
    · split
      · split
        · rfl
        · rfl
      · rfl

theorem postEntry_procs (s : Kernel) (caps : CapTable) (id : RingId) (e : SqEntry) :
    (s.postEntry caps id e).2.procs = s.procs := by
  unfold postEntry
  split
  · exact postBlock_procs ..
  · split
    · exact postBlock_procs ..
    · split
      · unfold postEventSub
        split
        · rfl
        · split
          · rfl
          · rfl
      · split
        · rfl
        · rfl

theorem submitLoop_procs (caps : CapTable) (id : RingId) (sqBase : Nat) (mask : UInt32) (n : Nat)
    (head : UInt32) (consumed : Nat) (s : Kernel) :
    (submitLoop caps id sqBase mask n head consumed s).2.2.procs = s.procs := by
  induction n generalizing head consumed s with
  | zero => rfl
  | succ n ih =>
    have hentry := postEntry_procs s caps id (readSqEntry s.ram sqBase (head &&& mask).toNat)
    unfold submitLoop
    split
    · rename_i s' heq
      rw [heq] at hentry
      rw [ih]
      exact hentry
    · rename_i s' heq
      rw [heq] at hentry
      exact hentry

theorem ringSubmit_procs (s : Kernel) (core : Core) (ringSlot : Nat) :
    (s.ringSubmit core ringSlot).2.procs = s.procs := by
  unfold ringSubmit
  split
  · exact submitLoop_procs ..
  · rfl

/-- An entry in which no process exits notes no landing. -/
theorem step_fades {ℓ : Label} (hnext : s.step ℓ = some t) (hstay : s.leaver ℓ = none) :
    Fades s.procs t.procs := by
  cases ℓ with
  | createEndpoint =>
    obtain ⟨r, -, rfl⟩ := Option.map_eq_some_iff.mp hnext
    exact .refl _
  | run core images extra =>
    unfold step at hnext
    dsimp only at hnext
    split at hnext
    · cases hnext
      exact run_fades ..
    · cases hnext
  | frameAlloc core => exact onCore_fades hnext (sysFrameAlloc_fades ..)
  | frameMap core slot va => exact onCore_fades hnext (sysFrameMap_fades ..)
  | fbMap core slot va infoPtr => exact onCore_fades hnext (sysFbMap_fades ..)
  | bindDevice core slot va infoPtr => exact onCore_fades hnext (sysBindDevice_fades ..)
  | capRelease core slot => exact onCore_fades hnext (sysCapRelease_fades ..)
  | cpuCharge core slot amount =>
    refine onCore_fades hnext ?_
    change (if s.overdrawn core slot amount then some (s.procs.currentSlot core) else none)
      = none at hstay
    split at hstay
    · cases hstay
    · rename_i hover
      unfold sysCpuCharge
      split
      · exact .refl _
      · rename_i proc hc
        split
        · exact .of_table rfl
        · rename_i hcharge
          exact absurd (overdrawn_of core slot amount ⟨proc, hc, hcharge⟩) hover
        · exact .refl _
  | spawn core binary slot => exact onCore_fades hnext (sysSpawn_fades ..)
  | spawnFromBuffer core bufVa len image slot =>
    exact onCore_fades hnext (sysSpawnFromBuffer_fades ..)
  | send core epSlot msg capSlot => exact onCore_fades hnext (ipcSend_fades ..)
  | recv core epSlot => exact onCore_fades hnext (ipcRecv_fades ..)
  | call core epSlot req => exact onCore_fades hnext (ipcCall_fades ..)
  | reply core slot msg => exact onCore_fades hnext (ipcReply_fades ..)
  | ringRegister core sqSlot cqSlot entries =>
    exact onCore_fades hnext (ringRegister_fades ..)
  | ringSubmit core ringSlot =>
    exact onCore_fades hnext (by rw [ringSubmit_procs]; exact .refl _)
  | ringWait core ringSlot => exact onCore_fades hnext (ringWait_fades ..)
  | bindWait core bindSlot usedSeen usedIdx => exact onCore_fades hnext (bindWait_fades ..)
  | exit core => cases hstay
  | preempt core =>
    obtain ⟨P, hP, rfl⟩ := Option.map_eq_some_iff.mp hnext
    exact .preempt hP
  | resume core p =>
    obtain ⟨P, hP, rfl⟩ := Option.map_eq_some_iff.mp hnext
    exact .resume hP
  | completeIrq dev used =>
    obtain rfl : s.completeIrq dev used = t := Option.some.inj hnext
    exact completeIrq_fades ..
  | deliverEvent source event =>
    obtain rfl : s.deliverEvent source event = t := Option.some.inj hnext
    exact deliverEvent_fades ..
  | memory ram =>
    obtain rfl : { s with ram } = t := Option.some.inj hnext
    exact .refl _

/-! ### The landings of an exit -/

variable {p q : ProcSlot} {k : CapSlot} {cap home : Capability} {o : Origin}

/-- The loop of `reclaim_lent_caps` puts capabilities into empty slots, and the first one that
lands with a lender is noted. -/
structure Lands (cur : ProcSlot) (L : List Capability) (s t : Kernel) : Prop where
  placed : Placed t.procs
  state : t.procs.state = s.procs.state
  keeps : ∀ q k cap, s.capAt q k = some cap → t.capAt q k = some cap
  noted : ∀ q, t.procs.landing q = s.procs.landing q ∨ s.procs.landing q = noCap ∧
    ∃ cap ∈ L, ∃ o home k, reclaimTarget cap cur = some (o, home) ∧ o.lender = q ∧
      t.procs.landing q = (k : CapSlot) ∧ s.capAt q k = none ∧ t.capAt q k = some home

theorem Lands.refl {cur : ProcSlot} {L : List Capability} (h : Placed s.procs) :
    Lands cur L s s :=
  ⟨h, rfl, fun _ _ _ hcap => hcap, fun _ => Or.inl rfl⟩

theorem noCap_ne_slot (k : CapSlot) : (k : Nat) ≠ noCap := by
  have hk := k.isLt
  unfold noCap u64Max
  unfold maxCaps at hk
  omega

theorem setReclaimLanding_state (P : Procs) (p : ProcSlot) (landing : Nat) :
    (P.setReclaimLanding p landing).state = P.state := by
  unfold Procs.setReclaimLanding
  split
  · funext q
    unfold Procs.state
    by_cases hq : q = p
    · subst hq
      rw [Procs.setSlot_table_self]
    · rw [Procs.setSlot_table_of_ne _ _ hq]
  · rfl

/-- One capability goes home. -/
theorem reclaimLentCap_lands (h : Placed s.procs) (cur : ProcSlot) (cap : Capability) :
    Lands cur [cap] s (reclaimLentCap cur s cap) := by
  unfold reclaimLentCap
  cases htarget : reclaimTarget cap cur with
  | none => exact .refl h
  | some r =>
    obtain ⟨o, home⟩ := r
    dsimp only
    cases hproc : s.procs.proc o.lender with
    | none =>
      have hnone : s.reclaimCapHome cap o home = (.noLender, s) := by
        unfold reclaimCapHome
        rw [(Procs.withLenderCaps_eq_none h).mpr hproc]
      rw [hnone]
      exact ⟨h, rfl, fun _ _ _ hcap => hcap, fun _ => Or.inl rfl⟩
    | some proc =>
      rcases Procs.withLenderCaps_eq_some (p := o.lender)
        (f := fun t => t.goHome o.home home) h hproc with ⟨-, hfull⟩ |
          ⟨landing, T, P', hin, hwith, hwrites⟩
      · rw [reclaimCapHome_full hfull]
        exact .refl h
      · rw [reclaimCapHome_landed hwith]
        dsimp only
        obtain ⟨hplaced, hsame⟩ := setReclaimLanding_placed hwrites.placed o.lender landing
        obtain ⟨hplaces, -⟩ := CapTable.goHome_some hin
        have hat : ∀ q k, ((P'.setReclaimLanding o.lender landing).proc q).bind
            (fun proc => proc.caps.slots k) =
              if q = o.lender ∧ k = landing then some home else s.capAt q k := by
          intro q k
          rw [hsame, hwrites.proc]
          by_cases hq : q = o.lender
          · subst hq
            rw [Function.update_self, Option.bind_some, Process.setCaps_caps, hplaces.slots]
            by_cases hk : k = landing
            · rw [if_pos ⟨rfl, hk⟩, hk, Function.update_self]
            · rw [if_neg fun hand => hk hand.2, Function.update_of_ne hk]
              unfold capAt
              rw [hproc]
              rfl
          · rw [if_neg fun hand => hq hand.1, Function.update_of_ne hq]
            rfl
        have hempty : s.capAt o.lender landing = none := by
          unfold capAt
          rw [hproc]
          exact hplaces.empty
        refine ⟨hplaced, ?_, fun q k c hc => ?_, fun q => ?_⟩
        · rw [setReclaimLanding_state]
          funext x
          unfold Procs.state
          rw [hwrites.slots x]
        · refine (hat q k).trans ?_
          rw [if_neg, hc]
          rintro ⟨rfl, rfl⟩
          rw [hempty] at hc
          cases hc
        · have hland : P'.landing = s.procs.landing := by
            funext x
            unfold Procs.landing
            rw [hwrites.slots x]
          by_cases hnote : P'.landing o.lender = noCap
          · -- The slot is noted for the lender.
            have hset : P'.setReclaimLanding o.lender landing = P'.setSlot o.lender
                { P'.table o.lender with pendingLanding := landing } := if_pos hnote
            rw [hset] at hat ⊢
            by_cases hq : q = o.lender
            · subst hq
              refine Or.inr ⟨by rw [← hland]; exact hnote, cap, List.mem_singleton_self _, o, home,
                landing, htarget, rfl, ?_, hempty, (hat o.lender landing).trans (if_pos ⟨rfl, rfl⟩)⟩
              unfold Procs.landing
              dsimp only
              rw [Procs.setSlot_table_self]
            · refine Or.inl ?_
              rw [← hland]
              unfold Procs.landing
              dsimp only
              rw [Procs.setSlot_table_of_ne _ _ hq]
          · have hset : P'.setReclaimLanding o.lender landing = P' := if_neg hnote
            rw [hset, hland]
            exact Or.inl rfl

theorem Lands.head {cur : ProcSlot} {L : List Capability} {u : Kernel}
    (h : Lands cur [cap] s t) (h' : Lands cur L t u) : Lands cur (cap :: L) s u := by
  refine ⟨h'.placed, h'.state.trans h.state, fun q k c hc => h'.keeps q k c (h.keeps q k c hc),
    fun q => ?_⟩
  rcases h'.noted q with hsame | ⟨hnone, c, hc, o, home, k, htarget, ho, hland, hempty, hcap⟩
  · rw [hsame]
    rcases h.noted q with hfirst | ⟨hnone, c, hc, o, home, k, htarget, ho, hland, hempty, hcap⟩
    · exact Or.inl hfirst
    · obtain rfl := List.mem_singleton.mp hc
      exact Or.inr ⟨hnone, c, List.mem_cons_self, o, home, k, htarget, ho, hland, hempty,
        h'.keeps q k home hcap⟩
  · rcases h.noted q with hfirst | ⟨-, -, -, -, -, j, -, -, hland', -⟩
    · refine Or.inr ⟨hfirst ▸ hnone, c, List.mem_cons_of_mem _ hc, o, home, k, htarget, ho, hland,
        ?_, hcap⟩
      cases hbefore : s.capAt q k with
      | none => rfl
      | some x =>
        rw [h.keeps q k x hbefore] at hempty
        cases hempty
    · rw [hland'] at hnone
      exact absurd hnone (noCap_ne_slot j)

/-- The loop of `reclaim_lent_caps`. -/
theorem reclaimLentCaps_lands (cur : ProcSlot) (L : List Capability) (h : Placed s.procs) :
    Lands cur L s (L.foldl (reclaimLentCap cur) s) := by
  induction L generalizing s with
  | nil => exact .refl h
  | cons cap L ih =>
    have hfirst := reclaimLentCap_lands h cur cap
    exact hfirst.head (ih hfirst.placed)

end Kernel

namespace Procs

/-- The landing slot of the last wake of the process in slot `p`. -/
def told (P : Procs) (p : ProcSlot) : Nat := (P.table p).result.landing

/-- What the death-time wakes do to a slot: nothing, or the note of its landing slot is cleared and
the process is told no landing slot or the noted one. -/
def Reaps (P P' : Procs) (p : ProcSlot) : Prop :=
  P'.table p = P.table p ∨
    P'.landing p = noCap ∧ (P'.told p = noCap ∨ P'.told p = P.landing p)

theorem Reaps.trans {P P' P'' : Procs} {p : ProcSlot} (h : Reaps P P' p) (h' : Reaps P' P'' p) :
    Reaps P P'' p := by
  rcases h with hsame | ⟨hnone, htold⟩
  · unfold Reaps landing at h' ⊢
    rw [hsame] at h'
    exact h'
  · rcases h' with hsame' | ⟨hnone', htold'⟩
    · unfold landing at hnone
      unfold told at htold
      unfold Reaps landing told
      rw [hsame']
      exact Or.inr ⟨hnone, htold⟩
    · rw [hnone] at htold'
      exact Or.inr ⟨hnone', Or.inl (htold'.elim id id)⟩

/-- A wake that takes the noted landing slot. -/
theorem reaps_wake (P : Procs) (q : ProcSlot) (status payload landing : Nat)
    (hland : landing = noCap ∨ landing = P.landing q) (p : ProcSlot) :
    Reaps P ((P.takeReclaimLanding q).2.wakeWith q status payload landing) p := by
  by_cases hp : p = q
  · subst hp
    refine Or.inr ?_
    unfold Procs.landing told takeReclaimLanding wakeWith
    dsimp only
    rw [setSlot_table_self, setSlot_table_self]
    exact ⟨rfl, hland⟩
  · refine Or.inl ?_
    unfold takeReclaimLanding wakeWith
    dsimp only
    rw [setSlot_table_of_ne _ _ hp, setSlot_table_of_ne _ _ hp]

end Procs

namespace Kernel

open Procs (Reaps)

theorem reapReply_reaps (P : Procs) (cap : Capability) (p : ProcSlot) :
    Reaps P (reapReply P cap) p := by
  unfold reapReply
  split
  · split
    · exact Procs.reaps_wake _ _ _ _ _ (Or.inl rfl) p
    · exact Or.inl rfl
  · exact Or.inl rfl

theorem wakeAllStranded_reaps (id : EndpointId) (fuel : Nat) (P : Procs) (ipc : Ipc)
    (p : ProcSlot) : Reaps P (wakeAllStranded id fuel (P, ipc)).1 p := by
  induction fuel generalizing P ipc with
  | zero => exact Or.inl rfl
  | succ fuel ih =>
    unfold wakeAllStranded
    split
    · exact Or.inl rfl
    · exact (Procs.reaps_wake P _ _ _ _ (Or.inr rfl) p).trans (ih _ _)

theorem reapDying_reaps (s : Kernel) (dying : CapTable) (p : ProcSlot) :
    Reaps s.procs (s.reapDying dying).procs p := by
  have hreply : ∀ (caps : List Capability) (P : Procs), Reaps P (caps.foldl reapReply P) p := by
    intro caps
    induction caps with
    | nil => exact fun _ => Or.inl rfl
    | cons cap caps ih => exact fun P => (reapReply_reaps P cap p).trans (ih _)
  have hend : ∀ (ids : List EndpointId) (r : Procs × Ipc),
      Reaps r.1 (ids.foldl (reapEndpoint dying) r).1 p := by
    intro ids
    induction ids with
    | nil => exact fun _ => Or.inl rfl
    | cons id ids ih =>
      intro r
      refine Reaps.trans ?_ (ih _)
      unfold reapEndpoint
      dsimp only
      split
      · exact wakeAllStranded_reaps id maxProcesses r.1 r.2 p
      · exact Or.inl rfl
  unfold reapDying
  exact (hreply _ _).trans (hend _ _)

variable {s t : Kernel} {core : Core} {ℓ : Label} {p : ProcSlot} {k : CapSlot} {o : CapObject}
  {l : Nat}

/-- Slot `k` of the process in slot `p` holds a capability with the object `o`. -/
def HoldsAt (s : Kernel) (p : ProcSlot) (k : CapSlot) (o : CapObject) : Prop :=
  ∃ cap, s.capAt p k = some cap ∧ cap.object = o

/-- A process dies in the entry, and a capability that it borrowed comes home to the empty slot `k`
of its lender `p`. -/
structure ComesHome (p : ProcSlot) (k : CapSlot) (o : CapObject) (s : Kernel) (ℓ : Label)
    (t : Kernel) : Prop where
  kind : isReclaimableKind o = true
  borrowed : ∃ d j cap h, s.leaver ℓ = some d ∧ s.capAt d j = some cap ∧ cap.object = o ∧
    cap.origin = some ⟨p, h⟩
  empty : s.capAt p k = none
  lands : t.HoldsAt p k o

/-- A wait of the process in slot `p` ends with `IPC_PEER_DIED` and the landing slot `l`: a receive
finds no peer, or a death wakes the process. -/
def ReportsDeath (p : ProcSlot) (l : Nat) (s : Kernel) (ℓ : Label) (t : Kernel) : Prop :=
  (∃ core epSlot payload, ℓ = .recv core epSlot ∧ s.procs.currentSlot core = p ∧
    (s.ipcRecv core epSlot).1 = .message ipcPeerDied payload l) ∨
  (s.procs.state p = .blocked ∧ t.procs.state p = .ready ∧
    (t.procs.table p).result.status = ipcPeerDied ∧ t.procs.told p = l)

/-- The process that exits. -/
theorem leaver_exit (hnext : s.step ℓ = some t) (h : s.leaver ℓ = some p) :
    ∃ core, p = s.procs.currentSlot core ∧ s.onExit core = some t := by
  cases ℓ with
  | exit core =>
    cases h
    exact ⟨core, rfl, hnext⟩
  | cpuCharge core slot amount =>
    obtain ⟨-, rfl⟩ := onCore_some hnext
    change (if s.overdrawn core slot amount then some (s.procs.currentSlot core) else none)
      = some p at h
    split at h
    · rename_i hover
      cases h
      exact ⟨core, rfl, exits_of_overdrawn hover⟩
    · cases h
  | _ => cases h

/-- What an exit leaves of the note of another process. `n` is the note after the borrowed
capabilities went home. -/
theorem Good.exit_notes (hgood : s.Good) (hexit : s.onExit core = some t)
    (hleaver : s.leaver ℓ = some (s.procs.currentSlot core))
    (hp : p ≠ s.procs.currentSlot core) :
    ∃ n, (n = s.procs.landing p ∨
        ∃ k o, n = (k : CapSlot) ∧ ComesHome p k o s ℓ t) ∧
      (t.procs.landing p = n ∧ t.procs.state p = s.procs.state p ∨
        t.procs.landing p = noCap ∧ (t.procs.told p = noCap ∨ t.procs.told p = n)) := by
  unfold onExit at hexit
  split at hexit
  · cases hexit
  · rename_i proc hc
    obtain ⟨hleft, hleftProc⟩ := hgood.rep.procs.placed.clearCurrent hc
    have hlands := reclaimLentCaps_lands (s := { s with procs := s.procs.setCurrent core none })
      (s.procs.currentSlot core) proc.caps.iter hleft
    change Lands _ _ _ (({ s with procs := s.procs.setCurrent core none } : Kernel).reclaimLentCaps
      proc.caps (s.procs.currentSlot core)) at hlands
    have hcap : ∀ j, (({ s with procs := s.procs.setCurrent core none } : Kernel).capAt p j) =
        s.capAt p j := by
      intro j
      unfold capAt
      dsimp only
      rw [hleftProc, Function.update_of_ne hp]
    dsimp only at hexit
    rw [Option.some.injEq] at hexit
    generalize ({ s with procs := s.procs.setCurrent core none } : Kernel).reclaimLentCaps
      proc.caps (s.procs.currentSlot core) = e at hlands hexit
    have hreaps := reapDying_reaps e proc.caps p
    have hproc := reapDying_proc e proc.caps
    generalize e.reapDying proc.caps = u at hreaps hproc hexit
    -- The rest of the exit clears origins, and frees the slot of the dead process.
    have hprocs : t.procs = (u.procs.clearOriginsNaming (s.procs.currentSlot core)).setSlot
        (s.procs.currentSlot core) Slot.empty := by
      rw [← hexit]
      dsimp only
      rw [teardown_procs]
    have htable : t.procs.landing p = u.procs.landing p ∧ t.procs.told p = u.procs.told p ∧
        t.procs.state p = u.procs.state p := by
      unfold Procs.landing Procs.told Procs.state
      rw [hprocs, Procs.setSlot_table_of_ne _ _ hp]
      exact ⟨rfl, rfl, rfl⟩
    have hslot : ∀ j, t.capAt p j = (e.capAt p j).map
        (CapTable.clearLender (s.procs.currentSlot core)) := by
      intro j
      unfold capAt
      rw [hprocs, setSlot_proc_of_ne _ _ hp, clearOriginsNaming_proc, hproc]
      cases e.procs.proc p with
      | none => rfl
      | some x => exact CapTable.clearOrigin_slots ..
    refine ⟨e.procs.landing p, ?_, ?_⟩
    · rcases hlands.noted p with hsame | ⟨-, cap, hcapIn, o, home, k, htarget, rfl, hland, hempty,
        hhome⟩
      · exact Or.inl hsame
      · obtain ⟨ho, hkind, rfl⟩ := reclaimTarget_some htarget
        obtain ⟨j, hj⟩ := CapTable.mem_iter.mp hcapIn
        refine Or.inr ⟨k, cap.object, hland, hkind, ⟨_, j, cap, o.home, hleaver,
          capAt_eq (hgood.proc_of_current hc) hj, rfl, ho⟩, (hcap k).symm.trans hempty, ?_⟩
        refine ⟨_, (hslot k).trans (by rw [hhome]; rfl), ?_⟩
        simp [CapTable.clearLender]
    · rw [htable.1, htable.2.1, htable.2.2]
      rcases hreaps with hsame | ⟨hnone, htold⟩
      · refine Or.inl ⟨?_, ?_⟩
        · unfold Procs.landing
          rw [hsame]
        · unfold Procs.state
          rw [hsame]
          exact congrFun hlands.state p
      · exact Or.inr ⟨hnone, htold⟩

/-! ### What a slot keeps -/

/-- A slot keeps its capability in an entry that does not take it, and does not reclaim the
process. -/
theorem Good.keeps_slot (hgood : s.Good) (hnext : s.step ℓ = some t)
    (hkind : isReclaimableKind o = true) (hstay : ∀ v, ¬ s.Reclaims ℓ v p)
    (hgive : ∀ f, s.given ℓ ≠ some (p, k, f)) (htake : s.taken ℓ ≠ some (p, k))
    (h : s.HoldsAt p k o) : t.HoldsAt p k o := by
  obtain ⟨-, spent, hpath⟩ := hgood.step_path hnext
  have hend := Path.keeps (I := fun v => ∃ x cap, v.proc p = some x ∧
    x.caps.slots k = some cap ∧ cap.object = o) ?_ hpath hgood.base ?_
  · obtain ⟨x, cap, hx, hcap, hobj⟩ := hend
    exact ⟨cap, capAt_eq hx hcap, hobj⟩
  · rintro v v' act - ⟨x, cap, hx, hcap, hobj⟩
    obtain ⟨-, y, -, hy, -⟩ := (act.same_or_leaves hx).resolve_right
      fun hleave => hstay v hleave.1
    rcases (act.slot_next hx hy k).slot cap hcap with ⟨cap', hcap', hage⟩ | ⟨f, hg⟩ | hg
    · refine ⟨y, cap', hy, hcap', ?_⟩
      cases hage with
      | same => exact hobj
      | charge hbudget =>
        rw [← hobj, hbudget] at hkind
        cases hkind
      | clear hdying =>
        rw [← hobj]
        unfold CapTable.clearLender
        split
        · rfl
        · rfl
    · exact absurd hg.2 (hgive f)
    · exact absurd hg.2 htake
  · obtain ⟨cap, hcap, hobj⟩ := h
    obtain ⟨x, hx, hslot⟩ := Option.bind_eq_some_iff.mp hcap
    exact ⟨x, cap, hx, hslot, hobj⟩

/-- A process with a note is alive. -/
theorem Good.noted_alive (hgood : s.Good) (h : s.procs.landing p ≠ noCap) :
    s.procs.proc p ≠ none := by
  intro hnone
  have hempty := hgood.rep.procs.vacant p nofun hnone
  unfold Procs.landing at h
  rw [hempty] at h
  exact h rfl

/-- A process with a note is reclaimed only if it exits. -/
theorem Good.noted_stays (hgood : s.Good) (hp : s.procs.landing p ≠ noCap)
    (hleaver : s.leaver ℓ ≠ some p) (v : Ledger) : ¬ s.Reclaims ℓ v p := by
  intro hrec
  rcases reclaims_cases hrec with ⟨-, hexit⟩ | ⟨hempty, -⟩
  · exact hleaver hexit
  · exact hgood.noted_alive hp (hgood.dead_of_empty hempty p)

/-! ### The runs -/

/-- The entry takes the capability from a slot that is noted. -/
def takesNoted (s : Kernel) (ℓ : Label) : Bool :=
  ((s.given ℓ).any fun x => s.procs.landing x.1 == x.2.1) ||
    (s.taken ℓ).any fun x => s.procs.landing x.1 == x.2

/-- The guard of the runs in which a noted slot keeps its capability. -/
def keepsNoted (s : Kernel) (ℓ : Label) : Prop := s.takesNoted ℓ = false

instance : ∀ s ℓ, Decidable (keepsNoted s ℓ) := fun s ℓ =>
  inferInstanceAs (Decidable (s.takesNoted ℓ = false))

theorem keepsNoted.given (hok : keepsNoted s ℓ) (hland : s.procs.landing p = k) (f : Fate) :
    s.given ℓ ≠ some (p, k, f) := by
  intro hgiven
  unfold keepsNoted takesNoted at hok
  rw [hgiven, Option.any_some, hland, beq_self_eq_true, Bool.true_or] at hok
  cases hok

theorem keepsNoted.taken (hok : keepsNoted s ℓ) (hland : s.procs.landing p = k) :
    s.taken ℓ ≠ some (p, k) := by
  intro htaken
  unfold keepsNoted takesNoted at hok
  rw [htaken, Option.any_some, hland, beq_self_eq_true, Bool.or_true] at hok
  cases hok

/-- The slot `k` of the process in slot `p` is noted, and it holds a capability for `o`. -/
structure Noted (s : Kernel) (p : ProcSlot) (k : CapSlot) (o : CapObject) : Prop where
  landing : s.procs.landing p = k
  kind : isReclaimableKind o = true
  holds : s.HoldsAt p k o

/-- Every noted slot holds a capability. -/
def NotesHeld (s : Kernel) : Prop :=
  ∀ p, s.procs.landing p ≠ noCap → ∃ k o, s.Noted p k o

/-- A receive that finds no peer clears the note. -/
theorem ipcRecv_reports {epSlot l : Nat} {payload : Option Nat}
    (h : (s.ipcRecv core epSlot).1 = .message ipcPeerDied payload l) :
    l = s.procs.landing (s.procs.currentSlot core) ∧
      (s.ipcRecv core epSlot).2.procs.landing (s.procs.currentSlot core) = noCap := by
  unfold ipcRecv at h ⊢
  split at h
  · cases h
  · rename_i id _
    split at h
    · dsimp only at h
      split at h
      · cases h
      · cases h
    · dsimp only at h
      split at h
      · rename_i hsenders
        dsimp only
        rw [if_pos hsenders]
        simp only [Ret.message.injEq] at h
        refine ⟨h.2.2.symm, ?_⟩
        unfold Procs.takeReclaimLanding Procs.landing
        dsimp only
        rw [Procs.setSlot_table_self]
      · cases h

/-- A charge that the budget covers writes no slot of the table. -/
theorem sysCpuCharge_table {slot amount : Nat} (h : s.overdrawn core slot amount = false) :
    (s.sysCpuCharge core slot amount).2.procs.table = s.procs.table := by
  unfold sysCpuCharge
  split
  · rfl
  · rename_i proc hc
    split
    · rfl
    · rename_i hcharge
      rw [overdrawn_of core slot amount ⟨proc, hc, hcharge⟩] at h
      cases h
    · rfl

/-- A report in an entry without an exit is the one of a receive. -/
theorem Good.report_recv (hgood : s.Good) (hnext : s.step ℓ = some t)
    (hstay : s.leaver ℓ = none) (h : ReportsDeath p l s ℓ t) :
    l = s.procs.landing p ∧ t.procs.landing p = noCap := by
  rcases h with ⟨core, epSlot, payload, rfl, rfl, hret⟩ | ⟨hblocked, hready, hstatus, -⟩
  · rw [(onCore_some hnext).2]
    exact ipcRecv_reports hret
  · exfalso
    have hout : t.procs.state p ≠ .blocked := by
      rw [hready]
      decide
    obtain ⟨place, hparked⟩ := (stands_between s p).resolve_left fun hne => hne hblocked
    rcases hgood.parked_next hnext hparked with hstill | ⟨-, -, -, -, -, hreply⟩ | ⟨-, hnowhere⟩ |
      ⟨-, -, htells⟩
    · exact hout hstill.blocked
    · exact hout hreply.blocked
    · exact hout hnowhere.blocked
    · cases ℓ with
      | exit core => cases hstay
      | cpuCharge core slot amount =>
        have hcovered : s.overdrawn core slot amount = false := by
          by_contra hover
          rw [Bool.not_eq_false] at hover
          change (if s.overdrawn core slot amount then some (s.procs.currentSlot core) else none)
            = none at hstay
          rw [if_pos hover] at hstay
          cases hstay
        have hsame : t.procs.state p = s.procs.state p := by
          rw [(onCore_some hnext).2]
          unfold Procs.state
          rw [sysCpuCharge_table hcovered]
        rw [hsame, hblocked] at hready
        cases hready
      | send core epSlot msg capSlot =>
        rw [htells.1] at hstatus
        cases hstatus
      | call core epSlot req =>
        rw [htells.1] at hstatus
        cases hstatus
      | recv core epSlot =>
        rw [show (t.procs.table p).result = _ from htells] at hstatus
        cases hstatus
      | reply core slot msg =>
        rw [show (t.procs.table p).result = _ from htells] at hstatus
        cases hstatus
      | completeIrq dev used =>
        rw [show (t.procs.table p).result = _ from htells] at hstatus
        cases hstatus
      | deliverEvent source event =>
        rw [show (t.procs.table p).result = _ from htells] at hstatus
        cases hstatus
      | _ => exact htells.elim

/-- Where a note and a report of an entry come from: what came home in the entry, or the note that
was there before, and its slot keeps the capability. -/
theorem Good.noted_before (hgood : s.Good) (hnext : s.step ℓ = some t) (hok : keepsNoted s ℓ)
    (hheld : s.NotesHeld) (hl : l ≠ noCap)
    (h : t.procs.landing p = l ∨ ReportsDeath p l s ℓ t) :
    ∃ k o, l = (k : CapSlot) ∧ (ComesHome p k o s ℓ t ∨ s.Noted p k o ∧ t.HoldsAt p k o) := by
  have hkeep : ∀ {k o}, (∀ v, ¬ s.Reclaims ℓ v p) → s.Noted p k o → t.HoldsAt p k o :=
    fun hstay hn => hgood.keeps_slot hnext hn.kind hstay (hok.given hn.landing)
      (hok.taken hn.landing) hn.holds
  have hold : s.leaver ℓ ≠ some p → s.procs.landing p = l →
      ∃ k o, l = (k : CapSlot) ∧ (ComesHome p k o s ℓ t ∨ s.Noted p k o ∧ t.HoldsAt p k o) := by
    intro hleaver hland
    have hne : s.procs.landing p ≠ noCap := by
      rw [hland]
      exact hl
    obtain ⟨k, o, hn⟩ := hheld p hne
    exact ⟨k, o, hland.symm.trans hn.landing, Or.inr ⟨hn, hkeep (hgood.noted_stays hne hleaver) hn⟩⟩
  cases hleaver : s.leaver ℓ with
  | none =>
    refine hold (by rw [hleaver]; exact nofun) ?_
    rcases h with hland | hreport
    · rcases (step_fades hnext hleaver).landing p with hsame | hnone
      · exact hsame.symm.trans hland
      · exact absurd (hland.symm.trans hnone) hl
    · exact (hgood.report_recv hnext hleaver hreport).1.symm
  | some d =>
    obtain ⟨core, rfl, hexit⟩ := leaver_exit hnext hleaver
    have hempty := leaver_empties hnext hleaver
    have hwoken : ReportsDeath p l s ℓ t → s.procs.state p = .blocked ∧ t.procs.state p = .ready ∧
        t.procs.told p = l := by
      rintro (⟨core', epSlot, payload, rfl, -⟩ | ⟨hblocked, hready, -, htold⟩)
      · cases hleaver
      · exact ⟨hblocked, hready, htold⟩
    by_cases hp : p = s.procs.currentSlot core
    · subst hp
      exfalso
      rcases h with hland | hreport
      · obtain ⟨hgood', -⟩ := hgood.step_path hnext
        refine hgood'.noted_alive (by rw [hland]; exact hl) ?_
        exact hgood'.rep.procs.placed.proc_of_empty hempty
      · rw [(hwoken hreport).2.1] at hempty
        cases hempty
    · obtain ⟨n, hfrom, hto⟩ := hgood.exit_notes hexit hleaver hp
      have hln : n = l := by
        rcases h with hland | hreport
        · rcases hto with ⟨hsame, -⟩ | ⟨hnone, -⟩
          · exact hsame.symm.trans hland
          · exact absurd (hland.symm.trans hnone) hl
        · obtain ⟨hblocked, hready, htold⟩ := hwoken hreport
          rcases hto with ⟨-, hstate⟩ | ⟨-, hnone | hsame⟩
          · rw [hready, hblocked] at hstate
            cases hstate
          · exact absurd (htold.symm.trans hnone) hl
          · exact hsame.symm.trans htold
      rcases hfrom with hsame | ⟨k, o, hland, hhome⟩
      · refine hold ?_ (hsame.symm.trans hln)
        rw [hleaver]
        intro heq
        exact hp (Option.some.inj heq).symm
      · exact ⟨k, o, hln.symm.trans hland, Or.inl hhome⟩

/-- A note that is reported is gone. -/
theorem Good.report_clears (hgood : s.Good) (hnext : s.step ℓ = some t)
    (h : ReportsDeath p l s ℓ t) : t.procs.landing p = noCap := by
  cases hleaver : s.leaver ℓ with
  | none => exact (hgood.report_recv hnext hleaver h).2
  | some d =>
    obtain ⟨core, rfl, hexit⟩ := leaver_exit hnext hleaver
    rcases h with ⟨core', epSlot, payload, rfl, -⟩ | ⟨hblocked, hready, -, -⟩
    · cases hleaver
    · have hp : p ≠ s.procs.currentSlot core := by
        rintro rfl
        have hempty := leaver_empties hnext hleaver
        rw [hready] at hempty
        cases hempty
      obtain ⟨n, -, ⟨-, hstate⟩ | ⟨hnone, -⟩⟩ := hgood.exit_notes hexit hleaver hp
      · rw [hready, hblocked] at hstate
        cases hstate
      · exact hnone

/-- In every guarded run, the noted slots hold their capabilities. -/
theorem notesHeld_of_reachable (hs : Reachable system keepsNoted s) : s.NotesHeld := by
  refine hs.invariant (I := NotesHeld) ?_ ?_
  · intro s hinit p hp
    unfold Procs.landing at hp
    rw [hinit.table p] at hp
    exact absurd rfl hp
  · intro s ℓ t hreach hheld hok hnext p hp
    have hgood := good_of_reachable hreach.forget
    obtain ⟨k, o, hland, hcase⟩ := hgood.noted_before hnext hok hheld hp (Or.inl rfl)
    rcases hcase with hhome | ⟨hn, hholds⟩
    · exact ⟨k, o, hland, hhome.kind, hhome.lands⟩
    · exact ⟨k, o, hland, hn.kind, hholds⟩

/-! ### The result -/

/-- A capability for `o` came home to slot `k` of the process in slot `p` when its borrower died.
The slot has held it since, and no wait has reported it. -/
def Unreported (p : ProcSlot) (k : CapSlot) (o : CapObject) (hist : List (Kernel × Label))
    (s : Kernel) : Prop :=
  Since (fun s ℓ t => ComesHome p k o s ℓ t ∧ ¬ ReportsDeath p k s ℓ t)
    (fun s ℓ t => s.HoldsAt p k o ∧ t.HoldsAt p k o ∧ ¬ ReportsDeath p k s ℓ t) hist s

theorem HoldsAt.unique {o' : CapObject} (h : s.HoldsAt p k o) (h' : s.HoldsAt p k o') : o = o' := by
  obtain ⟨cap, hcap, rfl⟩ := h
  obtain ⟨cap', hcap', rfl⟩ := h'
  rw [Option.some.inj (hcap.symm.trans hcap')]

/-- What a noted slot holds came home, and nothing has reported it. -/
theorem Noted.unreported {hist : List (Kernel × Label)} (run : Run system keepsNoted hist s)
    (h : s.Noted p k o) : Unreported p k o hist s := by
  refine run.since (R := fun s => s.Noted p k o) ?_ ?_ h
  · intro s hinit hn
    have hland := hn.landing
    unfold Procs.landing at hland
    rw [hinit.table p] at hland
    exact noCap_ne_slot k hland.symm
  · intro s ℓ t hreach hok hnext hn
    have hgood := good_of_reachable hreach.forget
    obtain ⟨k', o', hk, hcase⟩ := hgood.noted_before hnext hok (notesHeld_of_reachable hreach)
      (noCap_ne_slot k) (Or.inl hn.landing)
    obtain rfl : k = k' := Fin.ext hk
    have hquiet : ¬ ReportsDeath p k s ℓ t := by
      intro hreport
      have hclear := hgood.report_clears hnext hreport
      rw [hn.landing] at hclear
      exact noCap_ne_slot k hclear
    rcases hcase with hhome | ⟨hn', hholds⟩
    · rw [← hhome.lands.unique hn.holds]
      exact Or.inl ⟨hhome, hquiet⟩
    · obtain rfl := hholds.unique hn.holds
      exact Or.inr ⟨hn', hn'.holds, hholds, hquiet⟩

theorem transferOf_giver {q r : ProcSlot} {slot : Nat} {f : Fate}
    (h : s.transferOf q slot r = some (p, k, f)) : q = p := by
  unfold transferOf at h
  split at h
  · obtain ⟨cap, -, heq⟩ := Option.map_eq_some_iff.mp h
    cases heq
    rfl
  · cases h

theorem spawnTransfer_giver {image : Option Image} {slot : Nat} {f : Fate}
    (h : s.spawnTransfer core image slot = some (p, k, f)) :
    (∃ proc, s.procs.current core = some proc) ∧ s.procs.currentSlot core = p := by
  unfold spawnTransfer at h
  split at h
  · rename_i proc _ _ hc _
    obtain ⟨cap, -, heq⟩ := Option.map_eq_some_iff.mp h
    cases heq
    exact ⟨⟨proc, hc⟩, rfl⟩
  · cases h

/-- An entry gives away or releases nothing of a process that is Ready. -/
theorem Good.ready_untouched (hgood : s.Good) (hready : s.procs.state p = .ready) :
    (∀ f, s.given ℓ ≠ some (p, k, f)) ∧ s.taken ℓ ≠ some (p, k) := by
  have hrun : ∀ {core proc}, s.procs.current core = some proc → s.procs.currentSlot core ≠ p := by
    rintro core proc hc rfl
    rw [show s.procs.state _ = .running from hgood.state_of_current hc] at hready
    cases hready
  have hqueue : ∀ {id senders ipc}, s.ipc.takeWaiting id senders = some (p, ipc) → False := by
    intro id senders ipc htake
    rw [(hgood.taken_parked htake).2] at hready
    cases hready
  constructor
  · intro f hgiven
    cases ℓ with
    | send core epSlot msg capSlot =>
      unfold given at hgiven
      dsimp only at hgiven
      split at hgiven
      · cases hgiven
      · rename_i id hid
        obtain ⟨-, proc, -, -, hc, -⟩ := endpointIdFor_some (by decide) hid
        split at hgiven
        · cases hgiven
        · split at hgiven
          · cases hgiven
          · exact hrun hc (transferOf_giver hgiven)
    | recv core epSlot =>
      unfold given at hgiven
      dsimp only at hgiven
      split at hgiven
      · cases hgiven
      · split at hgiven
        · cases hgiven
        · rename_i sender ipc htake
          split at hgiven
          · cases hgiven
          · obtain rfl := transferOf_giver hgiven
            exact hqueue htake
    | spawn core binary slot =>
      cases binary with
      | none => cases hgiven
      | some image =>
        obtain ⟨⟨proc, hc⟩, hslot⟩ := spawnTransfer_giver hgiven
        exact hrun hc hslot
    | spawnFromBuffer core bufVa len image slot =>
      obtain ⟨⟨proc, hc⟩, hslot⟩ := spawnTransfer_giver hgiven
      exact hrun hc hslot
    | _ => cases hgiven
  · intro htaken
    cases ℓ with
    | capRelease core slot =>
      obtain ⟨proc, hc, hrest⟩ := Option.bind_eq_some_iff.mp htaken
      obtain ⟨j, -, heq⟩ := Option.map_eq_some_iff.mp hrest
      cases heq
      exact hrun hc rfl
    | reply core slot msg =>
      obtain ⟨proc, hc, hrest⟩ := Option.bind_eq_some_iff.mp htaken
      obtain ⟨j, -, hrest⟩ := Option.bind_eq_some_iff.mp hrest
      obtain ⟨cap, -, hrest⟩ := Option.bind_eq_some_iff.mp hrest
      split at hrest
      · cases hrest
        exact hrun hc rfl
      · cases hrest
    | _ => cases htaken

/-- While a process is Ready, its slots keep what they hold. -/
theorem ready_keeps {ok : Kernel → Label → Prop} {hist later : List (Kernel × Label)} {u : Kernel}
    (hrun : Run system ok (later ++ (s, ℓ) :: hist) u) (hnext : s.step ℓ = some t)
    (hkind : isReclaimableKind o = true) (h : t.HoldsAt p k o)
    (hready : ∀ e ∈ later, e.1.procs.state p = .ready) : u.HoldsAt p k o := by
  induction later generalizing u with
  | nil =>
    cases hrun with
    | step run guard hnext' =>
      obtain rfl := Option.some.inj (hnext.symm.trans hnext')
      exact h
  | cons e later ih =>
    cases hrun with
    | step run guard hnext' =>
      have hgood := good_of_reachable run.reachable.forget
      have hnow := hready _ List.mem_cons_self
      dsimp only at hnow
      obtain ⟨hgive, htake⟩ := hgood.ready_untouched hnow
      refine hgood.keeps_slot hnext' hkind (fun v hrec => ?_) hgive htake
        (ih run fun e he => hready e (List.mem_cons_of_mem _ he))
      rcases reclaims_cases hrec with ⟨-, hleaver⟩ | ⟨hempty, -⟩
      · obtain ⟨core, rfl, hexit⟩ := leaver_exit hnext' hleaver
        unfold onExit at hexit
        split at hexit
        · cases hexit
        · rename_i proc hc
          exact nomatch hnow.symm.trans (hgood.state_of_current hc)
      · have hslot := List.all_eq_true.mp hempty p (List.mem_finRange p)
        rw [beq_iff_eq, hnow] at hslot
        cases hslot

/-- In every run in which no entry takes a capability from a noted slot, a landing slot that is
reported holds a capability that came home to it from a process that died, and that nothing has
reported before. The slot still holds it when the process resumes. -/
theorem landing_truthful {hist : List (Kernel × Label)}
    (run : Run system keepsNoted ((s, ℓ) :: hist) t) (h : ReportsDeath p l s ℓ t)
    (hl : l ≠ noCap) :
    ∃ k o, l = (k : CapSlot) ∧ (ComesHome p k o s ℓ t ∨ Unreported p k o hist s) ∧
      t.HoldsAt p k o ∧ ∀ later u, Run system keepsNoted (later ++ (s, ℓ) :: hist) u →
        (∀ e ∈ later, e.1.procs.state p = .ready) → u.HoldsAt p k o := by
  cases run with
  | step run hok hnext =>
    have hgood := good_of_reachable run.reachable.forget
    obtain ⟨k, o, hk, hcase⟩ := hgood.noted_before hnext hok (notesHeld_of_reachable run.reachable)
      hl (Or.inr h)
    rcases hcase with hhome | ⟨hn, hholds⟩
    · exact ⟨k, o, hk, Or.inl hhome, hhome.lands, fun later u hlater hready =>
        ready_keeps hlater hnext hhome.kind hhome.lands hready⟩
    · exact ⟨k, o, hk, Or.inr (hn.unreported run), hholds, fun later u hlater hready =>
        ready_keeps hlater hnext hn.kind hholds hready⟩

/-- A parent lends a block range to its child, and the child dies while the parent runs. -/
def childDiesRun : List Label :=
  [.run 0 [some smallImage] [some ⟨.blockRange 0 0 8, rightRead, none⟩],
    .spawn 0 (some (some smallImage)) 1, .resume 1 1, .exit 1]

/-- The parent releases the block range and allocates a frame before it waits. -/
def reusedSlotRun : List Label := childDiesRun ++ [.capRelease 0 1, .frameAlloc 0]

/-- A receive of the process on core 0 reports the landing slot `l`. -/
def receivesDeath (s : Kernel) (epSlot l : Nat) : Bool :=
  decide ((s.ipcRecv 0 epSlot).1 = .message ipcPeerDied none l)

theorem ReportsDeath.of_recv {epSlot : Nat} (h : s.receivesDeath epSlot l = true) :
    ReportsDeath (s.procs.currentSlot 0) l s (.recv 0 epSlot) t :=
  Or.inl ⟨0, epSlot, none, rfl, rfl, of_decide_eq_true h⟩

/-- The parent waits after the death of its child and finds its block range. -/
theorem landing_truthful_childDies : ∃ hist t k o, (1 : Nat) = (k : CapSlot) ∧
    (ComesHome 0 k o (smallMachine.runFrom childDiesRun) (.recv 0 2) t ∨
      Unreported 0 k o hist (smallMachine.runFrom childDiesRun)) ∧ t.HoldsAt 0 k o := by
  have hfollows : Follows keepsNoted smallMachine childDiesRun := by decide +kernel
  have hstep : ((smallMachine.runFrom childDiesRun).step (.recv 0 2)).isSome = true := by
    decide +kernel
  have hok : keepsNoted (smallMachine.runFrom childDiesRun) (.recv 0 2) := by decide +kernel
  have hreports : (smallMachine.runFrom childDiesRun).receivesDeath 2 1 = true := by
    decide +kernel
  obtain ⟨hist, run⟩ := reachable_small_of hfollows
  obtain ⟨t, ht⟩ := Option.isSome_iff_exists.mp hstep
  obtain ⟨k, o, hk, hfrom, hholds, -⟩ := landing_truthful (run.step hok ht)
    (ReportsDeath.of_recv hreports) (by decide)
  exact ⟨hist, t, k, o, hk, hfrom, hholds⟩

/-- The parent waits after it released the block range. It is told that slot 1 holds what came
home, and the slot holds the frame. -/
theorem reusedSlotRun_reports : ∃ hist s t, Run system always ((s, .recv 0 2) :: hist) t ∧
    ReportsDeath 0 1 s (.recv 0 2) t ∧
    t.capAt 0 1 = some ⟨.frame (74 * frameSize), rightRead ||| rightWrite ||| rightMap, none⟩ ∧
    ∀ o, isReclaimableKind o = true → ¬ t.HoldsAt 0 1 o := by
  have hreports : (smallMachine.runFrom reusedSlotRun).receivesDeath 2 1 = true := by
    decide +kernel
  have hstep : ((smallMachine.runFrom reusedSlotRun).step (.recv 0 2)).map (fun t => t.capAt 0 1) =
      some (some ⟨.frame (74 * frameSize), rightRead ||| rightWrite ||| rightMap, none⟩) := by
    decide +kernel
  obtain ⟨hist, run⟩ := reachable_small reusedSlotRun
  obtain ⟨t, ht, hcap⟩ := Option.map_eq_some_iff.mp hstep
  refine ⟨hist, _, t, run.step trivial ht, ReportsDeath.of_recv hreports, hcap, ?_⟩
  rintro o hkind ⟨cap, hslot, rfl⟩
  rw [hcap] at hslot
  cases hslot
  cases hkind

end Kernel

end Plinth
