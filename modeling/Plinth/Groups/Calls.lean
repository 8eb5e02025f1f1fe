import Plinth.Groups.Zone
import Plinth.Refine.Launch
import Plinth.Refine.Messages

/-!
# `Plinth.Groups.Calls`: the calls of a process stay in its zone

One lemma for each system call except the exit: the call of a process of the zone changes nothing
outside of the zone. `Zone.Covers` is what a zone has to contain for this. It has every free slot,
endpoint and ring, so that what a call creates is in the zone, and it has the waiters of its
endpoints.
-/

set_option autoImplicit false

namespace Plinth

theorem releaseAction_unbindDevice {cap : Capability} {dev : DevId}
    (h : releaseAction cap = .unbindDevice dev) : cap.object = .boundDevice dev := by
  unfold releaseAction at h
  split at h
  · cases h
  · cases hobj : cap.object <;> rw [hobj] at h <;> cases h
    rfl

namespace Zone

variable {z : Zone} {s t : Kernel} {core : Core}

/-- A capability of a process outside of the zone was lent by a process outside of the zone. -/
structure Shut (z : Zone) (P : Procs) : Prop where
  table : ∀ p proc, ¬ z.slot p → (P.table p).process = some proc →
    ∀ k cap o, proc.caps.slots k = some cap → cap.origin = some o → ¬ z.slot o.lender
  current : ∀ c proc, ¬ z.slot (P.currentSlot c) → P.current c = some proc →
    ∀ k cap o, proc.caps.slots k = some cap → cap.origin = some o → ¬ z.slot o.lender

/-- The waiters of the endpoints of the zone are of the zone. -/
def Queues (z : Zone) (ipc : Ipc) : Prop :=
  ∃ Q, ipc.QueueRep Q ∧ ∀ id, z.object (.endpoint id) → ∀ p ∈ Q id, z.slot p

/-- The zone has what its processes hold, what is free, and the waiters of its endpoints. -/
structure Covers (z : Zone) (s : Kernel) : Prop where
  owns : z.Owns s.procs
  shut : z.Shut s.procs
  queues : z.Queues s.ipc
  vacant : ∀ p, s.procs.state p = .empty → z.slot p
  freeEndpoint : ∀ id, (s.ipc.endpoints id).inUse = false → z.object (.endpoint id)
  freeRing : ∀ id, (s.rings.rings id).inUse = false → z.object (.ring id)
  freeFrame : ∀ a fa, s.mem.fa.alloc = .ok (a, fa) → z.space a

/-- A process of the zone runs on the core. -/
structure Runs (z : Zone) (s : Kernel) (core : Core) : Prop extends z.Covers s where
  slot : z.slot (s.procs.currentSlot core)

namespace Runs

variable (h : z.Runs s core) {proc : Process} {cap : Capability} {slot : Nat} {right : Rights}
  {id : EndpointId}

include h

theorem admits (hc : s.procs.current core = some proc) : z.Admits proc :=
  h.owns.current core proc h.slot hc

/-- A capability that the caller names belongs to the zone. -/
theorem lookup (hc : s.procs.current core = some proc)
    (hcap : proc.caps.lookup slot right = .ok cap) : z.Allows cap := by
  obtain ⟨k, -, hk, -⟩ := CapTable.lookup_ok hcap
  exact (h.admits hc).caps k cap hk

theorem endpoint (hne : right ≠ 0) (hid : s.endpointIdFor core slot right = some id) :
    z.object (.endpoint id) := by
  obtain ⟨-, proc, k, cap, hc, hk, hreach⟩ := Kernel.endpointIdFor_some hne hid
  have hallows := (h.admits hc).caps k cap hk
  unfold Kernel.reaches at hreach
  rw [Bool.and_eq_true, beq_iff_eq] at hreach
  rw [← hreach.1]
  exact hallows.object

/-- A waiter that the caller takes from a queue is of the zone, and only that queue changes. -/
theorem takeWaiting (hid : z.object (.endpoint id)) {senders : Bool} {p : ProcSlot} {ipc : Ipc}
    (htake : s.ipc.takeWaiting id senders = some (p, ipc)) :
    z.slot p ∧ z.IpcWithin s.ipc ipc := by
  obtain ⟨Q, hQ, hwait⟩ := h.queues
  obtain ⟨-, hdeq⟩ := Ipc.takeWaiting_some htake
  obtain ⟨rest, hrest, -⟩ := Ipc.dequeueWaiter_some hQ hdeq
  refine ⟨hwait id hid p ?_, .dequeueWaiter hid hdeq⟩
  rw [hrest]
  exact List.mem_cons_self

/-- The caller joins a queue of the zone. -/
theorem enqueueWaiter (hid : z.object (.endpoint id)) (senders : Bool) :
    z.IpcWithin s.ipc (s.ipc.enqueueWaiter id (s.procs.currentSlot core) senders) := by
  obtain ⟨Q, hQ, hwait⟩ := h.queues
  refine .enqueueWaiter hid h.slot (fun q htail => hwait id hid q ?_) senders
  rw [(hQ id).tail_eq] at htail
  exact List.mem_of_getLast? htail

end Runs

/-! ### Frames and mappings -/

theorem sysFrameAlloc_inside (h : z.Runs s core) : z.Inside s (s.sysFrameAlloc core).2 := by
  unfold Kernel.sysFrameAlloc
  split
  · exact .refl h.owns
  · rename_i proc hc
    split
    · exact .refl h.owns
    · rename_i addr fa hfa
      split
      · rename_i slot t hmint
        have hadmits := (h.admits hc).places (CapTable.install_ok hmint).1 (.made (z.frame addr))
        exact ⟨.setProc h.owns hc h.slot hadmits, .refl _, .setFa _ _, .refl _, .refl _⟩
      · exact .ofMem h.owns (.setFa _ _)

theorem sysFrameMap_inside (h : z.Runs s core) (slot va : Nat) :
    z.Inside s (s.sysFrameMap core slot va).2 := by
  unfold Kernel.sysFrameMap
  split
  · exact .refl h.owns
  · split
    · exact .refl h.owns
    · rename_i proc hc
      have hadmits := h.admits hc
      split
      · rename_i addr _ _ hcap
        split
        · exact .refl h.owns
        · rename_i maps hrec
          split
          · exact .refl h.owns
          · have hmem : z.MemWithin s.mem (s.mem.mapUserPage proc.l4 va addr userDataFlags).2 :=
              .mapUserPage hadmits.space va addr userDataFlags
            split
            · rename_i mem hmap
              rw [hmap] at hmem
              exact .ofMem h.owns hmem
            · rename_i mem hmap
              rw [hmap] at hmem
              exact ⟨.setProc h.owns hc h.slot (hadmits.congr rfl rfl), .refl _, hmem, .refl _,
                .refl _⟩
      · exact .refl h.owns

theorem sysFbMap_inside (h : z.Runs s core) (slot va infoPtr : Nat) :
    z.Inside s (s.sysFbMap core slot va infoPtr).2 := by
  unfold Kernel.sysFbMap
  split
  · exact .refl h.owns
  · rename_i proc hc
    have hadmits := h.admits hc
    split
    · rename_i physBase _ height stride bpp _ _ _ hcap
      dsimp only
      split
      · exact .refl h.owns
      · rename_i fbMaps hrec
        split
        · exact .refl h.owns
        · have hmem : z.MemWithin s.mem (mapPages proc.l4 (fbPages va physBase
              ((height * stride * bpp + (frameSize - 1)) / frameSize)) [] s.mem).2 :=
            .mapPages hadmits.space _ _
          split
          · rename_i mem hmap
            rw [hmap] at hmem
            exact .ofMem h.owns hmem
          · rename_i mem hmap
            rw [hmap] at hmem
            exact ⟨.setProc h.owns hc h.slot (hadmits.congr rfl rfl), .refl _, hmem, .refl _,
              .refl _⟩
    · exact .refl h.owns

theorem sysBindDevice_inside (h : z.Runs s core) (slot va infoPtr : Nat) :
    z.Inside s (s.sysBindDevice core slot va infoPtr).2 := by
  unfold Kernel.sysBindDevice
  split
  · exact .refl h.owns
  · rename_i proc hc
    split
    · split
      · exact .refl h.owns
      · split
        · exact .refl h.owns
        · rename_i b hb
          have hmem : z.MemWithin s.mem (mapPages proc.l4 (bindPages va b) [] s.mem).2 :=
            .mapPages (h.admits hc).space _ _
          split
          · rename_i mem hmap
            rw [hmap] at hmem
            exact .ofMem h.owns hmem
          · rename_i mem hmap
            rw [hmap] at hmem
            exact .ofMem h.owns hmem
    · exact .refl h.owns

/-! ### Release -/

/-- The running process is replaced, and its address space changes. -/
theorem setCurrentMem_inside {proc : Process} {r : Process × Mem} (hown : z.Owns s.procs)
    (hc : s.procs.current core = some proc) (hslot : z.slot (s.procs.currentSlot core))
    (hadmits : z.Admits r.1) (hmem : z.MemWithin s.mem r.2) :
    z.Inside s (s.setCurrentMem core r) :=
  ⟨.setProc hown hc hslot hadmits, .refl _, hmem, .refl _, .refl _⟩

/-- A capability goes home, to a lender of the zone. -/
theorem reclaimCapHome_inside {cap home : Capability} {o : Origin} (hown : z.Owns s.procs)
    (hcap : z.Allows cap) (hhome : z.Allows home) (ho : z.slot o.lender) :
    z.Inside s (s.reclaimCapHome cap o home).2 := by
  unfold Kernel.reclaimCapHome
  split
  · exact .refl hown
  · exact .refl hown
  · rename_i landing procs hlend
    refine ⟨.withLenderCaps hown ho (fun proc t hadmits hf => ?_) hlend,
      (IpcWithin.noteCapRemoved hcap.object false).trans (.noteCapAdded hhome.object), .refl _,
      .refl _, .refl _⟩
    split at hf
    · rename_i r hr
      rw [Option.some.inj hf] at hr
      exact hadmits.places (CapTable.reclaimTo_some hr).1 hhome
    · exact hadmits.places (CapTable.reclaim_some hf).1 hhome

/-- The capability that goes home is allowed if the one that left is. -/
theorem Allows.target {cap home : Capability} {p : ProcSlot} {o : Origin} (h : z.Allows cap)
    (htarget : reclaimTarget cap p = some (o, home)) : z.slot o.lender ∧ z.Allows home := by
  obtain ⟨ho, -, rfl⟩ := reclaimTarget_some htarget
  exact ⟨h.lender o ho, h.clear⟩

theorem releaseCap_inside {proc : Process} {cap : Capability} {slot : Nat}
    (hown : z.Owns s.procs) (hc : s.procs.current core = some proc)
    (hslot : z.slot (s.procs.currentSlot core)) (hcap : z.Allows cap) :
    z.Inside s (s.releaseCap core proc cap slot) := by
  have hadmits := hown.current core proc hslot hc
  have hobj := hcap.object
  unfold Kernel.releaseCap
  split
  · -- The frame is unmapped and goes back to the allocator.
    rename_i addr hact
    have hunmap : z.Inside s (s.setCurrentMem core (unmapFramesForSlot s.mem proc slot)) :=
      setCurrentMem_inside hown hc hslot (hadmits.congr rfl rfl) (.unmapAll hadmits.space _)
    exact hunmap.trans (.ofMem hunmap.procs.owns (.setFa _ _))
  · rename_i id hact
    exact .ofRings hown (.release (by rw [← Kernel.releaseAction_releaseRing hact]; exact hobj))
  · exact .ofIpc hown (.noteCapRemoved hobj true)
  · exact setCurrentMem_inside hown hc hslot (hadmits.congr rfl rfl) (.unmapAll hadmits.space _)
  · rename_i o hact
    have hunmap : z.Inside s (s.setCurrentMem core (unmapFbForSlot s.mem proc slot)) :=
      setCurrentMem_inside hown hc hslot (hadmits.congr rfl rfl) (.unmapAll hadmits.space _)
    refine hunmap.trans (reclaimCapHome_inside hunmap.procs.owns hcap ?_
      (hcap.lender o (releaseAction_reclaimTo.mp hact).2))
    split
    · rename_i o' home htarget
      exact (hcap.target htarget).2
    · exact hcap
  · rename_i dev hact
    have hdev : z.object (.boundDevice dev) := by
      rw [← releaseAction_unbindDevice hact]
      exact hobj
    exact ⟨.refl hown, .refl _, .setFa _ _, .refl _, .unbind hdev _⟩
  · exact .refl hown
  · exact .refl hown

theorem sysCapRelease_inside (h : z.Runs s core) (slot : Nat) :
    z.Inside s (s.sysCapRelease core slot).2 := by
  unfold Kernel.sysCapRelease
  split
  · exact .refl h.owns
  · rename_i proc hc
    split
    · exact .refl h.owns
    · rename_i cap hcap
      split
      · exact .refl h.owns
      · split
        · exact .refl h.owns
        · rename_i c t hrev
          obtain ⟨k, -, hk, rfl⟩ := CapTable.revoke_ok hrev
          have htaken := Inside.ofProcs (.setProc h.owns hc h.slot ((h.admits hc).empties k))
          exact htaken.trans (releaseCap_inside htaken.procs.owns
            (Procs.setCurrent_current_self ..) h.slot (h.lookup hc hcap))

/-! ### Transfers -/

/-- What a transfer takes from its giver. -/
theorem revoke_admits {proc proc' : Process} {m m' : Mem} {slot : Nat} {cap : Capability}
    (hadmits : z.Admits proc)
    (hrev : revokeAndUnmapForLend m proc slot = some (cap, proc', m')) :
    z.Allows cap ∧ z.Admits proc' ∧ z.MemWithin m m' := by
  rcases revokeAndUnmapForLend_cases m proc slot with hnone | ⟨k, c, -, hk, hsome⟩
  · rw [hnone] at hrev
    cases hrev
  · rw [hsome] at hrev
    simp only [Option.some.injEq, Prod.mk.injEq] at hrev
    obtain ⟨rfl, hgive⟩ := hrev
    have hproc := hadmits.giveAway m k c
    have hmem : z.MemWithin m (giveAway m proc k c).2 := .giveAway hadmits.space k c
    rw [hgive] at hproc hmem
    exact ⟨hadmits.caps k c hk, hproc, hmem⟩

theorem giveFromCurrent_inside {capSlot : Nat} {cap : Capability} (hown : z.Owns s.procs)
    (hslot : z.slot (s.procs.currentSlot core))
    (hgive : s.giveFromCurrent core capSlot = some (cap, t)) : z.Allows cap ∧ z.Inside s t := by
  unfold Kernel.giveFromCurrent at hgive
  split at hgive
  · cases hgive
  · rename_i proc hc
    split at hgive
    · cases hgive
    · rename_i c proc' mem hrev
      simp only [Option.some.injEq, Prod.mk.injEq] at hgive
      obtain ⟨rfl, rfl⟩ := hgive
      obtain ⟨hcap, hproc, hmem⟩ := revoke_admits (hown.current core proc hslot hc) hrev
      exact ⟨hcap, .setProc hown hc hslot hproc, .noteCapRemoved hcap.object false, hmem,
        .refl _, .refl _⟩

theorem giveFromBlocked_inside {p : ProcSlot} {capSlot : Nat} {cap : Capability}
    (hown : z.Owns s.procs) (hp : z.slot p)
    (hgive : s.giveFromBlocked p capSlot = some (cap, t)) : z.Allows cap ∧ z.Inside s t := by
  unfold Kernel.giveFromBlocked at hgive
  split at hgive
  · cases hgive
  · rename_i proc hproc
    split at hgive
    · cases hgive
    · rename_i c proc' mem hrev
      simp only [Option.some.injEq, Prod.mk.injEq] at hgive
      obtain ⟨rfl, rfl⟩ := hgive
      obtain ⟨hcap, hadmits, hmem⟩ := revoke_admits (hown.table p proc hp hproc) hrev
      refine ⟨hcap, .setSlot hown hp fun x hx => ?_, .noteCapRemoved hcap.object false, hmem,
        .refl _, .refl _⟩
      rw [← Option.some.inj hx]
      exact hadmits

theorem installHome_admits {proc : Process} {t : CapTable} {cap : Capability}
    {prior : Option Origin} {dest : ProcSlot} {k : CapSlot} (hadmits : z.Admits proc)
    (hcap : z.Allows cap) (hin : proc.caps.installHome cap prior dest = some (k, t)) :
    z.Admits (proc.setCaps t) :=
  hadmits.places (CapTable.installHome_some hin).1 hcap

theorem reclaim_admits {proc : Process} {t : CapTable} {cap : Capability} {k : CapSlot}
    (hadmits : z.Admits proc) (hcap : z.Allows cap)
    (hin : proc.caps.reclaim cap = some (k, t)) : z.Admits (proc.setCaps t) :=
  hadmits.places (CapTable.reclaim_some hin).1 hcap

theorem restoreToCurrent_within {P : Procs} {cap : Capability} (hown : z.Owns P)
    (hslot : z.slot (P.currentSlot core)) (hcap : z.Allows cap) :
    z.Within P (Kernel.restoreToCurrent P core cap) := by
  unfold Kernel.restoreToCurrent
  split
  · rename_i k P' hrun
    exact .onCurrent hown hslot (fun proc t hadmits hin => reclaim_admits hadmits hcap hin) hrun
  · exact .refl hown

theorem restoreToBlocked_within {P : Procs} {p : ProcSlot} {cap : Capability} (hown : z.Owns P)
    (hp : z.slot p) (hcap : z.Allows cap) : z.Within P (Kernel.restoreToBlocked P p cap) := by
  unfold Kernel.restoreToBlocked
  split
  · rename_i k P' hrun
    exact .onTable hown hp (fun proc t hadmits hin => reclaim_admits hadmits hcap hin) hrun
  · exact .refl hown

theorem transferCurrentToBlocked_inside {receiver : ProcSlot} (hown : z.Owns s.procs)
    (hslot : z.slot (s.procs.currentSlot core)) (hreceiver : z.slot receiver) (capSlot : Nat) :
    z.Inside s (s.transferCurrentToBlocked core receiver capSlot).2 := by
  unfold Kernel.transferCurrentToBlocked
  split
  · exact .refl hown
  · rename_i cap s₁ hgive
    obtain ⟨hcap, hgiven⟩ := giveFromCurrent_inside hown hslot hgive
    have hslot₁ : z.slot (s₁.procs.currentSlot core) := by
      rw [hgiven.procs.slots]
      exact hslot
    have hadd : z.IpcWithin s₁.ipc (s₁.ipc.noteCapAdded cap) := .noteCapAdded hcap.object
    refine hgiven.trans ?_
    dsimp only
    split
    · rename_i landing procs hin
      exact ⟨.onTable hgiven.procs.owns hreceiver
        (fun proc t hadmits h => installHome_admits hadmits (hcap.lentTo hslot₁) h) hin,
        hadd, .refl _, .refl _, .refl _⟩
    · exact ⟨restoreToCurrent_within hgiven.procs.owns hslot₁ hcap, hadd, .refl _, .refl _,
        .refl _⟩

theorem transferBlockedToCurrent_inside {sender : ProcSlot} (hown : z.Owns s.procs)
    (hslot : z.slot (s.procs.currentSlot core)) (hsender : z.slot sender) (capSlot : Nat) :
    z.Inside s (s.transferBlockedToCurrent core sender capSlot).2 := by
  unfold Kernel.transferBlockedToCurrent
  split
  · exact .refl hown
  · rename_i cap s₁ hgive
    obtain ⟨hcap, hgiven⟩ := giveFromBlocked_inside hown hsender hgive
    have hslot₁ : z.slot (s₁.procs.currentSlot core) := by
      rw [hgiven.procs.slots]
      exact hslot
    have hadd : z.IpcWithin s₁.ipc (s₁.ipc.noteCapAdded cap) := .noteCapAdded hcap.object
    refine hgiven.trans ?_
    dsimp only
    split
    · rename_i landing procs hin
      exact ⟨.onCurrent hgiven.procs.owns hslot₁
        (fun proc t hadmits h => installHome_admits hadmits (hcap.lentTo hsender) h) hin,
        hadd, .refl _, .refl _, .refl _⟩
    · exact ⟨restoreToBlocked_within hgiven.procs.owns hsender hcap, hadd, .refl _, .refl _,
        .refl _⟩

theorem mintReplyIntoCurrent_inside {caller : ProcSlot} (hown : z.Owns s.procs)
    (hslot : z.slot (s.procs.currentSlot core)) (hcaller : z.slot caller) :
    z.Inside s (s.mintReplyIntoCurrent core caller).2 := by
  unfold Kernel.mintReplyIntoCurrent
  split
  · rename_i landing procs hin
    exact .ofProcs (.onCurrent hown hslot (fun proc t hadmits h =>
      reclaim_admits hadmits (.made ((z.caller caller).mpr hcaller)) h) hin)
  · exact .refl hown

theorem mintReplyIntoBlocked_inside {server caller : ProcSlot} (hown : z.Owns s.procs)
    (hserver : z.slot server) (hcaller : z.slot caller) :
    z.Inside s (s.mintReplyIntoBlocked server caller).2 := by
  unfold Kernel.mintReplyIntoBlocked
  split
  · rename_i landing procs hin
    exact .ofProcs (.onTable hown hserver (fun proc t hadmits h =>
      reclaim_admits hadmits (.made ((z.caller caller).mpr hcaller)) h) hin)
  · exact .refl hown

/-! ### Messages -/

/-- A process of the zone is woken. -/
theorem wakeWith_inside {p : ProcSlot} (hown : z.Owns s.procs) (hp : z.slot p)
    (status payload landing : Nat) :
    z.Inside s { s with procs := s.procs.wakeWith p status payload landing } :=
  .ofProcs (.wakeWith hown hp status payload landing)

theorem ipcSend_inside (h : z.Runs s core) (epSlot msg capSlot : Nat) :
    z.Inside s (s.ipcSend core epSlot msg capSlot).2 := by
  unfold Kernel.ipcSend
  split
  · exact .refl h.owns
  · rename_i id hid
    have hobj := h.endpoint (by decide) hid
    split
    · -- A receiver waits. It gets the capability, and then it is woken.
      rename_i receiver ipc htake
      obtain ⟨hreceiver, hipc⟩ := h.takeWaiting hobj htake
      have htaken : z.Inside s { s with ipc } := .ofIpc h.owns hipc
      have hmoved : z.Inside s (if capSlot = noCap then (noCap, { s with ipc })
          else ({ s with ipc } : Kernel).transferCurrentToBlocked core receiver capSlot).2 := by
        split
        · exact htaken
        · exact htaken.trans
            (transferCurrentToBlocked_inside htaken.procs.owns h.slot hreceiver capSlot)
      exact hmoved.trans (wakeWith_inside hmoved.procs.owns hreceiver _ _ _)
    · split
      · exact .refl h.owns
      · have hpending : z.Within s.procs
            (s.procs.setPending (s.procs.currentSlot core) msg capSlot false) :=
          .setPending h.owns h.slot msg capSlot false
        exact ⟨hpending.trans (.blockCurrent hpending.owns h.slot), h.enqueueWaiter hobj true,
          .refl _, .refl _, .refl _⟩

theorem ipcRecv_inside (h : z.Runs s core) (epSlot : Nat) :
    z.Inside s (s.ipcRecv core epSlot).2 := by
  unfold Kernel.ipcRecv
  split
  · exact .refl h.owns
  · rename_i id hid
    have hobj := h.endpoint (by decide) hid
    split
    · rename_i sender ipc htake
      obtain ⟨hsender, hipc⟩ := h.takeWaiting hobj htake
      have htaken : z.Inside s { s with ipc } := .ofIpc h.owns hipc
      dsimp only
      split
      · -- A queued caller stays blocked until the reply.
        exact htaken.trans (mintReplyIntoCurrent_inside htaken.procs.owns h.slot hsender)
      · have hmoved : z.Inside s (if (s.procs.table sender).pendingCap = noCap then
            (noCap, { s with ipc })
            else ({ s with ipc } : Kernel).transferBlockedToCurrent core sender
              (s.procs.table sender).pendingCap).2 := by
          split
          · exact htaken
          · exact htaken.trans (transferBlockedToCurrent_inside htaken.procs.owns h.slot hsender _)
        exact hmoved.trans (wakeWith_inside hmoved.procs.owns hsender _ _ _)
    · dsimp only
      split
      · exact .ofProcs (.takeReclaimLanding h.owns h.slot)
      · exact ⟨.blockCurrent h.owns h.slot, h.enqueueWaiter hobj false, .refl _, .refl _, .refl _⟩

theorem ipcCall_inside (h : z.Runs s core) (epSlot req : Nat) :
    z.Inside s (s.ipcCall core epSlot req).2 := by
  unfold Kernel.ipcCall
  split
  · exact .refl h.owns
  · rename_i id hid
    have hobj := h.endpoint (by decide) hid
    dsimp only
    split
    · rename_i server ipc htake
      obtain ⟨hserver, hipc⟩ := h.takeWaiting hobj htake
      have htaken : z.Inside s { s with ipc } := .ofIpc h.owns hipc
      have hminted := htaken.trans (mintReplyIntoBlocked_inside htaken.procs.owns hserver h.slot)
      have hwoken := hminted.trans (wakeWith_inside hminted.procs.owns hserver ipcOk req
        (({ s with ipc } : Kernel).mintReplyIntoBlocked server (s.procs.currentSlot core)).1)
      refine hwoken.trans (.ofProcs (.blockCurrent hwoken.procs.owns ?_))
      rw [hwoken.procs.slots]
      exact h.slot
    · split
      · exact .refl h.owns
      · have hpending : z.Within s.procs
            (s.procs.setPending (s.procs.currentSlot core) req noCap true) :=
          .setPending h.owns h.slot req noCap true
        exact ⟨hpending.trans (.blockCurrent hpending.owns h.slot), h.enqueueWaiter hobj true,
          .refl _, .refl _, .refl _⟩

theorem ipcReply_inside (h : z.Runs s core) (replySlot msg : Nat) :
    z.Inside s (s.ipcReply core replySlot msg).2 := by
  unfold Kernel.ipcReply
  split
  · exact .refl h.owns
  · rename_i proc hc
    split
    · exact .refl h.owns
    · rename_i cap hcap
      split
      · rename_i caller hobj
        have hcaller : z.slot caller := by
          rw [← z.caller caller, ← hobj]
          exact (h.lookup hc hcap).object
        split
        · have hwoken : z.Within s.procs (s.procs.wakeWith caller ipcOk msg noCap) :=
            .wakeWith h.owns hcaller ipcOk msg noCap
          refine .ofProcs (hwoken.trans ?_)
          split
          · -- The reply capability is consumed.
            rename_i c P' hrun
            refine .onCurrent hwoken.owns h.slot (fun x t hadmits hrev => ?_) hrun
            cases hres : x.caps.revoke replySlot with
            | error e =>
              rw [hres] at hrev
              cases hrev
            | ok r =>
              rw [hres] at hrev
              simp only [Except.toOption, Option.some.injEq] at hrev
              rw [hrev] at hres
              obtain ⟨k, -, -, rfl⟩ := CapTable.revoke_ok hres
              exact hadmits.empties k
          · exact .refl hwoken.owns
        · exact .refl h.owns
      · exact .refl h.owns

/-! ### Rings and the bound device -/

theorem ringIdFor_object (h : z.Runs s core) {slot : Nat} {id : RingId}
    (hid : s.ringIdFor core slot = some id) : z.object (.ring id) := by
  unfold Kernel.ringIdFor at hid
  split at hid
  · cases hid
  · rename_i proc hc
    split at hid
    · rename_i id' _ _ hcap
      split at hid
      · rw [← Option.some.inj hid]
        exact (h.lookup hc hcap).object
      · cases hid
    · cases hid

theorem ringRegister_inside (h : z.Runs s core) (sqSlot cqSlot entries : Nat) :
    z.Inside s (s.ringRegister core sqSlot cqSlot entries).2 := by
  unfold Kernel.ringRegister
  split
  · exact .refl h.owns
  · split
    · exact .refl h.owns
    · rename_i proc hc
      split
      · split
        · exact .refl h.owns
        · split
          · exact .refl h.owns
          · rename_i id hfree
            have hid : z.object (.ring id) := by
              refine h.freeRing id ?_
              have hfound := List.find?_some hfree
              simpa using hfound
            dsimp only
            split
            · rename_i slot t hmint
              have hadmits := (h.admits hc).places (CapTable.install_ok hmint).1 (.made hid)
              exact ⟨.setProc h.owns hc h.slot hadmits, .refl _, .refl _, .setRing hid _,
                .refl _⟩
            · exact ⟨.refl h.owns, .refl _, .refl _,
                (RingsWithin.setRing hid _).trans (.setRing hid _), .refl _⟩
      · exact .refl h.owns

theorem postStatus_inside {id : RingId} (hown : z.Owns s.procs) (hid : z.object (.ring id))
    (userData status : Nat) : z.Inside s (s.postStatus id userData status) :=
  ⟨.refl hown, .refl _, .refl _, .cqPost hid s.ram userData status false, .refl _⟩

theorem postBlock_inside {id : RingId} (hown : z.Owns s.procs) (hid : z.object (.ring id))
    (caps : CapTable) (e : SqEntry) (rangeRight frameRight : Rights) (dir : Direction) :
    z.Inside s (s.postBlock caps id e rangeRight frameRight dir).2 := by
  unfold Kernel.postBlock
  split
  · exact postStatus_inside hown hid _ _
  · split
    · exact postStatus_inside hown hid _ _
    · split
      · split
        · rename_i devs fa hpost
          exact ⟨.refl hown, .refl _, .setFa _ _, .refl _, .ringPost hpost⟩
        · exact .refl hown
      · exact postStatus_inside hown hid _ _

theorem postEntry_inside {id : RingId} (hown : z.Owns s.procs) (hid : z.object (.ring id))
    (caps : CapTable) (e : SqEntry) : z.Inside s (s.postEntry caps id e).2 := by
  unfold Kernel.postEntry
  split
  · exact postBlock_inside hown hid caps e _ _ _
  · split
    · exact postBlock_inside hown hid caps e _ _ _
    · split
      · unfold Kernel.postEventSub
        split
        · exact postStatus_inside hown hid _ _
        · split
          · rename_i rings hsub
            exact .ofRings hown (.subscribe hid hsub)
          · exact postStatus_inside hown hid _ _
      · split
        · exact .ofRings hown (.cancel hid _)
        · exact postStatus_inside hown hid _ _

/-- The drain of a submission queue. The induction is on the number of entries left. -/
theorem submitLoop_inside {id : RingId} (hid : z.object (.ring id)) (caps : CapTable)
    (sqBase : Nat) (mask : UInt32) (n : Nat) (head : UInt32) (consumed : Nat) (s : Kernel)
    (hown : z.Owns s.procs) :
    z.Inside s (Kernel.submitLoop caps id sqBase mask n head consumed s).2.2 := by
  induction n generalizing head consumed s with
  | zero => exact .refl hown
  | succ n ih =>
    unfold Kernel.submitLoop
    have hpost := postEntry_inside hown hid caps (readSqEntry s.ram sqBase (head &&& mask).toNat)
    split
    · rename_i s' heq
      rw [heq] at hpost
      exact hpost.trans (ih _ _ s' hpost.procs.owns)
    · rename_i s' heq
      rw [heq] at hpost
      exact hpost

theorem ringSubmit_inside (h : z.Runs s core) (ringSlot : Nat) :
    z.Inside s (s.ringSubmit core ringSlot).2 := by
  unfold Kernel.ringSubmit
  split
  · rename_i proc id hc hid
    have hobj := ringIdFor_object h hid
    dsimp only
    have hloop := submitLoop_inside hobj proc.caps (s.rings.rings id).sqPhys
      (s.rings.rings id).mask (s.ram.r32 ((s.rings.rings id).sqPhys + hdrTail) -
        (s.rings.rings id).sqHead).toNat (s.rings.rings id).sqHead 0 s h.owns
    exact hloop.trans ⟨.refl hloop.procs.owns, .refl _, .refl _, .setRing hobj _, .refl _⟩
  · exact .refl h.owns

theorem ringWait_inside (h : z.Runs s core) (ringSlot : Nat) :
    z.Inside s (s.ringWait core ringSlot).2 := by
  unfold Kernel.ringWait
  split
  · exact .refl h.owns
  · rename_i id hid
    dsimp only
    split
    · exact .refl h.owns
    · exact ⟨.blockCurrent h.owns h.slot, .refl _, .refl _, .setRing (ringIdFor_object h hid) _,
        .refl _⟩

theorem bindWait_inside (h : z.Runs s core) (bindSlot usedSeen : Nat) (usedIdx : UInt16) :
    z.Inside s (s.bindWait core bindSlot usedSeen usedIdx).2 := by
  unfold Kernel.bindWait
  split
  · exact .refl h.owns
  · rename_i proc hc
    split
    · rename_i dev _ _ hcap
      split
      · exact .refl h.owns
      · split
        · exact .refl h.owns
        · split
          · exact .refl h.owns
          · exact ⟨.blockCurrent h.owns h.slot, .refl _, .refl _, .refl _,
              .setDevice (h.lookup hc hcap).object _⟩
    · exact .refl h.owns

end Zone

end Plinth
