import Plinth.Groups.Calls
import Plinth.Refine.Exit

/-!
# `Plinth.Groups.Exit`: spawn and exit stay in the zone

A spawn takes a free slot, a free endpoint and a free frame, which belong to every zone that covers
the state. The child holds the result endpoint, its budget and what the caller hands it.

An exit runs three loops: borrowed capabilities go home, the waiters that have no peer any more are
woken, and what the process owned is returned. Each loop has one lemma for its body and one
induction. At the end the origins that name the process are cleared in every table. No table outside
of the zone has such an origin (`Zone.Shut`), so none of them changes.
-/

set_option autoImplicit false

namespace Plinth

namespace Zone

variable {z : Zone} {s t : Kernel} {core : Core}

/-! ### Spawn -/

theorem spawnProcess_allows {k : CapSlot} {cap : Capability}
    (hk : spawnProcess.caps.slots k = some cap) : z.Allows cap := by
  rw [spawnProcess_eq] at hk
  change (CapTable.new.set 0 _).slots k = some cap at hk
  rw [CapTable.set_slots] at hk
  by_cases hk0 : k = 0
  · rw [hk0, Function.update_self, Option.some.injEq] at hk
    rw [← hk]
    exact .made (z.budget _)
  · rw [Function.update_of_ne hk0] at hk
    cases hk

theorem installGrants_within {caps : List Capability} (hcaps : ∀ cap ∈ caps, z.Allows cap)
    (t : CapTable) (ipc : Ipc) : z.IpcWithin ipc (Kernel.installGrants caps t ipc).2 := by
  induction caps generalizing t ipc with
  | nil => exact .refl ipc
  | cons cap caps ih =>
    unfold Kernel.installGrants
    split
    · exact .refl ipc
    · exact (IpcWithin.noteCapAdded (hcaps cap List.mem_cons_self).object).trans
        (ih (fun c hc => hcaps c (List.mem_cons_of_mem _ hc)) _ _)

theorem setupProcess_inside {id : ProcSlot} (caps : List Capability) (hown : z.Owns s.procs)
    (hid : z.slot id) (hfree : ∀ a fa, s.mem.fa.alloc = .ok (a, fa) → z.space a)
    (hcaps : ∀ cap ∈ caps, z.Allows cap) (image : Option Image) :
    z.Inside s (s.setupProcess id image caps).2 := by
  unfold Kernel.setupProcess
  split
  · exact .refl hown
  · rename_i l4 mem hspace
    have hl4 : z.space l4 ∧ z.MemWithin s.mem mem := by
      unfold Mem.createAddressSpace at hspace
      split at hspace
      · rename_i a fa halloc
        simp only [Option.some.injEq, Prod.mk.injEq] at hspace
        obtain ⟨rfl, rfl⟩ := hspace
        have ha := hfree a fa halloc
        exact ⟨ha, (MemWithin.setFa s.mem fa).trans (.setSpace ha _)⟩
      · cases hspace
    have hload : z.MemWithin s.mem (loadAndMap mem image l4).2.1 :=
      hl4.2.trans (.loadAndMap hl4.1 image)
    split
    · rename_i m boot heq
      rw [heq] at hload
      exact .ofMem hown (hload.trans (.setFa _ _))
    · rename_i entry m boot heq
      rw [heq] at hload
      have hipc := installGrants_within hcaps spawnProcess.caps s.ipc
      split
      · rename_i ipc hgrants
        rw [hgrants] at hipc
        exact ⟨.refl hown, hipc, hload.trans (.setFa _ _), .refl _, .refl _⟩
      · rename_i t ipc hgrants
        rw [hgrants] at hipc
        refine ⟨.setSlot hown hid fun x hx => ?_, hipc, hload, .refl _, .refl _⟩
        rw [← Option.some.inj hx]
        refine ⟨fun k cap hk => ?_, hl4.1⟩
        rcases Kernel.installGrants_slots hgrants hk with hinitial | hgrant
        · exact spawnProcess_allows hinitial
        · exact hcaps cap hgrant

/-- The transfer half of a spawn. The allocator and the states of the slots stay. -/
theorem takeForSpawn_inside (hown : z.Owns s.procs) (hslot : z.slot (s.procs.currentSlot core))
    (slot : Nat) :
    z.Inside s (s.takeForSpawn core slot).2 ∧ (s.takeForSpawn core slot).2.mem.fa = s.mem.fa ∧
      (s.takeForSpawn core slot).2.procs.table = s.procs.table ∧
      ∀ cap, (s.takeForSpawn core slot).1 = some cap → z.Allows cap := by
  unfold Kernel.takeForSpawn
  split
  · exact ⟨.refl hown, rfl, rfl, fun _ hcap => by cases hcap⟩
  · split
    · exact ⟨.refl hown, rfl, rfl, fun _ hcap => by cases hcap⟩
    · rename_i cap s₁ hgive
      obtain ⟨hcap, hgiven⟩ := giveFromCurrent_inside hown hslot hgive
      have hkept : s₁.mem.fa = s.mem.fa ∧ s₁.procs.table = s.procs.table := by
        unfold Kernel.giveFromCurrent at hgive
        split at hgive
        · cases hgive
        · rename_i proc hc
          rcases revokeAndUnmapForLend_cases s.mem proc slot with hnone | ⟨k, c, -, -, hsome⟩
          · rw [hnone] at hgive
            cases hgive
          · rw [hsome] at hgive
            simp only [Option.some.injEq, Prod.mk.injEq] at hgive
            rw [← hgive.2]
            exact ⟨unmapForSlot_fa .., rfl⟩
      refine ⟨hgiven, hkept.1, hkept.2, fun c hc => ?_⟩
      rw [← Option.some.inj hc]
      exact hcap

theorem undoTransfer_inside {cap : Capability} (hown : z.Owns s.procs)
    (hslot : z.slot (s.procs.currentSlot core)) (hcap : z.Allows cap) (slot : Nat) :
    z.Inside s (s.undoTransfer core slot cap) := by
  -- What did not fit into its old slot goes into a free one.
  have hlast : ∀ {P : Procs} (b : Bool), z.Within s.procs P →
      z.Within s.procs (if b then P else Kernel.restoreToCurrent P core cap) := by
    intro P b hP
    split
    · exact hP
    · refine hP.trans (restoreToCurrent_within hP.owns ?_ hcap)
      rw [hP.slots]
      exact hslot
  unfold Kernel.undoTransfer
  refine ⟨hlast _ ?_, .noteCapAdded hcap.object, .refl _, .refl _, .refl _⟩
  split
  · rename_i k P hrun
    refine .onCurrent hown hslot (fun proc t hadmits hf => ?_) hrun
    split at hf
    · rename_i r hr
      rw [Option.some.inj hf] at hr
      exact hadmits.places (CapTable.reclaimTo_some hr).1 hcap
    · simp only [Option.some.injEq, Prod.mk.injEq] at hf
      rw [← hf.2]
      refine hadmits.congr ?_ rfl
      unfold CapTable.clearReservation
      split <;> rfl
  · exact .refl hown

theorem spawnScheduled_inside (h : z.Runs s core) (image : Option Image) (transferSlot : Nat) :
    z.Inside s (s.spawnScheduled core image transferSlot).2 := by
  unfold Kernel.spawnScheduled
  split
  · exact .refl h.owns
  · rename_i ep ipc hcreate
    obtain ⟨hfree, rfl⟩ := Ipc.createEndpoint_some hcreate
    have hep := h.freeEndpoint ep hfree
    have hcreated : z.Inside s { s with
        ipc := s.ipc.setEndpoint ep { Endpoint.empty with inUse := true } } :=
      .ofIpc h.owns (.setEndpoint hep _)
    obtain ⟨htake, hfa, htable, hcap⟩ :=
      takeForSpawn_inside hcreated.procs.owns h.slot transferSlot
    generalize ({ s with ipc := s.ipc.setEndpoint ep { Endpoint.empty with inUse := true } } :
      Kernel).takeForSpawn core transferSlot = r at htake hfa htable hcap
    obtain ⟨transferred, s₁⟩ := r
    have htaken := hcreated.trans htake
    have hown₁ := htaken.procs.owns
    have hslot₁ : z.slot (s₁.procs.currentSlot core) := by
      rw [htaken.procs.slots]
      exact h.slot
    dsimp only at htake hfa htable hcap htaken hown₁ ⊢
    -- The child gets the send half of the result endpoint and the loan.
    have hspawn : z.Inside s₁ (s₁.schedSpawn image ([some ⟨.endpoint ep, rightSend, none⟩,
        transferred.map fun cap =>
          Kernel.spawnLoan cap (s₁.procs.currentSlot core) transferSlot].reduceOption)).2 := by
      unfold Kernel.schedSpawn
      split
      · exact .refl hown₁
      · rename_i id hfind
        have hid : z.slot id := by
          refine h.vacant id ?_
          have hempty := List.find?_some hfind
          rw [beq_iff_eq] at hempty
          unfold Procs.state at hempty ⊢
          rw [← htable]
          exact hempty
        have hsetup := setupProcess_inside ([some ⟨.endpoint ep, rightSend, none⟩,
            transferred.map fun cap =>
              Kernel.spawnLoan cap (s₁.procs.currentSlot core) transferSlot].reduceOption)
          hown₁ hid (fun a fa halloc => h.freeFrame a fa (by rw [← hfa]; exact halloc))
          (fun cap hmem => ?_) image
        · split
          · rename_i s' heq
            rw [heq] at hsetup
            exact hsetup
          · rename_i s' heq
            rw [heq] at hsetup
            exact hsetup
        · rw [List.reduceOption_mem_iff] at hmem
          rcases List.mem_cons.mp hmem with heq | hrest
          · rw [Option.some.inj heq]
            exact .made hep
          · obtain ⟨c, hc, rfl⟩ := Option.map_eq_some_iff.mp (List.mem_singleton.mp hrest).symm
            exact (hcap c hc).spawnLoan hslot₁
    have hdone := htaken.trans hspawn
    have hslot₂ := hslot₁
    rw [← hspawn.procs.slots] at hslot₂
    split
    · rename_i s₂ heq
      rw [heq] at hdone hslot₂
      have hrelease := hdone.trans (.ofIpc hdone.procs.owns (.releaseEndpoint hep))
      split
      · rename_i cap
        exact hrelease.trans (undoTransfer_inside hrelease.procs.owns hslot₂ (hcap cap rfl) _)
      · exact hrelease
    · rename_i id s₂ heq
      rw [heq] at hdone hslot₂
      dsimp only at hdone hslot₂ ⊢
      split
      · rename_i k procs hrun
        have hadd : z.IpcWithin s₂.ipc (s₂.ipc.noteCapAdded ⟨.endpoint ep, rightRecv, none⟩) :=
          .noteCapAdded hep
        refine hdone.trans ⟨.onCurrent hdone.procs.owns hslot₂ (fun proc t hadmits hf => ?_) hrun,
          hadd, .refl _, .refl _, .refl _⟩
        cases hmint : proc.caps.mint (.endpoint ep) rightRecv with
        | error e =>
          rw [hmint] at hf
          cases hf
        | ok r =>
          rw [hmint] at hf
          simp only [Except.toOption, Option.some.injEq] at hf
          rw [hf] at hmint
          exact hadmits.places (CapTable.install_ok hmint).1 (.made hep)
      · exact hdone

theorem sysSpawn_inside (h : z.Runs s core) (binary : Option (Option Image))
    (transferSlot : Nat) : z.Inside s (s.sysSpawn core binary transferSlot).2 := by
  unfold Kernel.sysSpawn
  split
  · exact .refl h.owns
  · exact spawnScheduled_inside h _ _

theorem sysSpawnFromBuffer_inside (h : z.Runs s core) (bufVa len : Nat) (image : Option Image)
    (transferSlot : Nat) :
    z.Inside s (s.sysSpawnFromBuffer core bufVa len image transferSlot).2 := by
  unfold Kernel.sysSpawnFromBuffer
  split
  · exact .refl h.owns
  · split
    · exact .refl h.owns
    · split
      · exact spawnScheduled_inside h _ _
      · exact .refl h.owns

/-! ### Borrowed capabilities go home -/

theorem Queues.debugAssert {ipc : Ipc} (h : z.Queues ipc) (b : Bool) :
    z.Queues (ipc.debugAssert b) := by
  obtain ⟨Q, hQ, hwait⟩ := h
  refine ⟨Q, hQ.congr ?_ fun id => ?_, hwait⟩
  · unfold Ipc.debugAssert
    split <;> rfl
  · unfold Ipc.debugAssert
    split <;> rfl

/-- The body of the loop: one borrowed capability goes home. Such a capability names no endpoint,
so the endpoints stay. -/
theorem reclaimLentCap_inside {cap : Capability} (hown : z.Owns s.procs) (hqueues : z.Queues s.ipc)
    (hcap : z.Allows cap) (dyingSlot : ProcSlot) :
    z.Inside s (Kernel.reclaimLentCap dyingSlot s cap) ∧
      z.Queues (Kernel.reclaimLentCap dyingSlot s cap).ipc := by
  unfold Kernel.reclaimLentCap
  split
  · exact ⟨.refl hown, hqueues⟩
  · rename_i o home htarget
    obtain ⟨ho, hhome⟩ := hcap.target htarget
    obtain ⟨-, hkind, rfl⟩ := reclaimTarget_some htarget
    have hreclaim := reclaimCapHome_inside hown hcap hhome ho
    have hipc : (s.reclaimCapHome cap o { cap with origin := none }).2.ipc = s.ipc := by
      have hne := not_endpoint_of_reclaimable hkind
      unfold Kernel.reclaimCapHome
      split
      · rfl
      · rfl
      · dsimp only
        rw [Ipc.noteCapRemoved_of_ne _ _ hne]
        exact Ipc.noteCapAdded_of_ne _ hne
    split
    · rename_i landing s' heq
      rw [heq] at hreclaim hipc
      refine ⟨hreclaim.trans (.ofProcs (.setReclaimLanding hreclaim.procs.owns ho _)), ?_⟩
      rw [← hipc] at hqueues
      exact hqueues
    · rename_i s' heq
      rw [heq] at hreclaim hipc
      rw [← hipc] at hqueues
      exact ⟨hreclaim, hqueues⟩
    · rename_i s' heq
      rw [heq] at hreclaim hipc
      rw [← hipc] at hqueues
      exact ⟨hreclaim.trans (.ofIpc hreclaim.procs.owns (.debugAssert false)),
        hqueues.debugAssert false⟩

theorem reclaimLentCaps_inside {caps : List Capability} (hown : z.Owns s.procs)
    (hqueues : z.Queues s.ipc) (hcaps : ∀ cap ∈ caps, z.Allows cap) (dyingSlot : ProcSlot) :
    z.Inside s (caps.foldl (Kernel.reclaimLentCap dyingSlot) s) ∧
      z.Queues (caps.foldl (Kernel.reclaimLentCap dyingSlot) s).ipc := by
  induction caps generalizing s with
  | nil => exact ⟨.refl hown, hqueues⟩
  | cons cap caps ih =>
    rw [List.foldl_cons]
    obtain ⟨hone, hqueues'⟩ :=
      reclaimLentCap_inside hown hqueues (hcaps cap List.mem_cons_self) dyingSlot
    obtain ⟨hrest, hend⟩ :=
      ih hone.procs.owns hqueues' fun c hc => hcaps c (List.mem_cons_of_mem _ hc)
    exact ⟨hone.trans hrest, hend⟩

/-! ### Waiters are woken -/

theorem reapReplies_within {P : Procs} {caps : List Capability} (hown : z.Owns P)
    (hcaps : ∀ cap ∈ caps, z.Allows cap) : z.Within P (caps.foldl Kernel.reapReply P) := by
  induction caps generalizing P with
  | nil => exact .refl hown
  | cons cap caps ih =>
    rw [List.foldl_cons]
    have hone : z.Within P (Kernel.reapReply P cap) := by
      unfold Kernel.reapReply
      split
      · rename_i caller hobj
        have hcaller : z.slot caller := by
          rw [← z.caller caller, ← hobj]
          exact (hcaps cap List.mem_cons_self).object
        split
        · have htake : z.Within P (P.takeReclaimLanding caller).2 :=
            .takeReclaimLanding hown hcaller
          exact htake.trans (.wakeWith htake.owns hcaller _ _ _)
        · exact .refl hown
      · exact .refl hown
    exact hone.trans (ih hone.owns fun c hc => hcaps c (List.mem_cons_of_mem _ hc))

/-- Each round takes the head of the queue, and the waiters that are left are of the zone. The
induction is on the number of rounds. -/
theorem wakeAllStranded_within {id : EndpointId} (hid : z.object (.endpoint id)) (fuel : Nat)
    {P : Procs} {ipc : Ipc} (hown : z.Owns P) (hqueues : z.Queues ipc) :
    z.Within P (Kernel.wakeAllStranded id fuel (P, ipc)).1 ∧
      z.IpcWithin ipc (Kernel.wakeAllStranded id fuel (P, ipc)).2 ∧
      z.Queues (Kernel.wakeAllStranded id fuel (P, ipc)).2 := by
  induction fuel generalizing P ipc with
  | zero => exact ⟨.refl hown, .refl ipc, hqueues⟩
  | succ fuel ih =>
    unfold Kernel.wakeAllStranded
    split
    · exact ⟨.refl hown, .refl ipc, hqueues⟩
    · rename_i p ipc' hdeq
      obtain ⟨Q, hQ, hwait⟩ := hqueues
      obtain ⟨rest, hrest, hQ', -⟩ := Ipc.dequeueWaiter_some hQ hdeq
      have hp : z.slot p := by
        refine hwait id hid p ?_
        rw [hrest]
        exact List.mem_cons_self
      have hqueues' : z.Queues ipc' := by
        refine ⟨_, hQ', fun id' hid' q hq => ?_⟩
        by_cases heq : id' = id
        · rw [heq, Function.update_self] at hq
          refine hwait id hid q ?_
          rw [hrest]
          exact List.mem_cons_of_mem _ hq
        · rw [Function.update_of_ne heq] at hq
          exact hwait id' hid' q hq
      have htake : z.Within P (P.takeReclaimLanding p).2 := .takeReclaimLanding hown hp
      have hwake := htake.trans
        (.wakeWith htake.owns hp ipcPeerDied 0 (P.takeReclaimLanding p).1)
      obtain ⟨hprocs, hipc, hend⟩ := ih hwake.owns hqueues'
      exact ⟨hwake.trans hprocs, (IpcWithin.dequeueWaiter hid hdeq).trans hipc, hend⟩

/-- The endpoints that lose their last peer are named by the dying process. -/
theorem reapEndpoints_within {dying : CapTable} (hcaps : ∀ cap ∈ dying.iter, z.Allows cap)
    (ids : List EndpointId) {P : Procs} {ipc : Ipc} (hown : z.Owns P) (hqueues : z.Queues ipc) :
    z.Within P (ids.foldl (Kernel.reapEndpoint dying) (P, ipc)).1 ∧
      z.IpcWithin ipc (ids.foldl (Kernel.reapEndpoint dying) (P, ipc)).2 := by
  induction ids generalizing P ipc with
  | nil => exact ⟨.refl hown, .refl ipc⟩
  | cons id ids ih =>
    rw [List.foldl_cons]
    have hone : z.Within P (Kernel.reapEndpoint dying (P, ipc) id).1 ∧
        z.IpcWithin ipc (Kernel.reapEndpoint dying (P, ipc) id).2 ∧
        z.Queues (Kernel.reapEndpoint dying (P, ipc) id).2 := by
      unfold Kernel.reapEndpoint
      dsimp only
      split
      · rename_i hcond
        rw [Bool.and_eq_true] at hcond
        obtain ⟨cap, hcap, hobj⟩ := Kernel.deathStrandsPeers_names hcond.2
        have hid : z.object (.endpoint id) := by
          rw [← hobj]
          exact (hcaps cap hcap).object
        exact wakeAllStranded_within hid maxProcesses hown hqueues
      · exact ⟨.refl hown, .refl ipc, hqueues⟩
    obtain ⟨hprocs, hipc⟩ := ih hone.1.owns hone.2.2
    exact ⟨hone.1.trans hprocs, hone.2.1.trans hipc⟩

theorem reapDying_inside {dying : CapTable} (hown : z.Owns s.procs) (hqueues : z.Queues s.ipc)
    (hcaps : ∀ cap ∈ dying.iter, z.Allows cap) : z.Inside s (s.reapDying dying) := by
  have hreplies := reapReplies_within hown hcaps
  obtain ⟨hprocs, hipc⟩ :=
    reapEndpoints_within hcaps (List.finRange maxEndpoints) hreplies.owns hqueues
  exact ⟨hreplies.trans hprocs, hipc, .refl _, .refl _, .refl _⟩

/-! ### The end of the process -/

theorem drainCap_inside {cap : Capability} (hown : z.Owns s.procs) (hcap : z.Allows cap) :
    z.Inside s (s.drainCap cap) := by
  unfold Kernel.drainCap
  split
  · exact .ofMem hown (.setFa _ _)
  · rename_i id hact
    refine .ofRings hown (.release ?_)
    rw [← Kernel.releaseAction_releaseRing hact]
    exact hcap.object
  · exact .ofIpc hown (.noteCapRemoved hcap.object true)
  all_goals exact .refl hown

theorem drainCaps_inside {caps : List Capability} (hown : z.Owns s.procs)
    (hcaps : ∀ cap ∈ caps, z.Allows cap) : z.Inside s (caps.foldl Kernel.drainCap s) := by
  induction caps generalizing s with
  | nil => exact .refl hown
  | cons cap caps ih =>
    rw [List.foldl_cons]
    have hone := drainCap_inside hown (hcaps cap List.mem_cons_self)
    exact hone.trans (ih hone.procs.owns fun c hc => hcaps c (List.mem_cons_of_mem _ hc))

theorem teardown_inside {proc : Process} (hown : z.Owns s.procs) (hadmits : z.Admits proc)
    (boot : List (Nat × Nat)) : z.Inside s (s.teardown proc boot) := by
  unfold Kernel.teardown
  dsimp only
  have hunmap : z.Inside s { s with
      mem := s.mem.unmapAll proc.l4 (proc.maps.filterMap fun e => e.map Prod.fst) } :=
    .ofMem hown (.unmapAll hadmits.space _)
  have hdrain := hunmap.trans (drainCaps_inside hunmap.procs.owns fun cap hcap => by
    obtain ⟨k, hk⟩ := CapTable.mem_iter.mp hcap
    exact hadmits.caps k cap hk)
  exact hdrain.trans (.ofMem hdrain.procs.owns (.unloadPages hadmits.space boot))

/-- A table with no origin that names `p` stays. -/
theorem clearOrigin_eq {proc : Process} {p : ProcSlot}
    (h : ∀ k cap o, proc.caps.slots k = some cap → cap.origin = some o → o.lender ≠ p) :
    proc.setCaps (proc.caps.clearOrigin p) = proc := by
  have hslots : (proc.caps.clearOrigin p).slots = proc.caps.slots := by
    funext k
    rw [CapTable.clearOrigin_slots]
    cases hk : proc.caps.slots k with
    | none => rfl
    | some cap =>
      rw [Option.map_some, Option.some.injEq]
      unfold CapTable.clearLender
      refine if_neg fun hlender => ?_
      obtain ⟨o, ho, hp⟩ := Option.map_eq_some_iff.mp hlender
      exact h k cap o hk ho hp
  exact congrArg (fun slots => proc.setCaps { proc.caps with slots }) hslots

/-- The origins that name a process of the zone are cleared. Outside of the zone there is none. -/
theorem clearOriginsNaming_within {P : Procs} {p : ProcSlot} (hown : z.Owns P) (hshut : z.Shut P)
    (hp : z.slot p) : z.Within P (P.clearOriginsNaming p) := by
  have hsame : ∀ proc : Process, (∀ k cap o, proc.caps.slots k = some cap →
      cap.origin = some o → ¬ z.slot o.lender) →
      proc.setCaps (proc.caps.clearOrigin p) = proc := fun proc h =>
    clearOrigin_eq fun k cap o hk ho heq => h k cap o hk ho (by rw [heq]; exact hp)
  refine ⟨fun q hq => ?_, fun c hc => ?_, fun c hidle => ?_, rfl, ⟨fun q proc hq hproc => ?_,
    fun c proc hc hproc => ?_⟩⟩
  · unfold Procs.clearOriginsNaming
    dsimp only
    cases hproc : (P.table q).process with
    | none =>
      rw [Option.map_none, ← hproc]
    | some proc =>
      rw [Option.map_some, hsame proc (hshut.table q proc hq hproc), ← hproc]
  · unfold Procs.clearOriginsNaming
    dsimp only
    cases hproc : P.current c with
    | none => rfl
    | some proc => rw [Option.map_some, hsame proc (hshut.current c proc hc hproc)]
  · unfold Procs.clearOriginsNaming
    dsimp only
    rw [hidle]
    rfl
  · obtain ⟨x, hx, rfl⟩ := Option.map_eq_some_iff.mp hproc
    exact (hown.table q x hq hx).clearOrigin p
  · obtain ⟨x, hx, rfl⟩ := Option.map_eq_some_iff.mp hproc
    exact (hown.current c x hc hx).clearOrigin p

/-- What lies outside of the zone is shut after a change that stays in the zone. -/
theorem Shut.within {P P' : Procs} (h : z.Shut P) (hwithin : z.Within P P') : z.Shut P' := by
  refine ⟨fun p proc hp hproc => h.table p proc hp ?_, fun c proc hc hproc => ?_⟩
  · rw [← hwithin.table p hp]
    exact hproc
  · rw [hwithin.slots] at hc
    refine h.current c proc hc ?_
    rw [← hwithin.current c hc]
    exact hproc

theorem onExit_inside (h : z.Runs s core) (hexit : s.onExit core = some t) : z.Inside s t := by
  unfold Kernel.onExit at hexit
  split at hexit
  · cases hexit
  · rename_i proc hc
    simp only [Option.some.injEq] at hexit
    rw [← hexit]
    have hadmits := h.admits hc
    have hcaps : ∀ cap ∈ proc.caps.iter, z.Allows cap := by
      intro cap hcap
      obtain ⟨k, hk⟩ := CapTable.mem_iter.mp hcap
      exact hadmits.caps k cap hk
    -- The core becomes idle, and what was borrowed goes home.
    have hidle : z.Inside s { s with procs := s.procs.setCurrent core none } :=
      .ofProcs (.setCurrent h.owns hc h.slot fun _ hnone => by cases hnone)
    obtain ⟨hreclaim, hqueues⟩ := reclaimLentCaps_inside hidle.procs.owns h.queues hcaps
      (s.procs.currentSlot core)
    have hhome := hidle.trans hreclaim
    have hreap := hhome.trans (reapDying_inside hhome.procs.owns hqueues hcaps)
    have hclear := hreap.trans (.ofProcs (clearOriginsNaming_within hreap.procs.owns
      (h.shut.within hreap.procs) h.slot))
    -- What the process owned is returned, and its slot becomes free.
    have hteardown := hclear.trans (teardown_inside hclear.procs.owns hadmits
      (((((({ s with procs := s.procs.setCurrent core none } : Kernel).reclaimLentCaps proc.caps
        (s.procs.currentSlot core)).reapDying proc.caps).procs.clearOriginsNaming
          (s.procs.currentSlot core)).table (s.procs.currentSlot core)).bootFrames))
    have hempty : ∀ x, Slot.empty.process = some x → z.Admits x := by
      intro x hx
      cases hx
    exact hteardown.trans ⟨.setSlot hteardown.procs.owns h.slot hempty, .clearLink h.slot,
      .setFa _ _, .refl _, .refl _⟩

theorem sysCpuCharge_inside (h : z.Runs s core) (slot amount : Nat) :
    z.Inside s (s.sysCpuCharge core slot amount).2 := by
  unfold Kernel.sysCpuCharge
  split
  · exact .refl h.owns
  · rename_i proc hc
    split
    · rename_i remaining t hcharge
      obtain ⟨k, cap, budget, hk, hobj, rfl⟩ := CapTable.charge_ok hcharge
      have hadmits := h.admits hc
      refine .ofProcs (.setProc h.owns hc h.slot (hadmits.setCaps fun j c hj => ?_))
      rw [CapTable.set_slots] at hj
      by_cases hjk : j = k
      · rw [hjk, Function.update_self, Option.some.injEq] at hj
        rw [← hj]
        exact ⟨z.budget _, (hadmits.caps k cap hk).lender⟩
      · rw [Function.update_of_ne hjk] at hj
        exact hadmits.caps j c hj
    · split
      · rename_i s' hexit
        exact onExit_inside h hexit
      · exact .refl h.owns
    · exact .refl h.owns

end Zone

end Plinth
