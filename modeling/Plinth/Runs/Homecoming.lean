import Plinth.Refine.Step
import Plinth.Runs.Leaving

/-!
# `Plinth.Runs.Homecoming`: a release and an exit send the same capabilities home

A process gives its borrowed capabilities back when it releases them one by one, and also when it
exits. Both ways use `reclaim_cap_home`, in the order of the slots. This module compares the tables
of the other processes after the two.

They differ in one thing. The exit frees the slot of the process, so it clears every origin that
names it, and the releases do not: in `frameLentRun` the lender holds a frame from the process.
`release_exit_agree` says that there is no other difference.
-/

set_option autoImplicit false

namespace Plinth

open Transition

/-- A capability that goes home when it is given up. -/
def Capability.isBorrowed (cap : Capability) : Bool :=
  isReclaimableKind cap.object && cap.origin.isSome

theorem Capability.isBorrowed_iff {cap : Capability} {p : ProcSlot} :
    cap.isBorrowed = true ↔ ∃ o, cap.origin = some o ∧
      reclaimTarget cap p = some (o, { cap with origin := none }) := by
  unfold isBorrowed
  rw [Bool.and_eq_true, Option.isSome_iff_exists]
  constructor
  · rintro ⟨hkind, o, ho⟩
    refine ⟨o, ho, ?_⟩
    unfold reclaimTarget
    rw [releaseAction_reclaimTo.mpr ⟨hkind, ho⟩]
    dsimp only
    unfold Capability.lentTo
    rw [ho]
    dsimp only
    rw [if_pos rfl]
  · rintro ⟨o, ho, htarget⟩
    exact ⟨(reclaimTarget_some htarget).2.1, o, ho⟩

theorem Capability.not_borrowed {cap : Capability} (p : ProcSlot) (h : cap.isBorrowed = false) :
    reclaimTarget cap p = none := by
  cases htarget : reclaimTarget cap p with
  | none => rfl
  | some r =>
    obtain ⟨o, home⟩ := r
    obtain ⟨ho, hkind, -⟩ := reclaimTarget_some htarget
    unfold isBorrowed at h
    rw [hkind, ho] at h
    cases h

/-! ### One capability goes home -/

/-- The processes after a capability went home. -/
def goesHome (P : ProcSlot → Option Process) (o : Origin) (home : Capability) :
    ProcSlot → Option Process :=
  match P o.lender with
  | none => P
  | some proc =>
    match proc.caps.goHome o.home home with
    | some (_, t) => Function.update P o.lender (some (proc.setCaps t))
    | none => P

theorem goesHome_of_ne {P : ProcSlot → Option Process} {o : Origin} {home : Capability}
    {q : ProcSlot} (h : q ≠ o.lender) : goesHome P o home q = P q := by
  unfold goesHome
  cases P o.lender with
  | none => rfl
  | some proc =>
    dsimp only
    cases proc.caps.goHome o.home home with
    | none => rfl
    | some r => exact Function.update_of_ne h ..

/-- Two tables of processes that agree away from `p` agree after a capability went home to
another process. -/
theorem goesHome_congr {P P' : ProcSlot → Option Process} {p : ProcSlot} {o : Origin}
    {home : Capability} (h : ∀ q ≠ p, P q = P' q) (hne : o.lender ≠ p) :
    ∀ q ≠ p, goesHome P o home q = goesHome P' o home q := by
  intro q hq
  by_cases hlender : q = o.lender
  · subst hlender
    unfold goesHome
    rw [← h o.lender hne]
    cases P o.lender with
    | none => exact h _ hne
    | some proc =>
      dsimp only
      cases proc.caps.goHome o.home home with
      | none => exact h _ hne
      | some r =>
        dsimp only
        rw [Function.update_self, Function.update_self]
  · rw [goesHome_of_ne hlender, goesHome_of_ne hlender]
    exact h q hq

namespace Kernel

variable {s t : Kernel} {core : Core} {proc : Process} {p : ProcSlot} {cap : Capability}
  {o : Origin} {home : Capability}

/-- What `reclaim_cap_home` does to the process table. -/
structure SentHome (P P' : Procs) (o : Origin) (home : Capability) : Prop where
  placed : Placed P'
  proc : P'.proc = goesHome P.proc o home
  current : ∀ c, P'.current c ≠ none ↔ P.current c ≠ none
  currentSlot : P'.currentSlot = P.currentSlot

theorem reclaimCapHome_sent (h : Placed s.procs) (cap : Capability) (o : Origin)
    (home : Capability) : SentHome s.procs (s.reclaimCapHome cap o home).2.procs o home := by
  cases hproc : s.procs.proc o.lender with
  | none =>
    unfold reclaimCapHome
    rw [(Procs.withLenderCaps_eq_none h).mpr hproc]
    refine ⟨h, ?_, fun _ => Iff.rfl, rfl⟩
    unfold goesHome
    rw [hproc]
  | some proc =>
    have hcase := Procs.withLenderCaps_eq_some (p := o.lender)
      (f := fun t => t.goHome o.home home) h hproc
    rcases hcase with ⟨hnone, hfull⟩ | ⟨landing, t, P', hsome, hwith, hwrites⟩
    · rw [reclaimCapHome_full hfull]
      refine ⟨h, ?_, fun _ => Iff.rfl, rfl⟩
      unfold goesHome
      rw [hproc]
      dsimp only
      rw [hnone]
    · rw [reclaimCapHome_landed hwith]
      refine ⟨hwrites.placed, ?_, hwrites.current, hwrites.currentSlot⟩
      unfold goesHome
      rw [hproc]
      dsimp only
      rw [hsome]
      exact hwrites.proc

/-- A running process that is not the lender keeps running as it was. -/
theorem SentHome.keeps {P P' : Procs} (h : SentHome P P' o home) (hplaced : Placed P)
    (hcur : P.current core = some proc) (hne : o.lender ≠ P.currentSlot core) :
    P'.current core = some proc := by
  have hnone : P'.current core ≠ none :=
    (h.current core).mpr (by rw [hcur]; exact Option.some_ne_none proc)
  obtain ⟨x, hx⟩ := Option.ne_none_iff_exists'.mp hnone
  have hproc := h.placed.proc_of_current hx
  rw [h.currentSlot, h.proc, goesHome_of_ne (fun heq => hne heq.symm),
    hplaced.proc_of_current hcur] at hproc
  rw [hx, hproc]

/-! ### The releases -/

/-- The slots of the borrowed capabilities of a table, in order. -/
def borrowedSlots (t : CapTable) : List CapSlot :=
  (List.finRange maxCaps).filter fun k => (t.slots k).any Capability.isBorrowed

/-- The process on `core` releases the capabilities of the slots, one call for each. -/
def releaseSlots (s : Kernel) (core : Core) (slots : List CapSlot) : Kernel :=
  slots.foldl (fun s k => (s.sysCapRelease core k).2) s

/-- The process on `core` releases every capability that it borrowed, in slot order. -/
def releaseBorrowed (s : Kernel) (core : Core) : Kernel :=
  match s.procs.current core with
  | none => s
  | some proc => s.releaseSlots core (borrowedSlots proc.caps)

/-- The process on `core`, and what it still holds in the slots of a list. -/
structure Holding (s : Kernel) (core : Core) (p : ProcSlot) (caps : CapTable)
    (slots : List CapSlot) (proc : Process) : Prop where
  placed : Placed s.procs
  current : s.procs.current core = some proc
  slot : s.procs.currentSlot core = p
  held : ∀ k ∈ slots, proc.caps.slots k = caps.slots k

/-- One release of a borrowed capability. -/
theorem Holding.release {caps : CapTable} {k : CapSlot} {slots : List CapSlot}
    (h : s.Holding core p caps (k :: slots) proc) (hk : k ∉ slots)
    (hcap : caps.slots k = some cap) (horigin : cap.origin = some o) (hne : o.lender ≠ p)
    (htarget : reclaimTarget cap p = some (o, { cap with origin := none })) :
    (∃ proc', (s.sysCapRelease core k).2.Holding core p caps slots proc') ∧
      ∀ q ≠ p, (s.sysCapRelease core k).2.procs.proc q =
        goesHome s.procs.proc o { cap with origin := none } q := by
  have hslot := h.held k List.mem_cons_self
  rw [hcap] at hslot
  have haction : releaseAction cap = .reclaimTo o :=
    releaseAction_reclaimTo.mpr ⟨(reclaimTarget_some htarget).2.1, horigin⟩
  -- The process without the capability, and without the mappings made through it.
  let bare := proc.setCaps (proc.caps.set k none)
  let after := unmapFbForSlot s.mem bare k
  let s₁ : Kernel := { s with
    procs := (s.procs.setCurrent core (some bare)).setCurrent core (some after.1)
    mem := after.2 }
  have hstep : (s.sysCapRelease core k).2 =
      (s₁.reclaimCapHome cap o { cap with origin := none }).2 := by
    unfold sysCapRelease
    rw [h.current]
    dsimp only
    rw [CapTable.lookup_any hslot]
    dsimp only
    rw [haction, if_neg (by exact ReleaseAction.noConfusion), CapTable.revoke_of_slot hslot]
    dsimp only
    unfold releaseCap
    rw [haction]
    dsimp only
    unfold setCurrentMem
    dsimp only
    rw [Procs.setCurrent_currentSlot, Procs.setCurrent_currentSlot, h.slot, htarget]
  have hbare := h.placed.setCurrent h.current bare
  have hafter := hbare.1.setCurrent (Procs.setCurrent_current_self ..) after.1
  have hsent := reclaimCapHome_sent (s := s₁) hafter.1 cap o { cap with origin := none }
  have hcur : s₁.procs.current core = some after.1 := Procs.setCurrent_current_self ..
  have hseat : s₁.procs.currentSlot core = p := h.slot
  have hothers : ∀ q ≠ p, s₁.procs.proc q = s.procs.proc q := by
    intro q hq
    have hq' : q ≠ s.procs.currentSlot core := by
      rw [h.slot]
      exact hq
    rw [show s₁.procs.proc = _ from hafter.2, Procs.setCurrent_currentSlot,
      Function.update_of_ne hq', hbare.2, Function.update_of_ne hq']
  rw [hstep]
  refine ⟨⟨after.1, hsent.placed, hsent.keeps hafter.1 hcur (by rw [hseat]; exact hne),
    (congrFun hsent.currentSlot core).trans hseat, fun j hj => ?_⟩, fun q hq => ?_⟩
  · have hjk : j ≠ k := by
      rintro rfl
      exact hk hj
    change (proc.caps.set k none).slots j = caps.slots j
    rw [CapTable.set_slots, Function.update_of_ne hjk]
    exact h.held j (List.mem_cons_of_mem _ hj)
  · rw [hsent.proc]
    exact goesHome_congr hothers hne q hq

theorem Holding.tail {caps : CapTable} {k : CapSlot} {slots : List CapSlot}
    (h : s.Holding core p caps (k :: slots) proc) : s.Holding core p caps slots proc :=
  ⟨h.placed, h.current, h.slot, fun j hj => h.held j (List.mem_cons_of_mem _ hj)⟩

/-! ### The exit -/

theorem setReclaimLanding_placed {P : Procs} (h : Placed P) (q : ProcSlot) (landing : Nat) :
    Placed (P.setReclaimLanding q landing) ∧ (P.setReclaimLanding q landing).proc = P.proc := by
  unfold Procs.setReclaimLanding
  split
  · exact ⟨h.setSlot_same rfl (fun hrun => hrun) (h.suspended q), P.setSlot_proc rfl⟩
  · exact ⟨h, rfl⟩

/-- One step of `reclaim_lent_caps` for a borrowed capability. -/
theorem reclaimLentCap_sent (h : Placed s.procs)
    (htarget : reclaimTarget cap p = some (o, home)) :
    Placed (reclaimLentCap p s cap).procs ∧
      (reclaimLentCap p s cap).procs.proc = goesHome s.procs.proc o home := by
  have hsent := reclaimCapHome_sent h cap o home
  unfold reclaimLentCap
  rw [htarget]
  dsimp only
  cases hres : s.reclaimCapHome cap o home with
  | mk r s' =>
    rw [hres] at hsent
    cases r with
    | landed landing =>
      obtain ⟨hplaced, hproc⟩ := setReclaimLanding_placed hsent.placed o.lender landing
      exact ⟨hplaced, hproc.trans hsent.proc⟩
    | lenderFull => exact ⟨hsent.placed, hsent.proc⟩
    | noLender => exact ⟨hsent.placed, hsent.proc⟩

/-- The releases and the reclamation of the exit agree about the other processes, over any part of
the table. -/
theorem reclaims_agree {caps : CapTable} (slots : List CapSlot) (hnodup : slots.Nodup)
    (horigin : ∀ k cap o, caps.slots k = some cap → cap.origin = some o → o.lender ≠ p)
    {e : Kernel} (hplaced : Placed e.procs) (hold : s.Holding core p caps slots proc)
    (hsame : ∀ q ≠ p, e.procs.proc q = s.procs.proc q) :
    ∀ q ≠ p, ((slots.filterMap caps.slots).foldl (reclaimLentCap p) e).procs.proc q =
      (s.releaseSlots core
        (slots.filter fun k => (caps.slots k).any Capability.isBorrowed)).procs.proc q := by
  induction slots generalizing e s proc with
  | nil => exact hsame
  | cons k slots ih =>
    obtain ⟨hk, hnodup⟩ := List.nodup_cons.mp hnodup
    cases hcap : caps.slots k with
    | none =>
      rw [List.filterMap_cons_none hcap, List.filter_cons_of_neg (by rw [hcap]; exact nofun)]
      exact ih hnodup hplaced hold.tail hsame
    | some cap =>
      rw [List.filterMap_cons_some hcap, List.foldl_cons]
      cases hborrowed : cap.isBorrowed with
      | false =>
        rw [List.filter_cons_of_neg (by rw [hcap]; simpa using hborrowed)]
        have hstay : reclaimLentCap p e cap = e := by
          unfold reclaimLentCap
          rw [Capability.not_borrowed p hborrowed]
        rw [hstay]
        exact ih hnodup hplaced hold.tail hsame
      | true =>
        rw [List.filter_cons_of_pos (by rw [hcap]; simpa using hborrowed)]
        obtain ⟨o, ho, htarget⟩ := Capability.isBorrowed_iff.mp hborrowed
        have hne := horigin k cap o hcap ho
        obtain ⟨hplaced', hproc⟩ := reclaimLentCap_sent hplaced htarget
        obtain ⟨⟨proc', hold'⟩, hreleased⟩ := hold.release hk hcap ho hne htarget
        refine ih hnodup hplaced' hold' fun q hq => ?_
        rw [hproc, hreleased q hq]
        exact goesHome_congr hsame hne q hq

/-- A wake with the pending landing writes fields of a slot, and no process. -/
theorem wakeLanding_proc (P : Procs) (p : ProcSlot) (status payload landing : Nat) :
    ((P.takeReclaimLanding p).2.wakeWith p status payload landing).proc = P.proc := by
  unfold Procs.takeReclaimLanding Procs.wakeWith
  refine Procs.proc_congr (fun q => ?_) rfl rfl
  by_cases hq : q = p
  · subst hq
    dsimp only
    rw [Procs.setSlot_table_self, Procs.setSlot_table_self]
  · dsimp only
    rw [Procs.setSlot_table_of_ne _ _ hq, Procs.setSlot_table_of_ne _ _ hq]

/-- The wakes of `reap_dying` change no table. -/
theorem reapReply_proc (P : Procs) (cap : Capability) : (reapReply P cap).proc = P.proc := by
  unfold reapReply
  split
  · split
    · exact wakeLanding_proc ..
    · rfl
  · rfl

theorem wakeAllStranded_proc (id : EndpointId) (fuel : Nat) (P : Procs) (ipc : Ipc) :
    (wakeAllStranded id fuel (P, ipc)).1.proc = P.proc := by
  induction fuel generalizing P ipc with
  | zero => rfl
  | succ fuel ih =>
    unfold wakeAllStranded
    split
    · rfl
    · rw [ih]
      exact wakeLanding_proc ..

theorem reapDying_proc (s : Kernel) (dying : CapTable) :
    (s.reapDying dying).procs.proc = s.procs.proc := by
  have hreply : ∀ (caps : List Capability) (P : Procs), (caps.foldl reapReply P).proc = P.proc := by
    intro caps
    induction caps with
    | nil => exact fun _ => rfl
    | cons cap caps ih => exact fun P => (ih _).trans (reapReply_proc P cap)
  have hend : ∀ (ids : List EndpointId) (r : Procs × Ipc),
      (ids.foldl (reapEndpoint dying) r).1.proc = r.1.proc := by
    intro ids
    induction ids with
    | nil => exact fun _ => rfl
    | cons id ids ih =>
      intro r
      refine (ih _).trans ?_
      unfold reapEndpoint
      dsimp only
      split
      · exact wakeAllStranded_proc id maxProcesses r.1 r.2
      · rfl
  unfold reapDying
  exact (hend _ _).trans (hreply _ _)

theorem clearOriginsNaming_proc (P : Procs) (p q : ProcSlot) :
    (P.clearOriginsNaming p).proc q =
      (P.proc q).map fun proc => proc.setCaps (proc.caps.clearOrigin p) := by
  have hcore : (P.clearOriginsNaming p).coreOf q = P.coreOf q := by
    unfold Procs.coreOf Procs.clearOriginsNaming
    dsimp only
    simp only [Option.isSome_map]
  unfold Procs.proc
  rw [hcore]
  unfold Procs.clearOriginsNaming
  dsimp only
  cases (P.table q).process with
  | some proc => rfl
  | none =>
    cases P.coreOf q with
    | none => rfl
    | some c => rfl

theorem setSlot_proc_of_ne (P : Procs) {p q : ProcSlot} (x : Slot) (h : q ≠ p) :
    (P.setSlot p x).proc q = P.proc q := by
  unfold Procs.proc Procs.coreOf
  rw [Procs.setSlot_table_of_ne _ _ h]
  rfl

/-! ### The result -/

/-- The tables of the other processes after the process on `core` exits, and after it releases
every capability that it borrowed: only the origins that name it differ, which the exit clears. -/
theorem release_exit_agree (hs : Reachable system always s)
    (hcur : s.procs.current core = some proc) (hexit : s.onExit core = some t) (q : ProcSlot)
    (hq : q ≠ s.procs.currentSlot core) :
    t.procs.caps q = ((s.releaseBorrowed core).procs.caps q).map
      fun caps => caps.clearOrigin (s.procs.currentSlot core) := by
  have hgood := good_of_reachable hs
  have hplaced := hgood.rep.procs.placed
  have horigin : ∀ k cap o, proc.caps.slots k = some cap → cap.origin = some o →
      o.lender ≠ s.procs.currentSlot core := fun k cap o hcap ho =>
    (hgood.base.sound.origin _ proc k cap o (hgood.proc_of_current hcur) hcap ho).1
  obtain ⟨hleft, hleftProc⟩ := hplaced.clearCurrent hcur
  have hagree := reclaims_agree (s := s)
    (e := { s with procs := s.procs.setCurrent core none }) (List.finRange maxCaps)
    (List.nodup_finRange maxCaps) horigin hleft ⟨hplaced, hcur, rfl, fun _ _ => rfl⟩
    (fun j hj => by
      rw [show ({ s with procs := s.procs.setCurrent core none } : Kernel).procs.proc = _ from
        hleftProc, Function.update_of_ne hj]) q hq
  unfold onExit at hexit
  rw [hcur] at hexit
  dsimp only at hexit
  rw [Option.some.injEq] at hexit
  subst hexit
  have hreleased : s.releaseBorrowed core = s.releaseSlots core (borrowedSlots proc.caps) := by
    unfold releaseBorrowed
    rw [hcur]
  unfold Procs.caps
  dsimp only
  rw [setSlot_proc_of_ne _ _ hq, teardown_procs]
  dsimp only
  rw [clearOriginsNaming_proc, reapDying_proc, hreleased]
  unfold reclaimLentCaps CapTable.iter
  rw [hagree]
  unfold borrowedSlots
  rw [Option.map_map, Option.map_map]
  rfl

theorem capAt_caps (s : Kernel) (p : ProcSlot) (k : CapSlot) :
    s.capAt p k = (s.procs.caps p).bind fun caps => caps.slots k := by
  unfold capAt Procs.caps
  rw [Option.bind_map]
  rfl

/-- A parent lends a block range to its child, and the child sends a frame to the parent. -/
def frameLentRun : List Label :=
  [.run 0 [some smallImage] [some ⟨.blockRange 0 0 8, rightRead, none⟩],
    .spawn 0 (some (some smallImage)) 1, .recv 0 2, .resume 0 1, .frameAlloc 0, .send 0 1 7 3]

/-- The child exits after its loan: the lender's table is the one after the release, with the
origins that name the child cleared. -/
theorem release_exit_agree_frameLent :
    ∃ s t : Kernel, s.onExit 0 = some t ∧
      t.procs.caps 0 = ((s.releaseBorrowed 0).procs.caps 0).map
        fun caps => caps.clearOrigin (s.procs.currentSlot 0) := by
  have hproc : ((smallMachine.runFrom frameLentRun).procs.current 0).isSome = true := by
    decide +kernel
  have hexit : ((smallMachine.runFrom frameLentRun).onExit 0).isSome = true := by
    decide +kernel
  obtain ⟨proc, hproc⟩ := Option.isSome_iff_exists.mp hproc
  obtain ⟨t, hexit⟩ := Option.isSome_iff_exists.mp hexit
  exact ⟨_, t, hexit, release_exit_agree (reachable_small frameLentRun) hproc hexit 0
    (by decide +kernel)⟩

/-- The child of `frameLentRun` holds the loan of its parent. If it releases the loan, the frame
that the parent holds has its origin, and if it exits, the frame has none. -/
theorem frameLentRun_differs : ∃ s t : Kernel, Reachable system always s ∧
    s.procs.currentSlot 0 = 1 ∧ s.onExit 0 = some t ∧
    t.procs.caps 0 ≠ (s.releaseBorrowed 0).procs.caps 0 := by
  have hexit : (((smallMachine.runFrom frameLentRun).onExit 0).map
      fun t : Kernel => (t.capAt 0 3).bind (·.origin)) = some none := by
    decide +kernel
  have hrelease : (((smallMachine.runFrom frameLentRun).releaseBorrowed 0).capAt 0 3).bind
      (·.origin) = some ⟨1, 3⟩ := by
    decide +kernel
  obtain ⟨t, ht, horigin⟩ := Option.map_eq_some_iff.mp hexit
  refine ⟨_, t, reachable_small frameLentRun, by decide +kernel, ht, fun heq => ?_⟩
  have hcap : t.capAt 0 3 = ((smallMachine.runFrom frameLentRun).releaseBorrowed 0).capAt 0 3 := by
    rw [capAt_caps, capAt_caps, heq]
  rw [hcap, hrelease] at horigin
  cases horigin

end Kernel

end Plinth
