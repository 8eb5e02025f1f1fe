import Plinth.Ledger.Conserve
import Plinth.Runs.Loans

/-!
# `Plinth.Runs.Conserved`: capabilities that cannot be made again

The boot code makes the framebuffers, the block ranges and the event sources, and no system call
makes another one. `caps_conserved` follows their number through a run. In every run in which no
transfer loses a capability, and each one that goes home finds room there, every such capability
is in one slot of one live process, until the process that has it outright releases it or exits.

Both fallbacks of the kernel can fail. `lostRun` is a run in which neither the receiver nor the
sender has room for the capability of a message, and the capability is gone.
-/

set_option autoImplicit false

namespace Plinth

open Transition

/-- The label is a launch of the boot code. -/
def Label.launches : Label → Bool
  | .run .. => true
  | _ => false

namespace Kernel

variable {s t : Kernel} {ℓ : Label} {p : ProcSlot} {k : CapSlot} {cap : Capability}
  {o : CapObject} {core : Core} {proc : Process}

/-- The number of live capabilities for `o`. -/
def capsOf (s : Kernel) (o : CapObject) : Nat := liveTotal (objWeight o) s.procs.proc

/-- The number of capabilities for `o` that the process in slot `p` has outright. -/
def outrightOf (s : Kernel) (p : ProcSlot) (o : CapObject) : Nat :=
  ((s.procs.proc p).map (procWeight (ownWeight o))).getD 0

/-- The number of capabilities for `o` that their outright owner releases in the entry, or that
go when it exits. -/
def departing (s : Kernel) (ℓ : Label) (o : CapObject) : Nat :=
  match s.taken ℓ with
  | some (p, k) => ((s.capAt p k).map (ownWeight o)).getD 0
  | none =>
    match s.leaver ℓ with
    | some p => s.outrightOf p o
    | none => 0

/-- The transfer of the entry ends with room neither at the receiver nor at the giver. -/
def losesTransfer (s : Kernel) (ℓ : Label) : Bool :=
  (s.given ℓ).any fun x => decide (x.2.2 = .lost)

/-- A borrowed capability goes home in the entry, and finds no room there. -/
def strandsLoan (s : Kernel) : Label → Bool
  | .exit core => s.exitStrands core
  | .cpuCharge core slot amount => s.overdrawn core slot amount && s.exitStrands core
  | .capRelease core slot => s.releaseStrands core slot
  | _ => false

/-- The guard of the runs in which every capability that goes somewhere finds room. -/
def findsRoom (s : Kernel) (ℓ : Label) : Prop :=
  s.losesTransfer ℓ = false ∧ s.strandsLoan ℓ = false

instance : ∀ s ℓ, Decidable (findsRoom s ℓ) := fun s ℓ =>
  inferInstanceAs (Decidable (s.losesTransfer ℓ = false ∧ s.strandsLoan ℓ = false))

theorem strandsLoan_of (h : s.Strands ℓ) : s.strandsLoan ℓ = true := by
  cases ℓ with
  | exit core => exact h
  | cpuCharge core slot amount =>
    change (s.overdrawn core slot amount && s.exitStrands core) = true
    rw [s.overdrawn_of core slot amount h.1, h.2]
    rfl
  | capRelease core slot => exact h
  | _ => exact h.elim

/-- A guarded entry that is no launch makes no capability that cannot be made again, and loses
none. -/
theorem findsRoom.conserves (hok : findsRoom s ℓ) (hlaunch : ℓ.launches = false)
    (ho : isReclaimableKind o = true) : (s.stepGuard ℓ).Conserves o where
  give := by
    rintro v p k ⟨-, hgiven⟩
    have hlost := hok.1
    unfold losesTransfer at hlost
    rw [hgiven, Option.any_some, decide_eq_false_iff_not] at hlost
    exact hlost rfl
  strand := by
    intro v cap hstrand
    have hroom := hok.2
    rw [strandsLoan_of hstrand] at hroom
    cases hroom
  grant := by
    rintro cap hgrant rfl
    have hendpoint : (∃ id rights, cap = ⟨.endpoint id, rights, none⟩) → False := by
      rintro ⟨id, rights, rfl⟩
      cases ho
    cases ℓ with
    | run core images extra => cases hlaunch
    | spawn core binary slot => exact hendpoint hgrant
    | spawnFromBuffer core va len image slot => exact hendpoint hgrant
    | _ => exact hgrant.elim

/-- An entry that is no launch reclaims a process only because it exits. -/
theorem reclaims_leaver {v : Ledger} (hlaunch : ℓ.launches = false) (h : s.Reclaims ℓ v p) :
    v = s.ledger ∧ s.leaver ℓ = some p := by
  cases ℓ with
  | run core images extra => cases hlaunch
  | exit core =>
    obtain ⟨hv, rfl⟩ := h
    exact ⟨hv, rfl⟩
  | cpuCharge core slot amount =>
    obtain ⟨hv, rfl, hover⟩ := h
    exact ⟨hv, by simp [leaver, overdrawn_of core slot amount hover]⟩
  | _ => exact h.elim

/-- No label releases a capability and also ends a process. -/
theorem taken_of_leaver (h : s.leaver ℓ = some p) : s.taken ℓ = none := by
  cases ℓ with
  | capRelease core slot => cases h
  | reply core slot msg => cases h
  | _ => rfl

theorem departing_of_taken (htaken : s.taken ℓ = some (p, k)) (hcap : s.capAt p k = some cap) :
    s.departing ℓ o = ownWeight o cap := by
  unfold departing
  rw [htaken]
  dsimp only
  rw [hcap]
  rfl

theorem departing_of_leaver (hleaver : s.leaver ℓ = some p) :
    s.departing ℓ o = s.outrightOf p o := by
  unfold departing
  rw [taken_of_leaver hleaver, hleaver]

/-! ### The release of a capability that its holder has outright -/

/-- The release drops the capability. -/
theorem sysCapRelease_outright (hc : s.procs.current core = some proc)
    (hk : proc.caps.slots k = some cap) (hkind : isReclaimableKind cap.object = true)
    (hown : cap.origin = none) :
    (s.sysCapRelease core k).2 = s.without core proc cap k := by
  have haction : releaseAction cap = cap.object.dropAction := releaseAction_of_home fun _ => hown
  have hplain : cap.isHoldable ∧ releaseAction cap ≠ .refuse ∧
      ∀ s : Kernel, s.drainCap cap = s := by
    unfold Capability.isHoldable drainCap
    rw [haction]
    cases hobj : cap.object with
    | framebuffer base width height stride bpp format => exact ⟨trivial, nofun, fun _ => rfl⟩
    | blockRange dev start sectors => exact ⟨trivial, nofun, fun _ => rfl⟩
    | eventSource source => exact ⟨trivial, nofun, fun _ => rfl⟩
    | _ =>
      rw [hobj] at hkind
      cases hkind
  obtain ⟨hhold, hrefuse, hdrain⟩ := hplain
  unfold sysCapRelease
  rw [hc]
  dsimp only
  rw [CapTable.lookup_any hk]
  dsimp only
  rw [if_neg hrefuse, CapTable.revoke_of_slot hk]
  change (s.revoked core proc k).releaseCap core (proc.setCaps (proc.caps.set k none)) cap k = _
  rw [releaseCap_eq_drainCap hhold haction, hdrain]

/-- What the owner releases is gone. -/
theorem Good.release_departs (hgood : s.Good) (ho : isReclaimableKind o = true)
    (hnext : s.step ℓ = some t) (htaken : s.taken ℓ ≠ none) (hdep : s.departing ℓ o ≠ 0) :
    t.capsOf o + s.departing ℓ o = s.capsOf o := by
  have hown : ∀ {cap : Capability}, ownWeight o cap ≠ 0 →
      cap.object = o ∧ cap.origin = none := by
    intro cap hne
    by_contra hnot
    exact hne (if_neg hnot)
  cases ℓ with
  | capRelease core slot =>
    obtain ⟨⟨proc, hc⟩, rfl⟩ := onCore_some hnext
    have hproc := hgood.proc_of_current hc
    cases hslot : capSlot? slot with
    | none => simp [taken, hslot] at htaken
    | some k =>
      obtain rfl := capSlot?_eq_some.mp hslot
      have htaken' : s.taken (.capRelease core k) = some (s.procs.currentSlot core, k) := by
        simp [taken, hc]
      cases hcap : s.capAt (s.procs.currentSlot core) k with
      | none => simp [departing, htaken', hcap] at hdep
      | some cap =>
        rw [departing_of_taken htaken' hcap] at hdep ⊢
        obtain ⟨rfl, horigin⟩ := hown hdep
        have hk : proc.caps.slots k = some cap := by
          have hproc' : s.procs.proc (s.procs.currentSlot core) = some proc := hproc
          simpa [capAt, hproc'] using hcap
        rw [sysCapRelease_outright hc hk ho horigin]
        have hput := liveTotal_put (objWeight cap.object) hproc
          (unmapForSlot s.mem (proc.setCaps (proc.caps.set k none)) cap k).1
        have hrev := procWeight_revoke (objWeight cap.object) hk
        rw [procWeight_unmapForSlot] at hput
        rw [objWeight_self] at hrev
        have hwrite := (hgood.rep.procs.placed.writes_current hc
          (unmapForSlot s.mem (proc.setCaps (proc.caps.set k none)) cap k).1).proc
        have hcaps : (s.without core proc cap k).capsOf cap.object
            = liveTotal (objWeight cap.object) (Function.update s.ledger.proc
                (s.procs.currentSlot core)
                (some (unmapForSlot s.mem (proc.setCaps (proc.caps.set k none)) cap k).1)) :=
          congrArg (liveTotal (objWeight cap.object)) hwrite
        rw [hcaps, show ownWeight cap.object cap = 1 from if_pos ⟨rfl, horigin⟩]
        change _ = liveTotal (objWeight cap.object) s.ledger.proc
        omega
  | reply core slot msg =>
    cases htk : s.taken (.reply core slot msg) with
    | none => exact absurd htk htaken
    | some x =>
      obtain ⟨p, k⟩ := x
      -- A reply takes a reply capability, which is of another kind.
      have hrefuse : ∃ cap, s.capAt p k = some cap ∧ releaseAction cap = .refuse := by
        change ((s.procs.current core).bind fun proc => (capSlot? slot).bind fun k =>
          (proc.caps.slots k).bind fun cap =>
            if releaseAction cap = .refuse then some (s.procs.currentSlot core, k) else none)
          = some (p, k) at htk
        obtain ⟨proc, hc, htk⟩ := Option.bind_eq_some_iff.mp htk
        obtain ⟨k', -, htk⟩ := Option.bind_eq_some_iff.mp htk
        obtain ⟨cap, hk, htk⟩ := Option.bind_eq_some_iff.mp htk
        split at htk
        · rename_i hrefuse
          cases htk
          exact ⟨cap, capAt_eq (hgood.proc_of_current hc) hk, hrefuse⟩
        · cases htk
      obtain ⟨cap, hcap, hrefuse⟩ := hrefuse
      rw [departing_of_taken htk hcap] at hdep
      obtain ⟨rfl, horigin⟩ := hown hdep
      rw [releaseAction_of_home fun _ => horigin] at hrefuse
      cases hobj : cap.object with
      | reply caller =>
        rw [hobj] at ho
        cases ho
      | _ =>
        rw [hobj] at hrefuse
        cases hrefuse
  | _ => exact absurd rfl htaken

/-! ### One entry -/

/-- The capabilities for `o` in the middle of the entry `ℓ` that begins in `s`. -/
structure CapsKept (s : Kernel) (ℓ : Label) (o : CapObject) (v : Ledger) : Prop where
  intact : ∀ tr, v.transit = some tr → tr.fate ≠ .lost
  /-- The processes are there and nothing left, or what leaves has left. -/
  balance : ((∀ p, s.procs.proc p ≠ none → v.proc p ≠ none) ∧
      v.total (objWeight o) = s.capsOf o + listTotal (ownWeight o) v.held) ∨
    v.spent = true ∧
      v.total (objWeight o) + s.departing ℓ o = s.capsOf o + listTotal (ownWeight o) v.held

theorem capsOf_eq_total (s : Kernel) (o : CapObject) :
    s.capsOf o = s.ledger.total (objWeight o) := by
  unfold capsOf Holdings.total
  rfl

theorem outrightOf_eq {x : Process} (hx : s.procs.proc p = some x) :
    s.outrightOf p o = procWeight (ownWeight o) x := by
  unfold outrightOf
  rw [hx]
  rfl

/-- What one action does, if the entry releases no capability for `o` that its owner has
outright. -/
theorem CapsKept.act {v v' : Ledger} (act : Act (s.stepGuard ℓ) v v') (hbase : v.Base)
    (hok : findsRoom s ℓ) (hlaunch : ℓ.launches = false) (ho : isReclaimableKind o = true)
    (hrelease : s.taken ℓ ≠ none → s.departing ℓ o = 0) (h : s.CapsKept ℓ o v) :
    s.CapsKept ℓ o v' := by
  have hcons := hok.conserves hlaunch ho
  have hfirst : s.ledger.spent = false := rfl
  refine ⟨fun tr htr => ?_, ?_⟩
  · rcases act.transit_source htr with hold | ⟨-, -, hgive, -⟩
    · exact h.intact tr hold
    · intro hfate
      rw [hfate] at hgive
      exact hcons.give v _ _ hgive
  · cases act.lasts hbase.sound hcons ho h.intact with
    | keeps hlive hspent htotal =>
      rcases h.balance with ⟨hthere, hsum⟩ | ⟨hgone, hsum⟩
      · exact Or.inl ⟨fun p hp => hlive p (hthere p hp), by omega⟩
      · exact Or.inr ⟨hspent hgone, by omega⟩
    | @takes p k x cap hlive hx hk hg hnotspent hspent htotal hheld =>
      obtain ⟨rfl, htaken⟩ := hg
      have hzero := hrelease (by rw [htaken]; exact Option.some_ne_none _)
      rw [departing_of_taken htaken (capAt_eq hx hk)] at hzero
      rcases h.balance with ⟨hthere, hsum⟩ | ⟨hgone, -⟩
      · refine Or.inl ⟨fun p hp => hlive p (hthere p hp), ?_⟩
        rw [hheld, listTotal_cons, hzero]
        omega
      · rw [hfirst] at hgone
        cases hgone
    | @leaves p x hx hg hspent htotal hnone hheld =>
      obtain ⟨rfl, hleaver⟩ := reclaims_leaver hlaunch hg
      rcases h.balance with ⟨-, hsum⟩ | ⟨hgone, -⟩
      · refine Or.inr ⟨hspent, ?_⟩
        rw [hnone, listTotal_nil] at hsum
        rw [departing_of_leaver hleaver, outrightOf_eq hx, hheld, listTotal_iter]
        omega
      · rw [hfirst] at hgone
        cases hgone

/-- An entry that is no launch keeps the capabilities for `o`, except those that their outright
owner releases, or has when it exits. -/
theorem Good.caps_step (hgood : s.Good) (hnext : s.step ℓ = some t) (hok : findsRoom s ℓ)
    (hlaunch : ℓ.launches = false) (ho : isReclaimableKind o = true) :
    t.capsOf o + s.departing ℓ o = s.capsOf o := by
  by_cases hrelease : s.taken ℓ ≠ none ∧ s.departing ℓ o ≠ 0
  · exact hgood.release_departs ho hnext hrelease.1 hrelease.2
  have hzero : s.taken ℓ ≠ none → s.departing ℓ o = 0 := by
    intro htaken
    by_contra hne
    exact hrelease ⟨htaken, hne⟩
  have hstart : s.CapsKept ℓ o s.ledger :=
    ⟨fun tr htr => (by cases htr), Or.inl ⟨fun p hp => hp, (capsOf_eq_total s o).symm⟩⟩
  obtain ⟨hgood', spent, hpath⟩ := hgood.step_path hnext
  have hend := Path.keeps (I := fun v => s.CapsKept ℓ o v)
    (fun v v' act hbase h => CapsKept.act act hbase hok hlaunch ho hzero h) hpath hgood.base hstart
  have htotal : t.capsOf o = t.ledger.total (objWeight o) := capsOf_eq_total t o
  rcases hend.balance with ⟨hthere, hsum⟩ | ⟨-, hsum⟩
  · have hnone : s.departing ℓ o = 0 := by
      by_cases htaken : s.taken ℓ = none
      · unfold departing
        rw [htaken]
        dsimp only
        cases hleaver : s.leaver ℓ with
        | none => rfl
        | some p =>
          -- The slot of a process that exits is empty, so there was no process.
          have hempty := hgood'.rep.procs.placed.proc_of_empty (leaver_empties hnext hleaver)
          have hdead : s.procs.proc p = none := by
            by_contra hp
            exact hthere p hp hempty
          have hnothing : s.outrightOf p o = 0 := by
            unfold outrightOf
            rw [hdead]
            rfl
          exact hnothing
      · exact hzero htaken
    rw [hnone, htotal]
    exact hsum
  · rw [htotal]
    exact hsum

theorem capsOf_of_empty (hgood : s.Good) (hempty : s.tableEmpty = true) (o : CapObject) :
    s.capsOf o = 0 := by
  by_contra hne
  obtain ⟨p, x, -, -, hp, -⟩ := liveTotal_pos.mp (Nat.pos_of_ne_zero hne)
  have hdead := hgood.dead_of_empty hempty p
  rw [hp] at hdead
  cases hdead

/-! ### Runs -/

/-- The number of capabilities for `o` that the launches put into tables. -/
def minted (o : CapObject) : List (Kernel × Label) → Kernel → Nat
  | [], _ => 0
  | (s, ℓ) :: hist, t => minted o hist s + if ℓ.launches then t.capsOf o else 0

/-- The number of capabilities for `o` that their outright owners released, or had when they
exited. -/
def departed (o : CapObject) : List (Kernel × Label) → Nat
  | [] => 0
  | (s, ℓ) :: hist => departed o hist + if ℓ.launches then 0 else s.departing ℓ o

/-- The capabilities that cannot be made again are where they should be. -/
structure CapsConserved (hist : List (Kernel × Label)) (s : Kernel) : Prop where
  /-- What was made is in a table, or its outright owner released it or exited. -/
  balance : ∀ o, isReclaimableKind o = true → s.capsOf o + departed o hist = minted o hist s
  /-- If one is left, it is in one slot of one live process. -/
  single : ∀ o, isReclaimableKind o = true → minted o hist s = departed o hist + 1 →
    ∃ p k, (∃ cap, s.capAt p k = some cap ∧ cap.object = o) ∧
      ∀ q j cap, s.capAt q j = some cap → cap.object = o → q = p ∧ j = k
  /-- An entry that is no launch takes away what its outright owner releases or has when it
  exits. No other entry changes the number. -/
  entry : ∀ ℓ t o, findsRoom s ℓ → s.step ℓ = some t → isReclaimableKind o = true →
    ℓ.launches = false → t.capsOf o + s.departing ℓ o = s.capsOf o
  /-- A launch begins without capabilities. -/
  launch : ∀ ℓ t o, s.step ℓ = some t → ℓ.launches = true → s.capsOf o = 0

theorem Good.launch_empty (hgood : s.Good) (hnext : s.step ℓ = some t)
    (hlaunch : ℓ.launches = true) (o : CapObject) : s.capsOf o = 0 := by
  cases ℓ with
  | run core images extra =>
    change (if s.canRun core images extra then some (s.run core images extra) else none) = some t
      at hnext
    split at hnext
    · rename_i hcan
      unfold canRun at hcan
      simp only [Bool.and_eq_true] at hcan
      exact capsOf_of_empty hgood hcan.1.1.1.1.1 o
    · cases hnext
  | _ => cases hlaunch

theorem caps_balance {hist : List (Kernel × Label)} (run : Run system findsRoom hist s)
    (ho : isReclaimableKind o = true) : s.capsOf o + departed o hist = minted o hist s := by
  induction run with
  | @start s hinit =>
    have hstart : Reachable system findsRoom s := ⟨[], .start hinit⟩
    have hgood := good_of_reachable hstart
    refine capsOf_of_empty hgood ?_ o
    exact List.all_eq_true.mpr fun p _ => by
      unfold Procs.state
      rw [hinit.table p]
      rfl
  | @step hist s t ℓ run guard hnext ih =>
    have hgood := good_of_reachable run.reachable
    unfold minted departed
    cases hlaunch : ℓ.launches with
    | true =>
      have hzero := hgood.launch_empty hnext hlaunch o
      simp only [if_true]
      omega
    | false =>
      have hentry := hgood.caps_step hnext guard hlaunch ho
      simp only [Bool.false_eq_true, if_false]
      omega

/-- In every run in which every capability that goes somewhere finds room, the capabilities that
cannot be made again are conserved. -/
theorem caps_conserved {hist : List (Kernel × Label)} (run : Run system findsRoom hist s) :
    CapsConserved hist s := by
  have hgood := good_of_reachable run.reachable
  refine ⟨fun o ho => caps_balance run ho, fun o ho hone => ?_,
    fun ℓ t o hok hnext ho hlaunch => hgood.caps_step hnext hok hlaunch ho,
    fun ℓ t o hnext hlaunch => hgood.launch_empty hnext hlaunch o⟩
  have hsum := caps_balance run ho
  have hcaps : s.capsOf o = 1 := by omega
  have hpos : 0 < s.capsOf o := by omega
  obtain ⟨p, x, k, c, hp, hk, hweight⟩ := liveTotal_pos.mp hpos
  have hobj : ∀ {cap : Capability}, 0 < objWeight o cap → cap.object = o := by
    intro cap hw
    by_contra hne
    rw [objWeight_of_ne hne] at hw
    omega
  refine ⟨p, k, ⟨c, capAt_eq hp hk, hobj hweight⟩, fun q j cap hcap hcapo => ?_⟩
  obtain ⟨y, hq, hj⟩ := Option.bind_eq_some_iff.mp hcap
  have hw : 0 < objWeight o cap := by
    rw [← hcapo, objWeight_self]
    omega
  exact liveTotal_place (le_of_eq hcaps) hq hj hw hp hk hweight

/-- The process in slot 0 lends a block range to a new process, and the borrower exits. -/
def borrowerRun : List Label := lendRun ++ [.resume 1 1, .exit 1]

theorem caps_conserved_borrowerRun : ∃ hist,
    CapsConserved hist (smallMachine.runFrom borrowerRun) ∧
      (smallMachine.runFrom borrowerRun).capsOf (.blockRange 0 0 8) = 1 := by
  have hs : Reachable system findsRoom (smallMachine.runFrom borrowerRun) :=
    reachable_small_of (by decide +kernel)
  obtain ⟨hist, run⟩ := hs
  exact ⟨hist, caps_conserved run, by decide +kernel⟩

/-- The block range in slot 1 is lent to a process whose table is full, by one whose table is
full. -/
def lostRun : List Label :=
  [.createEndpoint,
    .run 0 [some smallImage] [some ⟨.blockRange 0 0 8, rightRead, none⟩,
      some ⟨.endpoint 0, rightSend, none⟩, some ⟨.endpoint 0, rightRecv, none⟩],
    .spawn 0 (some (some smallImage)) 3] ++ List.replicate 12 (.frameAlloc 0) ++
    [.preempt 0, .resume 0 1] ++ List.replicate 13 (.frameAlloc 0) ++
    [.recv 0 2, .resume 0 0, .send 0 2 7 1]

/-- Nobody released the block range, and nobody exited, but no process has it. -/
theorem lostRun_loses : ∃ hist s, Run system always hist s ∧
    minted (.blockRange 0 0 8) hist s = 1 ∧ departed (.blockRange 0 0 8) hist = 0 ∧
    s.capsOf (.blockRange 0 0 8) = 0 :=
  ⟨_, _, run_historyFrom smallMachine_booted lostRun, by decide +kernel, by decide +kernel,
    by decide +kernel⟩

end Kernel

end Plinth
