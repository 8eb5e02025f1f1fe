import Mathlib.Data.List.ReduceOption
import Plinth.Refine.Exit
import Plinth.Refine.Spawn

/-!
# `Plinth.Refine.Launch`: the launch of the first processes

`run` sets up one process for each image and starts the first one. If a set-up fails, it reclaims
the processes that were set up before. All of them hold what the boot code granted and nothing
else, and none has run yet. So nothing goes home, and nobody waits.
-/

set_option autoImplicit false

namespace Plinth

variable {g : Guard} {v : Ledger} {s s₀ : Kernel} {core : Core} {p id : ProcSlot}
  {proc : Process} {cap : Capability} {k : CapSlot}

/-- A capability of a process that has not run: nobody lends it, and it is no frame, no ring and
no reply. -/
def Capability.isInitial (cap : Capability) : Prop :=
  cap.origin = none ∧
    match cap.object with
    | .frame _ => False
    | .ring _ => False
    | .reply _ => False
    | _ => True

/-- The ledger during a launch from the state `s₀`. -/
structure Launching (s₀ : Kernel) (v : Ledger) : Prop where
  idle : v.Idle
  state : ∀ p, v.state p = .empty ∨ v.state p = .ready
  caps : ∀ p x k cap, v.proc p = some x → x.caps.slots k = some cap → cap.isInitial
  rings : v.rings = s₀.rings.rings
  devs : v.devs = s₀.devs

namespace Launching

theorem not_blocked (h : Launching s₀ v) (p : ProcSlot) : v.state p ≠ .blocked := by
  intro heq
  rcases h.state p with hs | hs <;> rw [hs] at heq <;> cases heq

theorem queue_nil (h : Launching s₀ v) (hbase : v.Base) (ep : EndpointId) : v.queue ep = [] :=
  List.eq_nil_iff_forall_not_mem.mpr fun p =>
    hbase.registered.not_queued (Or.inl (h.not_blocked p)) ep

theorem bare (h : Launching s₀ v) (hp : v.proc p = some proc) : proc.Bare := by
  constructor
  · rintro a ⟨k, cap, hk, hobj⟩
    have hkind := (h.caps p proc k cap hp hk).2
    rw [hobj] at hkind
    exact hkind
  · rintro r ⟨k, cap, hk, hobj⟩
    have hkind := (h.caps p proc k cap hp hk).2
    rw [hobj] at hkind
    exact hkind

end Launching

namespace Kernel

/-! ### Set-up -/

theorem spawnProcess_initial (hk : spawnProcess.caps.slots k = some cap) : cap.isInitial := by
  rw [spawnProcess_eq] at hk
  change (CapTable.new.set 0 _).slots k = some cap at hk
  rw [CapTable.set_slots] at hk
  by_cases hk0 : k = 0
  · subst hk0
    rw [Function.update_self, Option.some.injEq] at hk
    subst hk
    exact ⟨rfl, trivial⟩
  · rw [Function.update_of_ne hk0] at hk
    cases hk

/-- The table after a set-up holds what it held before, and the grants. -/
theorem installGrants_slots {caps : List Capability} {t t' : CapTable} {ipc ipc' : Ipc}
    (h : installGrants caps t ipc = (some t', ipc')) (hk : t'.slots k = some cap) :
    t.slots k = some cap ∨ cap ∈ caps := by
  induction caps generalizing t ipc with
  | nil =>
    unfold installGrants at h
    simp only [Prod.mk.injEq, Option.some.injEq] at h
    rw [h.1]
    exact Or.inl hk
  | cons c caps ih =>
    unfold installGrants at h
    split at h
    · cases h
    · rename_i j t₁ hin
      rcases ih h with hslot | hmem
      · rcases (CapTable.install_ok hin).1.slot_cases hslot with ⟨-, rfl⟩ | ⟨-, hold⟩
        · exact Or.inr List.mem_cons_self
        · exact Or.inl hold
      · exact Or.inr (List.mem_cons_of_mem _ hmem)

theorem grantable_initial (h : s.grantable cap = true) : cap.isInitial := by
  unfold grantable at h
  rw [Bool.and_eq_true, Option.isNone_iff_eq_none] at h
  refine ⟨h.1, ?_⟩
  have hkind := h.2
  split
  · rename_i a hobj
    rw [hobj] at hkind
    cases hkind
  · rename_i r hobj
    rw [hobj] at hkind
    cases hkind
  · rename_i c hobj
    rw [hobj] at hkind
    cases hkind
  · trivial

theorem grantable_ledger (h : s.grantable cap = true) (huse : v.inUse = s.ledger.inUse) :
    v.Grantable cap := by
  unfold grantable at h
  rw [Bool.and_eq_true, Option.isNone_iff_eq_none] at h
  refine ⟨h.1, ?_⟩
  have hkind := h.2
  cases hobj : cap.object with
  | endpoint ep =>
    rw [hobj] at hkind
    simp only [Bool.and_eq_true, Bool.or_eq_true] at hkind
    rw [huse]
    exact hkind
  | frame a => rw [hobj] at hkind; cases hkind
  | ring r => rw [hobj] at hkind; cases hkind
  | reply c => rw [hobj] at hkind; cases hkind
  | cpuTime b => rw [hobj] at hkind; cases hkind
  | _ => trivial

theorem mem_grantsFor {count : Nat} {extra : List (Option Capability)} {i : Nat}
    (h : cap ∈ grantsFor count extra i) : cap ∈ extra.reduceOption := by
  unfold grantsFor at h
  split at h
  · exact h
  · rw [List.reduceOption_mem_iff]
    rw [Option.mem_toList, List.getD_eq_getElem?_getD] at h
    cases hget : extra[i]? with
    | none =>
      rw [hget] at h
      cases h
    | some c =>
      rw [hget] at h
      have hc : c = some cap := h
      rw [← hc]
      exact List.mem_of_getElem? hget

theorem length_grantsFor (count : Nat) (extra : List (Option Capability)) (i : Nat)
    (hlen : extra.length < maxCaps) : (grantsFor count extra i).length < maxCaps := by
  unfold grantsFor
  split
  · exact lt_of_le_of_lt (List.reduceOption_length_le _) hlen
  · have hle : ((extra.getD i none).toList).length ≤ 1 := by
      cases extra.getD i none with
      | none => exact Nat.zero_le _
      | some c => exact le_refl _
    exact lt_of_le_of_lt hle (by decide)

theorem map_fst_zip_sublist {α β : Type} (l : List α) (l' : List β) :
    ((l.zip l').map Prod.fst).Sublist l := by
  induction l generalizing l' with
  | nil => exact List.nil_sublist _
  | cons a l ih =>
    cases l' with
    | nil => exact List.nil_sublist _
    | cons b l' => exact (ih l').cons_cons a

/-- One set-up of a launch. -/
theorem setup_launching (hrep : Rep s none v) (hl : Launching s₀ v)
    (huse : v.inUse = s₀.ledger.inUse) (hstate : s.procs.state id = .empty)
    (image : Option Image) {caps : List Capability} (hlen : caps.length < maxCaps)
    (hok : ∀ cap ∈ caps, s₀.grantable cap = true ∧ g.grant cap)
    (hbound : ∀ dev, v.total (objWeight (.boundDevice dev)) +
      listTotal (objWeight (.boundDevice dev)) caps ≤ 1) :
    ∃ v', Path g v v' ∧ Rep (s.setupProcess id image caps).2 none v' ∧ Launching s₀ v' ∧
      v'.inUse = s₀.ledger.inUse ∧
      (∀ dev, v'.total (objWeight (.boundDevice dev)) ≤ v.total (objWeight (.boundDevice dev)) +
        listTotal (objWeight (.boundDevice dev)) caps) ∧
      ∀ p, p ≠ id → s.procs.state p = .empty →
        (s.setupProcess id image caps).2.procs.state p = .empty := by
  rcases setupProcess_path (g := g) hrep hstate hl.idle.frames hl.idle.spaces hl.idle.dying image
    hlen with
    ⟨mem, heq, hpath, hrep'⟩ | ⟨l4, boot, mem, t, ipc, heq, hin, hpath, hrep'⟩
  · rw [heq]
    exact ⟨_, hpath, hrep', ⟨⟨hl.idle.transit, hl.idle.held, hl.idle.dying, hl.idle.awake, rfl, rfl,
      hl.idle.doomed⟩, hl.state, hl.caps, hl.rings, hl.devs⟩, huse,
      fun dev => Nat.le_add_right _ _, fun _ _ h => h⟩
  · rw [heq]
    have hnone : v.proc id = none := by
      rw [hrep.procs.proc_eq]
      exact hrep.procs.placed.proc_of_empty hstate
    have hentered : ∀ dev, (newProcess v id l4 boot mem).total (objWeight (.boundDevice dev))
        = v.total (objWeight (.boundDevice dev)) := by
      intro dev
      unfold Holdings.total newProcess
      dsimp only
      rw [liveTotal_add _ hnone, spawnProcess_weight]
      rfl
    obtain ⟨hpath', hrep''⟩ := installGrants_path (g := g) (s := { s with mem })
      (x := { spawnProcess with l4 }) hrep' (Function.update_self ..)
      (fun cap hcap => ⟨grantable_ledger (hok cap hcap).1 huse, (hok cap hcap).2⟩)
      (fun tr htr => by
        have hnone : v.transit = some tr := htr
        rw [hl.idle.transit] at hnone
        cases hnone) (fun dev => by
          rw [hentered dev]
          exact hbound dev) hin
    refine ⟨_, hpath.trans hpath', hrep'', ⟨⟨hl.idle.transit, hl.idle.held, hl.idle.dying,
      hl.idle.awake, rfl, rfl, hl.idle.doomed⟩, fun p => ?_, fun p x k cap hp hk => ?_, hl.rings,
      hl.devs⟩, huse, fun dev => ?_, fun p hp hempty => ?_⟩
    · change Function.update v.state id .ready p = .empty ∨
        Function.update v.state id .ready p = .ready
      by_cases hpid : p = id
      · subst hpid
        rw [Function.update_self]
        exact Or.inr rfl
      · rw [Function.update_of_ne hpid]
        exact hl.state p
    · change Function.update (Function.update v.proc id _) id _ p = some x at hp
      rw [Function.update_idem] at hp
      by_cases hpid : p = id
      · subst hpid
        rw [Function.update_self, Option.some.injEq] at hp
        subst hp
        rcases installGrants_slots hin hk with hspawn | hgrant
        · exact spawnProcess_initial hspawn
        · exact grantable_initial (hok cap hgrant).1
      · rw [Function.update_of_ne hpid] at hp
        exact hl.caps p x k cap hp hk
    · have hweight := installGrants_weight (objWeight (.boundDevice dev))
        (x := { spawnProcess with l4 }) hin
      have hput := liveTotal_put (objWeight (.boundDevice dev))
        (P := (newProcess v id l4 boot mem).proc) (p := id)
        (Function.update_self ..) ({ spawnProcess with l4 }.setCaps t)
      have hsame := hentered dev
      rw [← hsame]
      unfold Holdings.total
      dsimp only
      generalize liveTotal (objWeight (.boundDevice dev)) (Function.update
        (newProcess v id l4 boot mem).proc id (some ({ spawnProcess with l4 }.setCaps t))) = n
        at hput ⊢
      omega
    · unfold entered
      rw [Procs.setSlot_state, Function.update_of_ne hp]
      exact hempty

/-- The set-up loop of a launch. -/
theorem launch_launching (hrep : Rep s none v) (hl : Launching s₀ v)
    (huse : v.inUse = s₀.ledger.inUse) (count : Nat) (extra : List (Option Capability))
    (hlen : extra.length < maxCaps)
    (hok : ∀ cap ∈ extra.reduceOption, s₀.grantable cap = true ∧ g.grant cap)
    (l : List (ProcSlot × Option Image)) (hnodup : (l.map Prod.fst).Nodup)
    (hempty : ∀ e ∈ l, s.procs.state e.1 = .empty)
    (hbound : ∀ dev, v.total (objWeight (.boundDevice dev)) + (l.map fun e =>
      listTotal (objWeight (.boundDevice dev)) (grantsFor count extra e.1)).sum ≤ 1) :
    ∃ v', Path g v v' ∧ Rep (launch count extra l s).2 none v' ∧ Launching s₀ v' := by
  induction l generalizing s v with
  | nil => exact ⟨v, Relation.ReflTransGen.refl, hrep, hl⟩
  | cons e l ih =>
    obtain ⟨id, image⟩ := e
    rw [List.map_cons, List.nodup_cons] at hnodup
    simp only [List.map_cons, List.sum_cons] at hbound
    obtain ⟨v₁, hpath₁, hrep₁, hl₁, huse₁, hgrew, hkeep⟩ := setup_launching (g := g) hrep hl huse
      (hempty _ List.mem_cons_self) image (length_grantsFor count extra id hlen)
      (fun cap hcap => hok cap (mem_grantsFor hcap)) fun dev => by
        have hle := hbound dev
        omega
    unfold launch
    split
    · rename_i s' hsetup
      rw [hsetup] at hrep₁ hkeep
      obtain ⟨v₂, hpath₂, hrep₂, hl₂⟩ := ih hrep₁ hl₁ huse₁ hnodup.2 (fun e he =>
        hkeep e.1 (fun heq => hnodup.1 (heq ▸ List.mem_map_of_mem he))
          (hempty e (List.mem_cons_of_mem _ he))) fun dev => by
          have hle := hbound dev
          have hgrow := hgrew dev
          omega
      exact ⟨v₂, hpath₁.trans hpath₂, hrep₂, hl₂⟩
    · rename_i s' hsetup
      rw [hsetup] at hrep₁
      exact ⟨v₁, hpath₁, hrep₁, hl₁⟩

/-- No process is alive, so nothing has a weight. -/
theorem total_of_vacant (h : ∀ p, s.ledger.proc p = none) (w : Capability → Nat) :
    s.ledger.total w = 0 := by
  have hlive : liveTotal w s.ledger.proc = 0 := by
    rw [show s.ledger.proc = fun _ => none from funext h]
    exact Tally.tally_none _
  unfold Holdings.total
  rw [hlive]
  rfl

/-- A bound device weighs at most once in a list that names no device twice. -/
theorem listTotal_bound (dev : DevId) (caps : List Capability) :
    listTotal (objWeight (.boundDevice dev)) caps = (caps.filterMap boundOf).count dev := by
  induction caps with
  | nil => rfl
  | cons cap caps ih =>
    rw [listTotal_cons, ih]
    unfold objWeight
    cases hobj : cap.object with
    | boundDevice d =>
      have hof : boundOf cap = some d := by
        unfold boundOf
        rw [hobj]
      rw [List.filterMap_cons_some hof, List.count_cons]
      by_cases hd : d = dev
      · subst hd
        simp
        omega
      · simp [hd]
    | _ =>
      have hof : boundOf cap = none := by
        unfold boundOf
        rw [hobj]
      rw [List.filterMap_cons_none hof, if_neg (fun heq => by cases heq), Nat.zero_add]

/-- The first entries of `extra` weigh at most what all of them weigh. -/
theorem sum_range_entries_le (w : Capability → Nat) (extra : List (Option Capability)) (n : Nat) :
    ∑ i ∈ Finset.range n, listTotal w (extra.getD i none).toList
      ≤ listTotal w extra.reduceOption := by
  induction extra generalizing n with
  | nil => exact le_of_eq (Finset.sum_eq_zero fun i _ => rfl)
  | cons c extra ih =>
    cases n with
    | zero => exact Nat.zero_le _
    | succ n =>
      rw [Finset.sum_range_succ']
      have hrest := ih n
      simp only [List.getD_cons_succ, List.getD_cons_zero]
      cases c with
      | none =>
        rw [List.reduceOption_cons_of_none]
        exact hrest
      | some cap =>
        rw [List.reduceOption_cons_of_some, listTotal_cons, Option.toList_some, listTotal_cons,
          listTotal_nil]
        omega

/-- The grants of a launch name no bound device twice. -/
theorem launch_bound (dev : DevId) (images : List (Option Image))
    {extra : List (Option Capability)} (honce : (extra.reduceOption.filterMap boundOf).Nodup) :
    (((List.finRange maxProcesses).zip images).map fun e =>
      listTotal (objWeight (.boundDevice dev))
        (grantsFor (min images.length maxProcesses) extra e.1)).sum ≤ 1 := by
  have hall : listTotal (objWeight (.boundDevice dev)) extra.reduceOption ≤ 1 := by
    rw [listTotal_bound]
    exact List.nodup_iff_count_le_one.mp honce dev
  unfold grantsFor
  by_cases hone : min images.length maxProcesses = 1
  · have hlen : images.length = 1 := by
      have hmax : 1 < maxProcesses := by decide
      omega
    obtain ⟨image, rfl⟩ := List.length_eq_one_iff.mp hlen
    simp only [if_pos hone]
    exact hall
  · simp only [if_neg hone]
    have hnodup : ((((List.finRange maxProcesses).zip images).map Prod.fst).map
        Fin.val).Nodup :=
      ((map_fst_zip_sublist _ images).nodup (List.nodup_finRange maxProcesses)).map
        Fin.val_injective
    have hsum := List.sum_toFinset
      (fun i => listTotal (objWeight (.boundDevice dev)) (extra.getD i none).toList) hnodup
    rw [List.map_map, List.map_map] at hsum
    rw [← List.map_map] at hsum
    have hsub : ((((List.finRange maxProcesses).zip images).map Prod.fst).map
        Fin.val).toFinset ⊆ Finset.range maxProcesses := by
      intro i hi
      obtain ⟨p, -, rfl⟩ := List.mem_map.mp (List.mem_toFinset.mp hi)
      exact Finset.mem_range.mpr p.2
    have hle := (Finset.sum_le_sum_of_subset hsub).trans (sum_range_entries_le
      (objWeight (.boundDevice dev)) extra maxProcesses)
    exact (le_of_eq hsum.symm).trans (hle.trans hall)

/-! ### Teardown -/

theorem drainCap_setProcs (s : Kernel) (P : Procs) (cap : Capability) :
    ({ s with procs := P } : Kernel).drainCap cap = { s.drainCap cap with procs := P } := by
  unfold drainCap
  split <;> rfl

/-- The teardown of a process does not look at the process table. -/
theorem teardown_setProcs (s : Kernel) (P : Procs) (proc : Process) (boot : List (Nat × Nat)) :
    ({ s with procs := P } : Kernel).teardown proc boot
      = { s.teardown proc boot with procs := P } := by
  have hdrain : ∀ (L : List Capability) (s : Kernel),
      L.foldl drainCap { s with procs := P } = { L.foldl drainCap s with procs := P } := by
    intro L
    induction L with
    | nil => exact fun _ => rfl
    | cons cap L ih =>
      intro s
      rw [List.foldl_cons, List.foldl_cons, drainCap_setProcs, ih]
  have hcaps := hdrain proc.caps.iter { s with
    mem := s.mem.unmapAll proc.l4 (proc.maps.filterMap fun e => e.map Prod.fst) }
  dsimp only at hcaps
  unfold teardown
  dsimp only
  rw [hcaps]

theorem teardown_procs (s : Kernel) (proc : Process) (boot : List (Nat × Nat)) :
    (s.teardown proc boot).procs = s.procs := by
  have hsame := congrArg Kernel.procs (teardown_setProcs s s.procs proc boot)
  exact hsame

theorem releaseAction_releaseRing {r : RingId} (h : releaseAction cap = .releaseRing r) :
    cap.object = .ring r := by
  unfold releaseAction at h
  split at h
  · cases h
  · cases hobj : cap.object <;> rw [hobj] at h <;> cases h
    rfl

/-- The teardown of a process without rings keeps the rings. -/
theorem teardown_rings (s : Kernel) {proc : Process} (hbare : proc.Bare)
    (boot : List (Nat × Nat)) : (s.teardown proc boot).rings = s.rings := by
  have hdrain : ∀ (L : List Capability) (s : Kernel), (∀ cap ∈ L, ∀ r, cap.object ≠ .ring r) →
      (L.foldl drainCap s).rings = s.rings := by
    intro L
    induction L with
    | nil => exact fun _ _ => rfl
    | cons cap L ih =>
      intro s hring
      rw [List.foldl_cons, ih _ fun c hc => hring c (List.mem_cons_of_mem _ hc)]
      unfold drainCap
      split
      · rfl
      · rename_i r haction
        exact absurd (releaseAction_releaseRing haction) (hring cap List.mem_cons_self r)
      all_goals rfl
  unfold teardown
  refine hdrain _ _ fun cap hcap r hobj => ?_
  obtain ⟨k, hk⟩ := CapTable.mem_iter.mp hcap
  exact hbare.2 r ⟨k, cap, hk, hobj⟩

theorem clearOrigin_initial {x : Process} (h : ∀ k cap, x.caps.slots k = some cap → cap.isInitial)
    (p : ProcSlot) : x.setCaps (x.caps.clearOrigin p) = x := by
  have hslots : (x.caps.clearOrigin p).slots = x.caps.slots := by
    funext k
    rw [CapTable.clearOrigin_slots]
    cases hk : x.caps.slots k with
    | none => rfl
    | some cap =>
      rw [Option.map_some]
      unfold CapTable.clearLender
      rw [(h k cap hk).1]
      rfl
  obtain ⟨⟨slots, reserved⟩, maps, fbMaps, l4⟩ := x
  unfold Process.setCaps
  dsimp only at hslots ⊢
  rw [Process.mk.injEq, CapTable.mk.injEq]
  exact ⟨⟨hslots, rfl⟩, rfl, rfl, rfl⟩

theorem drained_initial (h : cap.isInitial) (p : ProcSlot) : drained p cap = true := by
  unfold drained
  rw [Bool.and_eq_true, Option.isNone_iff_eq_none, Bool.not_eq_true']
  constructor
  · by_contra hne
    obtain ⟨r, hr⟩ := Option.ne_none_iff_exists'.mp hne
    obtain ⟨o, home⟩ := r
    obtain ⟨ho, -, -⟩ := reclaimTarget_some hr
    rw [h.1] at ho
    cases ho
  · unfold isReply
    split
    · rename_i c hobj
      have hkind := h.2
      rw [hobj] at hkind
      exact hkind.elim
    · rfl

/-- The ledger when the process in slot `p` has left, and its capabilities are to be drained. -/
def removed (v : Ledger) (p : ProcSlot) (proc : Process) : Ledger :=
  { v with
    proc := Function.update v.proc p none, held := proc.caps.iter, dying := none
    spent := true, state := Function.update v.state p .empty
    boot := Function.update v.boot p [], mail := Function.update v.mail p Slot.empty.mail
    frames := (v.boot p).map Prod.snd ++ v.frames, spaces := proc.l4 :: v.spaces
    doomed := true }

/-- `teardown_all` for one slot. -/
theorem teardownSlot_launching (hrep : Rep s none v) (hbase : v.Base) (hl : Launching s₀ v)
    (p : ProcSlot)
    (hg : ∀ proc, v.proc p = some proc → proc.Bare → g.leave v p) :
    ∃ v', Path g v v' ∧ Rep (s.teardownSlot p) none v' ∧ Launching s₀ v' := by
  have hgone := (Option.some_ne_none p).symm
  have hslot := hrep.procs.slot p hgone
  unfold teardownSlot
  cases htab : (s.procs.table p).process with
  | none =>
    have hnone : s.procs.proc p = none := by
      by_contra hne
      obtain ⟨x, hx⟩ := Option.ne_none_iff_exists'.mp hne
      rcases hrep.procs.placed.proc_eq_some.mp hx with htable | ⟨c, rfl, hc⟩
      · rw [htab] at htable
        cases htable
      · have hrun := hrep.procs.state_of_current hc
        rcases hl.state (s.procs.currentSlot c) with hs | hs <;> rw [hs] at hrun <;> cases hrun
    have hsame : s.procs.setSlot p Slot.empty = s.procs := by
      unfold Procs.setSlot
      rw [← hrep.procs.vacant p hgone hnone, Function.update_eq_self]
    dsimp only
    rw [hsame]
    exact ⟨v, Relation.ReflTransGen.refl, hrep, hl⟩
  | some proc =>
    have hproc := hrep.procs.proc_of_table htab
    have hbare := hl.bare hproc
    have hleave : Path g v _ := Relation.ReflTransGen.single (Act.leave hproc (hl.not_blocked p)
      hl.idle.held hl.idle.dying hl.idle.transit hl.idle.doomed (hg proc hproc hbare))
    have hrep₁ : Rep { s with procs := s.procs.setSlot p Slot.empty } none (removed v p proc) := by
      refine ⟨hrep.procs.remove htab, hrep.ipc.same fun id right => ?_, hrep.mem, hrep.rings,
        hrep.devs⟩
      have hrem := liveTotal_remove (reachWeight id right) hproc
      unfold peers removed
      rw [listTotal_iter, hl.idle.held, listTotal_nil]
      omega
    have hdoom := hleave.tail (Act.doom fun id hq => absurd (hl.queue_nil hbase id) hq)
    have hclear := hdoom.tail (Act.table (TableAct.clearOrigins rfl (Function.update_self ..)
      hl.idle.transit))
    have hprocs : (fun q => (Function.update v.proc p none q).map fun x =>
        x.setCaps (x.caps.clearOrigin p)) = Function.update v.proc p none := by
      funext q
      cases hq : Function.update v.proc p none q with
      | none => rfl
      | some x =>
        have hqp : q ≠ p := by
          rintro rfl
          rw [Function.update_self] at hq
          cases hq
        rw [Function.update_of_ne hqp] at hq
        rw [Option.map_some, clearOrigin_initial fun k cap hk => hl.caps q x k cap hq hk]
    have hto : Path g v (removed v p proc) := by
      dsimp only at hclear
      rw [hprocs] at hclear
      exact hclear
    have hfilter : proc.caps.iter.filter (drained p) = proc.caps.iter :=
      List.filter_eq_self.mpr fun cap hcap => by
        obtain ⟨k, hk⟩ := CapTable.mem_iter.mp hcap
        exact drained_initial (hl.caps p proc k cap hproc hk) p
    obtain ⟨mem, rings, inUse, side, hpath, hrep₂⟩ := teardown_path (g := g)
      (s := { s with procs := s.procs.setSlot p Slot.empty })

      hrep₁ (hto.base hbase) hl.idle.transit rfl (by rw [hfilter]; exact List.Perm.refl _)
      (by unfold removed; rw [hl.idle.frames, List.append_nil, hslot.2.1])
      (by unfold removed; rw [hl.idle.spaces])
    have hrings : rings = v.rings := by
      have heq := hrep₂.rings
      dsimp only at heq
      rw [teardown_rings _ hbare] at heq
      exact heq.trans hrep.rings.symm
    rw [teardown_setProcs] at hrep₂
    dsimp only
    rw [teardown_procs]
    refine ⟨_, hto.trans hpath, hrep₂, ⟨hl.idle.transit, rfl, rfl, hl.idle.awake, rfl, rfl, rfl⟩,
      fun q => ?_, fun q x k cap hq hk => ?_, hrings.trans hl.rings, hl.devs⟩
    · change Function.update v.state p .empty q = .empty ∨
        Function.update v.state p .empty q = .ready
      by_cases hqp : q = p
      · subst hqp
        rw [Function.update_self]
        exact Or.inl rfl
      · rw [Function.update_of_ne hqp]
        exact hl.state q
    · change Function.update v.proc p none q = some x at hq
      by_cases hqp : q = p
      · subst hqp
        rw [Function.update_self] at hq
        cases hq
      · rw [Function.update_of_ne hqp] at hq
        exact hl.caps q x k cap hq hk

/-- The loop of `teardown_all`. -/
theorem teardownSlots_launching (hrep : Rep s none v) (hbase : v.Base) (hl : Launching s₀ v)
    (hg : ∀ v p proc, Launching s₀ v → v.proc p = some proc → proc.Bare → g.leave v p)
    (ps : List ProcSlot) :
    ∃ v', Path g v v' ∧ Rep (ps.foldl teardownSlot s) none v' ∧ Launching s₀ v' := by
  induction ps generalizing s v with
  | nil => exact ⟨v, Relation.ReflTransGen.refl, hrep, hl⟩
  | cons p ps ih =>
    obtain ⟨v₁, hpath₁, hrep₁, hl₁⟩ := teardownSlot_launching (g := g) hrep hbase hl p
      fun proc hp hbare => hg v p proc hl hp hbare
    obtain ⟨v₂, hpath₂, hrep₂, hl₂⟩ := ih hrep₁ (hpath₁.base hbase) hl₁
    exact ⟨v₂, hpath₁.trans hpath₂, hrep₂, hl₂⟩

/-- No process waits, so the links can be cleared. -/
theorem clearLinks_rep (hrep : Rep s none v) (hnil : ∀ ep, v.queue ep = []) :
    Rep { s with ipc := { s.ipc with links := fun _ => none } } none v := by
  refine ⟨hrep.procs, ⟨fun ep => ?_, hrep.ipc.side, hrep.ipc.inUse, hrep.ipc.senders,
    hrep.ipc.receivers, hrep.ipc.asserts⟩, hrep.mem, hrep.rings, hrep.devs⟩
  have hholds := hrep.ipc.queue_rep ep
  rw [hnil ep] at hholds ⊢
  exact hholds.frame fun x hx => by cases hx

theorem run_refines (h : s.Good) {images : List (Option Image)}
    {extra : List (Option Capability)} (hcan : s.canRun core images extra = true)
    (hg : s.Permits g (.run core images extra)) : s.Refines g (s.run core images extra) := by
  unfold canRun at hcan
  simp only [Bool.and_eq_true, decide_eq_true_eq, List.all_eq_true] at hcan
  obtain ⟨⟨⟨⟨⟨hempty, -⟩, -⟩, hlen⟩, hextra⟩, honce⟩ := hcan
  have hstate : ∀ p, s.procs.state p = .empty := by
    intro p
    unfold tableEmpty at hempty
    simpa using List.all_eq_true.mp hempty p (List.mem_finRange p)
  have hnone : ∀ p, s.ledger.proc p = none := fun p =>
    h.rep.procs.placed.proc_of_empty (hstate p)
  have hl : Launching s s.ledger := ⟨s.ledger_idle, fun p => Or.inl (hstate p),
    fun p x k cap hp => (by rw [hnone p] at hp; cases hp), rfl, rfl⟩
  have hnodup : (((List.finRange maxProcesses).zip images).map Prod.fst).Nodup :=
    (map_fst_zip_sublist _ images).nodup (List.nodup_finRange maxProcesses)
  obtain ⟨v₁, hpath₁, hrep₁, hl₁⟩ := launch_launching (g := g) h.rep hl rfl
    (min images.length maxProcesses) extra hlen
    (fun cap hcap => ⟨hextra cap hcap, hg.grant cap ⟨hcap, hextra cap hcap⟩⟩)
    ((List.finRange maxProcesses).zip images) hnodup (fun e _ => hstate e.1)
    (fun dev => by
      rw [total_of_vacant hnone, Nat.zero_add]
      exact launch_bound dev images honce)
  unfold run
  dsimp only
  split
  · split
    · rename_i procs hres
      obtain ⟨hready, hres⟩ := hrep₁.procs.resume hres
      exact ⟨_, hpath₁.tail (Act.resume hready),
        ⟨hres, hrep₁.ipc, hrep₁.mem, hrep₁.rings, hrep₁.devs⟩,
        ⟨hl₁.idle.transit, hl₁.idle.held, hl₁.idle.dying, hl₁.idle.awake, hl₁.idle.frames,
          hl₁.idle.spaces, hl₁.idle.doomed⟩⟩
    · exact ⟨v₁, hpath₁, hrep₁, hl₁.idle⟩
  · obtain ⟨v₂, hpath₂, hrep₂, hl₂⟩ := teardownSlots_launching (g := g) hrep₁
      (hpath₁.base h.base) hl₁
      (fun v p proc hv hp hbare => hg.leave v p ⟨hempty, hv.rings, hv.devs, proc, hp, hbare⟩)
      (List.finRange maxProcesses)
    have hto : Path g s.ledger v₂ := hpath₁.trans hpath₂
    exact ⟨v₂, hto, clearLinks_rep hrep₂ (hl₂.queue_nil (hto.base h.base)), hl₂.idle⟩

end Kernel

end Plinth
