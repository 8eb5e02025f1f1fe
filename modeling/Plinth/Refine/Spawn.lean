import Plinth.Refine.Setup

/-!
# `Plinth.Refine.Spawn`: spawn of a process

`spawn_scheduled` creates a result endpoint, takes a capability from the caller, sets the child
up, and mints the handle of the caller. A failed set-up is rolled back: the endpoint is released,
and the capability goes back to the caller.
-/

set_option autoImplicit false

namespace Plinth

variable {g : Guard} {v : Ledger} {s : Kernel} {core : Core} {p id : ProcSlot}
  {proc : Process} {cap : Capability} {ep : EndpointId} {k : CapSlot}

/-! ### The result endpoint -/

/-- No capability names an endpoint that is not in use. -/
theorem Ledger.Base.unnamed (h : v.Base) (hfree : v.inUse ep = false) :
    v.total (objWeight (.endpoint ep)) = 0 := by
  have hle : v.total (objWeight (.endpoint ep)) ≤ v.total (strayWeight v.inUse) := by
    refine Holdings.total_mono (fun cap => ?_) v.toHoldings
    unfold objWeight strayWeight
    by_cases hobj : cap.object = .endpoint ep
    · rw [hobj]
      simp [hfree]
    · rw [if_neg hobj]
      exact Nat.zero_le _
  have hstray : v.total (strayWeight v.inUse) = 0 := h.noStray
  omega

/-- Nothing references an endpoint that no capability names. -/
theorem peers_of_unnamed (h : v.total (objWeight (.endpoint ep)) = 0) (right : Rights) :
    peers v.proc v.held ep right = 0 := by
  have hlive := liveTotal_mono (reachWeight_le ep right) v.proc
  have hheld := listTotal_mono (reachWeight_le ep right) v.held
  unfold Holdings.total at h
  unfold peers
  omega

theorem queue_of_unnamed (hbase : v.Base) (h : v.total (objWeight (.endpoint ep)) = 0) :
    v.queue ep = [] := by
  rcases List.eq_nil_or_concat (v.queue ep) with hnil | ⟨l, x, hcons⟩
  · exact hnil
  · have hnamed := hbase.holders.named (p := x) (by rw [hcons]; simp)
    unfold Holdings.total at h
    omega

theorem createEndpoint_path {ipc : Ipc} (hrep : Rep s none v) (hbase : v.Base)
    (hfirst : v.spent = false) (hcreate : s.ipc.createEndpoint = some (ep, ipc)) :
    v.total (objWeight (.endpoint ep)) = 0 ∧
      Path g v { v with
        inUse := Function.update v.inUse ep true
        sendersWait := Function.update v.sendersWait ep false } ∧
      Rep { s with ipc } none { v with
        inUse := Function.update v.inUse ep true
        sendersWait := Function.update v.sendersWait ep false } := by
  obtain ⟨hfree, rfl⟩ := Ipc.createEndpoint_some hcreate
  rw [← hrep.ipc.inUse] at hfree
  have hnone := hbase.unnamed hfree
  refine ⟨hnone, Relation.ReflTransGen.single (Act.create hfree hfirst), hrep.procs, ?_, hrep.mem,
    hrep.rings, hrep.devs⟩
  exact hrep.ipc.setEndpoint (hbase.holders.queue_nil hfree) (peers_of_unnamed hnone rightSend)
    (peers_of_unnamed hnone rightRecv) true

theorem releaseEndpoint_path (hrep : Rep s none v) (hbase : v.Base)
    (hnone : v.total (objWeight (.endpoint ep)) = 0) :
    Path g v { v with
        inUse := Function.update v.inUse ep false
        sendersWait := Function.update v.sendersWait ep false } ∧
      Rep { s with ipc := s.ipc.releaseEndpoint ep } none { v with
        inUse := Function.update v.inUse ep false
        sendersWait := Function.update v.sendersWait ep false } := by
  have hnil := queue_of_unnamed hbase hnone
  have hsend := peers_of_unnamed hnone rightSend
  have hrecv := peers_of_unnamed hnone rightRecv
  refine ⟨Relation.ReflTransGen.single (Act.release hnone hnil), hrep.procs, ?_, hrep.mem,
    hrep.rings, hrep.devs⟩
  have hunref : (s.ipc.endpoints ep).isUnreferenced = true := by
    unfold Endpoint.isUnreferenced
    rw [Bool.and_eq_true, Bool.and_eq_true, beq_iff_eq, beq_iff_eq, hrep.ipc.senders,
      hrep.ipc.receivers, hrep.ipc.queue_rep.isEmpty_iff]
    exact ⟨⟨hsend, hrecv⟩, hnil⟩
  unfold Ipc.releaseEndpoint
  rw [if_pos hunref]
  exact hrep.ipc.setEndpoint hnil hsend hrecv false

/-! ### The set-up of the child -/

theorem Ledger.with_store_self {m : Mem} {frames spaces : List Nat} (hmem : m = v.mem)
    (hframes : frames = v.frames) (hspaces : spaces = v.spaces) :
    ({ v with mem := m, frames := frames, spaces := spaces } : Ledger) = v := by
  subst hmem hframes hspaces
  rfl

namespace Kernel

/-- The ledger after a process entered slot `id` with its CPU budget. -/
def newProcess (v : Ledger) (id : ProcSlot) (l4 : Nat) (boot : List (Nat × Nat)) (mem : Mem) :
    Ledger :=
  { v with
    mem := mem, proc := Function.update v.proc id (some { spawnProcess with l4 })
    state := Function.update v.state id .ready, boot := Function.update v.boot id boot
    frames := [], spaces := [] }

/-- A set-up fails and changes only the memory, or the process enters and gets its grants. -/
theorem setupProcess_path (hrep : Rep s none v) (hstate : s.procs.state id = .empty)
    (hframes : v.frames = []) (hspaces : v.spaces = []) (hdying : v.dying = none)
      (image : Option Image)
    {caps : List Capability} (hlen : caps.length < maxCaps) :
    (∃ mem, s.setupProcess id image caps = (false, { s with mem }) ∧
      Path g v { v with mem := mem, frames := [], spaces := [] } ∧
      Rep { s with mem } none { v with mem := mem, frames := [], spaces := [] }) ∨
    ∃ l4 boot mem t ipc, s.setupProcess id image caps = (true, { s with
        ipc, mem, procs := entered s.procs id ({ spawnProcess with l4 }.setCaps t) boot }) ∧
      installGrants caps spawnProcess.caps s.ipc = (some t, ipc) ∧
      Path g v (newProcess v id l4 boot mem) ∧
      Rep { s with mem, procs := entered s.procs id { spawnProcess with l4 } boot } none
        (newProcess v id l4 boot mem) := by
  unfold setupProcess
  cases hcreate : s.mem.createAddressSpace with
  | none =>
    refine Or.inl ⟨s.mem, rfl, ?_, hrep.procs, hrep.ipc, rfl, hrep.rings, hrep.devs⟩
    rw [Ledger.with_store_self hrep.mem.symm hframes.symm hspaces.symm]
  | some r =>
    obtain ⟨l4, mem⟩ := r
    dsimp only
    rcases hload : loadAndMap mem image l4 with ⟨entry, mem', boot⟩
    cases entry with
    | none =>
      obtain ⟨hpath, hrep'⟩ := load_fail_path (g := g) hrep hframes hspaces hcreate hload
      exact Or.inl ⟨_, rfl, hpath, hrep'⟩
    | some entry =>
      obtain ⟨t, ipc, hin⟩ := installGrants_some caps (t := spawnProcess.caps) s.ipc
        (fun _ => rfl) (by rw [spawnProcess_used]; omega)
      obtain ⟨hpath, hrep'⟩ := enter_path (g := g) hrep hstate hframes hspaces hdying hcreate hload
      rw [hin]
      exact Or.inr ⟨l4, boot, mem', t, ipc, rfl, rfl, hpath, hrep'⟩

/-- `scheduler::spawn` fails and changes only the memory, or it sets a process up in a slot that
was free. -/
theorem schedSpawn_path (hrep : Rep s none v) (hframes : v.frames = []) (hspaces : v.spaces = [])
    (hdying : v.dying = none) (image : Option Image) (caps : List Capability)
      (hlen : caps.length < maxCaps) :
    (∃ mem, s.schedSpawn image caps = (none, { s with mem }) ∧
      Path g v { v with mem := mem, frames := [], spaces := [] } ∧
      Rep { s with mem } none { v with mem := mem, frames := [], spaces := [] }) ∨
    ∃ id l4 boot mem t ipc, v.proc id = none ∧ s.schedSpawn image caps = (some id, { s with
        ipc, mem, procs := entered s.procs id ({ spawnProcess with l4 }.setCaps t) boot }) ∧
      installGrants caps spawnProcess.caps s.ipc = (some t, ipc) ∧
      Path g v (newProcess v id l4 boot mem) ∧
      Rep { s with mem, procs := entered s.procs id { spawnProcess with l4 } boot } none
        (newProcess v id l4 boot mem) := by
  unfold schedSpawn
  cases hfind : s.procs.findFreeSlot with
  | none =>
    refine Or.inl ⟨s.mem, rfl, ?_, hrep.procs, hrep.ipc, rfl, hrep.rings, hrep.devs⟩
    rw [Ledger.with_store_self hrep.mem.symm hframes.symm hspaces.symm]
  | some id =>
    have hstate : s.procs.state id = .empty := by
      have hfree := List.find?_some hfind
      simpa using hfree
    have hvacant : v.proc id = none := by
      rw [hrep.procs.proc_eq]
      exact hrep.procs.placed.proc_of_empty hstate
    rcases setupProcess_path (g := g) hrep hstate hframes hspaces hdying image hlen with
      ⟨mem, heq, hpath, hrep'⟩ | ⟨l4, boot, mem, t, ipc, heq, hin, hpath, hrep'⟩
    · dsimp only
      rw [heq]
      exact Or.inl ⟨mem, rfl, hpath, hrep'⟩
    · dsimp only
      rw [heq]
      exact Or.inr ⟨id, l4, boot, mem, t, ipc, hvacant, rfl, hin, hpath, hrep'⟩

/-! ### The transfer -/

/-- The state after the process on `core` gave the capability of slot `k` away. -/
def gave (s : Kernel) (core : Core) (proc : Process) (k : CapSlot) (cap : Capability) : Kernel :=
  { s with
    procs := s.procs.setCurrent core (some (giveAway s.mem proc k cap).1)
    mem := (giveAway s.mem proc k cap).2, ipc := s.ipc.noteCapRemoved cap false }

/-- A spawn takes no capability, or the one in the slot it names. -/
theorem takeForSpawn_cases (s : Kernel) (slot : Nat) (hc : s.procs.current core = some proc) :
    s.takeForSpawn core slot = (none, s) ∨
      ∃ (k : CapSlot) (cap : Capability), slot = k ∧ proc.caps.slots k = some cap ∧
        s.takeForSpawn core slot = (some cap, s.gave core proc k cap) := by
  unfold takeForSpawn
  split
  · exact Or.inl rfl
  · unfold giveFromCurrent
    rw [hc]
    dsimp only
    rcases revokeAndUnmapForLend_cases s.mem proc slot with hnone | ⟨k, cap, rfl, hk, hrev⟩
    · rw [hnone]
      exact Or.inl rfl
    · rw [hrev]
      exact Or.inr ⟨k, cap, rfl, hk, rfl⟩

/-- The rollback puts the capability into the slot it came from, if that is reserved for it, and
else into a free slot. -/
theorem undoTransfer_path (hrep : Rep s none v) (hbase : v.Base)
    (hc : s.procs.current core = some proc)
    (htr : v.transit = some ⟨cap, s.procs.currentSlot core, k, .undo⟩) :
    ∃ proc', Path g v { v with
        proc := Function.update v.proc (s.procs.currentSlot core) (some proc'), transit := none } ∧
      Rep (s.undoTransfer core k cap) none { v with
        proc := Function.update v.proc (s.procs.currentSlot core) (some proc')
        transit := none } := by
  have hproc := hrep.procs.proc_of_current hc
  obtain ⟨x, hx, hempty, hres, -⟩ := hbase.sound.transit _ htr
  obtain rfl : proc = x := by
    dsimp only at hx
    rw [hproc] at hx
    simpa using hx
  dsimp only at hempty hres
  unfold undoTransfer
  rw [hc]
  dsimp only [Option.bind_some]
  cases hkind : lendReservesHome cap with
  | true =>
    rw [hkind] at hres
    have hin := CapTable.reclaimTo_of_reserved cap hres hempty
    have hundo : Path g v _ := Relation.ReflTransGen.single (Act.table (TableAct.undo htr hproc
      (CapTable.reclaimTo_some hin).1 (fun _ => rfl) fun hno => by rw [hkind] at hno; cases hno))
    have hplace := hrep.place hproc (CapTable.reclaimTo_some hin).1 rfl rfl
      (hrep.procs.placed.writes_current hc _)
    refine ⟨_, hundo, ?_⟩
    rw [hin, Option.isSome_some, if_pos rfl]
    unfold Procs.onCurrent
    rw [hc]
    dsimp only
    rw [hin]
    exact hplace
  | false =>
    rw [hkind] at hres
    obtain ⟨j, hj⟩ := CapTable.firstFree_isSome hempty hres
    have hin : proc.caps.reclaim cap = some (j, proc.caps.set j (some cap)) := by
      unfold CapTable.reclaim CapTable.install
      rw [hj]
      rfl
    have hundo : Path g v _ := Relation.ReflTransGen.single (Act.table (TableAct.undo htr hproc
      (CapTable.reclaim_some hin).1 (fun hyes => by rw [hkind] at hyes; cases hyes)
      fun _ => (CapTable.reclaim_some hin).2))
    have hplace := hrep.place hproc (CapTable.reclaim_some hin).1 rfl rfl
      (hrep.procs.placed.writes_current hc _)
    refine ⟨_, hundo, ?_⟩
    have hno := CapTable.reclaimTo_of_unreserved cap hres
    have hclear : proc.caps.clearReservation k = proc.caps := by
      unfold CapTable.clearReservation
      rw [capSlot?_val]
      exact CapTable.mark_self hres
    have hkeep : s.procs.setCurrent core (some (proc.setCaps proc.caps)) = s.procs := by
      unfold Procs.setCurrent
      rw [show proc.setCaps proc.caps = proc from rfl, ← hc, Function.update_eq_self]
    rw [hno, Option.isSome_none, if_neg Bool.false_ne_true]
    unfold restoreToCurrent Procs.onCurrent
    rw [hc]
    dsimp only
    rw [hno]
    dsimp only
    rw [hclear, hkeep, hc]
    dsimp only
    rw [hin]
    exact hplace

/-! ### The whole spawn -/

/-- The handle of the caller on the result endpoint. -/
theorem mintHandle_path (proc : Process) (hrep : Rep s none v)
    (hc : s.procs.current core = some proc)
    (htransit : v.transit = none) (huse : v.inUse ep = true)
    (hg : g.grant ⟨.endpoint ep, rightRecv, none⟩) :
    ∃ P, Path g v { v with proc := P } ∧ (∀ w, liveTotal w v.proc ≤ liveTotal w P) ∧
      Rep (match s.procs.onCurrent core fun t =>
          (t.mint (.endpoint ep) rightRecv).toOption with
        | some (h, procs) => ((h : Nat),
          ({ s with procs, ipc := s.ipc.noteCapAdded ⟨.endpoint ep, rightRecv, none⟩ } : Kernel))
        | none => (errCode, s)).2 none { v with proc := P } := by
  split
  · rename_i h procs hmint
    obtain ⟨x, t, hx, hin, rfl⟩ := Procs.onCurrent_eq_some.mp hmint
    obtain rfl : proc = x := by simpa using hc.symm.trans hx
    have hproc := hrep.procs.proc_of_current hc
    cases hok : proc.caps.mint (.endpoint ep) rightRecv with
    | error e =>
      rw [hok] at hin
      cases hin
    | ok r =>
      rw [hok] at hin
      simp only [Except.toOption, Option.some.injEq] at hin
      subst hin
      have hgrant : v.Grantable ⟨.endpoint ep, rightRecv, none⟩ := 
        ⟨rfl, huse, Or.inr (show rightRecv.has rightRecv = true by decide)⟩
      have hplace := hrep.place hproc
        (CapTable.install_ok hok).1 rfl rfl (hrep.procs.placed.writes_current hc _)
      refine ⟨_, Relation.ReflTransGen.single (Act.grant hproc hgrant hg
        (fun tr htr => by rw [htransit] at htr; cases htr) (fun dev heq => by cases heq) hok),
        fun w => ?_, ?_⟩
      · rw [liveTotal_places w hproc (CapTable.install_ok hok).1]
        exact Nat.le_add_right _ _
      rw [← htransit] at hplace
      exact hplace
  · exact ⟨v.proc, Relation.ReflTransGen.refl, fun w => le_refl _, hrep⟩

/-- Every endpoint that is in use only since the entry is named by a live capability. -/
def Settled (s s' : Kernel) : Prop :=
  ∀ id, (s.ipc.endpoints id).inUse = false → (s'.ipc.endpoints id).inUse = true →
    0 < s'.named id

theorem settled_self (s : Kernel) : s.Settled s := by
  intro id hno hyes
  rw [hno] at hyes
  cases hyes

theorem settled_of_rep {s' : Kernel} {b : Bool} (hrep : Rep s' none v)
    (huse : v.inUse = Function.update s.ledger.inUse ep b)
    (hpos : b = true → 0 < liveTotal (objWeight (.endpoint ep)) v.proc) : s.Settled s' := by
  intro id hno hyes
  rw [← hrep.ipc.inUse, huse] at hyes
  by_cases hid : id = ep
  · subst hid
    rw [Function.update_self] at hyes
    unfold named
    rw [← hrep.procs.proc_eq]
    exact hpos hyes
  · rw [Function.update_of_ne hid] at hyes
    have hin : (s.ipc.endpoints id).inUse = true := hyes
    rw [hno] at hin
    cases hin

/-- The child enters with the sending end of the result endpoint. -/
theorem sendGrant_path {l4 : Nat} {boot : List (Nat × Nat)} {mem : Mem} {P : Procs}
    {k : CapSlot} {t : CapTable}
    (hrep : Rep { s with procs := entered P id { spawnProcess with l4 } boot } none
      (newProcess v id l4 boot mem))
    (hgiver : ∀ tr, v.transit = some tr → tr.giver ≠ id) (huse : v.inUse ep = true)
    (hg : g.grant ⟨.endpoint ep, rightSend, none⟩)
    (hin : spawnProcess.caps.install ⟨.endpoint ep, rightSend, none⟩ = .ok (k, t)) :
    Path g (newProcess v id l4 boot mem) { newProcess v id l4 boot mem with
        proc := Function.update v.proc id (some ({ spawnProcess with l4 }.setCaps t)) } ∧
      Rep { s with
          procs := entered P id ({ spawnProcess with l4 }.setCaps t) boot
          ipc := s.ipc.noteCapAdded ⟨.endpoint ep, rightSend, none⟩ } none
        { newProcess v id l4 boot mem with
          proc := Function.update v.proc id (some ({ spawnProcess with l4 }.setCaps t)) } := by
  have hx : (newProcess v id l4 boot mem).proc id = some { spawnProcess with l4 } :=
    Function.update_self ..
  have hgrant : (newProcess v id l4 boot mem).Grantable ⟨.endpoint ep, rightSend, none⟩ :=
    ⟨rfl, huse, Or.inl (show rightSend.has rightSend = true by decide)⟩
  have hrep' := hrep.grants (u := v.transit) hx
    (CapTable.install_ok hin).1 rfl rfl
  have hidem : Function.update (newProcess v id l4 boot mem).proc id
      (some ({ spawnProcess with l4 }.setCaps t))
        = Function.update v.proc id (some ({ spawnProcess with l4 }.setCaps t)) :=
    Function.update_idem ..
  have hact := Act.grant (g := g) hx hgrant hg hgiver (fun dev heq => by cases heq) hin
  rw [hidem] at hact hrep'
  exact ⟨Relation.ReflTransGen.single hact, hrep'⟩

/-- The entry refines, and the endpoints that it takes into use are named. -/
def Spawns (g : Guard) (s s' : Kernel) : Prop := s.Refines g s' ∧ s.Settled s'

/-- A spawn without a transfer. -/
theorem spawnAlone_refines (h : s.Good) {ipc : Ipc} (hc : s.procs.current core = some proc)
    (hcreate : s.ipc.createEndpoint = some (ep, ipc)) (image : Option Image)
    (hgrant : ∀ rights, g.grant ⟨.endpoint ep, rights, none⟩) {r : Option ProcSlot × Kernel}
    (hr : ({ s with ipc } : Kernel).schedSpawn image [⟨.endpoint ep, rightSend, none⟩] = r) :
    (r.1 = none → s.Spawns g { r.2 with ipc := r.2.ipc.releaseEndpoint ep }) ∧
      (r.1 ≠ none → s.Spawns g (match r.2.procs.onCurrent core fun t =>
          (t.mint (.endpoint ep) rightRecv).toOption with
        | some (h, procs) => ((h : Nat),
          ({ r.2 with
            procs, ipc := r.2.ipc.noteCapAdded ⟨.endpoint ep, rightRecv, none⟩ } : Kernel))
        | none => (errCode, r.2)).2) := by
  obtain ⟨hnone, hpath₁, hrep₁⟩ := createEndpoint_path (g := g) h.rep h.base rfl hcreate
  rcases schedSpawn_path (g := g) hrep₁ rfl rfl rfl image [⟨.endpoint ep, rightSend, none⟩]
    (by rw [List.length_singleton]; decide) with ⟨mem, heq, hpath₂, hrep₂⟩ |
      ⟨id, l4, boot, mem, t, ipc', hvacant, heq, hin, hpath₂, hrep₂⟩
  · rw [heq] at hr
    subst hr
    refine ⟨fun _ => ?_, fun hne => absurd rfl hne⟩
    have hto₂ : Path g s.ledger _ := hpath₁.trans hpath₂
    obtain ⟨hpath₃, hrep₃⟩ := releaseEndpoint_path (g := g) hrep₂ (hto₂.base h.base) hnone
    exact ⟨⟨_, hto₂.trans hpath₃, hrep₃, ⟨rfl, rfl, rfl, rfl, rfl, rfl, rfl⟩⟩,
      settled_of_rep (b := false) hrep₃ (Function.update_idem ..) fun hno => by cases hno⟩
  · rw [heq] at hr
    subst hr
    refine ⟨fun heq => (by cases heq), fun _ => ?_⟩
    have hto₂ : Path g s.ledger _ := hpath₁.trans hpath₂
    unfold installGrants at hin
    split at hin
    · cases hin
    · rename_i k₁ t₁ hin₁
      unfold installGrants at hin
      simp only [Prod.mk.injEq, Option.some.injEq] at hin
      obtain ⟨rfl, rfl⟩ := hin
      obtain ⟨hpath₃, hrep₃⟩ := sendGrant_path (g := g)
        (s := { s with ipc, mem }) hrep₂ (fun tr htr => (by cases htr)) (Function.update_self ..)
          (hgrant _) hin₁
      have hto₃ : Path g s.ledger _ := hto₂.trans hpath₃
      obtain ⟨P, hpath₄, hle, hrep₄⟩ := mintHandle_path (g := g)
        proc hrep₃ hc rfl (Function.update_self ..) (hgrant _)
      refine ⟨⟨_, hto₃.trans hpath₄, hrep₄, ⟨rfl, rfl, rfl, rfl, rfl, rfl, rfl⟩⟩,
        settled_of_rep (b := true) hrep₄ rfl fun _ => lt_of_lt_of_le ?_ (hle _)⟩
      exact liveTotal_pos.mpr ⟨id, { spawnProcess with l4 }.setCaps t₁, k₁, _,
        Function.update_self .., (CapTable.install_ok hin₁).1.slot_self,
        by rw [objWeight, if_pos rfl]; exact Nat.one_pos⟩

/-- How the transfer of a spawn ends, from the result of the set-up. -/
def spawnFate : Option ProcSlot → Fate
  | some id => .child id
  | none => .undo

/-- A spawn that takes a capability from the caller. -/
theorem spawnLending_refines (h : s.Good) {ipc : Ipc} (hc : s.procs.current core = some proc)
    (hk : proc.caps.slots k = some cap) (hcreate : s.ipc.createEndpoint = some (ep, ipc))
    (image : Option Image) (hgrant : ∀ rights, g.grant ⟨.endpoint ep, rights, none⟩)
    {r : Option ProcSlot × Kernel}
    (hr : (({ s with ipc } : Kernel).gave core proc k cap).schedSpawn image
      [⟨.endpoint ep, rightSend, none⟩, spawnLoan cap (s.procs.currentSlot core) k] = r)
    (hgive : ∀ v : Ledger, v.Like s.ledger →
      g.give v (s.procs.currentSlot core) k (spawnFate r.1)) :
    (r.1 = none → s.Spawns g
        (({ r.2 with ipc := r.2.ipc.releaseEndpoint ep } : Kernel).undoTransfer core k cap)) ∧
      (r.1 ≠ none → s.Spawns g (match r.2.procs.onCurrent core fun t =>
          (t.mint (.endpoint ep) rightRecv).toOption with
        | some (h, procs) => ((h : Nat),
          ({ r.2 with
            procs, ipc := r.2.ipc.noteCapAdded ⟨.endpoint ep, rightRecv, none⟩ } : Kernel))
        | none => (errCode, r.2)).2) := by
  obtain ⟨hnone, hpath₁, hrep₁⟩ := createEndpoint_path (g := g) h.rep h.base rfl hcreate
  have hproc := h.proc_of_current hc
  have hfree : Ledger.Free s.ledger (s.procs.currentSlot core) := Or.inl (by
    rw [h.state_of_current hc]
    exact fun heq => by cases heq)
  -- The transfer starts, with the end that the set-up will give it.
  have hact : TableAct (fun p k f => s.ledger.Free p ∧ g.give { s.ledger with
        inUse := Function.update s.ledger.inUse ep true
        sendersWait := Function.update s.ledger.sendersWait ep false } p k f)
      (fun p k => s.ledger.Free p ∧ g.take { s.ledger with
        inUse := Function.update s.ledger.inUse ep true
        sendersWait := Function.update s.ledger.sendersWait ep false } p k)
      (g.strand { s.ledger with
        inUse := Function.update s.ledger.inUse ep true
        sendersWait := Function.update s.ledger.sendersWait ep false })
      s.ledger.toHoldings _ :=
    .give hproc hk rfl rfl rfl ⟨hfree, hgive _ ⟨rfl, rfl, rfl, rfl⟩⟩
  have hto₁ : Path g s.ledger _ := hpath₁.tail (Act.table hact)
  have hrep₂ := hrep₁.give (k := k) hproc hk
    (h.rep.procs.placed.writes_current hc _)
    (some ⟨cap, s.procs.currentSlot core, k, spawnFate r.1⟩)
  have hnone₂ := (hact.total_tracked h.base.sound (o := .endpoint ep) trivial).trans hnone
  have hbase₂ := hto₁.base h.base
  rcases schedSpawn_path (g := g) (s := ({ s with ipc } : Kernel).gave core proc k cap) hrep₂
    rfl rfl rfl image [⟨.endpoint ep, rightSend, none⟩,
      spawnLoan cap (s.procs.currentSlot core) k]
    (by rw [List.length_cons, List.length_singleton]; decide) with ⟨mem, heq, hpath₃, hrep₃⟩ |
      ⟨id, l4, boot, mem, t, ipc', hvacant, heq, hin, hpath₃, hrep₃⟩
  · rw [heq] at hr
    subst hr
    refine ⟨fun _ => ?_, fun hne => absurd rfl hne⟩
    have hto₃ : Path g s.ledger _ := hto₁.trans hpath₃
    obtain ⟨hpath₄, hrep₄⟩ := releaseEndpoint_path (g := g) hrep₃ (hto₃.base h.base)
      hnone₂
    have hto₄ : Path g s.ledger _ := hto₃.trans hpath₄
    obtain ⟨proc', hpath₅, hrep₅⟩ := undoTransfer_path (g := g)
      (k := k) hrep₄ (hto₄.base h.base) (Procs.setCurrent_current_self ..) rfl
    exact ⟨⟨_, hto₄.trans hpath₅, hrep₅, ⟨rfl, rfl, rfl, rfl, rfl, rfl, rfl⟩⟩,
      settled_of_rep (b := false) hrep₅ (Function.update_idem ..) fun hno => by cases hno⟩
  · rw [heq] at hr
    subst hr
    refine ⟨fun heq => (by cases heq), fun _ => ?_⟩
    have hto₃ : Path g s.ledger _ := hto₁.trans hpath₃
    have hne : s.procs.currentSlot core ≠ id := by
      rintro rfl
      dsimp only at hvacant
      rw [Function.update_self] at hvacant
      cases hvacant
    obtain ⟨-, -, -, -, horigin⟩ := hbase₂.sound.transit _ rfl
    have hlender : cap.origin.map Origin.lender ≠ some id := by
      intro heq
      obtain ⟨o, ho, hid⟩ := Option.map_eq_some_iff.mp heq
      refine (horigin o ho).2 ?_
      rw [hid]
      exact hvacant
    unfold installGrants at hin
    split at hin
    · cases hin
    · rename_i k₁ t₁ hin₁
      unfold installGrants at hin
      split at hin
      · cases hin
      · rename_i k₂ t₂ hin₂
        unfold installGrants at hin
        simp only [Prod.mk.injEq, Option.some.injEq] at hin
        obtain ⟨rfl, rfl⟩ := hin
        obtain ⟨hpath₄, hrep₄⟩ := sendGrant_path (g := g)
          (s := { ({ s with ipc } : Kernel).gave core proc k cap with mem }) hrep₃
          (fun tr htr => by
            simp only [Option.some.injEq] at htr
            rw [← htr]
            exact hne)
          (Function.update_self ..) (hgrant _) hin₁
        have hto₄ : Path g s.ledger _ := hto₃.trans hpath₄
        have hto₅ : Path g s.ledger _ := hto₄.tail (Act.table (TableAct.child rfl hne
          (Function.update_self ..) hlender hin₂))
        have hrep₅ := Rep.grants
          (s := { ({ s with ipc } : Kernel).gave core proc k cap with
            mem := mem, ipc := (({ s with ipc } : Kernel).gave core proc k cap).ipc.noteCapAdded
              ⟨.endpoint ep, rightSend, none⟩ })
          (x := { spawnProcess with l4 }.setCaps t₁)
          (c := spawnLoan cap (s.procs.currentSlot core) k) (u := none) hrep₄
          (Function.update_self ..) (CapTable.install_ok hin₂).1 rfl rfl
        obtain ⟨P, hpath₆, hle, hrep₆⟩ := mintHandle_path (g := g) _
          hrep₅ (Procs.setCurrent_current_self ..) rfl (Function.update_self ..) (hgrant _)
        refine ⟨⟨_, hto₅.trans hpath₆, hrep₆, ⟨rfl, rfl, rfl, rfl, rfl, rfl, rfl⟩⟩,
          settled_of_rep (b := true) hrep₆ rfl fun _ => lt_of_lt_of_le ?_ (hle _)⟩
        exact liveTotal_pos.mpr ⟨id, { spawnProcess with l4 }.setCaps t₂, k₁, _,
          Function.update_self ..,
          (CapTable.install_ok hin₂).1.keeps (CapTable.install_ok hin₁).1.slot_self,
          by rw [objWeight, if_pos rfl]; exact Nat.one_pos⟩

theorem spawnScheduled_spawns (h : s.Good) (hc : s.procs.current core = some proc)
    (image : Option Image) (slot : Nat)
    (hgive : ∀ v p k f, v.Like s.ledger → s.spawnTransfer core image slot = some (p, k, f) →
      g.give v p k f)
    (hgrant : ∀ id rights, g.grant ⟨.endpoint id, rights, none⟩) :
    s.Spawns g (s.spawnScheduled core image slot).2 := by
  unfold spawnScheduled
  split
  · exact ⟨h.refines_self, s.settled_self⟩
  · rename_i ep ipc hcreate
    dsimp only
    rcases takeForSpawn_cases { s with ipc } slot hc with hnone | ⟨k, cap, rfl, hk, htake⟩
    · rw [hnone]
      dsimp only [Option.map_none]
      obtain ⟨hfail, hdone⟩ := spawnAlone_refines h hc hcreate image (hgrant ep) rfl
      split
      · rename_i s' hspawn
        rw [show ({ s with ipc } : Kernel).schedSpawn image [⟨.endpoint ep, rightSend, none⟩]
          = (none, s') from hspawn] at hfail
        exact hfail rfl
      · rename_i id s' hspawn
        rw [show ({ s with ipc } : Kernel).schedSpawn image [⟨.endpoint ep, rightSend, none⟩]
          = (some id, s') from hspawn] at hdone
        exact hdone (Option.some_ne_none id)
    · have htransfer : s.spawnTransfer core image k = some (s.procs.currentSlot core, k,
          spawnFate ((({ s with ipc } : Kernel).gave core proc k cap).schedSpawn image
            [⟨.endpoint ep, rightSend, none⟩,
              spawnLoan cap (s.procs.currentSlot core) k]).1) := by
        unfold spawnTransfer spawnFate
        rw [hcreate, hc, capSlot?_val]
        dsimp only
        rw [hk, htake]
        rfl
      rw [htake]
      dsimp only [Option.map_some]
      obtain ⟨hfail, hdone⟩ := spawnLending_refines h hc hk hcreate image (hgrant ep) rfl
        fun v hv => hgive v _ _ _ hv htransfer
      split
      · rename_i s' hspawn
        rw [show (({ s with ipc } : Kernel).gave core proc k cap).schedSpawn image
          [⟨.endpoint ep, rightSend, none⟩, spawnLoan cap (s.procs.currentSlot core) k]
            = (none, s') from hspawn] at hfail
        exact hfail rfl
      · rename_i id s' hspawn
        rw [show (({ s with ipc } : Kernel).gave core proc k cap).schedSpawn image
          [⟨.endpoint ep, rightSend, none⟩, spawnLoan cap (s.procs.currentSlot core) k]
            = (some id, s') from hspawn] at hdone
        exact hdone (Option.some_ne_none id)

theorem sysSpawn_spawns (h : s.Good) (hc : s.procs.current core = some proc)
    (binary : Option (Option Image)) (slot : Nat)
    (hg : s.Permits g (.spawn core binary slot)) :
    s.Spawns g (s.sysSpawn core binary slot).2 := by
  unfold sysSpawn
  split
  · exact ⟨h.refines_self, s.settled_self⟩
  · rename_i image
    exact spawnScheduled_spawns h hc image slot (fun v p k f hv ht => hg.give v p k f hv ht)
      fun id rights => hg.grant _ ⟨id, rights, rfl⟩

theorem sysSpawnFromBuffer_spawns (h : s.Good) (hc : s.procs.current core = some proc)
    (bufVa len : Nat) (image : Option Image) (slot : Nat)
    (hg : s.Permits g (.spawnFromBuffer core bufVa len image slot)) :
    s.Spawns g (s.sysSpawnFromBuffer core bufVa len image slot).2 := by
  unfold sysSpawnFromBuffer
  split
  · exact ⟨h.refines_self, s.settled_self⟩
  · rw [hc]
    dsimp only
    split
    · exact spawnScheduled_spawns h hc image slot (fun v p k f hv ht => hg.give v p k f hv ht)
        fun id rights => hg.grant _ ⟨id, rights, rfl⟩
    · exact ⟨h.refines_self, s.settled_self⟩

/-- The boot code creates an endpoint. -/
theorem createEndpoint_refines (h : s.Good) {id : EndpointId} {ipc : Ipc}
    (hcreate : s.ipc.createEndpoint = some (id, ipc)) : s.Refines g { s with ipc } := by
  obtain ⟨-, hpath, hrep⟩ := createEndpoint_path (g := g) h.rep h.base rfl hcreate
  exact ⟨_, hpath, hrep, ⟨rfl, rfl, rfl, rfl, rfl, rfl, rfl⟩⟩

end Kernel

end Plinth
