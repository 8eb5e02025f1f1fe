import Plinth.Refine.Calls
import Plinth.Refine.Permits

/-!
# `Plinth.Refine.Reclaim`: what becomes of a capability that was taken

A release and an exit take capabilities out of a table. A borrowed capability of a kind that
goes home is sent to its lender (`reclaimCapHome_path`). The others are settled by their kind
(`drainCap_path`), and the last capability that names an endpoint frees it.
-/

set_option autoImplicit false

namespace Plinth

variable {g : Guard} {v : Ledger} {s : Kernel} {gone : Option ProcSlot} {p : ProcSlot}
  {proc : Process} {k : CapSlot} {cap : Capability} {rest : List Capability} {id : EndpointId}

/-- The order of the held capabilities does not matter. -/
theorem Rep.reorder (hrep : Rep s gone v) {held : List Capability} (hperm : held.Perm v.held) :
    Rep s gone { v with held := held } := by
  refine ⟨hrep.procs, hrep.ipc.same fun id right => ?_, hrep.mem, hrep.rings, hrep.devs⟩
  unfold peers
  rw [listTotal_perm _ hperm]

/-! ### Capabilities that go home -/

theorem reclaimTarget_some {dyingSlot : ProcSlot} {o : Origin} {home : Capability}
    (h : reclaimTarget cap dyingSlot = some (o, home)) :
    cap.origin = some o ∧ isReclaimableKind cap.object = true ∧
      home = { cap with origin := none } := by
  unfold reclaimTarget at h
  split at h
  · rename_i origin haction
    simp only [Option.some.injEq, Prod.mk.injEq] at h
    obtain ⟨rfl, rfl⟩ := h
    unfold releaseAction at haction
    split at haction
    · rename_i hkind horigin
      simp only [ReleaseAction.reclaimTo.injEq] at haction
      subst haction
      refine ⟨horigin, hkind, ?_⟩
      unfold Capability.lentTo
      rw [horigin]
      dsimp only
      rw [if_pos rfl]
    · unfold CapObject.dropAction at haction
      split at haction <;> cases haction
  · cases h

theorem releaseAction_reclaimTo {o : Origin} :
    releaseAction cap = .reclaimTo o ↔ isReclaimableKind cap.object = true ∧
      cap.origin = some o := by
  unfold releaseAction
  constructor
  · intro h
    split at h
    · rename_i hkind horigin
      simp only [ReleaseAction.reclaimTo.injEq] at h
      exact ⟨hkind, by rw [horigin, h]⟩
    · unfold CapObject.dropAction at h
      split at h <;> cases h
  · rintro ⟨hkind, horigin⟩
    rw [hkind, horigin]

theorem reclaimTarget_none {dyingSlot : ProcSlot} (h : reclaimTarget cap dyingSlot = none) :
    isReclaimableKind cap.object = true → cap.origin = none := by
  intro hkind
  by_contra hne
  obtain ⟨o, ho⟩ := Option.ne_none_iff_exists'.mp hne
  unfold reclaimTarget at h
  rw [releaseAction_reclaimTo.mpr ⟨hkind, ho⟩] at h
  cases h

/-- A capability that does not go home follows its kind. -/
theorem releaseAction_of_home (h : isReclaimableKind cap.object = true → cap.origin = none) :
    releaseAction cap = cap.object.dropAction := by
  unfold releaseAction
  split
  · rename_i hkind horigin
    rw [h hkind] at horigin
    cases horigin
  · rfl

theorem not_endpoint_of_reclaimable (h : isReclaimableKind cap.object = true)
    (id : EndpointId) : cap.object ≠ .endpoint id := by
  intro heq
  rw [heq] at h
  cases h

theorem reachWeight_of_reclaimable (h : isReclaimableKind cap.object = true)
    (id : EndpointId) (right : Rights) : reachWeight id right cap = 0 :=
  Ipc.reachWeight_of_ne right (not_endpoint_of_reclaimable h id)

/-- A held capability that weighs nothing leaves the held ones. -/
theorem peers_held_cons {P : ProcSlot → Option Process} {right : Rights}
    (h : reachWeight id right cap = 0) :
    peers P (cap :: rest) id right = peers P rest id right := by
  unfold peers
  rw [listTotal_cons, h, Nat.zero_add]

theorem Kernel.reclaimCapHome_full {o : Origin} {home : Capability}
    (h : s.procs.withLenderCaps o.lender (fun t => t.goHome o.home home) = some none) :
    s.reclaimCapHome cap o home = (.lenderFull, s) := by
  unfold Kernel.reclaimCapHome
  split
  · rename_i heq
    cases heq.symm.trans h
  · rfl
  · rename_i heq
    cases heq.symm.trans h

theorem Kernel.reclaimCapHome_landed {o : Origin} {home : Capability} {landing : CapSlot}
    {P : Procs}
    (h : s.procs.withLenderCaps o.lender (fun t => t.goHome o.home home) =
      some (some (landing, P))) :
    s.reclaimCapHome cap o home = (.landed landing,
      { s with procs := P, ipc := (s.ipc.noteCapRemoved cap false).noteCapAdded home }) := by
  unfold Kernel.reclaimCapHome
  split
  · rename_i heq
    cases heq.symm.trans h
  · rename_i heq
    cases heq.symm.trans h
  · rename_i heq
    cases heq.symm.trans h
    rfl

/-- A borrowed capability goes home, or its lender has no room. -/
theorem reclaimCapHome_path (hrep : Rep s gone v) (hbase : v.Base) (htransit : v.transit = none)
    (hheld : v.held = cap :: rest) {dyingSlot : ProcSlot} {o : Origin} {home : Capability}
    (htarget : reclaimTarget cap dyingSlot = some (o, home)) :
    (∃ landing proc', (s.reclaimCapHome cap o home).1 = .landed landing ∧
      Path g v { v with proc := Function.update v.proc o.lender (some proc'), held := rest } ∧
      Rep (s.reclaimCapHome cap o home).2 gone
        { v with proc := Function.update v.proc o.lender (some proc'), held := rest }) ∨
    (s.homeless cap = true ∧ (s.reclaimCapHome cap o home).1 = .lenderFull ∧
      (s.reclaimCapHome cap o home).2 = s ∧
      (g.strand v cap → Path g v { v with held := rest }) ∧
        Rep s gone { v with held := rest }) := by
  obtain ⟨ho, hkind, rfl⟩ := reclaimTarget_some htarget
  have hlive : v.proc o.lender ≠ none :=
    hbase.sound.held cap (by rw [hheld]; exact List.mem_cons_self) o ho
  obtain ⟨proc, hproc⟩ := Option.ne_none_iff_exists'.mp hlive
  have hcount : ∀ (P : ProcSlot → Option Process) (id : EndpointId) (right : Rights),
      peers P rest id right = peers P v.held id right := by
    intro P id right
    rw [hheld, peers_held_cons (reachWeight_of_reclaimable hkind id right)]
  have hproc' : s.procs.proc o.lender = some proc := by rw [← hrep.procs.proc_eq, hproc]
  rcases Procs.withLenderCaps_eq_some hrep.procs.placed hproc'
      (f := fun t => t.goHome o.home { cap with origin := none }) with
    ⟨hnone, hlender⟩ | ⟨landing, t, P', hin, hlender, hw⟩
  · right
    rw [Kernel.reclaimCapHome_full hlender]
    refine ⟨?_, rfl, rfl, fun hg => ?_, ?_⟩
    · unfold Kernel.homeless
      rw [hkind, ho]
      dsimp only
      rw [hproc']
      dsimp only
      rw [hnone]
      rfl
    · exact Relation.ReflTransGen.single
        (Act.table (TableAct.strand hheld ho hkind hproc hnone hg))
    · exact ⟨hrep.procs, hrep.ipc.same (hcount v.proc), hrep.mem, hrep.rings, hrep.devs⟩
  · left
    have hne := not_endpoint_of_reclaimable hkind
    have hipc : (s.ipc.noteCapRemoved cap false).noteCapAdded { cap with origin := none }
        = s.ipc := by
      rw [Ipc.noteCapRemoved_of_ne _ _ hne]
      exact Ipc.noteCapAdded_of_ne _ hne
    rw [Kernel.reclaimCapHome_landed hlender, hipc]
    obtain ⟨hplaces, -⟩ := CapTable.goHome_some hin
    refine ⟨landing, proc.setCaps t, rfl, ?_, ?_⟩
    · exact Relation.ReflTransGen.single
        (Act.table (TableAct.home hheld ho hkind hproc htransit hin))
    · refine ⟨hrep.procs.write hlive hw, hrep.ipc.same fun id right => ?_, hrep.mem, hrep.rings,
        hrep.devs⟩
      rw [hcount]
      unfold peers
      rw [liveTotal_places _ hproc hplaces]
      have hzero := reachWeight_of_reclaimable hkind id right
      have hsame : reachWeight id right { cap with origin := none } = reachWeight id right cap :=
        (reachWeight_steady id right).origin cap none
      rw [hsame, hzero, Nat.add_zero]

/-! ### Endpoint capabilities -/

/-- An endpoint capability is a sender or a receiver. -/
theorem named_iff (hbase : v.Base) (htransit : v.transit = none) :
    v.total (objWeight (.endpoint id)) = 0 ↔
      peers v.proc v.held id rightSend = 0 ∧ peers v.proc v.held id rightRecv = 0 := by
  have htotal : ∀ w, v.total w = liveTotal w v.proc + listTotal w v.held := by
    intro w
    unfold Holdings.total
    rw [htransit, transitTotal_none, Nat.add_zero]
  have hsend := Holdings.total_mono (reachWeight_le id rightSend) v.toHoldings
  have hrecv := Holdings.total_mono (reachWeight_le id rightRecv) v.toHoldings
  have hle : ∀ cap, objWeight (.endpoint id) cap
      ≤ (reachWeight id rightSend cap + reachWeight id rightRecv cap) + strayWeight v.inUse
        cap := by
    intro cap
    by_cases hobj : cap.object = .endpoint id
    · rw [Ipc.reachWeight_of_object _ hobj, Ipc.reachWeight_of_object _ hobj]
      unfold objWeight strayWeight
      rw [hobj]
      dsimp only
      rw [if_pos rfl]
      by_cases hs : cap.rights.has rightSend = true
      · rw [if_pos hs]
        omega
      · by_cases hr : cap.rights.has rightRecv = true
        · rw [if_pos hr]
          omega
        · rw [if_neg hs, if_neg hr, if_neg (fun hand => hand.2.elim hs hr)]
    · rw [objWeight_of_ne hobj]
      omega
  have hsum := Holdings.total_mono hle v.toHoldings
  rw [Holdings.total_sum, Holdings.total_sum] at hsum
  have hstray : v.total (strayWeight v.inUse) = 0 := hbase.noStray
  unfold peers
  rw [htotal] at hsend hrecv
  rw [htotal (reachWeight id rightSend), htotal (reachWeight id rightRecv)] at hsum
  omega

/-- The counts after an endpoint capability has left for good. -/
theorem Rep.settles (hrep : Rep s gone v) {v' : Ledger} (hbase : v'.Base)
    (htransit : v'.transit = none) (hobj : cap.object = .endpoint id)
    (hqueue : v'.queue = v.queue)
    (hcount : ∀ id right, peers v'.proc v'.held id right + reachWeight id right cap
      = peers v.proc v.held id right) :
    IpcRep (s.ipc.noteCapRemoved cap true) v.queue
      (Function.update v.sendersWait id (v.sendersWait id &&
        decide (0 < v'.total (objWeight (.endpoint id)))))
      (Function.update v.inUse id (v.inUse id &&
        decide (0 < v'.total (objWeight (.endpoint id))))) v'.proc v'.held := by
  refine hrep.ipc.settled hobj hcount (named_iff hbase htransit) fun hzero => ?_
  rw [← hqueue]
  by_contra hne
  obtain ⟨q, hq⟩ := List.exists_mem_of_ne_nil _ hne
  have hnamed := hbase.holders.named hq
  have hle :
    liveTotal (objWeight (.endpoint id)) v'.proc ≤ v'.total (objWeight (.endpoint id)) := by
    unfold Holdings.total
    omega
  omega

/-! ### The other capabilities -/

/-- What the drain of one held capability changes in the ledger. -/
def Drains (g : Guard) (gone : Option ProcSlot) (v : Ledger) (rest : List Capability)
    (s' : Kernel) : Prop :=
  ∃ mem rings inUse sendersWait,
    Path g v { v with
      held := rest, mem := mem, rings := rings, inUse := inUse, sendersWait := sendersWait } ∧
    Rep s' gone { v with
      held := rest, mem := mem, rings := rings, inUse := inUse, sendersWait := sendersWait }

/-- A capability of a plain kind is dropped. -/
theorem drop_drains (hrep : Rep s gone v) (hheld : v.held = cap :: rest) (hplain : cap.isPlain)
    (hobj : ∀ id, cap.object ≠ .endpoint id) : Drains g gone v rest s := by
  refine ⟨v.mem, v.rings, v.inUse, v.sendersWait,
    Relation.ReflTransGen.single (Act.table (TableAct.drop hheld hplain)), hrep.procs,
    hrep.ipc.same fun id right => ?_, hrep.mem, hrep.rings, hrep.devs⟩
  rw [hheld, peers_held_cons (Ipc.reachWeight_of_ne right (hobj id))]

/-- A frame is given back to the allocator. -/
theorem dropFrame_drains (hrep : Rep s gone v) (hheld : v.held = cap :: rest) {a : Nat}
    (hobj : cap.object = .frame a) : Drains g gone v rest (s.setFa (s.mem.fa.giveBack a)) := by
  have hpath : Path g v { v with
      held := rest, mem := { v.mem with fa := v.mem.fa.giveBack a } } :=
    (Relation.ReflTransGen.single (Act.dropFrame hheld hobj)).tail
      (Act.mem (MemAct.giveBack rfl))
  refine ⟨_, v.rings, v.inUse, v.sendersWait, hpath, hrep.procs,
    hrep.ipc.same fun id right => ?_, ?_, hrep.rings, hrep.devs⟩
  · rw [hheld,
      peers_held_cons (Ipc.reachWeight_of_ne right (by rw [hobj]; exact fun h => by cases h))]
  · dsimp only
    rw [hrep.mem]
    rfl

/-- A ring is released. -/
theorem dropRing_drains (hrep : Rep s gone v) (hheld : v.held = cap :: rest) {id : RingId}
    (hobj : cap.object = .ring id) :
    Drains g gone v rest { s with rings := s.rings.release id } := by
  refine ⟨v.mem, Function.update v.rings id Ring.empty, v.inUse, v.sendersWait,
    Relation.ReflTransGen.single (Act.dropRing hheld hobj), hrep.procs,
    hrep.ipc.same fun id right => ?_, hrep.mem, ?_, hrep.devs⟩
  · rw [hheld,
      peers_held_cons (Ipc.reachWeight_of_ne right (by rw [hobj]; exact fun h => by cases h))]
  · dsimp only
    rw [hrep.rings]
    rfl

/-- A held endpoint capability is dropped. -/
theorem dropEndpoint_drains (hrep : Rep s gone v) (hbase : v.Base) (htransit : v.transit = none)
    (hheld : v.held = cap :: rest) (hobj : cap.object = .endpoint id)
    (hdoomed : v.doomed = true) :
    Drains g gone v rest { s with ipc := s.ipc.noteCapRemoved cap true } := by
  have htotal : ({ v with held := rest } : Ledger).total (objWeight (.endpoint id)) + 1
      = v.total (objWeight (.endpoint id)) := by
    unfold Holdings.total
    rw [hheld, listTotal_cons, ← hobj, objWeight_self]
    dsimp only
    omega
  have hact := Act.dropEndpoint (g := g) hheld hobj hdoomed htotal
  have hbase' := hact.base hbase
  have hsettle := hrep.settles hbase'
    htransit hobj rfl fun id' right => by
      change peers v.proc rest id' right + _ = _
      unfold peers
      rw [hheld, listTotal_cons]
      omega
  exact ⟨v.mem, v.rings, _, _, Relation.ReflTransGen.single hact, hrep.procs, hsettle, hrep.mem,
    hrep.rings, hrep.devs⟩

/-- One step of the drain, for a capability that neither goes home nor is a reply
capability. -/
theorem drainCap_path (hrep : Rep s gone v) (hbase : v.Base) (htransit : v.transit = none)
    (hheld : v.held = cap :: rest)
    (hhome : isReclaimableKind cap.object = true → cap.origin = none)
    (hreply : ∀ c, cap.object ≠ .reply c)
    (hdoomed : ∀ id, cap.object = .endpoint id → v.doomed = true) :
    Drains g gone v rest (s.drainCap cap) := by
  unfold Kernel.drainCap
  rw [releaseAction_of_home hhome]
  unfold CapObject.dropAction
  cases hobj : cap.object with
  | frame a => exact dropFrame_drains hrep hheld hobj
  | ring id => exact dropRing_drains hrep hheld hobj
  | endpoint id => exact dropEndpoint_drains hrep hbase htransit hheld hobj (hdoomed id hobj)
  | reply c => exact absurd hobj (hreply c)
  | framebuffer b w h st bpp f =>
    exact drop_drains hrep hheld ⟨hhome, by rw [hobj]; trivial⟩ fun id h => by
      rw [hobj] at h
      cases h
  | cpuTime b =>
    exact drop_drains hrep hheld ⟨hhome, by rw [hobj]; trivial⟩ fun id h => by
      rw [hobj] at h
      cases h
  | blockRange d st n =>
    exact drop_drains hrep hheld ⟨hhome, by rw [hobj]; trivial⟩ fun id h => by
      rw [hobj] at h
      cases h
  | eventSource n =>
    exact drop_drains hrep hheld ⟨hhome, by rw [hobj]; trivial⟩ fun id h => by
      rw [hobj] at h
      cases h
  | boundDevice d =>
    exact drop_drains hrep hheld ⟨hhome, by rw [hobj]; trivial⟩ fun id h => by
      rw [hobj] at h
      cases h

end Plinth
