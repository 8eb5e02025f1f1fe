import Plinth.Ledger.Endpoints

/-!
# `Plinth.Ledger.Peers`: the waiters of an endpoint have peers

A waiter at an endpoint waits for a process that can use the other side of it. `Peered` says that
a live capability for the other side exists, as long as somebody waits.

The capabilities of a process that is being reclaimed count until its waiters are woken
(`Ledger.doomed`). One action can take the last peer away: the release of an endpoint capability.
`Guard.KeepsPeers` excludes that, and then every action keeps `Peered`.
-/

set_option autoImplicit false

namespace Plinth

namespace Ledger

/-- The weight of the capabilities that count as peers. -/
def backing (v : Ledger) (w : Capability → Nat) : Nat :=
  liveTotal w v.proc + transitTotal w v.transit + if v.doomed then 0 else listTotal w v.held

/-- Every endpoint with a waiter has a capability for the other side. -/
def Peered (v : Ledger) : Prop :=
  ∀ id, v.queue id ≠ [] → 0 < v.backing (reachWeight id (peerRight (v.sendersWait id)))

end Ledger

/-- A release does not take the last peer of a waiter. -/
def Guard.KeepsPeers (g : Guard) : Prop :=
  ∀ v p k proc cap id, g.take v p k → v.proc p = some proc → proc.caps.slots k = some cap →
    cap.object = .endpoint id → v.doomed = false ∧ (v.queue id ≠ [] →
      reachWeight id (peerRight (v.sendersWait id)) cap
        < v.total (reachWeight id (peerRight (v.sendersWait id))))

variable {g : Guard} {v v' : Ledger} {w : Capability → Nat} {id : EndpointId} {right : Rights}

theorem Ledger.backing_of_calm (h : v.doomed = false) (w : Capability → Nat) :
    v.backing w = v.total w := by
  simp only [Ledger.backing, Holdings.total, h, Bool.false_eq_true, if_false]
  omega

/-- The waiters stay where they are, or some of them leave, and no peer goes. -/
theorem Ledger.Peered.of_le (h : v.Peered)
    (hqueue : ∀ id, v'.queue id ≠ [] → v.queue id ≠ [] ∧ v'.sendersWait id = v.sendersWait id)
    (hle : ∀ id right, v.backing (reachWeight id right) ≤ v'.backing (reachWeight id right)) :
    v'.Peered := by
  intro id hne
  obtain ⟨hold, hside⟩ := hqueue id hne
  rw [hside]
  exact lt_of_lt_of_le (h id hold) (hle id _)

/-- The queues stay, and no peer goes. -/
theorem Ledger.Peered.same_queue (h : v.Peered) (hqueue : v'.queue = v.queue)
    (hside : v'.sendersWait = v.sendersWait)
    (hle : ∀ id right, v.backing (reachWeight id right) ≤ v'.backing (reachWeight id right)) :
    v'.Peered :=
  h.of_le (fun id hne => ⟨by rwa [hqueue] at hne, by rw [hside]⟩) hle

/-- A live process gets a capability. -/
theorem Ledger.Peered.place (h : v.Peered) {p : ProcSlot} {proc : Process} {cap : Capability}
    {k : CapSlot} {t : CapTable} (hp : v.proc p = some proc)
    (hin : CapTable.Places proc.caps cap k t) (hqueue : v'.queue = v.queue)
    (hside : v'.sendersWait = v.sendersWait)
    (hproc : v'.proc = Function.update v.proc p (some (proc.setCaps t)))
    (htransit : v'.transit = v.transit) (hdoomed : v'.doomed = v.doomed)
    (hheld : v'.held = v.held) : v'.Peered := by
  refine h.same_queue hqueue hside fun id right => ?_
  have hput := liveTotal_places (reachWeight id right) hp hin
  simp only [Ledger.backing, hproc, htransit, hdoomed, hheld, hput]
  omega

/-- A capability for something else is no peer. -/
theorem reachWeight_of_ne {cap : Capability} (h : cap.object ≠ .endpoint id) (right : Rights) :
    reachWeight id right cap = 0 := by
  have hle := reachWeight_le id right cap
  rw [objWeight_of_ne h] at hle
  omega

/-- A held capability for something else goes. -/
theorem Ledger.Peered.drop (h : v.Peered) {cap : Capability} {rest : List Capability}
    (hheld : v.held = cap :: rest) (hobj : ∀ id, cap.object ≠ .endpoint id)
    (hqueue : v'.queue = v.queue) (hside : v'.sendersWait = v.sendersWait)
    (hproc : v'.proc = v.proc) (htransit : v'.transit = v.transit)
    (hdoomed : v'.doomed = v.doomed) (hrest : v'.held = rest) : v'.Peered := by
  refine h.same_queue hqueue hside fun id right => ?_
  simp only [Ledger.backing, hproc, htransit, hdoomed, hheld, hrest, listTotal_cons,
    reachWeight_of_ne (hobj id), Nat.zero_add, le_refl]

/-- A table action holds no new endpoint capability. -/
theorem TableAct.held_reach {give : ProcSlot → CapSlot → Fate → Prop}
    {take : ProcSlot → CapSlot → Prop} {strand : Capability → Prop} {h h' : Holdings}
    (act : TableAct give take strand h h') (id : EndpointId) (right : Rights) :
    listTotal (reachWeight id right) h'.held ≤ listTotal (reachWeight id right) h.held := by
  cases act with
  | @take p proc k cap hp hk hkind hnone hdying hfirst hg =>
    have hobj : cap.object ≠ .endpoint id := by
      intro heq
      unfold Capability.isHoldable at hkind
      rw [heq] at hkind
      exact hkind
    simp [reachWeight_of_ne hobj]
  | home hheld ho hkind hp hnone hin => simp [hheld]
  | strand hheld ho hkind hp hfull hg => simp [hheld]
  | drop hheld hplain => simp [hheld]
  | reorder hperm => exact le_of_eq (listTotal_perm _ hperm)
  | _ => exact le_refl _

/-- A table action takes no peer away. -/
theorem TableAct.backing {give : ProcSlot → CapSlot → Fate → Prop}
    {take : ProcSlot → CapSlot → Prop} {strand : Capability → Prop} {h : Holdings}
    (act : TableAct give take strand v.toHoldings h) (hs : v.toHoldings.Sound)
    (id : EndpointId) (right : Rights) :
    v.backing (reachWeight id right)
      ≤ ({ v with toHoldings := h } : Ledger).backing (reachWeight id right) := by
  have htotal := act.total_reach hs id right
  have hheld := act.held_reach id right
  simp only [Ledger.backing, Holdings.total] at htotal ⊢
  split <;> omega

/-- The endpoint of a waiter stays in use when a capability for it leaves, so the side that
waits stays recorded. -/
theorem settle_side {ep : EndpointId} {n : Nat} {x : Holdings}
    (hholders : ({ v with toHoldings := x }.settle ep n).Holders) (hne : v.queue id ≠ []) :
    ({ v with toHoldings := x }.settle ep n).sendersWait id = v.sendersWait id := by
  obtain ⟨p, hp⟩ := List.exists_mem_of_ne_nil _ hne
  have huse := (hholders id p hp).1
  unfold Ledger.settle at huse ⊢
  dsimp only at huse ⊢
  by_cases hid : id = ep
  · subst hid
    rw [Function.update_self, Bool.and_eq_true] at huse
    rw [Function.update_self, huse.2, Bool.and_true]
  · rw [Function.update_of_ne hid]

/-- A guard that keeps peers: every action keeps the waiters peered. -/
theorem Act.peered (act : Act g v v') (hbase : v.Base) (hg : g.KeepsPeers) (h : v.Peered) :
    v'.Peered := by
  have hholders := act.holders hbase.registered hbase.holders
  cases act with
  | table act => exact h.same_queue rfl rfl (act.backing hbase.sound)
  | grant hp hok hg hgiver hbound hin =>
    exact h.place hp (CapTable.install_ok hin).1 rfl rfl rfl rfl rfl rfl
  | mintFrame hp hframes hnone hin =>
    exact h.place hp (CapTable.install_ok hin).1 rfl rfl rfl rfl rfl rfl
  | mintRing hp hfree huse howner hwait hnone hsq hcq hmask hin hg =>
    exact h.place hp (CapTable.install_ok hin).1 rfl rfl rfl rfl rfl rfl
  | parkCall hstate hpq hq hnone hin hg =>
    exact h.place hq (CapTable.reclaim_some hin).1 rfl rfl rfl rfl rfl rfl
  | @mapFrame p proc k cap addr va flags maps hp hk hobj hrec =>
    refine h.same_queue rfl rfl fun id right => ?_
    have hput := liveTotal_put_same (w := reachWeight id right) hp (x := { proc with maps }) rfl
    simp only [Ledger.backing, hput, le_refl]
  | @mapFb p proc k cap _ _ _ _ _ _ f fbMaps sp hp hk hobj hslot hrec htables hleaves =>
    refine h.same_queue rfl rfl fun id right => ?_
    have hput := liveTotal_put_same (w := reachWeight id right) hp (x := { proc with fbMaps }) rfl
    simp only [Ledger.backing, hput, le_refl]
  | @create ep hfree hfirst =>
    refine h.of_le (fun id hne => ⟨hne, ?_⟩) fun _ _ => le_refl _
    have hid : id ≠ ep := by
      rintro rfl
      exact hne (hbase.holders.queue_nil hfree)
    exact Function.update_of_ne hid ..
  | @release ep hnone hnil =>
    refine h.of_le (fun id hne => ⟨hne, ?_⟩) fun _ _ => le_refl _
    have hid : id ≠ ep := by
      rintro rfl
      exact hne hnil
    exact Function.update_of_ne hid ..
  | @takeEndpoint p proc k cap ep n hp hk hobj hstate hnone hfirst htake hn =>
    intro id hne
    have hne' : v.queue id ≠ [] := hne
    obtain ⟨hcalm, hlast⟩ := hg v p k proc cap ep htake hp hk hobj
    have hcalm' : (({ v with
      proc := Function.update v.proc p (some (proc.setCaps (proc.caps.set k none)))
      spent := true } : Ledger).settle ep n).doomed = false := hcalm
    rw [settle_side hholders hne', Ledger.backing_of_calm hcalm']
    have hput := liveTotal_put (reachWeight id (peerRight (v.sendersWait id))) hp
      (proc.setCaps (proc.caps.set k none))
    have hrev := procWeight_revoke (reachWeight id (peerRight (v.sendersWait id))) hk
    have hpeer := h id hne'
    rw [Ledger.backing_of_calm hcalm] at hpeer
    by_cases hid : ep = id
    · -- The endpoint that the release concerns: the guard leaves a peer.
      subst hid
      have hless := hlast hne'
      simp only [Ledger.settle_toHoldings, Holdings.total] at hless ⊢
      omega
    · rw [reachWeight_of_ne (by rw [hobj]; simpa using hid)] at hrev
      simp only [Ledger.settle_toHoldings, Holdings.total] at hpeer ⊢
      omega
  | @dropEndpoint cap rest ep n hheld hobj hdoomed hn =>
    refine h.of_le (fun id hne => ⟨hne, settle_side hholders hne⟩) fun id right => ?_
    simp [Ledger.backing, Ledger.settle, hdoomed]
  | @parkQueue p proc ep k cap senders mail hp hk hcap hstate huse hside hpeer hmail hheld hg =>
    intro id hne
    by_cases hid : id = ep
    · subst hid
      have hsame : Function.update v.sendersWait id senders id = senders := Function.update_self ..
      simp only [Ledger.backing, Holdings.total, hheld, listTotal_nil, hsame] at hpeer ⊢
      split <;> omega
    · have hsame : Function.update v.sendersWait ep senders id = v.sendersWait id :=
        Function.update_of_ne hid ..
      dsimp only at hne
      rw [Function.update_of_ne hid] at hne
      simp only [hsame]
      exact h id hne
  | @dequeue p ep rest hqueue =>
    refine h.of_le (fun id hne => ⟨?_, rfl⟩) fun _ _ => le_refl _
    by_cases hid : id = ep
    · subst hid
      rw [hqueue]
      exact List.cons_ne_nil _ _
    · dsimp only at hne
      rwa [Function.update_of_ne hid] at hne
  | @receiveCall p q ep rest proc k t hqueue hside hcall hq hnone hin hserve =>
    refine h.of_le (fun id hne => ⟨?_, rfl⟩) fun id right => ?_
    · by_cases hid : id = ep
      · subst hid
        rw [hqueue]
        exact List.cons_ne_nil _ _
      · dsimp only at hne
        rwa [Function.update_of_ne hid] at hne
    · have hput := liveTotal_places (reachWeight id right) hq (CapTable.reclaim_some hin).1
      simp only [Ledger.backing, hput]
      omega
  | dropRing hheld hobj =>
    exact h.drop hheld (by rw [hobj]; intro id heq; cases heq) rfl rfl rfl rfl rfl rfl
  | dropFrame hheld hobj =>
    exact h.drop hheld (by rw [hobj]; intro id heq; cases heq) rfl rfl rfl rfl rfl rfl
  | dropReply hheld hobj =>
    exact h.drop hheld (by rw [hobj]; intro id heq; cases heq) rfl rfl rfl rfl rfl rfl
  | @takeBound p proc k cap dev hp hk hobj hstate hnone hfirst hg =>
    refine h.same_queue rfl rfl fun id right => ?_
    have hput := liveTotal_put (reachWeight id right) hp (proc.setCaps (proc.caps.set k none))
    have hrev := procWeight_revoke (reachWeight id right) hk
    rw [reachWeight_of_ne (by rw [hobj]; intro heq; cases heq)] at hrev
    simp only [Ledger.backing]
    omega
  | @leave p proc hp hstate hheld hdying htransit hcalm hg =>
    refine h.same_queue rfl rfl fun id right => ?_
    have hrem := liveTotal_remove (reachWeight id right) hp
    simp only [Ledger.backing, hcalm, hheld, Bool.false_eq_true, if_false, listTotal_iter,
      listTotal_nil]
    omega
  | @doom hlast =>
    intro id hne
    have hpeer := h id hne
    have hlive := hlast id hne
    simp only [Ledger.backing, if_true] at hpeer ⊢
    split at hpeer
    · omega
    · by_cases hzero : 0 < listTotal (reachWeight id (peerRight (v.sendersWait id))) v.held
      · have hpos := hlive hzero
        omega
      · omega
  | calm hheld =>
    refine h.same_queue rfl rfl fun id right => ?_
    simp only [Ledger.backing, hheld, listTotal_nil, ite_self, le_refl]
  | @enter p proc boot rest spaces k budget rights hp hstate hcaps hspaces hframes hdying =>
    refine h.same_queue rfl rfl fun id right => ?_
    have hadd := liveTotal_add (reachWeight id right) hp proc
    simp only [Ledger.backing]
    omega
  | _ => exact h

/-! ### Entries that take no endpoint capability away -/

/-- The guard reclaims no process, and no release takes an endpoint capability. -/
structure Guard.KeepsEndpoints (g : Guard) : Prop where
  leave : ∀ v p, ¬ g.leave v p
  take : ∀ v p k proc cap, g.take v p k → v.proc p = some proc → proc.caps.slots k = some cap →
    ∀ id, cap.object ≠ .endpoint id

/-- No endpoint capability is held. -/
def Ledger.HoldsNoEndpoint (v : Ledger) : Prop :=
  ∀ cap ∈ v.held, ∀ id, cap.object ≠ .endpoint id

theorem TableAct.holdsNoEndpoint {give : ProcSlot → CapSlot → Fate → Prop}
    {take : ProcSlot → CapSlot → Prop} {strand : Capability → Prop} {h : Holdings}
    (act : TableAct give take strand v.toHoldings h) (hnone : v.HoldsNoEndpoint) :
    ({ v with toHoldings := h } : Ledger).HoldsNoEndpoint := by
  have hrest : ∀ {cap : Capability} {rest : List Capability}, v.held = cap :: rest →
      ∀ c ∈ rest, ∀ id, c.object ≠ .endpoint id := by
    intro cap rest hheld c hc
    exact hnone c (by rw [hheld]; exact List.mem_cons_of_mem _ hc)
  cases act with
  | @take p proc k cap hp hk hkind hnone' hdying hfirst hg =>
    intro c hc id heq
    rcases List.mem_cons.mp hc with rfl | hold
    · unfold Capability.isHoldable at hkind
      rw [heq] at hkind
      exact hkind
    · exact hnone c hold id heq
  | home hheld ho hkind hp hnone' hin => exact hrest hheld
  | strand hheld ho hkind hp hfull hg => exact hrest hheld
  | drop hheld hplain => exact hrest hheld
  | reorder hperm => exact fun c hc => hnone c (hperm.mem_iff.mp hc)
  | _ => exact hnone

/-- An action that takes no endpoint capability away: none of them goes. -/
theorem Act.keeps_endpoints (act : Act g v v') (hs : v.toHoldings.Sound)
    (hg : g.KeepsEndpoints) (hnone : v.HoldsNoEndpoint) :
    v'.HoldsNoEndpoint ∧
      ∀ id right, v.total (reachWeight id right) ≤ v'.total (reachWeight id right) := by
  have hdrop : ∀ {cap : Capability} {rest : List Capability}, v.held = cap :: rest →
      v'.held = rest → v'.proc = v.proc → v'.transit = v.transit → v'.HoldsNoEndpoint ∧
        ∀ id right, v.total (reachWeight id right) ≤ v'.total (reachWeight id right) := by
    intro cap rest hheld hrest hproc htransit
    refine ⟨fun c hc => hnone c ?_, fun id right => ?_⟩
    · rw [hrest] at hc
      rw [hheld]
      exact List.mem_cons_of_mem _ hc
    · have hobj := hnone cap (by rw [hheld]; exact List.mem_cons_self) id
      simp only [Holdings.total, hproc, htransit, hheld, hrest, listTotal_cons,
        reachWeight_of_ne hobj, Nat.zero_add, le_refl]
  have hput : ∀ {p : ProcSlot} {proc : Process} {cap : Capability} {k : CapSlot} {t : CapTable},
      v.proc p = some proc → CapTable.Places proc.caps cap k t →
      v'.proc = Function.update v.proc p (some (proc.setCaps t)) → v'.held = v.held →
      v'.transit = v.transit → v'.HoldsNoEndpoint ∧
        ∀ id right, v.total (reachWeight id right) ≤ v'.total (reachWeight id right) := by
    intro p proc cap k t hp hin hproc hheld htransit
    refine ⟨fun c hc => hnone c (by rwa [hheld] at hc), fun id right => ?_⟩
    have hput := liveTotal_places (reachWeight id right) hp hin
    simp only [Holdings.total, hproc, hheld, htransit, hput]
    omega
  cases act with
  | table act =>
    exact ⟨act.holdsNoEndpoint hnone, fun id right => le_of_eq (act.total_reach hs id right).symm⟩
  | grant hp hok hg hgiver hbound hin =>
    exact hput hp (CapTable.install_ok hin).1 rfl rfl rfl
  | mintFrame hp hframes hnone hin => exact hput hp (CapTable.install_ok hin).1 rfl rfl rfl
  | mintRing hp hfree huse howner hwait hnone hsq hcq hmask hin hg =>
    exact hput hp (CapTable.install_ok hin).1 rfl rfl rfl
  | parkCall hstate hpq hq hnone hin hg => exact hput hq (CapTable.reclaim_some hin).1 rfl rfl rfl
  | receiveCall hqueue hside hcall hq hnone hin hserve =>
    exact hput hq (CapTable.reclaim_some hin).1 rfl rfl rfl
  | @mapFrame p proc k cap addr va flags maps hp hk hobj hrec =>
    refine ⟨hnone, fun id right => ?_⟩
    have hsame := liveTotal_put_same (w := reachWeight id right) hp (x := { proc with maps }) rfl
    simp only [Holdings.total, hsame, le_refl]
  | @mapFb p proc k cap _ _ _ _ _ _ f fbMaps sp hp hk hobj hslot hrec htables hleaves =>
    refine ⟨hnone, fun id right => ?_⟩
    have hsame := liveTotal_put_same (w := reachWeight id right) hp (x := { proc with fbMaps }) rfl
    simp only [Holdings.total, hsame, le_refl]
  | takeEndpoint hp hk hobj hstate hnone hfirst htake hn =>
    exact absurd hobj (hg.take _ _ _ _ _ htake hp hk _)
  | @takeBound p proc k cap dev hp hk hobj hstate hnone' hfirst htake =>
    refine ⟨hnone, fun id right => ?_⟩
    have hput := liveTotal_put (reachWeight id right) hp (proc.setCaps (proc.caps.set k none))
    have hrev := procWeight_revoke (reachWeight id right) hk
    rw [reachWeight_of_ne (by rw [hobj]; intro heq; cases heq)] at hrev
    simp only [Holdings.total]
    omega
  | dropEndpoint hheld hobj hdoomed hn => exact hdrop hheld rfl rfl rfl
  | dropRing hheld hobj => exact hdrop hheld rfl rfl rfl
  | dropFrame hheld hobj => exact hdrop hheld rfl rfl rfl
  | dropReply hheld hobj => exact hdrop hheld rfl rfl rfl
  | leave hp hstate hheld hdying htransit hcalm hleave => exact absurd hleave (hg.leave _ _)
  | @enter p proc boot rest spaces k budget rights hp hstate hcaps hspaces hframes hdying =>
    refine ⟨hnone, fun id right => ?_⟩
    have hadd := liveTotal_add (reachWeight id right) hp proc
    simp only [Holdings.total]
    omega
  | _ => exact ⟨hnone, fun _ _ => le_refl _⟩

/-- A path that takes no endpoint capability away. -/
theorem Path.keeps_endpoints (path : Path g v v') (hbase : v.Base) (hg : g.KeepsEndpoints)
    (hnone : v.HoldsNoEndpoint) :
    v'.HoldsNoEndpoint ∧
      ∀ id right, v.total (reachWeight id right) ≤ v'.total (reachWeight id right) := by
  induction path with
  | refl => exact ⟨hnone, fun _ _ => le_refl _⟩
  | tail path act ih =>
    obtain ⟨hnone', hle⟩ := ih
    obtain ⟨hnone'', hle'⟩ := act.keeps_endpoints (Path.base path hbase).sound hg hnone'
    exact ⟨hnone'', fun id right => (hle id right).trans (hle' id right)⟩

end Plinth
