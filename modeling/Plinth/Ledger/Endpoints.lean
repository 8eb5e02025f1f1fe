import Plinth.Ledger.Keys

/-!
# `Plinth.Ledger.Endpoints`: endpoint capabilities and the waiters at endpoints

`NoStray`: every capability for an endpoint names an endpoint in use, and can send or receive.
`Holders`: every waiter at an endpoint holds a capability for its side, so an endpoint with
waiters is named by some capability.

`Base` collects the invariants that the other results rest on, and `Path.base` says that every
path keeps them.
-/

set_option autoImplicit false

namespace Plinth

/-! ### Stray endpoint capabilities -/

/-- The capability names an endpoint that is not in use, or it can neither send nor receive. -/
def strayWeight (inUse : EndpointId → Bool) (cap : Capability) : Nat :=
  match cap.object with
  | .endpoint id =>
    if inUse id = true ∧ (cap.rights.has rightSend = true ∨ cap.rights.has rightRecv = true)
    then 0 else 1
  | _ => 0

/-- No capability anywhere is stray. -/
def Ledger.NoStray (v : Ledger) : Prop := v.total (strayWeight v.inUse) = 0

theorem strayWeight_steady (inUse : EndpointId → Bool) : Steady (strayWeight inUse) := by
  refine ⟨fun cap origin => rfl, fun cap budget hobj => ?_⟩
  unfold strayWeight
  rw [hobj]

theorem strayWeight_grantable {v : Ledger} {cap : Capability} (h : v.Grantable cap) :
    strayWeight v.inUse cap = 0 := by
  have hkind := h.2
  unfold strayWeight
  split
  · rename_i id hobj
    rw [hobj] at hkind
    exact if_pos hkind
  · rfl

/-- To free an endpoint makes the capabilities stray that name it. -/
theorem strayWeight_free_le (inUse : EndpointId → Bool) (id : EndpointId) (b : Bool)
    (cap : Capability) : strayWeight (Function.update inUse id b) cap
      ≤ strayWeight inUse cap + objWeight (.endpoint id) cap := by
  unfold strayWeight objWeight
  cases hobj : cap.object with
  | endpoint id' =>
    by_cases heq : id' = id
    · subst heq
      simp only [if_true]
      split <;> omega
    · simp only [Function.update_of_ne heq]
      omega
  | _ => simp

/-- A new endpoint makes no capability stray. -/
theorem strayWeight_create_le (inUse : EndpointId → Bool) (id : EndpointId)
    (cap : Capability) :
    strayWeight (Function.update inUse id true) cap ≤ strayWeight inUse cap := by
  unfold strayWeight
  cases hobj : cap.object with
  | endpoint id' =>
    by_cases heq : id' = id
    · subst heq
      simp only [Function.update_self, true_and]
      split
      · omega
      · rename_i hno
        rw [if_neg (fun h => hno h.2)]
    · simp only [Function.update_of_ne heq, le_refl]
  | _ => simp

theorem listTotal_mono {w w' : Capability → Nat} (h : ∀ cap, w cap ≤ w' cap)
    (caps : List Capability) : listTotal w caps ≤ listTotal w' caps :=
  List.sum_le_sum fun cap _ => h cap

theorem procWeight_mono {w w' : Capability → Nat} (h : ∀ cap, w cap ≤ w' cap)
    (proc : Process) : procWeight w proc ≤ procWeight w' proc := by
  refine Tally.tally_le_tally fun k => ?_
  cases proc.caps.slots k with
  | none => exact Nat.zero_le _
  | some cap => exact h cap

theorem liveTotal_mono {w w' : Capability → Nat} (h : ∀ cap, w cap ≤ w' cap)
    (P : ProcSlot → Option Process) : liveTotal w P ≤ liveTotal w' P := by
  refine Tally.tally_le_tally fun p => ?_
  cases P p with
  | none => exact Nat.zero_le _
  | some proc =>
    rw [Tally.entry_some, Tally.entry_some]
    exact procWeight_mono h proc

theorem Holdings.total_mono {w w' : Capability → Nat} (h : ∀ cap, w cap ≤ w' cap)
    (x : Holdings) : x.total w ≤ x.total w' := by
  have hlive := liveTotal_mono h x.proc
  have hheld := listTotal_mono h x.held
  have htr : transitTotal w x.transit ≤ transitTotal w' x.transit := by
    cases x.transit with
    | none => exact Nat.zero_le _
    | some tr => exact h tr.cap
  unfold Holdings.total
  omega

theorem liveTotal_sum (w w' : Capability → Nat) (P : ProcSlot → Option Process) :
    liveTotal (fun cap => w cap + w' cap) P = liveTotal w P + liveTotal w' P := by
  have hproc : procWeight (fun cap => w cap + w' cap)
      = fun proc => procWeight w proc + procWeight w' proc := by
    funext proc
    exact Tally.tally_add w w' proc.caps.slots
  unfold liveTotal
  rw [hproc, Tally.tally_add]

theorem Holdings.total_sum (w w' : Capability → Nat) (x : Holdings) :
    x.total (fun cap => w cap + w' cap) = x.total w + x.total w' := by
  have hheld : listTotal (fun cap => w cap + w' cap) x.held
      = listTotal w x.held + listTotal w' x.held := by
    unfold listTotal
    exact List.sum_map_add
  have htr : transitTotal (fun cap => w cap + w' cap) x.transit
      = transitTotal w x.transit + transitTotal w' x.transit := by
    cases x.transit with
    | none => rfl
    | some tr => rfl
  unfold Holdings.total
  rw [liveTotal_sum, hheld, htr]
  omega

/-- To free an endpoint that no capability names makes nothing stray. -/
theorem noStray_free {inUse : EndpointId → Bool} {x : Holdings} {id : EndpointId}
    (h : x.total (strayWeight inUse) = 0) (b : Bool)
    (hb : b = inUse id ∨ x.total (objWeight (.endpoint id)) = 0) :
    x.total (strayWeight (Function.update inUse id b)) = 0 := by
  rcases hb with rfl | hnone
  · rw [Function.update_eq_self]
    exact h
  · have hle := x.total_mono (strayWeight_free_le inUse id b)
    rw [x.total_sum] at hle
    omega

theorem noStray_settle {inUse : EndpointId → Bool} {x : Holdings} {id : EndpointId} {n : Nat}
    (h : x.total (strayWeight inUse) = 0) (hn : x.total (objWeight (.endpoint id)) = n) :
    x.total (strayWeight (Function.update inUse id (inUse id && decide (0 < n)))) = 0 := by
  refine noStray_free h _ ?_
  by_cases hpos : 0 < n
  · left
    simp [hpos]
  · right
    omega

/-- Every action keeps endpoint capabilities from going astray. -/
theorem Act.noStray {g : Guard} {v v' : Ledger} (act : Act g v v')
    (hs : v.toHoldings.Sound) (h : v.NoStray) : v'.NoStray := by
  have hzero : ∀ x : Holdings, x.total (strayWeight v.inUse) ≤ v.total (strayWeight v.inUse) →
      x.total (strayWeight v.inUse) = 0 := by
    intro x hx
    unfold Ledger.NoStray at h
    omega
  cases act with
  | table act =>
    obtain ⟨gone, -, htotal⟩ := act.total hs
    have heq := htotal _ (strayWeight_steady v.inUse)
    refine hzero _ ?_
    dsimp only
    omega
  | grant hp hok hg hgiver hbound hin =>
    refine hzero _ ?_
    have hput := liveTotal_places (strayWeight v.inUse) hp (CapTable.install_ok hin).1
    rw [strayWeight_grantable hok] at hput
    simp only [Holdings.total, hput]
    omega
  | mintFrame hp hframes hnone hin =>
    refine hzero _ ?_
    have hput := liveTotal_places (strayWeight v.inUse) hp (CapTable.install_ok hin).1
    simp only [Holdings.total, hput]
    simp [strayWeight]
  | mintRing hp hfree huse howner hwait hnone hsq hcq hmask hin hg =>
    refine hzero _ ?_
    have hput := liveTotal_places (strayWeight v.inUse) hp (CapTable.install_ok hin).1
    simp only [Holdings.total, hput]
    simp [strayWeight]
  | parkCall hstate hpq hq hnone hin hg =>
    refine hzero _ ?_
    have hput := liveTotal_places (strayWeight v.inUse) hq (CapTable.reclaim_some hin).1
    simp only [Holdings.total, hput]
    simp [strayWeight, Kernel.replyCap]
  | receiveCall hqueue hside hcall hq hnone hin =>
    refine hzero _ ?_
    have hput := liveTotal_places (strayWeight v.inUse) hq (CapTable.reclaim_some hin).1
    simp only [Holdings.total, hput]
    simp [strayWeight, Kernel.replyCap]
  | @mapFrame p proc k cap addr va flags maps hp hk hobj hrec =>
    refine hzero _ ?_
    have hput := liveTotal_put_same (w := strayWeight v.inUse) hp
      (x := { proc with maps }) rfl
    simp only [Holdings.total, hput, le_refl]
  | @mapFb p proc k cap _ _ _ _ _ _ f fbMaps sp hp hk hobj hslot hrec htables hleaves =>
    refine hzero _ ?_
    have hput := liveTotal_put_same (w := strayWeight v.inUse) hp
      (x := { proc with fbMaps }) rfl
    simp only [Holdings.total, hput, le_refl]
  | create hfree hfirst =>
    refine Nat.le_zero.mp (le_trans (Holdings.total_mono (strayWeight_create_le _ _) _) ?_)
    exact le_of_eq h
  | release hnone hqueue => exact noStray_free h _ (Or.inr hnone)
  | @takeEndpoint p proc k cap id n hp hk hobj hstate hnone hfirst hg hn =>
    refine noStray_settle (hzero _ ?_) ?_
    · have hput := liveTotal_put (strayWeight v.inUse) hp
        (proc.setCaps (proc.caps.set k none))
      have hrev := procWeight_revoke (strayWeight v.inUse) hk
      simp only [Ledger.settle_toHoldings, Holdings.total]
      omega
    · have hput := liveTotal_put (objWeight (.endpoint id)) hp
        (proc.setCaps (proc.caps.set k none))
      have hrev := procWeight_revoke (objWeight (.endpoint id)) hk
      rw [← hobj, objWeight_self, hobj] at hrev
      simp only [Ledger.settle_toHoldings, Holdings.total] at hn ⊢
      omega
  | @dropEndpoint cap rest id n hheld hobj hdoomed hn =>
    refine noStray_settle (hzero _ ?_) ?_
    · simp only [Ledger.settle_toHoldings, Holdings.total, hheld, listTotal_cons]
      omega
    · have hself : objWeight (.endpoint id) cap = 1 := by
        rw [← hobj, objWeight_self]
      simp only [Ledger.settle_toHoldings, Holdings.total, hheld, listTotal_cons,
        hself] at hn ⊢
      omega
  | dropRing hheld hobj =>
    refine hzero _ ?_
    simp only [Holdings.total, hheld, listTotal_cons]
    omega
  | dropFrame hheld hobj =>
    refine hzero _ ?_
    simp only [Holdings.total, hheld, listTotal_cons]
    omega
  | dropReply hheld hobj =>
    refine hzero _ ?_
    simp only [Holdings.total, hheld, listTotal_cons]
    omega
  | @takeBound p proc k cap dev hp hk hobj hstate hnone hfirst hg =>
    refine hzero _ ?_
    have hput := liveTotal_put (strayWeight v.inUse) hp
      (proc.setCaps (proc.caps.set k none))
    have hrev := procWeight_revoke (strayWeight v.inUse) hk
    simp only [Holdings.total]
    omega
  | leave hp hstate hheld hdying htransit hcalm hg =>
    refine hzero _ ?_
    have hrem := liveTotal_remove (strayWeight v.inUse) hp
    simp only [Holdings.total, hheld, listTotal_iter, listTotal_nil]
    omega
  | @enter p proc boot rest spaces k budget rights hp hstate hcaps hspaces hframes hdying =>
    refine hzero _ ?_
    have hadd := liveTotal_add (strayWeight v.inUse) hp proc
    have hproc : procWeight (strayWeight v.inUse) proc = 0 := by
      unfold procWeight
      rw [hcaps, CapTable.set_slots, Tally.tally_insert _ _ rfl]
      simp [CapTable.new, strayWeight]
    simp only [Holdings.total]
    omega
  | _ => exact h

/-! ### The waiters hold capabilities -/

/-- The process in slot `p` holds a capability for endpoint `id` with the right `right`. -/
def Ledger.Reaches (v : Ledger) (p : ProcSlot) (id : EndpointId) (right : Rights) : Prop :=
  ∃ k rights, Has v.proc p k (.endpoint id) rights ∧ rights.has right = true

/-- Every waiter at an endpoint holds a capability for its side of it. -/
def Ledger.Holders (v : Ledger) : Prop :=
  ∀ id p, p ∈ v.queue id → v.inUse id = true ∧ v.Reaches p id (ownRight (v.sendersWait id))

theorem Ledger.Holders.queue_nil {v : Ledger} (h : v.Holders) {id : EndpointId}
    (huse : v.inUse id = false) : v.queue id = [] := by
  cases hq : v.queue id with
  | nil => rfl
  | cons p rest =>
    have hholder := h id p (by rw [hq]; exact List.mem_cons_self)
    rw [huse] at hholder
    cases hholder.1

/-- An endpoint with a waiter is named by a live capability. -/
theorem Ledger.Holders.named {v : Ledger} (h : v.Holders) {id : EndpointId} {p : ProcSlot}
    (hp : p ∈ v.queue id) : 0 < liveTotal (objWeight (.endpoint id)) v.proc := by
  obtain ⟨-, k, rights, hhas, -⟩ := h id p hp
  exact hhas.pos

/-- The holders survive if each waiter keeps its capability. -/
theorem holders_of_keeps {v v' : Ledger} (h : v.Holders) (hqueue : v'.queue = v.queue)
    (huse : v'.inUse = v.inUse) (hside : v'.sendersWait = v.sendersWait)
    (hkeep : ∀ id p k rights, p ∈ v.queue id → Has v.proc p k (.endpoint id) rights →
      Has v'.proc p k (.endpoint id) rights) : v'.Holders := by
  intro id p hp
  rw [hqueue] at hp
  obtain ⟨hin, k, rights, hhas, hright⟩ := h id p hp
  rw [huse, hside]
  exact ⟨hin, k, rights, hkeep id p k rights hp hhas, hright⟩

/-- The holders survive the release of an endpoint capability, if each waiter keeps its
capability: then the endpoint of a waiter stays in use. -/
theorem holders_settle {v v' : Ledger} (h : v.Holders) {id : EndpointId} {n : Nat}
    (hqueue : v'.queue = v.queue)
    (huse : v'.inUse = Function.update v.inUse id (v.inUse id && decide (0 < n)))
    (hside : v'.sendersWait = Function.update v.sendersWait id
      (v.sendersWait id && decide (0 < n)))
    (hn : v'.total (objWeight (.endpoint id)) = n)
    (hkeep : ∀ id' p k rights, p ∈ v.queue id' → Has v.proc p k (.endpoint id') rights →
      Has v'.proc p k (.endpoint id') rights) : v'.Holders := by
  intro id' p hp
  rw [hqueue] at hp
  obtain ⟨hin, k, rights, hhas, hright⟩ := h id' p hp
  have hhas' := hkeep id' p k rights hp hhas
  rw [huse, hside]
  by_cases heq : id' = id
  · subst heq
    have hpos : 0 < n := by
      have hlive := hhas'.pos
      unfold Holdings.total at hn
      omega
    rw [Function.update_self, Function.update_self, decide_eq_true hpos, Bool.and_true,
      Bool.and_true]
    exact ⟨hin, k, rights, hhas', hright⟩
  · rw [Function.update_of_ne heq, Function.update_of_ne heq]
    exact ⟨hin, k, rights, hhas', hright⟩

/-- Every action keeps the waiters in possession of their capabilities. -/
theorem Act.holders {g : Guard} {v v' : Ledger} (act : Act g v v')
    (hreg : v.Registered) (h : v.Holders) : v'.Holders := by
  have hkeep : ∀ id p k rights, p ∈ v.queue id → Has v.proc p k (.endpoint id) rights →
      Has v'.proc p k (.endpoint id) rights := fun id p k rights hp hhas =>
    act.keeps_has (fun budget heq => by cases heq)
      (fun hfree => hreg.not_queued hfree id hp) hhas
  have hnotNil : ∀ {id id' : EndpointId} {p : ProcSlot}, v.queue id = [] → p ∈ v.queue id' →
      id' ≠ id := by
    rintro id id' p hnil hp rfl
    rw [hnil] at hp
    cases hp
  cases act with
  | @create id hfree =>
    intro id' p hp
    obtain ⟨hin, hreach⟩ := h id' p hp
    have hne := hnotNil (h.queue_nil hfree) hp
    dsimp only
    rw [Function.update_of_ne hne, Function.update_of_ne hne]
    exact ⟨hin, hreach⟩
  | @release id hnone hnil =>
    intro id' p hp
    obtain ⟨hin, hreach⟩ := h id' p hp
    have hne := hnotNil hnil hp
    dsimp only
    rw [Function.update_of_ne hne, Function.update_of_ne hne]
    exact ⟨hin, hreach⟩
  | @takeEndpoint q proc j cap id n hq hj hobj hstate hnone hfirst hg hn =>
    refine holders_settle h rfl rfl rfl ?_ hkeep
    have hput := liveTotal_put (objWeight (.endpoint id)) hq
      (proc.setCaps (proc.caps.set j none))
    have hrev := procWeight_revoke (objWeight (.endpoint id)) hj
    rw [← hobj, objWeight_self, hobj] at hrev
    simp only [Ledger.settle_toHoldings, Holdings.total] at hn ⊢
    omega
  | @dropEndpoint cap rest id n hheld hobj hdoomed hn =>
    refine holders_settle h rfl rfl rfl ?_ hkeep
    have hself : objWeight (.endpoint id) cap = 1 := by
      rw [← hobj, objWeight_self]
    simp only [Ledger.settle_toHoldings, Holdings.total, hheld, listTotal_cons, hself] at hn ⊢
    omega
  | @parkQueue p proc id k cap senders mail hp hk hcap hstate huse hside hpeer hmail hheld hg =>
    intro id' q hq
    dsimp only at hq ⊢
    by_cases heq : id' = id
    · subst heq
      rw [Function.update_self] at hq ⊢
      rcases List.mem_append.mp hq with hold | hnew
      · have hsame : v.sendersWait id' = senders := by
          rcases hside with hnil | hsame
          · rw [hnil] at hold
            cases hold
          · exact hsame
        obtain ⟨-, hreach⟩ := h id' q hold
        rw [hsame] at hreach
        exact ⟨huse, hreach⟩
      · rw [List.mem_singleton] at hnew
        subst hnew
        unfold Kernel.reaches at hcap
        rw [Bool.and_eq_true, beq_iff_eq] at hcap
        exact ⟨huse, k, cap.rights, ⟨proc, cap, hp, hk, hcap.1, rfl⟩, hcap.2⟩
    · rw [Function.update_of_ne heq] at hq ⊢
      exact h id' q hq
  | @dequeue p id rest hqueue =>
    intro id' q hq
    refine h id' q ?_
    dsimp only at hq
    by_cases heq : id' = id
    · subst heq
      rw [Function.update_self] at hq
      rw [hqueue]
      exact List.mem_cons_of_mem _ hq
    · rwa [Function.update_of_ne heq] at hq
  | @receiveCall p q id rest proc k t hqueue hside hcall hq hnone hin =>
    intro id' r hr
    have hold : r ∈ v.queue id' := by
      dsimp only at hr
      by_cases heq : id' = id
      · subst heq
        rw [Function.update_self] at hr
        rw [hqueue]
        exact List.mem_cons_of_mem _ hr
      · rwa [Function.update_of_ne heq] at hr
    obtain ⟨huse, j, rights, hhas, hright⟩ := h id' r hold
    exact ⟨huse, j, rights, hkeep id' r j rights hold hhas, hright⟩
  | _ => exact holders_of_keeps h rfl rfl rfl hkeep

/-! ### The base invariants -/

/-- The invariants that the other results rest on. -/
structure Ledger.Base (v : Ledger) : Prop where
  sound : v.toHoldings.Sound
  registered : v.Registered
  noStray : v.NoStray
  holders : v.Holders
  keyed : v.Keyed

/-- Every action keeps the base invariants. -/
theorem Act.base {g : Guard} {v v' : Ledger} (act : Act g v v') (h : v.Base) : v'.Base :=
  ⟨act.sound h.sound, act.registered h.sound h.registered, act.noStray h.sound h.noStray,
    act.holders h.registered h.holders, act.keyed h.sound h.registered h.keyed⟩

/-- Every path keeps the base invariants. -/
theorem Path.base {g : Guard} {v v' : Ledger} (path : Path g v v') (h : v.Base) :
    v'.Base := by
  induction path with
  | refl => exact h
  | tail _ act ih => exact act.base ih

/-- The induction rule for paths: an invariant that every action keeps, given the base
invariants, is kept by every path. -/
theorem Path.keeps {g : Guard} {I : Ledger → Prop}
    (hact : ∀ v v', Act g v v' → v.Base → I v → I v') {v v' : Ledger} (path : Path g v v')
    (hbase : v.Base) (h : I v) : I v' := by
  induction path with
  | refl => exact h
  | tail path act ih => exact hact _ _ act (Path.base path hbase) ih

end Plinth
