import Plinth.Ledger.Sound

/-!
# `Plinth.Ledger.Flow`: what an action does to the number of capabilities

Every action moves capabilities and keeps all totals, or it makes one capability, or it ends
one, or it drops capabilities of the plain kinds. `Act.flow` says which one happens.
-/

set_option autoImplicit false

namespace Plinth

/-- The action makes the capability `cap`. -/
inductive Makes (g : Guard) (v v' : Ledger) (cap : Capability) : Prop where
  | grant (hok : v.Grantable cap) (hg : g.grant cap)
      (hbound : ∀ dev, cap.object = .boundDevice dev →
        v.total (objWeight (.boundDevice dev)) = 0)
  | frame {a : Nat} (hobj : cap.object = .frame a) (hmem : a ∈ v.frames)
  | ring {id : RingId} {r : Ring} (hobj : cap.object = .ring id)
      (hfree : (v.rings id).inUse = false) (huse : r.inUse = true)
      (hrings : v'.rings = Function.update v.rings id r)
  | reply {p : ProcSlot} (hobj : cap.object = .reply p)
  | budget {b : Nat} (hobj : cap.object = .cpuTime b)

/-- The action ends the capability `cap`. -/
inductive Ends (v v' : Ledger) (cap : Capability) : Prop where
  | endpoint {id : EndpointId} (hobj : cap.object = .endpoint id)
  | frame {a : Nat} (hobj : cap.object = .frame a)
  | ring {id : RingId} (hobj : cap.object = .ring id)
      (hrings : v'.rings = Function.update v.rings id Ring.empty)
  | reply {p : ProcSlot} (hobj : cap.object = .reply p) (hawake : p ∈ v'.awake)
  | bound {dev : DevId} (hobj : cap.object = .boundDevice dev)

/-- The change of the totals by an action. -/
inductive Flow (g : Guard) (v v' : Ledger) : Prop where
  | moves (gone : List Capability) (hgone : ∀ cap ∈ gone, cap.isDroppable)
      (htotal : ∀ w, Steady w → v'.total w + listTotal w gone = v.total w)
      (hrings : ∀ id, (v'.rings id).inUse = (v.rings id).inUse)
  | makes (cap : Capability) (hmakes : Makes g v v' cap)
      (htotal : ∀ w, v'.total w = v.total w + w cap)
      (hrings : (∃ id, cap.object = .ring id) ∨ v'.rings = v.rings)
  | ends (cap : Capability) (hends : Ends v v' cap)
      (htotal : ∀ w, v'.total w + w cap = v.total w)
      (hrings : (∃ id, cap.object = .ring id) ∨ v'.rings = v.rings)

section

variable {g : Guard} {v v' : Ledger}

/-- Nothing moves. -/
theorem Flow.same (htotal : ∀ w, v'.total w = v.total w)
    (hrings : ∀ id, (v'.rings id).inUse = (v.rings id).inUse) : Flow g v v' :=
  .moves [] (fun _ h => by cases h) (fun w _ => by rw [listTotal_nil, Nat.add_zero, htotal w])
    hrings

/-- A ring changes and stays in use or free. -/
theorem Flow.ring {id : RingId} {r : Ring} (htotal : ∀ w, v'.total w = v.total w)
    (hrings : v'.rings = Function.update v.rings id r)
    (huse : r.inUse = (v.rings id).inUse) : Flow g v v' := by
  refine .same htotal fun id' => ?_
  rw [hrings]
  by_cases hid : id' = id
  · subst hid
    rw [Function.update_self]
    exact huse
  · rw [Function.update_of_ne hid]

/-- Every action has a flow. -/
theorem Act.flow (act : Act g v v') (hs : v.toHoldings.Sound) : Flow g v v' := by
  cases act with
  | table act =>
    obtain ⟨gone, hgone, htotal⟩ := act.total hs
    exact .moves gone hgone htotal fun _ => rfl
  | @grant p proc cap k t hp hok hg hgiver hbound hin =>
    refine .makes cap (.grant hok hg hbound) (fun w => ?_) (Or.inr rfl)
    have hput := liveTotal_places w hp (CapTable.install_ok hin).1
    simp only [Holdings.total]
    omega
  | @mintFrame p proc a rest rights k t hp hframes hnone hin =>
    refine .makes ⟨.frame a, rights, none⟩ (.frame rfl (by rw [hframes]; exact List.mem_cons_self))
      (fun w => ?_) (Or.inr rfl)
    have hput := liveTotal_places w hp (CapTable.install_ok hin).1
    simp only [Holdings.total]
    omega
  | @mintRing p proc id ring rights k t hp hfree huse howner hwait hnone hsq hcq hmask hin hg =>
    refine .makes ⟨.ring id, rights, none⟩ (.ring rfl hfree huse rfl) (fun w => ?_)
      (Or.inl ⟨id, rfl⟩)
    have hput := liveTotal_places w hp (CapTable.install_ok hin).1
    simp only [Holdings.total]
    omega
  | @mapFrame p proc k cap addr va flags maps hp hk hobj hrec =>
    refine .same (fun w => ?_) fun _ => rfl
    have hput := liveTotal_put_same (w := w) hp (x := { proc with maps }) rfl
    simp only [Holdings.total]
    omega
  | @mapFb p proc k cap _ _ _ _ _ _ f fbMaps sp hp hk hobj hslot hrec htables hleaves =>
    refine .same (fun w => ?_) fun _ => rfl
    have hput := liveTotal_put_same (w := w) hp (x := { proc with fbMaps }) rfl
    simp only [Holdings.total]
    omega
  | @takeEndpoint p proc k cap id n hp hk hobj hstate hnone hfirst hg hn =>
    refine .ends cap (.endpoint hobj) (fun w => ?_) (Or.inr rfl)
    have hput := liveTotal_put w hp (proc.setCaps (proc.caps.set k none))
    have hrev := procWeight_revoke w hk
    simp only [Ledger.settle_toHoldings, Holdings.total]
    omega
  | @takeBound p proc k cap dev hp hk hobj hstate hnone hfirst hg =>
    refine .ends cap (.bound hobj) (fun w => ?_) (Or.inr rfl)
    have hput := liveTotal_put w hp (proc.setCaps (proc.caps.set k none))
    have hrev := procWeight_revoke w hk
    simp only [Holdings.total]
    omega
  | @dropEndpoint cap rest id n hheld hobj hdoomed hn =>
    refine .ends cap (.endpoint hobj) (fun w => ?_) (Or.inr rfl)
    simp only [Ledger.settle_toHoldings, Holdings.total, hheld, listTotal_cons]
    omega
  | @dropRing cap rest id hheld hobj =>
    refine .ends cap (.ring hobj rfl) (fun w => ?_) (Or.inl ⟨id, hobj⟩)
    simp only [Holdings.total, hheld, listTotal_cons]
    omega
  | @dropFrame cap rest a hheld hobj =>
    refine .ends cap (.frame hobj) (fun w => ?_) (Or.inr rfl)
    simp only [Holdings.total, hheld, listTotal_cons]
    omega
  | @dropReply cap rest c hheld hobj =>
    refine .ends cap (.reply hobj List.mem_cons_self) (fun w => ?_) (Or.inr rfl)
    simp only [Holdings.total, hheld, listTotal_cons]
    omega
  | @parkCall p q proc k t hstate hpq hq hnone hin hg =>
    refine .makes (Kernel.replyCap p) (.reply rfl) (fun w => ?_) (Or.inr rfl)
    have hput := liveTotal_places w hq (CapTable.reclaim_some hin).1
    simp only [Holdings.total]
    omega
  | @receiveCall p q id rest proc k t hqueue hside hcall hq hnone hin =>
    refine .makes (Kernel.replyCap p) (.reply rfl) (fun w => ?_) (Or.inr rfl)
    have hput := liveTotal_places w hq (CapTable.reclaim_some hin).1
    simp only [Holdings.total]
    omega
  | parkRing hp hk hobj hlive hstate huse howner hsame hsq hcq hmask htail hwait hg =>
    exact .ring (fun _ => rfl) rfl huse
  | ringTick huse howner hsq hcq hmask htail hwait => exact .ring (fun _ => rfl) rfl huse
  | ringPost huse howner hsq hcq hmask hwait => exact .ring (fun _ => rfl) rfl huse
  | ringStale hfree huse hwait => exact .ring (fun _ => rfl) rfl (huse.trans hfree.symm)
  | @leave p proc hp hstate hheld hdying htransit hcalm hg =>
    refine .same (fun w => ?_) fun _ => rfl
    have hrem := liveTotal_remove w hp
    simp only [Holdings.total, hheld, listTotal_iter, listTotal_nil]
    omega
  | @enter p proc boot rest spaces k budget rights hp hstate hcaps hspaces hframes hdying =>
    refine .makes ⟨.cpuTime budget, rights, none⟩ (.budget rfl) (fun w => ?_) (Or.inr rfl)
    have hadd := liveTotal_add w hp proc
    have hweight : procWeight w proc = w ⟨.cpuTime budget, rights, none⟩ := by
      unfold procWeight
      rw [hcaps, CapTable.set_slots, Tally.tally_insert _ _ rfl]
      change Tally.tally w (fun _ => none) + _ = _
      rw [Tally.tally_none, Nat.zero_add]
    simp only [Holdings.total]
    omega
  | _ => exact .same (fun _ => rfl) fun _ => rfl

end

end Plinth
