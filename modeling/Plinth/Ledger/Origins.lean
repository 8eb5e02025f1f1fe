import Plinth.Ledger.Endpoints

/-!
# `Plinth.Ledger.Origins`: where the capabilities come from

A capability in a slot after an action was there before, or it arrived. `Act.slot_source` says
where it arrived from: a transfer, the homecoming of a loan, or the kernel made it. Together with
`Act.transit_source` and `Act.held_source` this traces a capability back through an entry.
-/

set_option autoImplicit false

namespace Plinth

/-- The transfer `tr` ends with `cap` in slot `j` of the process `x` in slot `q`. -/
inductive Transit.Arrives (tr : Transit) (q : ProcSlot) (x : Process) (j : CapSlot) :
    Capability → Prop where
  | land (hfate : tr.fate = .land q) (hne : tr.giver ≠ q)
      (hres : x.caps.reserved j = true → tr.cap.origin = some ⟨q, j⟩) :
      Arrives tr q x j (tr.cap.lentTo ⟨tr.giver, tr.slot⟩ q)
  | child (hfate : tr.fate = .child q) (hne : tr.giver ≠ q)
      (hlender : tr.cap.origin.map Origin.lender ≠ some q) (hres : x.caps.reserved j = false) :
      Arrives tr q x j (Kernel.spawnLoan tr.cap tr.giver tr.slot)
  | back (hfate : tr.fate = .back) (hgiver : tr.giver = q) (hres : x.caps.reserved j = false) :
      Arrives tr q x j tr.cap
  | undo (hfate : tr.fate = .undo) (hgiver : tr.giver = q)
      (hown : lendReservesHome tr.cap = true → j = tr.slot)
      (hres : lendReservesHome tr.cap = false → x.caps.reserved j = false) :
      Arrives tr q x j tr.cap

/-- How `cap` becomes `cap'` in its slot: nothing happens, or a charge, or its lender is gone. -/
inductive Ledger.Ages (v : Ledger) (cap : Capability) : Capability → Prop where
  | same : Ages v cap cap
  | charge {budget budget' : Nat} (hobj : cap.object = .cpuTime budget) :
      Ages v cap { cap with object := .cpuTime budget' }
  | clear {p : ProcSlot} (hdying : v.dying = some p) : Ages v cap (CapTable.clearLender p cap)

/-- Where the capability `cap` in slot `j` of the process in slot `q` comes from. -/
inductive SlotSource (v : Ledger) (q : ProcSlot) (j : CapSlot) (cap : Capability) : Prop where
  | stay {x : Process} {old : Capability} (hx : v.proc q = some x)
      (hj : x.caps.slots j = some old) (hage : v.Ages old cap)
  | arrive {x : Process} {tr : Transit} (hx : v.proc q = some x) (htr : v.transit = some tr)
      (hempty : x.caps.slots j = none) (harrive : tr.Arrives q x j cap)
  | home {x : Process} {lent : Capability} {k : CapSlot} (hx : v.proc q = some x)
      (hheld : lent ∈ v.held) (hempty : x.caps.slots j = none)
      (ho : lent.origin = some ⟨q, k⟩) (hkind : isReclaimableKind lent.object = true)
      (hres : x.caps.reserved j = true → j = k) (hcap : cap = { lent with origin := none })
  | new (ho : cap.origin = none)
      (hres : ∀ x, v.proc q = some x → x.caps.slots j = none ∧ x.caps.reserved j = false)

variable {g : Guard} {v v' : Ledger} {p q : ProcSlot} {j k : CapSlot} {cap : Capability}
  {x y proc : Process} {t : CapTable}

namespace SlotSource

theorem same (hx : v.proc q = some x) (hj : x.caps.slots j = some cap) : SlotSource v q j cap :=
  .stay hx hj .same

/-- After a write to the process in slot `p`, the other processes have what they had. -/
theorem put (hy : Function.update v.proc p (some x) q = some y) (hj : y.caps.slots j = some cap)
    (hmine : q = p → x.caps.slots j = some cap → SlotSource v p j cap) : SlotSource v q j cap := by
  by_cases hq : q = p
  · subst hq
    rw [Function.update_self, Option.some.injEq] at hy
    subst hy
    exact hmine rfl hj
  · rw [Function.update_of_ne hq] at hy
    exact .same hy hj

/-- A write that keeps the table. -/
theorem same_caps (hp : v.proc p = some proc)
    (hy : Function.update v.proc p (some x) q = some y) (hj : y.caps.slots j = some cap)
    (hcaps : x.caps = proc.caps) :
    SlotSource v q j cap := by
  refine .put hy hj fun _ hslot => ?_
  rw [hcaps] at hslot
  exact .same hp hslot

/-- A write that empties slot `k`. -/
theorem revoke (hp : v.proc p = some proc)
    (hslots : x.caps.slots = Function.update proc.caps.slots k none)
    (hy : Function.update v.proc p (some x) q = some y) (hj : y.caps.slots j = some cap) :
    SlotSource v q j cap := by
  refine .put hy hj fun _ hslot => ?_
  rw [hslots] at hslot
  by_cases hjk : j = k
  · rw [hjk, Function.update_self] at hslot
    cases hslot
  · rw [Function.update_of_ne hjk] at hslot
    exact .same hp hslot

/-- A placement in slot `k`. -/
theorem place {c : Capability} (hp : v.proc p = some proc)
    (hin : CapTable.Places proc.caps c k t)
    (hy : Function.update v.proc p (some (proc.setCaps t)) q = some y)
    (hj : y.caps.slots j = some cap) (hnew : SlotSource v p k c) : SlotSource v q j cap := by
  refine .put hy hj fun _ hslot => ?_
  rw [Process.setCaps_caps] at hslot
  rcases hin.slot_cases hslot with ⟨rfl, rfl⟩ | ⟨-, hold⟩
  · exact hnew
  · exact .same hp hold

/-- A capability that the kernel makes, in a slot that is free. -/
theorem mint {c : Capability} (hp : v.proc p = some proc)
    (hin : CapTable.Places proc.caps c k t) (hres : proc.caps.reserved k = false)
    (ho : c.origin = none)
    (hy : Function.update v.proc p (some (proc.setCaps t)) q = some y)
    (hj : y.caps.slots j = some cap) : SlotSource v q j cap := by
  refine .place hp hin hy hj (.new ho fun x hx => ?_)
  rw [hp, Option.some.injEq] at hx
  rw [← hx]
  exact ⟨hin.empty, hres⟩

end SlotSource

/-- Where a capability in a slot comes from, for the table actions. -/
theorem TableAct.slot_source {give : ProcSlot → CapSlot → Fate → Prop}
    {take : ProcSlot → CapSlot → Prop} {strand : Capability → Prop} {h : Holdings}
    (act : TableAct give take strand v.toHoldings h) (hy : h.proc q = some y)
    (hj : y.caps.slots j = some cap) : SlotSource v q j cap := by
  cases act with
  | @charge p proc k c budget budget' hp hk hobj hnone =>
    refine .put hy hj fun _ hslot => ?_
    rw [Process.setCaps_caps, CapTable.set_slots] at hslot
    by_cases hjk : j = k
    · rw [hjk, Function.update_self, Option.some.injEq] at hslot
      rw [← hslot, hjk]
      exact .stay hp hk (.charge hobj)
    · rw [Function.update_of_ne hjk] at hslot
      exact .same hp hslot
  | give hp hk hnone hdying hfirst hg => exact .revoke hp (giveAway_slots ..) hy hj
  | land htr hpq hq hin =>
    obtain ⟨hplaces, hprior⟩ := CapTable.installHome_some hin
    exact .place hq hplaces hy hj (.arrive hq htr hplaces.empty (.land rfl hpq hprior))
  | child htr hpq hq hlender hin =>
    obtain ⟨hplaces, hres⟩ := CapTable.install_ok hin
    exact .place hq hplaces hy hj (.arrive hq htr hplaces.empty (.child rfl hpq hlender hres))
  | back htr hp hin =>
    obtain ⟨hplaces, hres⟩ := CapTable.reclaim_some hin
    exact .place hp hplaces hy hj (.arrive hp htr hplaces.empty (.back rfl rfl hres))
  | undo htr hp hin hown hfree =>
    exact .place hp hin hy hj (.arrive hp htr hin.empty (.undo rfl rfl hown hfree))
  | lost htr hp hfull => exact .same hy hj
  | take hp hk hkind hnone hdying hfirst hg =>
    exact .revoke hp (by rw [unmapForSlot_caps]; rfl) hy hj
  | @home c o rest proc k t hheld ho hkind hp hnone hin =>
    obtain ⟨hplaces, hhome⟩ := CapTable.goHome_some hin
    exact .place hp hplaces hy hj (.home hp (by rw [hheld]; exact List.mem_cons_self)
      hplaces.empty ho hkind hhome rfl)
  | strand hheld ho hkind hp hfull hg => exact .same hy hj
  | drop hheld hplain => exact .same hy hj
  | unmapFb i hp => exact .same_caps hp hy hj rfl
  | @clearOrigins p hdying hp hnone =>
    obtain ⟨proc, hproc, rfl⟩ := Option.map_eq_some_iff.mp hy
    rw [Process.setCaps_caps, CapTable.clearOrigin_slots] at hj
    obtain ⟨c, hc, rfl⟩ := Option.map_eq_some_iff.mp hj
    exact .stay hproc hc (.clear hdying)
  | reorder hperm => exact .same hy hj

/-- A capability in a slot after an action was there before, or it arrived. -/
theorem Act.slot_source (act : Act g v v') (hy : v'.proc q = some y)
    (hj : y.caps.slots j = some cap) : SlotSource v q j cap := by
  cases act with
  | table act => exact act.slot_source hy hj
  | grant hp hok hg hgiver hbound hin =>
    obtain ⟨hplaces, hres⟩ := CapTable.install_ok hin
    exact .mint hp hplaces hres hok.1 hy hj
  | mintFrame hp hframes hnone hin =>
    obtain ⟨hplaces, hres⟩ := CapTable.install_ok hin
    exact .mint hp hplaces hres rfl hy hj
  | mintRing hp hfree huse howner hwait hnone hsq hcq hmask hin hreg =>
    obtain ⟨hplaces, hres⟩ := CapTable.install_ok hin
    exact .mint hp hplaces hres rfl hy hj
  | parkCall hstate hpq hq hnone hin hpark =>
    obtain ⟨hplaces, hres⟩ := CapTable.reclaim_some hin
    exact .mint hq hplaces hres rfl hy hj
  | receiveCall hqueue hside hcall hq hnone hin hserve =>
    obtain ⟨hplaces, hres⟩ := CapTable.reclaim_some hin
    exact .mint hq hplaces hres rfl hy hj
  | mapFrame hp hk hobj hrec => exact .same_caps hp hy hj rfl
  | mapFb hp hk hobj hslot hrec htables hleaves => exact .same_caps hp hy hj rfl
  | takeEndpoint hp hk hobj hstate hnone hfirst htake hn => exact .revoke hp rfl hy hj
  | takeBound hp hk hobj hstate hnone hfirst htake => exact .revoke hp rfl hy hj
  | @leave p proc hp hstate hheld hdying htransit hcalm hleave =>
    dsimp only at hy
    by_cases hq : q = p
    · rw [hq, Function.update_self] at hy
      cases hy
    · rw [Function.update_of_ne hq] at hy
      exact .same hy hj
  | @enter p proc boot rest spaces k budget rights hp hstate hcaps hspaces hframes hdying =>
    refine .put hy hj fun _ hslot => .new ?_ fun x hx => ?_
    · rw [hcaps, CapTable.set_slots] at hslot
      by_cases hjk : j = k
      · rw [hjk, Function.update_self, Option.some.injEq] at hslot
        rw [← hslot]
      · rw [Function.update_of_ne hjk] at hslot
        cases hslot
    · rw [hp] at hx
      cases hx
  | _ => exact .same hy hj

/-- A transfer that is under way was under way before, or it begins. -/
theorem Act.transit_source (act : Act g v v') {tr : Transit} (htr : v'.transit = some tr) :
    v.transit = some tr ∨ v.transit = none ∧ v.dying = none ∧ g.give v tr.giver tr.slot tr.fate ∧
      ∃ x, v.proc tr.giver = some x ∧ x.caps.slots tr.slot = some tr.cap := by
  cases act with
  | table act =>
    cases act with
    | give hp hk hnone hdying hfirst hg =>
      obtain rfl := Option.some.inj htr
      exact Or.inr ⟨hnone, hdying, hg.2, _, hp, hk⟩
    | land h hpq hq hin => cases htr
    | child h hpq hq hlender hin => cases htr
    | back h hp hin => cases htr
    | undo h hp hin hown hfree => cases htr
    | lost h hp hfull => cases htr
    | _ => exact Or.inl htr
  | _ => exact Or.inl htr

/-- A capability that is held was held before, or a release or an exit takes it. -/
theorem Act.held_source (act : Act g v v') (hcap : cap ∈ v'.held) :
    cap ∈ v.held ∨ v.dying = none ∧ ∃ p k x, v.proc p = some x ∧ x.caps.slots k = some cap ∧
      (g.take v p k ∨ g.leave v p) := by
  have htail : ∀ {c : Capability} {rest : List Capability}, v.held = c :: rest → cap ∈ rest →
      cap ∈ v.held := by
    intro c rest hheld hmem
    rw [hheld]
    exact List.mem_cons_of_mem _ hmem
  cases act with
  | table act =>
    cases act with
    | @take p proc k c hp hk hkind hnone hdying hfirst hg =>
      rcases List.mem_cons.mp hcap with rfl | hold
      · exact Or.inr ⟨hdying, p, k, proc, hp, hk, Or.inl hg.2⟩
      · exact Or.inl hold
    | home hheld ho hkind hp hnone hin => exact Or.inl (htail hheld hcap)
    | strand hheld ho hkind hp hfull hg => exact Or.inl (htail hheld hcap)
    | drop hheld hplain => exact Or.inl (htail hheld hcap)
    | reorder hperm => exact Or.inl (hperm.mem_iff.mp hcap)
    | _ => exact Or.inl hcap
  | dropEndpoint hheld hobj hdoomed hn => exact Or.inl (htail hheld hcap)
  | dropRing hheld hobj => exact Or.inl (htail hheld hcap)
  | dropFrame hheld hobj => exact Or.inl (htail hheld hcap)
  | dropReply hheld hobj => exact Or.inl (htail hheld hcap)
  | @leave p proc hp hstate hheld hdying htransit hcalm hleave =>
    obtain ⟨k, hk⟩ := CapTable.mem_iter.mp hcap
    exact Or.inr ⟨hdying, p, k, proc, hp, hk, Or.inr hleave⟩
  | _ => exact Or.inl hcap

/-! ### What becomes of a slot -/

/-- What an action makes of slot `k` of a process `x` that becomes `y`. -/
structure SlotNext (g : Guard) (v v' : Ledger) (q : ProcSlot) (k : CapSlot) (x y : Process) :
    Prop where
  /-- A capability stays, unless it is given away or released. -/
  slot : ∀ cap, x.caps.slots k = some cap →
    (∃ cap', y.caps.slots k = some cap' ∧ v.Ages cap cap') ∨ (∃ f, g.give v q k f) ∨ g.take v q k
  /-- A reservation stays, until a capability lands in the slot. -/
  reserved : x.caps.reserved k = true →
    y.caps.reserved k = true ∨ ∃ cap, y.caps.slots k = some cap

namespace SlotNext

theorem same (g : Guard) (v v' : Ledger) (q : ProcSlot) (k : CapSlot) (x : Process) :
    SlotNext g v v' q k x x :=
  ⟨fun cap hk => Or.inl ⟨cap, hk, .same⟩, Or.inl⟩

theorem same_caps (hcaps : y.caps = x.caps) : SlotNext g v v' q k x y := by
  refine ⟨fun cap hk => Or.inl ⟨cap, ?_, .same⟩, fun hres => Or.inl ?_⟩
  · rw [hcaps]
    exact hk
  · rw [hcaps]
    exact hres

/-- After a write to the process in slot `p`. -/
theorem put (hx : v.proc q = some x) (hp : v.proc p = some proc)
    {proc' : Process} (hy : Function.update v.proc p (some proc') q = some y)
    (hmine : SlotNext g v v' p k proc proc') : SlotNext g v v' q k x y := by
  by_cases hq : q = p
  · subst hq
    rw [Function.update_self, Option.some.injEq] at hy
    rw [hp, Option.some.injEq] at hx
    subst hy hx
    exact hmine
  · rw [Function.update_of_ne hq, hx, Option.some.injEq] at hy
    subst hy
    exact .same ..

theorem place {c : Capability} (hin : CapTable.Places proc.caps c j t) :
    SlotNext g v v' p k proc (proc.setCaps t) := by
  constructor
  · exact fun cap hk => Or.inl ⟨cap, hin.keeps hk, .same⟩
  · intro hres
    rw [Process.setCaps_caps]
    by_cases hkj : k = j
    · subst hkj
      exact Or.inr ⟨c, hin.slot_self⟩
    · rw [hin.reserved_of_ne hkj]
      exact Or.inl hres

/-- A write that empties slot `j`, which the guard allows. -/
theorem revoke (hslots : y.caps.slots = Function.update proc.caps.slots j none)
    (hres : proc.caps.reserved k = true → y.caps.reserved k = true)
    (hg : (∃ f, g.give v p j f) ∨ g.take v p j) : SlotNext g v v' p k proc y := by
  refine ⟨fun cap hk => ?_, fun h => Or.inl (hres h)⟩
  by_cases hkj : k = j
  · subst hkj
    exact Or.inr hg
  · exact Or.inl ⟨cap, by rw [hslots, Function.update_of_ne hkj, hk], .same⟩

end SlotNext

/-- What an action makes of a slot of a process that is there before and after it. -/
theorem Act.slot_next (act : Act g v v') (hx : v.proc q = some x) (hy : v'.proc q = some y)
    (k : CapSlot) : SlotNext g v v' q k x y := by
  have hsame : ∀ {w : Ledger}, v.proc q = some y → SlotNext g v w q k x y := by
    intro w hy
    rw [hx, Option.some.injEq] at hy
    subst hy
    exact .same ..
  cases act with
  | table act =>
    cases act with
    | @charge p proc i c budget budget' hp hk hobj hnone =>
      refine .put hx hp hy ⟨fun cap hcap => Or.inl ?_, Or.inl⟩
      rw [Process.setCaps_caps, CapTable.set_slots]
      by_cases hki : k = i
      · rw [hki] at hcap ⊢
        rw [hk, Option.some.injEq] at hcap
        subst hcap
        exact ⟨_, Function.update_self .., .charge hobj⟩
      · exact ⟨cap, by rw [Function.update_of_ne hki, hcap], .same⟩
    | @give p proc i c f hp hk hnone hdying hfirst hg =>
      refine .put hx hp hy (.revoke (giveAway_slots ..) (fun hres => ?_) (Or.inl ⟨f, hg.2⟩))
      rw [giveAway_reserved]
      split
      · by_cases hki : k = i
        · rw [hki, Function.update_self]
        · rw [Function.update_of_ne hki, hres]
      · exact hres
    | land htr hpq hq hin => exact .put hx hq hy (.place (CapTable.installHome_some hin).1)
    | child htr hpq hq hlender hin => exact .put hx hq hy (.place (CapTable.install_ok hin).1)
    | back htr hp hin => exact .put hx hp hy (.place (CapTable.reclaim_some hin).1)
    | undo htr hp hin hown hfree => exact .put hx hp hy (.place hin)
    | lost htr hp hfull => exact hsame hy
    | take hp hk hkind hnone hdying hfirst hg =>
      refine .put hx hp hy (.revoke (by rw [unmapForSlot_caps]; rfl) (fun hres => ?_)
        (Or.inr hg.2))
      rw [unmapForSlot_caps]
      exact hres
    | home hheld ho hkind hp hnone hin => exact .put hx hp hy (.place (CapTable.goHome_some hin).1)
    | strand hheld ho hkind hp hfull hg => exact hsame hy
    | drop hheld hplain => exact hsame hy
    | unmapFb i hp => exact .put hx hp hy (.same_caps rfl)
    | @clearOrigins p hdying hp hnone =>
      have hy' : (v.proc q).map (fun proc => proc.setCaps (proc.caps.clearOrigin p)) = some y := hy
      rw [hx, Option.map_some, Option.some.injEq] at hy'
      subst hy'
      refine ⟨fun cap hcap => Or.inl ⟨CapTable.clearLender p cap, ?_, .clear hdying⟩, Or.inl⟩
      rw [Process.setCaps_caps, CapTable.clearOrigin_slots, hcap]
      rfl
    | reorder hperm => exact hsame hy
  | grant hp hok hg hgiver hbound hin => exact .put hx hp hy (.place (CapTable.install_ok hin).1)
  | mintFrame hp hframes hnone hin => exact .put hx hp hy (.place (CapTable.install_ok hin).1)
  | mintRing hp hfree huse howner hwait hnone hsq hcq hmask hin hreg =>
    exact .put hx hp hy (.place (CapTable.install_ok hin).1)
  | parkCall hstate hpq hq hnone hin hpark =>
    exact .put hx hq hy (.place (CapTable.reclaim_some hin).1)
  | receiveCall hqueue hside hcall hq hnone hin hserve =>
    exact .put hx hq hy (.place (CapTable.reclaim_some hin).1)
  | mapFrame hp hk hobj hrec => exact .put hx hp hy (.same_caps rfl)
  | mapFb hp hk hobj hslot hrec htables hleaves => exact .put hx hp hy (.same_caps rfl)
  | takeEndpoint hp hk hobj hstate hnone hfirst htake hn =>
    exact .put hx hp hy (.revoke rfl (fun hres => hres) (Or.inr htake))
  | takeBound hp hk hobj hstate hnone hfirst htake =>
    exact .put hx hp hy (.revoke rfl (fun hres => hres) (Or.inr htake))
  | @leave p proc hp hstate hheld hdying htransit hcalm hleave =>
    dsimp only at hy
    by_cases hq : q = p
    · rw [hq, Function.update_self] at hy
      cases hy
    · rw [Function.update_of_ne hq] at hy
      exact hsame hy
  | @enter p proc boot rest spaces i budget rights hp hstate hcaps hspaces hframes hdying =>
    dsimp only at hy
    by_cases hq : q = p
    · rw [hq, hp] at hx
      cases hx
    · rw [Function.update_of_ne hq] at hy
      exact hsame hy
  | _ => exact hsame hy

end Plinth
