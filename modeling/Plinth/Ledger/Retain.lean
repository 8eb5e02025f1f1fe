import Plinth.Ledger.Endpoints

/-!
# `Plinth.Ledger.Retain`: a process retains what it does not give away

A process retains a capability if it holds it, or if a transfer took it and will put it back.
`Act.retains` says how a process can stop retaining something: it gives it to somebody else, it
releases it, or it leaves. A guard that forbids the first two is `Retentive`.

The frames of a ring and the data frames of requests in flight are safe as long as their owner
retains them. The kernel keeps raw addresses there, and it does not look at the capabilities again.
-/

set_option autoImplicit false

namespace Plinth

variable {g : Guard} {v v' : Ledger} {p : ProcSlot} {o : CapObject}

/-- The transfer ends where it began. -/
def Fate.returns : Fate → Bool
  | .back => true
  | .undo => true
  | _ => false

/-- The process in slot `p` has a capability for `o`, or it will get one back. -/
def Ledger.Retains (v : Ledger) (p : ProcSlot) (o : CapObject) : Prop :=
  v.Holds p o ∨
    ∃ tr, v.transit = some tr ∧ tr.giver = p ∧ tr.fate.returns = true ∧ tr.cap.object = o

theorem Ledger.Retains.holds (h : v.Retains p o) (hnone : v.transit = none) : v.Holds p o := by
  rcases h with h | ⟨tr, htr, -⟩
  · exact h
  · rw [hnone] at htr
    cases htr

/-- A process that retains something is alive. -/
theorem Ledger.Retains.alive (h : v.Retains p o) (hs : v.toHoldings.Sound) :
    ∃ proc, v.proc p = some proc := by
  rcases h with ⟨k, rights, proc, cap, hp, -⟩ | ⟨tr, htr, rfl, -⟩
  · exact ⟨proc, hp⟩
  · obtain ⟨proc, hp, -⟩ := hs.transit tr htr
    exact ⟨proc, hp⟩

/-- In the ledger `v`, the guard lets nobody take a capability for `o` from slot `p`. -/
structure Guard.Retentive (g : Guard) (v : Ledger) (p : ProcSlot) (o : CapObject) : Prop where
  give : ∀ k f proc cap, g.give v p k f → v.proc p = some proc → proc.caps.slots k = some cap →
    cap.object = o → f.returns = true
  take : ∀ k proc cap, g.take v p k → v.proc p = some proc → proc.caps.slots k = some cap →
    cap.object ≠ o

/-- A table action keeps what a process holds, unless it gives it away or takes it. -/
theorem TableAct.holds_retains {give : ProcSlot → CapSlot → Fate → Prop}
    {take : ProcSlot → CapSlot → Prop} {strand : Capability → Prop} {h h' : Holdings}
    (act : TableAct give take strand h h') (ho : ∀ budget, o ≠ .cpuTime budget) {k : CapSlot}
    {rights : Rights} (hhas : Has h.proc p k o rights)
    (hgive : ∀ f proc cap, give p k f → h.proc p = some proc → proc.caps.slots k = some cap →
      cap.object = o → f.returns = true)
    (htake : ∀ proc cap, take p k → h.proc p = some proc → proc.caps.slots k = some cap →
      cap.object ≠ o) :
    Has h'.proc p k o rights ∨
      ∃ tr, h'.transit = some tr ∧ tr.giver = p ∧ tr.fate.returns = true ∧ tr.cap.object = o := by
  cases act with
  | @charge q x j c budget budget' hq hj hobj hnone =>
    refine Or.inl (hhas.put hq fun c' heq hk hc => ?_)
    have hjk : j ≠ k := by
      rintro rfl
      rw [hj, Option.some.injEq] at hk
      subst hk
      exact ho budget (hc.symm.trans hobj)
    exact ⟨c', by simp [Function.update_of_ne (Ne.symm hjk), hk], rfl, rfl⟩
  | @give q x j c f hq hj hnone hdying hfirst hg =>
    by_cases hmine : q = p ∧ j = k ∧ c.object = o
    · obtain ⟨rfl, rfl, hobj⟩ := hmine
      exact Or.inr ⟨_, rfl, rfl, hgive f x c hg hq hj hobj, hobj⟩
    · exact Or.inl (hhas.revoke hq hj (giveAway_slots _ _ _ _)
        fun hqp hjk hobj => hmine ⟨hqp, hjk, hobj⟩)
  | land htr hpq hq hin => exact Or.inl (hhas.place hq (CapTable.installHome_some hin).1)
  | child htr hpq hq hlender hin => exact Or.inl (hhas.place hq (CapTable.install_ok hin).1)
  | back htr hq hin => exact Or.inl (hhas.place hq (CapTable.reclaim_some hin).1)
  | undo htr hq hin hown hfree => exact Or.inl (hhas.place hq hin)
  | lost htr hq hfull => exact Or.inl hhas
  | @take q x j c hq hj hkind hnone hdying hfirst hg =>
    refine Or.inl (hhas.revoke hq hj (by simp) ?_)
    rintro rfl rfl
    exact htake x c hg hq hj
  | home hheld hor hkind hq hnone hin =>
    exact Or.inl (hhas.place hq (CapTable.goHome_some hin).1)
  | strand hheld hor hkind hq hfull hg => exact Or.inl hhas
  | drop hheld hplain => exact Or.inl hhas
  | unmapFb j hq => exact Or.inl (hhas.same_caps hq rfl)
  | @clearOrigins q hdying hq hnone =>
    obtain ⟨x, c, hp, hk, hobj, hr⟩ := hhas
    refine Or.inl ⟨x.setCaps (x.caps.clearOrigin q), CapTable.clearLender q c, by simp [hp], ?_,
      by simp [hobj], by simp [hr]⟩
    rw [Process.setCaps_caps, CapTable.clearOrigin_slots, hk]
    rfl
  | reorder hperm => exact Or.inl hhas

/-- A transfer that ends where it began puts the capability back. -/
theorem TableAct.transit_retains {give : ProcSlot → CapSlot → Fate → Prop}
    {take : ProcSlot → CapSlot → Prop} {strand : Capability → Prop} {h h' : Holdings}
    (act : TableAct give take strand h h') {tr : Transit} (htr : h.transit = some tr)
    (hfate : tr.fate.returns = true) :
    h'.transit = some tr ∨ ∃ k rights, Has h'.proc tr.giver k tr.cap.object rights := by
  -- A transfer is under way, so it is one of its ends, or the action is about something else.
  have hback : ∀ {x : Process} {j : CapSlot} {t : CapTable},
      CapTable.Places x.caps tr.cap j t →
      ∃ k rights, Has (Function.update h.proc tr.giver (some (x.setCaps t))) tr.giver k
        tr.cap.object rights :=
    fun {x j t} hin => ⟨j, tr.cap.rights, x.setCaps t, tr.cap, Function.update_self ..,
      hin.slot_self, rfl, rfl⟩
  cases act with
  | charge hq hj hobj hnone =>
    rw [hnone] at htr
    cases htr
  | give hq hj hnone hdying hfirst hg =>
    rw [hnone] at htr
    cases htr
  | land htr' hpq hq hin =>
    rw [htr', Option.some.injEq] at htr
    subst htr
    cases hfate
  | child htr' hpq hq hlender hin =>
    rw [htr', Option.some.injEq] at htr
    subst htr
    cases hfate
  | back htr' hq hin =>
    rw [htr', Option.some.injEq] at htr
    subst htr
    exact Or.inr (hback (CapTable.reclaim_some hin).1)
  | undo htr' hq hin hown hfree =>
    rw [htr', Option.some.injEq] at htr
    subst htr
    exact Or.inr (hback hin)
  | lost htr' hq hfull =>
    rw [htr', Option.some.injEq] at htr
    subst htr
    cases hfate
  | take hq hj hkind hnone hdying hfirst hg =>
    rw [hnone] at htr
    cases htr
  | home hheld hor hkind hq hnone hin =>
    rw [hnone] at htr
    cases htr
  | strand hheld hor hkind hq hfull hg => exact Or.inl htr
  | drop hheld hplain => exact Or.inl htr
  | unmapFb j hq => exact Or.inl htr
  | clearOrigins hdying hq hnone =>
    rw [hnone] at htr
    cases htr
  | reorder hperm => exact Or.inl htr

/-- The actions that are not about the tables keep the transfer that is under way. -/
theorem Act.transit_eq (act : Act g v v') :
    v'.transit = v.transit ∨ ∃ h, v' = { v with toHoldings := h } ∧
      TableAct (fun p k f => v.Free p ∧ g.give v p k f) (fun p k => v.Free p ∧ g.take v p k)
        (g.strand v) v.toHoldings h := by
  cases act with
  | table act => exact Or.inr ⟨_, rfl, act⟩
  | _ => exact Or.inl rfl

/-- An action keeps what a process holds, or the process leaves, or the guard does not retain
it. -/
theorem Act.holds_retains (act : Act g v v') (ho : ∀ budget, o ≠ .cpuTime budget)
    (hg : g.Retentive v p o) (h : v.Holds p o) :
    v'.Retains p o ∨ g.leave v p ∧ v'.proc p = none ∧
      ∃ proc, v.proc p = some proc ∧ v'.held = proc.caps.iter := by
  obtain ⟨k, rights, hhas⟩ := h
  cases act with
  | table act =>
    rcases act.holds_retains ho hhas (fun f x c hf => hg.give k f x c hf.2)
      (fun x c hf => hg.take k x c hf.2) with hkeep | htr
    · exact Or.inl (Or.inl ⟨k, rights, hkeep⟩)
    · exact Or.inl (Or.inr htr)
  | grant hp hok hgr hgiver hbound hin =>
    exact Or.inl (Or.inl ⟨k, rights, hhas.place hp (CapTable.install_ok hin).1⟩)
  | mintFrame hp hframes hnone hin =>
    exact Or.inl (Or.inl ⟨k, rights, hhas.place hp (CapTable.install_ok hin).1⟩)
  | mintRing hp hfree huse howner hwait hnone hsq hcq hmask hin hreg =>
    exact Or.inl (Or.inl ⟨k, rights, hhas.place hp (CapTable.install_ok hin).1⟩)
  | mapFrame hp hk hobj hrec => exact Or.inl (Or.inl ⟨k, rights, hhas.same_caps hp rfl⟩)
  | mapFb hp hk hobj hslot hrec htables hleaves =>
    exact Or.inl (Or.inl ⟨k, rights, hhas.same_caps hp rfl⟩)
  | takeEndpoint hq hj hobj hstate hnone hfirst htk hn =>
    refine Or.inl (Or.inl ⟨k, rights, hhas.revoke hq hj rfl ?_⟩)
    rintro rfl rfl
    exact hg.take _ _ _ htk hq hj
  | takeBound hq hj hobj hstate hnone hfirst htk =>
    refine Or.inl (Or.inl ⟨k, rights, hhas.revoke hq hj rfl ?_⟩)
    rintro rfl rfl
    exact hg.take _ _ _ htk hq hj
  | parkCall hstate hpq hq hnone hin hpark =>
    exact Or.inl (Or.inl ⟨k, rights, hhas.place hq (CapTable.reclaim_some hin).1⟩)
  | receiveCall hqueue hside hcall hq hnone hin hserve =>
    exact Or.inl (Or.inl ⟨k, rights, hhas.place hq (CapTable.reclaim_some hin).1⟩)
  | @leave q x hp hstate hheld hdying htransit hcalm hleave =>
    by_cases heq : q = p
    · subst heq
      exact Or.inr ⟨hleave, Function.update_self .., x, hp, rfl⟩
    · exact Or.inl (Or.inl ⟨k, rights, hhas.remove heq⟩)
  | enter hp hstate hcaps hspaces hframes hdying =>
    exact Or.inl (Or.inl ⟨k, rights, hhas.add hp⟩)
  | _ => exact Or.inl (Or.inl ⟨k, rights, hhas⟩)

/-- An action keeps what a process retains, or the process leaves, if the guard is retentive. -/
theorem Act.retains (act : Act g v v') (ho : ∀ budget, o ≠ .cpuTime budget)
    (hg : g.Retentive v p o) (h : v.Retains p o) :
    v'.Retains p o ∨ g.leave v p ∧ v'.proc p = none ∧
      ∃ proc, v.proc p = some proc ∧ v'.held = proc.caps.iter := by
  rcases h with h | ⟨tr, htr, rfl, hfate, rfl⟩
  · exact act.holds_retains ho hg h
  · left
    rcases act.transit_eq with heq | ⟨x, rfl, htable⟩
    · exact Or.inr ⟨tr, heq.trans htr, rfl, hfate, rfl⟩
    · rcases htable.transit_retains htr hfate with hstill | hback
      · exact Or.inr ⟨tr, hstill, rfl, hfate, rfl⟩
      · exact Or.inl hback

/-- A process that retains something, and does not leave, is still there after an action. -/
theorem Act.retains_same (act : Act g v v') (hs : v.toHoldings.Sound)
    (ho : ∀ budget, o ≠ .cpuTime budget) (hg : g.Retentive v p o) (hstay : ¬ g.leave v p)
    (h : v.Retains p o) : v'.Retains p o ∧ SameProcess v.proc v'.proc p := by
  obtain ⟨proc, hp⟩ := h.alive hs
  constructor
  · exact (act.retains ho hg h).resolve_right fun hleave => hstay hleave.1
  · exact (act.same_or_leaves hp).resolve_right fun hleave => hstay hleave.1

/-- Over a path, with a guard that is retentive everywhere. -/
theorem Path.retains (path : Path g v v') (hbase : v.Base) (ho : ∀ budget, o ≠ .cpuTime budget)
    (hg : ∀ u, g.Retentive u p o) (hstay : ∀ u, ¬ g.leave u p) (h : v.Retains p o) :
    v'.Retains p o ∧ SameProcess v.proc v'.proc p := by
  induction path with
  | refl =>
    obtain ⟨proc, hp⟩ := h.alive hbase.sound
    exact ⟨h, .refl hp⟩
  | tail path act ih =>
    have hsound := (Path.base path hbase).sound
    obtain ⟨hret, hsame⟩ := ih
    obtain ⟨hret', hsame'⟩ := act.retains_same hsound ho (hg _) (hstay _) hret
    exact ⟨hret', hsame.trans hsame'⟩

end Plinth
