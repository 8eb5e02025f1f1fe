import Plinth.Ledger.Conserve

/-!
# `Plinth.Ledger.Traffic`: the way of a capability through the actions

A capability is in a slot, in transit, or held by a release or an exit. `Shift` says how one action
moves it, and a `Trail` is its way along a path. Neither looks at the origin of the capability.

`Act.traffic` lists what an action can do to the capabilities.
-/

set_option autoImplicit false

namespace Plinth

/-- Where a capability is. -/
inductive Spot where
  | slot (q : ProcSlot) (j : CapSlot)
  | transit
  | held (cap : Capability)

/-- The capability in slot `j` of the process in slot `q`. -/
def Ledger.capAt (v : Ledger) (q : ProcSlot) (j : CapSlot) : Option Capability :=
  (v.proc q).bind fun x => x.caps.slots j

/-- The capability at a spot. -/
inductive Ledger.At (v : Ledger) : Spot → Capability → Prop where
  | slot {q : ProcSlot} {j : CapSlot} {cap : Capability} (h : v.capAt q j = some cap) :
      At v (.slot q j) cap
  | transit {tr : Transit} (h : v.transit = some tr) : At v .transit tr.cap
  | held {cap : Capability} (h : cap ∈ v.held) : At v (.held cap) cap

/-- One action brings a capability from one spot to another. -/
inductive Shift (v v' : Ledger) : Spot → Spot → Prop where
  /-- The spot is taken before the action and after it. -/
  | stay {l : Spot} {cap cap' : Capability} (h : v.At l cap) (h' : v'.At l cap') : Shift v v' l l
  /-- A transfer begins. -/
  | give {tr : Transit} (hnone : v.transit = none) (htr : v'.transit = some tr) :
      Shift v v' (.slot tr.giver tr.slot) .transit
  /-- A transfer ends, and fills a slot. -/
  | arrive {q : ProcSlot} {j : CapSlot} {tr : Transit} {cap : Capability}
      (htr : v.transit = some tr) (hnone : v'.transit = none) (hempty : v.capAt q j = none)
      (hfull : v'.capAt q j = some cap) : Shift v v' .transit (.slot q j)
  /-- The slot is emptied, and its capability is held. -/
  | take {q : ProcSlot} {j : CapSlot} {cap : Capability} (hfull : v.capAt q j = some cap)
      (hempty : v'.capAt q j = none) (hheld : cap ∈ v'.held) :
      Shift v v' (.slot q j) (.held cap)
  /-- The first of the held capabilities fills a slot. -/
  | home {q : ProcSlot} {j : CapSlot} {cap cap' : Capability} (hheld : v.held = cap :: v'.held)
      (hempty : v.capAt q j = none) (hfull : v'.capAt q j = some cap') :
      Shift v v' (.held cap) (.slot q j)

/-- The way of a capability along a path. -/
inductive Trail (g : Guard) (v : Ledger) (l : Spot) : Ledger → Spot → Prop where
  | refl : Trail g v l v l
  | tail {u u' : Ledger} {m m' : Spot} (trail : Trail g v l u m) (act : Act g u u')
      (shift : Shift u u' m m') : Trail g v l u' m'

/-- The slots are the same, except for slot `k` of the process in slot `p`. -/
def SameBut (v v' : Ledger) (p : ProcSlot) (k : CapSlot) : Prop :=
  ∀ q j, ¬ (q = p ∧ j = k) → v'.capAt q j = v.capAt q j

/-- What an action does to the capabilities. -/
inductive Traffic (g : Guard) (v v' : Ledger) : Prop where
  /-- The kernel makes some, or none. What is held can be dropped. -/
  | make (hkeep : ∀ q j c, v.capAt q j = some c → v'.capAt q j = some c)
      (hnew : ∀ q j c, v'.capAt q j = some c → v.capAt q j = some c ∨ c.origin = none)
      (htr : v'.transit = v.transit) (hheld : ∀ c ∈ v'.held, c ∈ v.held)
      (hshrink : ∀ c, v.held = c :: v'.held → v'.capAt = v.capAt) (hspent : v'.spent = v.spent)
  /-- A charge, or the origins that name a process are cleared. -/
  | age (hnone : ∀ q j, v.capAt q j = none → v'.capAt q j = none)
      (hage : ∀ q j c, v.capAt q j = some c → ∃ c', v'.capAt q j = some c' ∧ v.Ages c c')
      (htr : v'.transit = v.transit) (hheld : v'.held = v.held) (hspent : v'.spent = v.spent)
  | give {p : ProcSlot} {k : CapSlot} {c : Capability} {f : Fate} (hg : g.give v p k f)
      (hfull : v.capAt p k = some c) (hempty : v'.capAt p k = none) (hrest : SameBut v v' p k)
      (hnone : v.transit = none) (htr : v'.transit = some ⟨c, p, k, f⟩)
      (hheld : v'.held = v.held) (hfirst : v.spent = false) (hspent : v'.spent = true)
  | settle {tr : Transit} {q : ProcSlot} {x : Process} {j : CapSlot} {c : Capability}
      (htr : v.transit = some tr) (hnone : v'.transit = none) (harrive : tr.Arrives q x j c)
      (hempty : v.capAt q j = none) (hfull : v'.capAt q j = some c) (hrest : SameBut v v' q j)
      (hheld : v'.held = v.held) (hspent : v'.spent = v.spent)
  | lose (hslots : v'.capAt = v.capAt) (hnone : v'.transit = none) (hheld : v'.held = v.held)
      (hspent : v'.spent = v.spent)
  /-- A release empties a slot. -/
  | take {p : ProcSlot} {k : CapSlot} {c : Capability} (hfull : v.capAt p k = some c)
      (hempty : v'.capAt p k = none) (hrest : SameBut v v' p k) (htr : v'.transit = v.transit)
      (hheld : v'.held = c :: v.held ∨ v'.held = v.held) (hfirst : v.spent = false)
      (hspent : v'.spent = true)
  | home {c : Capability} {o : Origin} {j : CapSlot} (hheld : v.held = c :: v'.held)
      (ho : c.origin = some o) (hempty : v.capAt o.lender j = none)
      (hfull : v'.capAt o.lender j = some { c with origin := none })
      (hrest : SameBut v v' o.lender j) (htr : v'.transit = v.transit)
      (hspent : v'.spent = v.spent)
  /-- A process leaves, and what it had is held. -/
  | leave {p : ProcSlot} (hg : g.leave v p) (hempty : ∀ j, v'.capAt p j = none)
      (hrest : ∀ q j, q ≠ p → v'.capAt q j = v.capAt q j) (htr : v'.transit = v.transit)
      (hnone : v.held = []) (hheld : ∀ c, c ∈ v'.held ↔ ∃ j, v.capAt p j = some c)
      (hspent : v'.spent = true)

section

variable {g : Guard} {v v' : Ledger} {p q : ProcSlot} {k j : CapSlot} {cap c : Capability}
  {proc x : Process} {t : CapTable} {o : Origin}

theorem Ledger.capAt_eq (hx : v.proc q = some x) : v.capAt q j = x.caps.slots j := by
  rw [Ledger.capAt, hx, Option.bind_some]

theorem Ledger.capAt_some (h : v.capAt q j = some c) :
    ∃ x, v.proc q = some x ∧ x.caps.slots j = some c := Option.bind_eq_some_iff.mp h

/-- The slots after a write to one process. -/
theorem Ledger.capAt_put (h : v'.proc = Function.update v.proc p (some x)) :
    v'.capAt p j = x.caps.slots j ∧ ∀ q, q ≠ p → v'.capAt q j = v.capAt q j := by
  refine ⟨?_, fun q hq => ?_⟩
  · rw [Ledger.capAt, h, Function.update_self, Option.bind_some]
  · rw [Ledger.capAt, Ledger.capAt, h, Function.update_of_ne hq]

/-- A write that keeps the table keeps the slots. -/
theorem Ledger.capAt_same (hp : v.proc p = some proc)
    (h : v'.proc = Function.update v.proc p (some x)) (hcaps : x.caps = proc.caps) :
    v'.capAt = v.capAt := by
  funext q j
  obtain ⟨hself, hother⟩ := Ledger.capAt_put (j := j) h
  by_cases hq : q = p
  · rw [hq, hself, hcaps, Ledger.capAt_eq hp]
  · exact hother q hq

/-- A write that fills a slot. -/
theorem Ledger.capAt_place (hp : v.proc p = some proc)
    (h : v'.proc = Function.update v.proc p (some (proc.setCaps t)))
    (hin : CapTable.Places proc.caps c k t) :
    v.capAt p k = none ∧ v'.capAt p k = some c ∧ SameBut v v' p k := by
  refine ⟨?_, ?_, fun q j hne => ?_⟩
  · rw [Ledger.capAt_eq hp, hin.empty]
  · rw [(Ledger.capAt_put h).1, Process.setCaps_caps, hin.slot_self]
  · obtain ⟨hself, hother⟩ := Ledger.capAt_put (j := j) h
    by_cases hq : q = p
    · have hj : j ≠ k := fun hjk => hne ⟨hq, hjk⟩
      rw [hq, hself, Process.setCaps_caps, hin.slot_of_ne hj, Ledger.capAt_eq hp]
    · exact hother q hq

/-- A write that empties a slot. -/
theorem Ledger.capAt_revoke (hp : v.proc p = some proc) (hk : proc.caps.slots k = some c)
    (h : v'.proc = Function.update v.proc p (some x))
    (hslots : x.caps.slots = Function.update proc.caps.slots k none) :
    v.capAt p k = some c ∧ v'.capAt p k = none ∧ SameBut v v' p k := by
  refine ⟨?_, ?_, fun q j hne => ?_⟩
  · rw [Ledger.capAt_eq hp, hk]
  · rw [(Ledger.capAt_put h).1, hslots, Function.update_self]
  · obtain ⟨hself, hother⟩ := Ledger.capAt_put (j := j) h
    by_cases hq : q = p
    · have hj : j ≠ k := fun hjk => hne ⟨hq, hjk⟩
      rw [hq, hself, hslots, Function.update_of_ne hj, Ledger.capAt_eq hp]
    · exact hother q hq

/-- The slots are the same, and nothing is given, taken or held anew. -/
theorem Traffic.quiet (hslots : v'.capAt = v.capAt) (htr : v'.transit = v.transit)
    (hheld : ∀ c ∈ v'.held, c ∈ v.held) (hspent : v'.spent = v.spent) : Traffic g v v' := by
  refine .make (fun q j c h => ?_) (fun q j c h => Or.inl ?_) htr hheld (fun _ _ => hslots) hspent
  · rw [hslots]
    exact h
  · rw [hslots] at h
    exact h

/-- The kernel makes one capability. -/
theorem Traffic.mint (hp : v.proc p = some proc)
    (h : v'.proc = Function.update v.proc p (some (proc.setCaps t)))
    (hin : CapTable.Places proc.caps c k t) (ho : c.origin = none)
    (htr : v'.transit = v.transit) (hheld : v'.held = v.held) (hspent : v'.spent = v.spent) :
    Traffic g v v' := by
  obtain ⟨hempty, hfull, hrest⟩ := Ledger.capAt_place hp h hin
  refine .make (fun q j d hd => ?_) (fun q j d hd => ?_) htr (fun d hd => ?_)
    (fun d hd => ?_) hspent
  · rw [hrest q j ?_]
    · exact hd
    · rintro ⟨rfl, rfl⟩
      rw [hempty] at hd
      cases hd
  · by_cases hself : q = p ∧ j = k
    · obtain ⟨rfl, rfl⟩ := hself
      rw [hfull] at hd
      cases hd
      exact Or.inr ho
    · rw [hrest q j hself] at hd
      exact Or.inl hd
  · rw [hheld] at hd
    exact hd
  · rw [hheld] at hd
    exact absurd (congrArg List.length hd) (by simp)

/-- A charge. -/
theorem Traffic.charge {budget budget' : Nat} (hp : v.proc p = some proc)
    (hk : proc.caps.slots k = some c) (hobj : c.object = .cpuTime budget)
    (h : v'.proc = Function.update v.proc p (some (proc.setCaps
      (proc.caps.set k (some { c with object := .cpuTime budget' })))))
    (htr : v'.transit = v.transit) (hheld : v'.held = v.held) (hspent : v'.spent = v.spent) :
    Traffic g v v' := by
  have hslot : v'.capAt p k = some { c with object := .cpuTime budget' } := by
    rw [(Ledger.capAt_put h).1]
    simp
  have hold : v.capAt p k = some c := by rw [Ledger.capAt_eq hp, hk]
  have hrest : SameBut v v' p k := by
    intro q j hne
    obtain ⟨hself, hother⟩ := Ledger.capAt_put (j := j) h
    by_cases hq : q = p
    · have hj : j ≠ k := fun hjk => hne ⟨hq, hjk⟩
      rw [hq, hself, Ledger.capAt_eq hp]
      simp [Function.update_of_ne hj]
    · exact hother q hq
  refine .age (fun q j hnone => ?_) (fun q j d hd => ?_) htr hheld hspent
  · rw [hrest q j ?_, hnone]
    rintro ⟨rfl, rfl⟩
    rw [hold] at hnone
    cases hnone
  · by_cases hself : q = p ∧ j = k
    · obtain ⟨rfl, rfl⟩ := hself
      rw [hold] at hd
      cases hd
      exact ⟨_, hslot, .charge hobj⟩
    · exact ⟨d, (hrest q j hself).trans hd, .same⟩

/-- A transfer begins. -/
theorem Traffic.gives {f : Fate} (hp : v.proc p = some proc) (hk : proc.caps.slots k = some c)
    (h : v'.proc = Function.update v.proc p (some x))
    (hslots : x.caps.slots = Function.update proc.caps.slots k none) (hg : g.give v p k f)
    (hnone : v.transit = none) (htr : v'.transit = some ⟨c, p, k, f⟩) (hheld : v'.held = v.held)
    (hfirst : v.spent = false) (hspent : v'.spent = true) : Traffic g v v' := by
  obtain ⟨hfull, hempty, hrest⟩ := Ledger.capAt_revoke hp hk h hslots
  exact .give hg hfull hempty hrest hnone htr hheld hfirst hspent

/-- A transfer ends in a slot. -/
theorem Traffic.settles {tr : Transit} (hq : v.proc q = some x)
    (h : v'.proc = Function.update v.proc q (some (x.setCaps t)))
    (hin : CapTable.Places x.caps c j t) (htr : v.transit = some tr) (hnone : v'.transit = none)
    (harrive : tr.Arrives q x j c) (hheld : v'.held = v.held) (hspent : v'.spent = v.spent) :
    Traffic g v v' := by
  obtain ⟨hempty, hfull, hrest⟩ := Ledger.capAt_place hq h hin
  exact .settle htr hnone harrive hempty hfull hrest hheld hspent

/-- A release empties a slot. -/
theorem Traffic.takes (hp : v.proc p = some proc) (hk : proc.caps.slots k = some c)
    (h : v'.proc = Function.update v.proc p (some x))
    (hslots : x.caps.slots = Function.update proc.caps.slots k none)
    (htr : v'.transit = v.transit) (hheld : v'.held = c :: v.held ∨ v'.held = v.held)
    (hfirst : v.spent = false) (hspent : v'.spent = true) : Traffic g v v' := by
  obtain ⟨hfull, hempty, hrest⟩ := Ledger.capAt_revoke hp hk h hslots
  exact .take hfull hempty hrest htr hheld hfirst hspent

/-- A capability goes home. -/
theorem Traffic.goes_home (hq : v.proc o.lender = some x)
    (h : v'.proc = Function.update v.proc o.lender (some (x.setCaps t)))
    (hin : CapTable.Places x.caps { c with origin := none } j t) (hheld : v.held = c :: v'.held)
    (ho : c.origin = some o) (htr : v'.transit = v.transit) (hspent : v'.spent = v.spent) :
    Traffic g v v' := by
  obtain ⟨hempty, hfull, hrest⟩ := Ledger.capAt_place hq h hin
  exact .home hheld ho hempty hfull hrest htr hspent

/-- What an action does to the capabilities. -/
theorem Act.traffic (act : Act g v v') : Traffic g v v' := by
  cases act with
  | table act =>
    cases act with
    | charge hp hk hobj hnone => exact .charge hp hk hobj rfl rfl rfl rfl
    | give hp hk hnone hdying hfirst hg =>
      exact .gives hp hk rfl (giveAway_slots ..) hg.2 hnone rfl rfl hfirst rfl
    | land htr hpq hq hin =>
      obtain ⟨hplaces, hprior⟩ := CapTable.installHome_some hin
      exact .settles hq rfl hplaces htr rfl (.land rfl hpq hprior) rfl rfl
    | child htr hpq hq hlender hin =>
      obtain ⟨hplaces, hres⟩ := CapTable.install_ok hin
      exact .settles hq rfl hplaces htr rfl (.child rfl hpq hlender hres) rfl rfl
    | back htr hp hin =>
      obtain ⟨hplaces, hres⟩ := CapTable.reclaim_some hin
      exact .settles hp rfl hplaces htr rfl (.back rfl rfl hres) rfl rfl
    | undo htr hp hin hown hfree =>
      exact .settles hp rfl hin htr rfl (.undo rfl rfl hown hfree) rfl rfl
    | lost htr hp hfull => exact .lose rfl rfl rfl rfl
    | take hp hk hkind hnone hdying hfirst hg =>
      exact .takes hp hk rfl (by rw [unmapForSlot_caps]; rfl) rfl (Or.inl rfl) hfirst rfl
    | home hheld ho hkind hp hnone hin =>
      exact .goes_home hp rfl (CapTable.goHome_some hin).1 hheld ho rfl rfl
    | strand hheld ho hkind hp hfull hg =>
      exact .quiet rfl rfl (fun c hc => by rw [hheld]; exact List.mem_cons_of_mem _ hc) rfl
    | drop hheld hplain =>
      exact .quiet rfl rfl (fun c hc => by rw [hheld]; exact List.mem_cons_of_mem _ hc) rfl
    | unmapFb i hp => exact .quiet (Ledger.capAt_same hp rfl rfl) rfl (fun _ hc => hc) rfl
    | @clearOrigins p hdying hp hnone =>
      -- Every slot keeps its capability, and the origins that name the process go.
      have hslot : ∀ q j, Ledger.capAt { v with toHoldings := { v.toHoldings with
          proc := fun q => (v.proc q).map fun proc => proc.setCaps (proc.caps.clearOrigin p)
          dying := none } } q j = (v.capAt q j).map (CapTable.clearLender p) := by
        intro q j
        unfold Ledger.capAt
        dsimp only
        cases v.proc q with
        | none => rfl
        | some x => rfl
      refine .age (fun q j hq => ?_) (fun q j c hc => ?_) rfl rfl rfl
      · rw [hslot, hq, Option.map_none]
      · exact ⟨CapTable.clearLender p c, by rw [hslot, hc, Option.map_some], .clear hdying⟩
    | reorder hperm => exact .quiet rfl rfl (fun c hc => hperm.mem_iff.mp hc) rfl
  | grant hp hok hg hgiver hbound hin =>
    exact .mint hp rfl (CapTable.install_ok hin).1 hok.1 rfl rfl rfl
  | mintFrame hp hframes hnone hin =>
    exact .mint hp rfl (CapTable.install_ok hin).1 rfl rfl rfl rfl
  | mintRing hp hfree huse howner hwait hnone hsq hcq hmask hin hreg =>
    exact .mint hp rfl (CapTable.install_ok hin).1 rfl rfl rfl rfl
  | parkCall hstate hpq hq hnone hin hpark =>
    exact .mint hq rfl (CapTable.reclaim_some hin).1 rfl rfl rfl rfl
  | receiveCall hqueue hside hcall hq hnone hin hserve =>
    exact .mint hq rfl (CapTable.reclaim_some hin).1 rfl rfl rfl rfl
  | mapFrame hp hk hobj hrec => exact .quiet (Ledger.capAt_same hp rfl rfl) rfl (fun _ hc => hc) rfl
  | mapFb hp hk hobj hslot hrec htables hleaves =>
    exact .quiet (Ledger.capAt_same hp rfl rfl) rfl (fun _ hc => hc) rfl
  | takeEndpoint hp hk hobj hstate hnone hfirst htake hn =>
    exact .takes hp hk rfl rfl rfl (Or.inr rfl) hfirst rfl
  | takeBound hp hk hobj hstate hnone hfirst htake =>
    exact .takes hp hk rfl rfl rfl (Or.inr rfl) hfirst rfl
  | dropEndpoint hheld hobj hdoomed hn =>
    exact .quiet rfl rfl (fun c hc => by rw [hheld]; exact List.mem_cons_of_mem _ hc) rfl
  | dropRing hheld hobj =>
    exact .quiet rfl rfl (fun c hc => by rw [hheld]; exact List.mem_cons_of_mem _ hc) rfl
  | dropFrame hheld hobj =>
    exact .quiet rfl rfl (fun c hc => by rw [hheld]; exact List.mem_cons_of_mem _ hc) rfl
  | dropReply hheld hobj =>
    exact .quiet rfl rfl (fun c hc => by rw [hheld]; exact List.mem_cons_of_mem _ hc) rfl
  | @leave p proc hp hstate hheld hdying htransit hcalm hleave =>
    refine .leave hleave (fun j => ?_) (fun q j hq => ?_) rfl hheld (fun c => ?_) rfl
    · simp [Ledger.capAt]
    · simp [Ledger.capAt, Function.update_of_ne hq]
    · simp only [Ledger.capAt_eq hp]
      exact CapTable.mem_iter
  | @enter p proc boot rest spaces k budget rights hp hstate hcaps hspaces hframes hdying =>
    -- The table of the new process has a budget only.
    have hdead : ∀ j, v.capAt p j = none := fun j => by simp [Ledger.capAt, hp]
    refine .make (fun q j c hc => ?_) (fun q j c hc => ?_) rfl (fun _ hc => hc)
      (fun c hc => absurd (congrArg List.length hc) (by simp)) rfl
    · have hq : q ≠ p := by
        rintro rfl
        rw [hdead] at hc
        cases hc
      simpa [Ledger.capAt, Function.update_of_ne hq] using hc
    · by_cases hq : q = p
      · subst hq
        right
        have hslot :
          (CapTable.new.set k (some ⟨.cpuTime budget, rights, none⟩)).slots j = some c := by
          simpa [Ledger.capAt, hcaps] using hc
        rw [CapTable.set_slots] at hslot
        by_cases hjk : j = k
        · rw [hjk, Function.update_self] at hslot
          cases hslot
          rfl
        · rw [Function.update_of_ne hjk] at hslot
          cases hslot
      · left
        simpa [Ledger.capAt, Function.update_of_ne hq] using hc
  | _ => exact .quiet rfl rfl (fun _ hc => hc) rfl

end

end Plinth
