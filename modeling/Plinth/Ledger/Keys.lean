import Plinth.Ledger.Flow
import Plinth.Ledger.Waiting

/-!
# `Plinth.Ledger.Keys`: the capabilities of a process that waits

No action takes a capability from a process that waits (`Act.keeps_has`). So the waiter of a
ring or of a bound device still holds the capability that it waited with.

`Keyed` adds that such a capability is the only one of its kind: a ring in use is named by at
most one capability and a free ring by none, and a bound device is named by at most one. So no
other process can release what somebody waits for.
-/

set_option autoImplicit false

namespace Plinth

/-! ### What a table action leaves alone -/

/-- The process in slot `p` has a capability with this object and these rights in slot `k`. -/
def Has (P : ProcSlot → Option Process) (p : ProcSlot) (k : CapSlot) (o : CapObject)
    (rights : Rights) : Prop :=
  ∃ proc cap, P p = some proc ∧ proc.caps.slots k = some cap ∧ cap.object = o ∧
    cap.rights = rights

section

variable {P : ProcSlot → Option Process} {p q : ProcSlot} {k j : CapSlot} {o : CapObject}
  {rights : Rights} {proc proc' : Process}

/-- A rewrite of one process keeps a capability, if the slot of that process keeps it. -/
theorem Has.put (h : Has P p k o rights) (hq : P q = some proc)
    (hkeep : ∀ cap, q = p → proc.caps.slots k = some cap → cap.object = o →
      ∃ cap', proc'.caps.slots k = some cap' ∧ cap'.object = cap.object ∧
        cap'.rights = cap.rights) :
    Has (Function.update P q (some proc')) p k o rights := by
  obtain ⟨prg, cap, hp, hk, hobj, hr⟩ := h
  by_cases heq : q = p
  · subst heq
    rw [hq, Option.some.injEq] at hp
    subst hp
    obtain ⟨cap', hk', hobj', hr'⟩ := hkeep cap rfl hk hobj
    exact ⟨proc', cap', Function.update_self .., hk', hobj'.trans hobj, hr'.trans hr⟩
  · exact ⟨prg, cap, by rw [Function.update_of_ne (Ne.symm heq), hp], hk, hobj, hr⟩

theorem Has.place (h : Has P p k o rights) {cap : Capability} {t : CapTable}
    (hq : P q = some proc) (hin : CapTable.Places proc.caps cap j t) :
    Has (Function.update P q (some (proc.setCaps t))) p k o rights :=
  h.put hq fun c _ hk _ => ⟨c, hin.keeps hk, rfl, rfl⟩

theorem Has.same_caps (h : Has P p k o rights) (hq : P q = some proc)
    (hcaps : proc'.caps = proc.caps) :
    Has (Function.update P q (some proc')) p k o rights :=
  h.put hq fun c _ hk _ => ⟨c, by rw [hcaps, hk], rfl, rfl⟩

/-- Removal of another slot, or of a capability for another object. -/
theorem Has.revoke (h : Has P p k o rights) {cap : Capability} (hq : P q = some proc)
    (hj : proc.caps.slots j = some cap)
      (hcaps : proc'.caps.slots = Function.update proc.caps.slots j none)
    (hne : q = p → j = k → cap.object ≠ o) :
    Has (Function.update P q (some proc')) p k o rights := by
  refine h.put hq fun c heq hk hobj => ?_
  by_cases hjk : j = k
  · subst hjk
    rw [hj, Option.some.injEq] at hk
    subst hk
    exact absurd hobj (hne heq rfl)
  · exact ⟨c, by rw [hcaps, Function.update_of_ne (Ne.symm hjk), hk], rfl, rfl⟩

theorem Has.remove (h : Has P p k o rights) (hne : q ≠ p) :
    Has (Function.update P q none) p k o rights := by
  obtain ⟨prg, cap, hp, hrest⟩ := h
  exact ⟨prg, cap, by rw [Function.update_of_ne (Ne.symm hne), hp], hrest⟩

theorem Has.add (h : Has P p k o rights) (hnone : P q = none) :
    Has (Function.update P q (some proc')) p k o rights := by
  obtain ⟨prg, cap, hp, hrest⟩ := h
  refine ⟨prg, cap, ?_, hrest⟩
  rw [Function.update_of_ne, hp]
  rintro rfl
  rw [hp] at hnone
  cases hnone

theorem Has.pos (h : Has P p k o rights) : 0 < liveTotal (objWeight o) P := by
  obtain ⟨prg, cap, hp, hk, rfl, -⟩ := h
  exact liveTotal_pos.mpr ⟨p, prg, k, cap, hp, hk, by rw [objWeight_self]; omega⟩

end

/-- A table action keeps every capability, except a CPU budget that it charges, the capability
that it gives away and the one that it takes. -/
theorem TableAct.keeps {give : ProcSlot → CapSlot → Fate → Prop}
    {take : ProcSlot → CapSlot → Prop} {strand : Capability → Prop} {h h' : Holdings}
    (act : TableAct give take strand h h') {p : ProcSlot} {k : CapSlot} {o : CapObject}
    {rights : Rights} (ho : ∀ budget, o ≠ .cpuTime budget) (hhas : Has h.proc p k o rights)
    (hgive : ∀ f, ¬ give p k f) (htake : ¬ take p k) : Has h'.proc p k o rights := by
  cases act with
  | @charge q proc j cap budget budget' hq hj hobj hnone =>
    refine hhas.put hq fun c heq hk hc => ?_
    have hjk : j ≠ k := by
      rintro rfl
      rw [hj, Option.some.injEq] at hk
      subst hk
      exact ho budget (hc.symm.trans hobj)
    exact ⟨c, by simp [Function.update_of_ne (Ne.symm hjk), hk], rfl, rfl⟩
  | @give q proc j cap f hq hj hnone hdying hfirst hg =>
    refine hhas.revoke hq hj (giveAway_slots _ _ _ _) ?_
    rintro rfl rfl
    exact absurd hg (hgive f)
  | land htr hpq hq hin => exact hhas.place hq (CapTable.installHome_some hin).1
  | child htr hpq hq hlender hin => exact hhas.place hq (CapTable.install_ok hin).1
  | back htr hp hin => exact hhas.place hp (CapTable.reclaim_some hin).1
  | undo htr hp hin hown hfree => exact hhas.place hp hin
  | lost htr hp hfull => exact hhas
  | @take q proc j cap hq hj hkind hnone hdying hfirst hg =>
    refine hhas.revoke hq hj (by simp) ?_
    rintro rfl rfl
    exact absurd hg htake
  | home hheld hor hkind hp hnone hin => exact hhas.place hp (CapTable.goHome_some hin).1
  | strand hheld hor hkind hp hfull hg => exact hhas
  | drop hheld hplain => exact hhas
  | unmapFb j hp => exact hhas.same_caps hp rfl
  | @clearOrigins q hdying hq hnone =>
    obtain ⟨prg, cap, hp, hk, hobj, hr⟩ := hhas
    refine ⟨prg.setCaps (prg.caps.clearOrigin q), CapTable.clearLender q cap, by simp [hp], ?_,
      by simp [hobj], by simp [hr]⟩
    rw [Process.setCaps_caps, CapTable.clearOrigin_slots, hk]
    rfl
  | reorder hperm => exact hhas


/-! ### Process instances -/

/-- The process in slot `p` of both tables is the same instance: it has the same address space. -/
def SameProcess (P P' : ProcSlot → Option Process) (p : ProcSlot) : Prop :=
  ∃ proc proc', P p = some proc ∧ P' p = some proc' ∧ proc'.l4 = proc.l4

section

variable {P P' P'' : ProcSlot → Option Process} {p q : ProcSlot} {proc proc' : Process}

theorem SameProcess.refl (h : P p = some proc) : SameProcess P P p := ⟨proc, proc, h, h, rfl⟩

theorem SameProcess.trans (h : SameProcess P P' p) (h' : SameProcess P' P'' p) :
    SameProcess P P'' p := by
  obtain ⟨x, y, hx, hy, heq⟩ := h
  obtain ⟨y', z, hy', hz, heq'⟩ := h'
  rw [hy, Option.some.injEq] at hy'
  subst hy'
  exact ⟨x, z, hx, hz, heq'.trans heq⟩

/-- A rewrite of a process that keeps its address space. -/
theorem SameProcess.put (h : P p = some proc) {x x' : Process} (hq : P q = some x)
    (hl4 : x'.l4 = x.l4) : SameProcess P (Function.update P q (some x')) p := by
  by_cases heq : p = q
  · subst heq
    exact ⟨x, x', hq, Function.update_self .., hl4⟩
  · exact ⟨proc, proc, h, (Function.update_of_ne heq ..).trans h, rfl⟩

end

/-- A table action keeps the processes. -/
theorem TableAct.same_process {give : ProcSlot → CapSlot → Fate → Prop}
    {take : ProcSlot → CapSlot → Prop} {strand : Capability → Prop} {h h' : Holdings}
    (act : TableAct give take strand h h') {p : ProcSlot} {proc : Process}
    (hp : h.proc p = some proc) : SameProcess h.proc h'.proc p := by
  cases act with
  | charge hq hj hobj hnone => exact .put hp hq rfl
  | give hq hj hnone hdying hfirst hg => exact .put hp hq (giveAway_l4 _ _ _ _)
  | land htr hpq hq hin => exact .put hp hq rfl
  | child htr hpq hq hlender hin => exact .put hp hq rfl
  | back htr hq hin => exact .put hp hq rfl
  | undo htr hq hin hown hfree => exact .put hp hq rfl
  | lost htr hq hfull => exact .refl hp
  | take hq hj hkind hnone hdying hfirst hg => exact .put hp hq (by simp)
  | home hheld hor hkind hq hnone hin => exact .put hp hq rfl
  | strand hheld hor hkind hq hfull hg => exact .refl hp
  | drop hheld hplain => exact .refl hp
  | unmapFb j hq => exact .put hp hq rfl
  | @clearOrigins q hdying hq hnone =>
    exact ⟨proc, proc.setCaps (proc.caps.clearOrigin q), hp, by simp [hp], rfl⟩
  | reorder hperm => exact .refl hp

/-- The action reclaims the process `proc` in slot `p`, and takes its capabilities. -/
structure Departs (g : Guard) (v v' : Ledger) (p : ProcSlot) (proc : Process) : Prop where
  leave : g.leave v p
  first : v.held = []
  vacant : v'.proc = Function.update v.proc p none
  held : v'.held = proc.caps.iter
  transit : v'.transit = v.transit
  spent : v'.spent = true

/-- An action keeps a process, or it reclaims it. -/
theorem Act.same_or_leaves {g : Guard} {v v' : Ledger} (act : Act g v v') {p : ProcSlot}
    {proc : Process} (hp : v.proc p = some proc) :
    SameProcess v.proc v'.proc p ∨ Departs g v v' p proc := by
  cases act with
  | table act => exact Or.inl (act.same_process hp)
  | grant hq hok hg hgiver hbound hin => exact Or.inl (.put hp hq rfl)
  | mintFrame hq hframes hnone hin => exact Or.inl (.put hp hq rfl)
  | mintRing hq hfree huse howner hwait hnone hsq hcq hmask hin hg => exact Or.inl (.put hp hq rfl)
  | mapFrame hq hk hobj hrec => exact Or.inl (.put hp hq rfl)
  | mapFb hq hk hobj hslot hrec htables hleaves => exact Or.inl (.put hp hq rfl)
  | takeEndpoint hq hj hobj hstate hnone hfirst hg hn => exact Or.inl (.put hp hq rfl)
  | takeBound hq hj hobj hstate hnone hfirst hg => exact Or.inl (.put hp hq rfl)
  | parkCall hstate hpq hq hnone hin hg => exact Or.inl (.put hp hq rfl)
  | receiveCall hqueue hside hcall hq hnone hin hg => exact Or.inl (.put hp hq rfl)
  | @leave q x hq hstate hheld hdying htransit hcalm hg =>
    by_cases heq : p = q
    · subst heq
      rw [hp, Option.some.injEq] at hq
      subst hq
      exact Or.inr ⟨hg, hheld, rfl, rfl, rfl, rfl⟩
    · exact Or.inl ⟨proc, proc, hp, (Function.update_of_ne heq ..).trans hp, rfl⟩
  | @enter q x boot rest spaces k budget rights hq hstate hcaps hspaces hframes hdying =>
    have hne : p ≠ q := by
      rintro rfl
      rw [hp] at hq
      cases hq
    exact Or.inl ⟨proc, proc, hp, (Function.update_of_ne hne ..).trans hp, rfl⟩
  | _ => exact Or.inl (.refl hp)

/-- An action keeps a process that it does not reclaim. -/
theorem Act.same_process {g : Guard} {v v' : Ledger} (act : Act g v v') {p : ProcSlot}
    {proc : Process} (hleave : ∀ v, ¬ g.leave v p) (hp : v.proc p = some proc) :
    SameProcess v.proc v'.proc p :=
  (act.same_or_leaves hp).resolve_right fun h => hleave _ h.1

/-- A path keeps a process that it does not reclaim. -/
theorem Path.same_process {g : Guard} {v v' : Ledger} (path : Path g v v') {p : ProcSlot}
    {proc : Process} (hleave : ∀ v, ¬ g.leave v p) (hp : v.proc p = some proc) :
    SameProcess v.proc v'.proc p := by
  induction path with
  | refl => exact .refl hp
  | tail path act ih =>
    obtain ⟨x, y, hx, hy, heq⟩ := ih
    exact SameProcess.trans ⟨x, y, hx, hy, heq⟩ (act.same_process hleave hy)

/-! ### The capabilities of a waiting process -/

variable {g : Guard} {v v' : Ledger}

/-- An action keeps the capabilities of a process that waits. -/
theorem Act.keeps_has (act : Act g v v') {p : ProcSlot} {k : CapSlot} {o : CapObject}
    {rights : Rights} (ho : ∀ budget, o ≠ .cpuTime budget) (hfree : ¬ v.Free p)
    (h : Has v.proc p k o rights) : Has v'.proc p k o rights := by
  have hblocked : ∀ q, v.state q ≠ .blocked → q ≠ p := by
    rintro q hq rfl
    exact hfree (Or.inl hq)
  cases act with
  | table act => exact act.keeps ho h (fun f hg => hfree hg.1) fun hg => hfree hg.1
  | grant hp hok hg hgiver hbound hin => exact h.place hp (CapTable.install_ok hin).1
  | mintFrame hp hframes hnone hin => exact h.place hp (CapTable.install_ok hin).1
  | mintRing hp hfree huse howner hwait hnone hsq hcq hmask hin hg =>
    exact h.place hp (CapTable.install_ok hin).1
  | mapFrame hp hk hobj hrec => exact h.same_caps hp rfl
  | mapFb hp hk hobj hslot hrec htables hleaves => exact h.same_caps hp rfl
  | takeEndpoint hq hj hobj hstate hnone hfirst hg hn =>
    exact h.revoke hq hj rfl fun heq => absurd heq (hblocked _ hstate)
  | takeBound hq hj hobj hstate hnone hfirst hg =>
    exact h.revoke hq hj rfl fun heq => absurd heq (hblocked _ hstate)
  | parkCall hstate hpq hq hnone hin hg => exact h.place hq (CapTable.reclaim_some hin).1
  | receiveCall hqueue hside hcall hq hnone hin =>
    exact h.place hq (CapTable.reclaim_some hin).1
  | leave hp hstate hheld hdying htransit hcalm hg => exact h.remove (hblocked _ hstate)
  | enter hp hstate hcaps hspaces hframes hdying => exact h.add hp
  | _ => exact h

/-- The process in slot `p` has a capability for `o`. -/
def Ledger.Holds (v : Ledger) (p : ProcSlot) (o : CapObject) : Prop :=
  ∃ k rights, Has v.proc p k o rights

theorem Ledger.Holds.of_slot {p : ProcSlot} {proc : Process} {k : CapSlot} {cap : Capability}
    {o : CapObject} (hp : v.proc p = some proc) (hk : proc.caps.slots k = some cap)
    (hobj : cap.object = o) : v.Holds p o :=
  ⟨k, cap.rights, proc, cap, hp, hk, hobj, rfl⟩

/-- The only holder of something that weighs at most one. -/
theorem Ledger.Holds.unique {p q : ProcSlot} {o : CapObject} (hp : v.Holds p o)
    (hq : v.Holds q o) (hone : v.total (objWeight o) ≤ 1) : p = q := by
  obtain ⟨k, r, proc, cap, hproc, hk, hobj, -⟩ := hp
  obtain ⟨k', r', proc', cap', hproc', hk', hobj', -⟩ := hq
  by_contra hne
  have htwo := Tally.add_le_tally (procWeight (objWeight o)) hne hproc hproc'
  have hfirst := le_procWeight (objWeight o) hk
  have hsecond := le_procWeight (objWeight o) hk'
  rw [← hobj, objWeight_self, hobj] at hfirst
  rw [← hobj', objWeight_self, hobj'] at hsecond
  unfold Holdings.total liveTotal at hone
  omega

/-- Ring capabilities and bound-device capabilities are unique, and the processes that wait at a
ring or a device hold them. -/
structure Ledger.Keyed (v : Ledger) : Prop where
  rings : ∀ id, v.total (objWeight (.ring id)) ≤ if (v.rings id).inUse then 1 else 0
  bounds : ∀ dev, v.total (objWeight (.boundDevice dev)) ≤ 1
  ringKey : ∀ id, (v.rings id).waiting = true →
    (v.rings id).inUse = true ∧ v.Holds (v.rings id).owner (.ring id)
  boundKey : ∀ dev p, waiterOf (v.devs.devices dev) = some p → v.Holds p (.boundDevice dev)

theorem Act.keeps_holds (act : Act g v v') {p : ProcSlot} {o : CapObject}
    (ho : ∀ budget, o ≠ .cpuTime budget) (hfree : ¬ v.Free p) (h : v.Holds p o) :
    v'.Holds p o := by
  obtain ⟨k, rights, hhas⟩ := h
  exact ⟨k, rights, act.keeps_has ho hfree hhas⟩

/-- A process with a registration other than being about to wake up is not free. -/
theorem Ledger.Registered.not_free {p : ProcSlot} (h : v.Registered)
    (hpos : 0 < queued v.queue p + v.total (objWeight (.reply p)) + ringWaits v.rings p +
      boundWaits v.devs.devices p) : ¬ v.Free p := by
  have hreg := h p
  unfold Ledger.regs at hreg
  rintro (hstate | hawake)
  · rw [mayWait_of_ne hstate] at hreg
    omega
  · have hcount := List.count_pos_iff.mpr hawake
    have hle : mayWait (v.state p) ≤ 1 := by
      unfold mayWait
      split <;> omega
    omega

theorem ringWait_le (R : RingId → Ring) (id : RingId) (p : ProcSlot) :
    ringWait p (R id) ≤ ringWaits R p :=
  Finset.single_le_sum (f := fun id => ringWait p (R id)) (fun _ _ => Nat.zero_le _)
    (Finset.mem_univ id)

theorem boundWait_le (D : DevId → Option VirtioBlk) (dev : DevId) (p : ProcSlot) :
    boundWait p (D dev) ≤ boundWaits D p :=
  Finset.single_le_sum (f := fun dev => boundWait p (D dev)) (fun _ _ => Nat.zero_le _)
    (Finset.mem_univ dev)

/-- The owner of a ring that is waited for is not free. -/
theorem Ledger.Registered.ring_not_free (h : v.Registered) {id : RingId}
    (hwait : (v.rings id).waiting = true) : ¬ v.Free (v.rings id).owner := by
  refine h.not_free ?_
  have hle := ringWait_le v.rings id (v.rings id).owner
  have hone : ringWait (v.rings id).owner (v.rings id) = 1 := if_pos ⟨hwait, rfl⟩
  omega

/-- The waiter of a bound device is not free. -/
theorem Ledger.Registered.bound_not_free (h : v.Registered) {dev : DevId} {p : ProcSlot}
    (hwait : waiterOf (v.devs.devices dev) = some p) : ¬ v.Free p := by
  refine h.not_free ?_
  have hle := boundWait_le v.devs.devices dev p
  have hone : boundWait p (v.devs.devices dev) = 1 := if_pos hwait
  omega

/-- The rings after an action: a ring changed and the others did not. -/
theorem Act.ringKey (act : Act g v v') (hreg : v.Registered)
    (h : ∀ id, (v.rings id).waiting = true →
      (v.rings id).inUse = true ∧ v.Holds (v.rings id).owner (.ring id)) :
    ∀ id, (v'.rings id).waiting = true →
      (v'.rings id).inUse = true ∧ v'.Holds (v'.rings id).owner (.ring id) := by
  have hsame : v'.rings = v.rings → ∀ id, (v'.rings id).waiting = true →
      (v'.rings id).inUse = true ∧ v'.Holds (v'.rings id).owner (.ring id) := by
    intro heq id hwait
    rw [heq] at hwait ⊢
    obtain ⟨huse, hholds⟩ := h id hwait
    exact ⟨huse, act.keeps_holds (fun b heq => by cases heq) (hreg.ring_not_free hwait) hholds⟩
  have hone : ∀ (id : RingId) (r : Ring), v'.rings = Function.update v.rings id r →
      (r.waiting = true → r.inUse = true ∧ v'.Holds r.owner (.ring id)) →
      ∀ id', (v'.rings id').waiting = true →
        (v'.rings id').inUse = true ∧ v'.Holds (v'.rings id').owner (.ring id') := by
    intro id r heq hr id' hwait
    rw [heq] at hwait ⊢
    by_cases hid : id' = id
    · subst hid
      rw [Function.update_self] at hwait ⊢
      exact hr hwait
    · rw [Function.update_of_ne hid] at hwait ⊢
      obtain ⟨huse, hholds⟩ := h id' hwait
      exact ⟨huse, act.keeps_holds (fun b heq => by cases heq) (hreg.ring_not_free hwait) hholds⟩
  cases act with
  | mintRing hp hfree huse howner hwait hnone hsq hcq hmask hin hg =>
    exact hone _ _ rfl fun hyes => by rw [hwait] at hyes; cases hyes
  | parkRing hp hk hobj hlive hstate huse howner hown hsq hcq hmask htail hwait hg =>
    refine hone _ _ rfl fun _ => ⟨huse.trans hlive, ?_⟩
    rw [hown]
    exact Ledger.Holds.of_slot hp hk hobj
  | @ringTick id r huse howner hsq hcq hmask htail hwait =>
    refine hone _ _ rfl fun hyes => ?_
    rw [hwait] at hyes
    obtain ⟨hin, hholds⟩ := h id hyes
    rw [huse, howner]
    exact ⟨hin, hholds⟩
  | ringPost huse howner hsq hcq hmask hwait =>
    exact hone _ _ rfl fun hyes => by rw [hwait] at hyes; cases hyes
  | ringStale hfree huse hwait =>
    exact hone _ _ rfl fun hyes => by rw [hwait] at hyes; cases hyes
  | dropRing hheld hobj => exact hone _ _ rfl fun hyes => by cases hyes
  | _ => exact hsame rfl

/-- The waiters of the devices after an action: nobody new, or the process that parks. -/
theorem Act.new_waiter (act : Act g v v') {dev : DevId} {p : ProcSlot}
    (h : waiterOf (v'.devs.devices dev) = some p) :
    waiterOf (v.devs.devices dev) = some p ∨
      v'.Holds p (.boundDevice dev) ∧ g.park p (.bound dev) := by
  have hone : ∀ (dev' : DevId) (d d' : VirtioBlk), v.devs.devices dev' = some d →
      v'.devs.devices = Function.update v.devs.devices dev' (some d') →
      (waiterOf (some d') = some p → waiterOf (some d) = some p) →
      waiterOf (v.devs.devices dev) = some p := by
    intro dev' d d' hd heq hw
    rw [heq] at h
    by_cases hdev : dev = dev'
    · subst hdev
      rw [Function.update_self] at h
      rw [hd]
      exact hw h
    · rwa [Function.update_of_ne hdev] at h
  cases act with
  | @parkBind q proc k cap dev' d b hp hk hobj hstate hd hb hg =>
    by_cases hdev : dev = dev'
    · subst hdev
      change waiterOf (Function.update v.devs.devices dev _ dev) = some p at h
      rw [Function.update_self] at h
      have hqp : some q = some p := h
      rw [Option.some.injEq] at hqp
      subst hqp
      exact Or.inr ⟨Ledger.Holds.of_slot hp hk hobj, hg⟩
    · change waiterOf (Function.update v.devs.devices dev' _ dev) = some p at h
      rw [Function.update_of_ne hdev] at h
      exact Or.inl h
  | post hp hd huse howner hsubmit hframe hg => exact Or.inl (hone _ _ _ hd rfl fun h => h)
  | complete hd hinf hwf => exact Or.inl (hone _ _ _ hd rfl fun h => h)
  | unwait hd hb => exact Or.inl (hone _ _ _ hd rfl fun h => by cases h)
  | @takeBound q proc k cap dev' hp hk hobj hstate hnone hfirst hg =>
    left
    change waiterOf ((v.devs.detach dev').1.devices dev) = some p at h
    rcases devices_detach v.devs dev' with heq | heq
    · rwa [heq] at h
    · rw [heq] at h
      by_cases hdev : dev = dev'
      · subst hdev
        rw [Function.update_self] at h
        cases h
      · rwa [Function.update_of_ne hdev] at h
  | _ => exact Or.inl h

/-- A ring capability is made with the registration of its ring. -/
theorem Makes.ring_of {cap : Capability} {id : RingId} (h : Makes g v v' cap)
    (hobj : cap.object = .ring id) : (v.rings id).inUse = false ∧
      ∃ r, r.inUse = true ∧ v'.rings = Function.update v.rings id r := by
  cases h with
  | grant hok _ _ =>
    obtain ⟨-, hkind⟩ := hok
    rw [hobj] at hkind
    exact hkind.elim
  | ring hobj' hfree huse hupd =>
    rw [hobj] at hobj'
    cases hobj'
    exact ⟨hfree, _, huse, hupd⟩
  | frame hobj' _ => rw [hobj] at hobj'; cases hobj'
  | reply hobj' => rw [hobj] at hobj'; cases hobj'
  | budget hobj' => rw [hobj] at hobj'; cases hobj'

/-- A ring capability ends with the registration of its ring. -/
theorem Ends.ring_of {cap : Capability} {id : RingId} (h : Ends v v' cap)
    (hobj : cap.object = .ring id) : v'.rings = Function.update v.rings id Ring.empty := by
  cases h with
  | ring hobj' hupd =>
    rw [hobj] at hobj'
    cases hobj'
    exact hupd
  | endpoint hobj' => rw [hobj] at hobj'; cases hobj'
  | frame hobj' => rw [hobj] at hobj'; cases hobj'
  | reply hobj' _ => rw [hobj] at hobj'; cases hobj'
  | bound hobj' => rw [hobj] at hobj'; cases hobj'

/-- Only a capability for the ring changes whether it is in use. -/
theorem inUse_of_ne {cap : Capability} {id : RingId} (hne : cap.object ≠ .ring id)
    (hupd : ∀ id', cap.object = .ring id' → ∃ r, v'.rings = Function.update v.rings id' r)
    (hrings : (∃ id', cap.object = .ring id') ∨ v'.rings = v.rings) :
    (v'.rings id).inUse = (v.rings id).inUse := by
  rcases hrings with ⟨id', hobj⟩ | heq
  · obtain ⟨r, heq⟩ := hupd id' hobj
    rw [heq, Function.update_of_ne]
    rintro rfl
    exact hne hobj
  · rw [heq]

/-- The capabilities for a ring after an action: at most one if the ring is in use. -/
theorem Act.rings_le (act : Act g v v') (hs : v.toHoldings.Sound) (id : RingId)
    (h : v.total (objWeight (.ring id)) ≤ if (v.rings id).inUse then 1 else 0) :
    v'.total (objWeight (.ring id)) ≤ if (v'.rings id).inUse then 1 else 0 := by
  have hone : v.total (objWeight (.ring id)) ≤ 1 := by
    split at h <;> omega
  rcases act.flow hs with ⟨gone, -, htotal, hrings⟩ | ⟨cap, hmakes, htotal, hrings⟩ |
    ⟨cap, hends, htotal, hrings⟩
  · have hsum := htotal (objWeight (.ring id)) (objWeight_tracked trivial)
    rw [hrings id]
    omega
  · have hsum := htotal (objWeight (.ring id))
    by_cases hobj : cap.object = .ring id
    · obtain ⟨hfree, r, huse, hupd⟩ := hmakes.ring_of hobj
      rw [objWeight, if_pos hobj] at hsum
      rw [hfree] at h
      rw [hupd, Function.update_self, huse]
      simp only [Bool.false_eq_true, if_false, if_true] at h ⊢
      omega
    · rw [objWeight_of_ne hobj] at hsum
      rw [inUse_of_ne hobj (fun id' hid => (hmakes.ring_of hid).2.imp fun r hr => hr.2) hrings]
      omega
  · have hsum := htotal (objWeight (.ring id))
    by_cases hobj : cap.object = .ring id
    · rw [objWeight, if_pos hobj] at hsum
      exact le_trans (by omega) (Nat.zero_le _)
    · rw [objWeight_of_ne hobj] at hsum
      rw [inUse_of_ne hobj (fun id' hid => ⟨_, hends.ring_of hid⟩) hrings]
      omega

/-- The capabilities for a bound device after an action: still at most one. -/
theorem Act.bounds_le (act : Act g v v') (hs : v.toHoldings.Sound) (dev : DevId)
    (h : v.total (objWeight (.boundDevice dev)) ≤ 1) :
    v'.total (objWeight (.boundDevice dev)) ≤ 1 := by
  rcases act.flow hs with ⟨gone, -, htotal, -⟩ | ⟨cap, hmakes, htotal, -⟩ | ⟨cap, -, htotal, -⟩
  · have hsum := htotal (objWeight (.boundDevice dev))
      (objWeight_steady fun budget heq => by cases heq)
    omega
  · have hsum := htotal (objWeight (.boundDevice dev))
    by_cases hobj : cap.object = .boundDevice dev
    · rw [objWeight, if_pos hobj] at hsum
      cases hmakes with
      | grant _ _ hbound =>
        have hnone := hbound dev hobj
        omega
      | frame hobj' _ => rw [hobj] at hobj'; cases hobj'
      | ring hobj' _ _ _ => rw [hobj] at hobj'; cases hobj'
      | reply hobj' => rw [hobj] at hobj'; cases hobj'
      | budget hobj' => rw [hobj] at hobj'; cases hobj'
    · rw [objWeight_of_ne hobj] at hsum
      omega
  · have hsum := htotal (objWeight (.boundDevice dev))
    omega

/-- Every action keeps the keys. -/
theorem Act.keyed (act : Act g v v') (hs : v.toHoldings.Sound) (hreg : v.Registered)
    (h : v.Keyed) : v'.Keyed where
  rings := fun id => act.rings_le hs id (h.rings id)
  bounds := fun dev => act.bounds_le hs dev (h.bounds dev)
  ringKey := act.ringKey hreg h.ringKey
  boundKey := by
    intro dev p hwait
    rcases act.new_waiter hwait with hold | ⟨hholds, -⟩
    · exact act.keeps_holds (fun b heq => by cases heq) (hreg.bound_not_free hold)
        (h.boundKey dev p hold)
    · exact hholds

end Plinth
