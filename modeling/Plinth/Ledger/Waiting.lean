import Plinth.Ledger.Sound

/-!
# `Plinth.Ledger.Waiting`: who waits, and for what

A process can wait in the queue of an endpoint, for a reply, for a ring, or for a bound device.
`Ledger.regs v p` counts the places where the process slot `p` is registered to be woken. A
Reply capability that names `p` is one of them, and so is a pending wake.

`Registered`: a blocked process is registered at most once, and a process that is not blocked
is not registered. So two places never wake the same process, and nobody wakes a process that
does not wait.

`Holders`: who waits at an endpoint holds a capability for it.
-/

set_option autoImplicit false

namespace Plinth

/-! ### Registrations -/

/-- The number of wait queues that hold `p`. -/
def queued (Q : EndpointId → List ProcSlot) (p : ProcSlot) : Nat := ∑ id, (Q id).count p

/-- The ring wakes its owner `p` at the next completion. -/
def ringWait (p : ProcSlot) (r : Ring) : Nat := if r.waiting = true ∧ r.owner = p then 1 else 0

/-- The number of rings that wake `p`. -/
def ringWaits (R : RingId → Ring) (p : ProcSlot) : Nat := ∑ id, ringWait p (R id)

/-- The process in `bind_wait` on a device. -/
def waiterOf (d : Option VirtioBlk) : Option ProcSlot := (d.bind VirtioBlk.bound).bind Bound.waiter

/-- The device wakes `p` at its next interrupt. -/
def boundWait (p : ProcSlot) (d : Option VirtioBlk) : Nat := if waiterOf d = some p then 1 else 0

/-- The number of devices that wake `p`. -/
def boundWaits (D : DevId → Option VirtioBlk) (p : ProcSlot) : Nat := ∑ dev, boundWait p (D dev)

/-- The number of places where `p` is registered to be woken. -/
def Ledger.regs (v : Ledger) (p : ProcSlot) : Nat :=
  queued v.queue p + v.total (objWeight (.reply p)) + ringWaits v.rings p +
    boundWaits v.devs.devices p + v.awake.count p

/-- The number of registrations that a process may have. -/
def mayWait (s : ProcState) : Nat := if s = .blocked then 1 else 0

@[simp] theorem mayWait_blocked : mayWait .blocked = 1 := rfl

theorem mayWait_of_ne {s : ProcState} (h : s ≠ .blocked) : mayWait s = 0 := if_neg h

/-- A blocked process is registered at most once, and no other process is registered. -/
def Ledger.Registered (v : Ledger) : Prop := ∀ p, v.regs p ≤ mayWait (v.state p)

theorem queued_update (Q : EndpointId → List ProcSlot) (id : EndpointId) (l : List ProcSlot)
    (p : ProcSlot) :
    queued (Function.update Q id l) p + (Q id).count p = queued Q p + l.count p :=
  Tally.sum_comp_update (List.count p) Q id l

theorem ringWaits_update (R : RingId → Ring) (id : RingId) (r : Ring) (p : ProcSlot) :
    ringWaits (Function.update R id r) p + ringWait p (R id) = ringWaits R p + ringWait p r :=
  Tally.sum_comp_update (ringWait p) R id r

theorem boundWaits_update (D : DevId → Option VirtioBlk) (dev : DevId) (d : Option VirtioBlk)
    (p : ProcSlot) :
    boundWaits (Function.update D dev d) p + boundWait p (D dev)
      = boundWaits D p + boundWait p d :=
  Tally.sum_comp_update (boundWait p) D dev d

theorem boundWaits_update_same {D : DevId → Option VirtioBlk} {dev : DevId} {d x : VirtioBlk}
    (hd : D dev = some d) (h : x.bound = d.bound) (p : ProcSlot) :
    boundWaits (Function.update D dev (some x)) p = boundWaits D p := by
  have hup := boundWaits_update D dev (some x) p
  have hsame : boundWait p (some x) = boundWait p (D dev) := by
    unfold boundWait waiterOf
    rw [hd, Option.bind_some, Option.bind_some, h]
  omega

theorem boundWaits_remove_le (D : DevId → Option VirtioBlk) (dev : DevId) (p : ProcSlot) :
    boundWaits (Function.update D dev none) p ≤ boundWaits D p := by
  have hup := boundWaits_update D dev none p
  have hnone : boundWait p none = 0 := rfl
  omega

theorem count_le_queued (Q : EndpointId → List ProcSlot) (id : EndpointId) (p : ProcSlot) :
    (Q id).count p ≤ queued Q p :=
  Finset.single_le_sum (f := fun i => (Q i).count p) (fun _ _ => Nat.zero_le _)
    (Finset.mem_univ id)

/-- Two different queues hold `p` at most `queued` times together. -/
theorem add_count_le_queued (Q : EndpointId → List ProcSlot) {id id' : EndpointId}
    (h : id ≠ id') (p : ProcSlot) : (Q id).count p + (Q id').count p ≤ queued Q p := by
  have hup := queued_update Q id [] p
  have hle := count_le_queued (Function.update Q id []) id' p
  rw [Function.update_of_ne (Ne.symm h)] at hle
  rw [List.count_nil] at hup
  omega

namespace Ledger

variable {v : Ledger} {p : ProcSlot}

/-- A process that is free waits in no queue. -/
theorem Registered.not_queued (h : v.Registered) (hfree : v.Free p) (id : EndpointId) :
    p ∉ v.queue id := by
  intro hmem
  have hreg := h p
  have hcount := count_le_queued v.queue id p
  have hpos : 0 < (v.queue id).count p := List.count_pos_iff.mpr hmem
  unfold regs at hreg
  rcases hfree with hstate | hawake
  · rw [mayWait_of_ne hstate] at hreg
    omega
  · have hpos' : 0 < v.awake.count p := List.count_pos_iff.mpr hawake
    have hle : mayWait (v.state p) ≤ 1 := by
      unfold mayWait
      split <;> omega
    omega

theorem Registered.regs_zero (h : v.Registered) (hstate : v.state p ≠ .blocked) :
    v.regs p = 0 := by
  have hreg := h p
  rw [mayWait_of_ne hstate] at hreg
  omega

/-- A registered process is blocked. -/
theorem Registered.blocked (h : v.Registered) (hpos : 0 < v.regs p) :
    v.state p = .blocked := by
  by_contra hne
  have hzero := h.regs_zero hne
  omega

/-- Two queues have no member in common. -/
theorem Registered.disjoint (h : v.Registered) {id id' : EndpointId} (hne : id ≠ id')
    (hmem : p ∈ v.queue id) : p ∉ v.queue id' := by
  intro hmem'
  have hreg := h p
  have hadd := add_count_le_queued v.queue hne p
  have hpos : 0 < (v.queue id).count p := List.count_pos_iff.mpr hmem
  have hpos' : 0 < (v.queue id').count p := List.count_pos_iff.mpr hmem'
  have hle : mayWait (v.state p) ≤ 1 := by
    unfold mayWait
    split <;> omega
  unfold regs at hreg
  omega

end Ledger

/-- The replies that a capability of another kind weighs: none. -/
theorem replyWeight_of_ne {cap : Capability} (h : ∀ c, cap.object ≠ .reply c) (p : ProcSlot) :
    objWeight (.reply p) cap = 0 := objWeight_of_ne (h p)

theorem grantable_not_reply {v : Ledger} {cap : Capability} (h : v.Grantable cap)
    (c : ProcSlot) : cap.object ≠ .reply c := by
  intro hobj
  have hkind := h.2
  rw [hobj] at hkind
  exact hkind

theorem replyWeight_replyCap (p q : ProcSlot) :
    objWeight (.reply q) (Kernel.replyCap p) = if p = q then 1 else 0 := by
  unfold objWeight Kernel.replyCap
  simp

theorem devices_detach (ds : Devices) (dev : DevId) :
    (ds.detach dev).1.devices = ds.devices ∨
      (ds.detach dev).1.devices = Function.update ds.devices dev none := by
  unfold Devices.detach
  split
  · exact Or.inl rfl
  · right
    dsimp only
    split
    · rfl
    · split <;> rfl

/-- An action registers only a running process, which blocks. -/
theorem Act.regs_le {g : Guard} {v v' : Ledger} (act : Act g v v')
    (hs : v.toHoldings.Sound) (q : ProcSlot) :
    v'.regs q ≤ v.regs q ∨
      v.state q = .running ∧ v'.state q = .blocked ∧ v'.regs q ≤ v.regs q + 1 := by
  cases act with
  | table act =>
    left
    have htotal := act.total_tracked hs (o := .reply q) trivial
    simp only [Ledger.regs, htotal, le_refl]
  | grant hp hok hg hgiver hbound hin =>
    left
    have hput := liveTotal_places (objWeight (.reply q)) hp (CapTable.install_ok hin).1
    rw [replyWeight_of_ne (grantable_not_reply hok)] at hput
    simp only [Ledger.regs, Holdings.total, hput]
    omega
  | mintFrame hp hframes hnone hin =>
    left
    have hput := liveTotal_places (objWeight (.reply q)) hp (CapTable.install_ok hin).1
    rw [replyWeight_of_ne fun c heq => by cases heq] at hput
    simp only [Ledger.regs, Holdings.total, hput]
    omega
  | @mintRing p proc id ring rights k t hp hfree huse howner hwait hnone hsq hcq hmask hin hg =>
    left
    have hput := liveTotal_places (objWeight (.reply q)) hp (CapTable.install_ok hin).1
    rw [replyWeight_of_ne fun c heq => by cases heq] at hput
    have hring := ringWaits_update v.rings id ring q
    have hzero : ringWait q ring = 0 := by simp [ringWait, hwait]
    simp only [Ledger.regs, Holdings.total, hput]
    omega
  | @mapFrame p proc k cap addr va flags maps hp hk hobj hrec =>
    left
    have hput := liveTotal_put_same (w := objWeight (.reply q)) hp
      (x := { proc with maps }) rfl
    simp only [Ledger.regs, Holdings.total, hput, le_refl]
  | @mapFb p proc k cap _ _ _ _ _ _ f fbMaps sp hp hk hobj hslot hrec htables hleaves =>
    left
    have hput := liveTotal_put_same (w := objWeight (.reply q)) hp
      (x := { proc with fbMaps }) rfl
    simp only [Ledger.regs, Holdings.total, hput, le_refl]
  | @takeEndpoint p proc k cap id n hp hk hobj hstate hnone hfirst hg hn =>
    left
    have hput := liveTotal_put (objWeight (.reply q)) hp
      (proc.setCaps (proc.caps.set k none))
    have hrev := procWeight_revoke (objWeight (.reply q)) hk
    simp only [Ledger.regs, Ledger.settle, Holdings.total]
    omega
  | @takeBound p proc k cap dev hp hk hobj hstate hnone hfirst hg =>
    left
    have hput := liveTotal_put (objWeight (.reply q)) hp
      (proc.setCaps (proc.caps.set k none))
    have hrev := procWeight_revoke (objWeight (.reply q)) hk
    have hdev : boundWaits (v.devs.detach dev).1.devices q ≤ boundWaits v.devs.devices q := by
      rcases devices_detach v.devs dev with heq | heq
      · rw [heq]
      · rw [heq]
        exact boundWaits_remove_le _ _ _
    simp only [Ledger.regs, Holdings.total]
    omega
  | dropEndpoint hheld hobj hdoomed hn =>
    left
    simp only [Ledger.regs, Ledger.settle, Holdings.total, hheld, listTotal_cons]
    omega
  | @dropRing cap rest id hheld hobj =>
    left
    have hring := ringWaits_update v.rings id Ring.empty q
    have hzero : ringWait q Ring.empty = 0 := rfl
    simp only [Ledger.regs, Holdings.total, hheld, listTotal_cons]
    omega
  | dropFrame hheld hobj =>
    left
    simp only [Ledger.regs, Holdings.total, hheld, listTotal_cons]
    omega
  | @dropReply cap rest c hheld hobj =>
    left
    have hweight : objWeight (.reply q) cap = if c = q then 1 else 0 := by
      unfold objWeight
      rw [hobj]
      simp
    have hcount : (c :: v.awake).count q = v.awake.count q + if c = q then 1 else 0 := by
      rw [List.count_cons]
      simp
    simp only [Ledger.regs, Holdings.total, hheld, listTotal_cons, hweight, hcount]
    omega
  | @parkQueue p proc id k cap senders mail hp hk hcap hstate huse hside hpeer hmail hheld hg =>
    have hup := queued_update v.queue id (v.queue id ++ [p]) q
    rw [List.count_append, List.count_singleton] at hup
    by_cases hq : p = q
    · subst hq
      refine Or.inr ⟨hstate, Function.update_self .., ?_⟩
      rw [beq_self_eq_true, if_pos rfl] at hup
      simp only [Ledger.regs]
      omega
    · left
      rw [if_neg (by simpa using hq)] at hup
      simp only [Ledger.regs]
      omega
  | @parkCall p server proc k t hstate hpq hserver hnone hin hg =>
    have hput := liveTotal_places (objWeight (.reply q)) hserver (CapTable.reclaim_some hin).1
    rw [replyWeight_replyCap] at hput
    by_cases hq : p = q
    · subst hq
      refine Or.inr ⟨hstate, Function.update_self .., ?_⟩
      rw [if_pos rfl] at hput
      simp only [Ledger.regs, Holdings.total]
      omega
    · left
      rw [if_neg hq] at hput
      simp only [Ledger.regs, Holdings.total]
      omega
  | @parkRing p proc k cap id ring hp hk hobj hlive hstate huse howner hsame hsq hcq hmask htail
      hwait
      hg =>
    have hring := ringWaits_update v.rings id ring q
    by_cases hq : p = q
    · subst hq
      refine Or.inr ⟨hstate, Function.update_self .., ?_⟩
      rw [show ringWait p ring = 1 from if_pos ⟨hwait, hsame⟩] at hring
      simp only [Ledger.regs]
      omega
    · left
      rw [show ringWait q ring = 0 from if_neg fun hr => hq (hsame.symm.trans hr.2)] at hring
      simp only [Ledger.regs]
      omega
  | @parkBind p proc k cap dev d b hp hk hobj hstate hd hb hg =>
    have hup := boundWaits_update v.devs.devices dev
      (some { d with bound := some { b with waiter := some p } }) q
    have hdev : boundWait q (some { d with bound := some { b with waiter := some p } })
        = if p = q then 1 else 0 := by
      simp [boundWait, waiterOf]
    rw [hdev] at hup
    by_cases hq : p = q
    · subst hq
      refine Or.inr ⟨hstate, Function.update_self .., ?_⟩
      rw [if_pos rfl] at hup
      simp only [Ledger.regs, Devices.setDevice]
      omega
    · left
      rw [if_neg hq] at hup
      simp only [Ledger.regs, Devices.setDevice]
      omega
  | @dequeue p id rest hqueue =>
    left
    have hup := queued_update v.queue id rest q
    rw [hqueue, List.count_cons] at hup
    simp only [Ledger.regs, List.count_cons]
    omega
  | @receiveCall p server id rest proc k t hqueue hside hcall hserver hnone hin =>
    left
    have hup := queued_update v.queue id rest q
    rw [hqueue, List.count_cons] at hup
    have hput := liveTotal_places (objWeight (.reply q)) hserver (CapTable.reclaim_some hin).1
    rw [replyWeight_replyCap] at hput
    simp only [beq_iff_eq] at hup
    simp only [Ledger.regs, Holdings.total, hput]
    omega
  | wake hawake hg =>
    left
    simp only [Ledger.regs, hawake, List.count_cons]
    omega
  | forget hawake hg =>
    left
    simp only [Ledger.regs, hawake, List.count_cons]
    omega
  | rouse hperm =>
    left
    simp only [Ledger.regs, hperm.count_eq, le_refl]
  | @ringTick id r huse howner hsq hcq hmask htail hwait =>
    left
    have hring := ringWaits_update v.rings id r q
    have hsame : ringWait q r = ringWait q (v.rings id) := by
      simp [ringWait, howner, hwait]
    simp only [Ledger.regs]
    omega
  | @ringPost id r huse howner hsq hcq hmask hwait =>
    left
    have hring := ringWaits_update v.rings id r q
    have hzero : ringWait q r = 0 := by simp [ringWait, hwait]
    have hcount : List.count q
        ((if (v.rings id).waiting then [(v.rings id).owner] else []) ++ v.awake)
          = ringWait q (v.rings id) + v.awake.count q := by
      rw [List.count_append]
      unfold ringWait
      cases (v.rings id).waiting with
      | false => simp
      | true => simp [List.count_singleton]
    simp only [Ledger.regs, hcount]
    omega
  | @ringStale id r hfree huse hwait =>
    left
    have hring := ringWaits_update v.rings id r q
    have hzero : ringWait q r = 0 := by simp [ringWait, hwait]
    simp only [Ledger.regs]
    omega
  | @post p proc dev d id userData head inf chain hp hd huse howner hsubmit hframe hg =>
    left
    have hsame := boundWaits_update_same hd (x := { d with
      inflights := inf, chains := Function.update d.chains (head / descPerReq) chain }) rfl q
    simp only [Ledger.regs, Devices.setDevice, hsame, le_refl]
  | @complete dev d inf hd hinf hwf =>
    left
    have hsame := boundWaits_update_same hd (x := { d with inflights := inf }) rfl q
    simp only [Ledger.regs, Devices.setDevice, hsame, le_refl]
  | @unwait dev d b hd hb =>
    left
    have hup := boundWaits_update v.devs.devices dev
      (some { d with bound := some { b with waiter := none } }) q
    have hnew : boundWait q (some { d with bound := some { b with waiter := none } }) = 0 := by
      simp [boundWait, waiterOf]
    have hold : boundWait q (v.devs.devices dev) = b.waiter.toList.count q := by
      rw [hd]
      unfold boundWait waiterOf
      rw [Option.bind_some, hb, Option.bind_some]
      cases b.waiter with
      | none => simp
      | some w => simp [List.count_singleton]
    simp only [Ledger.regs, Devices.setDevice, List.count_append]
    omega
  | @leave p proc hp hstate hheld hdying htransit hcalm hg =>
    left
    have hrem := liveTotal_remove (objWeight (.reply q)) hp
    simp only [Ledger.regs, Holdings.total, hheld, listTotal_iter, listTotal_nil]
    omega
  | @enter p proc boot rest spaces k budget rights hp hstate hcaps hspaces hframes hdying =>
    left
    have hadd := liveTotal_add (objWeight (.reply q)) hp proc
    have hweight : procWeight (objWeight (.reply q)) proc = 0 := by
      unfold procWeight
      rw [hcaps, CapTable.set_slots, Tally.tally_insert _ _ rfl]
      simp [CapTable.new, objWeight]
    simp only [Ledger.regs, Holdings.total]
    omega
  | _ => exact Or.inl (le_refl _)

/-- A blocked process stays blocked until an action wakes it, which ends a registration. -/
theorem Act.woken {g : Guard} {v v' : Ledger} (act : Act g v v') {q : ProcSlot}
    (hblocked : v.state q = .blocked) :
    v'.state q = .blocked ∨
      v'.state q = .ready ∧ v'.regs q + 1 = v.regs q ∧ q ∈ v.awake ∧
        g.wake q (v'.mail q).result := by
  have hne : ∀ {p : ProcSlot} {s : ProcState}, v.state p = s → s ≠ .blocked → q ≠ p := by
    rintro p s hp hs rfl
    exact hs (hp.symm.trans hblocked)
  have hpark : ∀ p, Function.update v.state p .blocked q = .blocked := by
    intro p
    rw [Function.update_apply]
    split
    · rfl
    · exact hblocked
  cases act with
  | @wake p rest r hawake hg =>
    by_cases hq : q = p
    · subst hq
      refine Or.inr ⟨Function.update_self .., ?_, by rw [hawake]; exact List.mem_cons_self, ?_⟩
      · simp only [Ledger.regs, hawake, List.count_cons_self]
        omega
      · dsimp only
        rwa [Function.update_self]
    · exact Or.inl ((Function.update_of_ne hq ..).trans hblocked)
  | @parkQueue p =>
    exact Or.inl (hpark p)
  | @parkCall p =>
    exact Or.inl (hpark p)
  | @parkBare p =>
    exact Or.inl (hpark p)
  | @parkRing p =>
    exact Or.inl (hpark p)
  | @parkBind p =>
    exact Or.inl (hpark p)
  | @suspend p hstate =>
    exact Or.inl ((Function.update_of_ne (hne hstate (by decide)) ..).trans hblocked)
  | @resume p hstate =>
    exact Or.inl ((Function.update_of_ne (hne hstate (by decide)) ..).trans hblocked)
  | @leave p proc hp hstate =>
    exact Or.inl ((Function.update_of_ne (hne rfl hstate) ..).trans hblocked)
  | @enter p proc boot rest spaces k budget rights hp hstate =>
    exact Or.inl ((Function.update_of_ne (hne hstate (by decide)) ..).trans hblocked)
  | _ => exact Or.inl hblocked

/-- Every action keeps the registrations. -/
theorem Act.registered {g : Guard} {v v' : Ledger} (act : Act g v v')
    (hs : v.toHoldings.Sound) (h : v.Registered) : v'.Registered := by
  intro q
  have hreg := h q
  rcases act.regs_le hs q with hle | ⟨hrun, hblocked, hle⟩
  · by_cases hstate : v.state q = .blocked
    · rw [hstate, mayWait_blocked] at hreg
      rcases act.woken hstate with hstill | ⟨-, hless, -⟩
      · rw [hstill, mayWait_blocked]
        omega
      · omega
    · have hzero := h.regs_zero hstate
      omega
  · have hzero := h.regs_zero (p := q) (by rw [hrun]; decide)
    rw [hblocked, mayWait_blocked]
    omega

end Plinth
