import Plinth.Ledger.Endpoints

/-!
# `Plinth.Ledger.Standing`: where a process stands

`Standing` follows one process through a run. The process is out of the wait places, or it is
parked at one of them, or it left its place in the current entry and is not awake yet.

`Moves` is the automaton: a running process parks, a parked process leaves, and a process that
left is woken. `Act.moves` says that every action follows it, and `Path.moves` that every
path does.
-/

set_option autoImplicit false

namespace Plinth

/-- Where a process stands. -/
inductive Standing where
  | out
  | at (place : Place)
  /-- It left its place, and it is not awake yet. -/
  | leaving

namespace Ledger

/-- The process in slot `p` is registered at a place. -/
def Registration (v : Ledger) (p : ProcSlot) : Place → Prop
  | .sender id mail => p ∈ v.queue id ∧ v.sendersWait id = true ∧ v.mail p = mail
  | .receiver id => p ∈ v.queue id ∧ v.sendersWait id = false
  | .reply => 0 < v.total (objWeight (.reply p))
  | .nowhere => v.regs p = 0
  | .ring id => (v.rings id).waiting = true ∧ (v.rings id).owner = p
  | .bound dev => waiterOf (v.devs.devices dev) = some p

/-- The process in slot `p` stands there. -/
def Stands (v : Ledger) (p : ProcSlot) : Standing → Prop
  | .out => v.state p ≠ .blocked
  | .at place => v.state p = .blocked ∧ v.Registration p place
  | .leaving => v.state p = .blocked ∧ p ∈ v.awake

end Ledger

/-- What an action can do to one process. -/
inductive Moves (g : Guard) (p : ProcSlot) : Standing → Standing → Prop
  | stay (σ : Standing) : Moves g p σ σ
  | park {place : Place} (hg : g.park p place) : Moves g p .out (.at place)
  | leave {place : Place} (hplace : place ≠ .nowhere) : Moves g p (.at place) .leaving
  /-- A server takes the request of a queued caller. -/
  | take {id : EndpointId} {mail : Mail} (hcall : mail.call = true) (hg : g.serve p) :
    Moves g p (.at (.sender id mail)) (.at .reply)
  | forget (hg : g.forget p) : Moves g p .leaving (.at .nowhere)
  | wake {r : Result} (hg : g.wake p r) : Moves g p .leaving .out

section

variable {g : Guard} {v v' : Ledger} {p : ProcSlot}

/-! ### A process stands in one place -/

theorem count_pos_of_queue {id : EndpointId} (h : p ∈ v.queue id) : 0 < queued v.queue p :=
  lt_of_lt_of_le (List.count_pos_iff.mpr h) (count_le_queued v.queue id p)

theorem ringWaits_pos {id : RingId} (hwait : (v.rings id).waiting = true)
    (howner : (v.rings id).owner = p) : 0 < ringWaits v.rings p := by
  have hle := ringWait_le v.rings id p
  have hone : ringWait p (v.rings id) = 1 := if_pos ⟨hwait, howner⟩
  omega

theorem boundWaits_pos {dev : DevId} (h : waiterOf (v.devs.devices dev) = some p) :
    0 < boundWaits v.devs.devices p := by
  have hle := boundWait_le v.devs.devices dev p
  have hone : boundWait p (v.devs.devices dev) = 1 := if_pos h
  omega

/-- The registrations of a blocked process: at most one. -/
theorem Ledger.Registered.le_one (h : v.Registered) (p : ProcSlot) : v.regs p ≤ 1 := by
  have hreg := h p
  have hle : mayWait (v.state p) ≤ 1 := by
    unfold mayWait
    split <;> omega
  omega

/-- Two rings do not wake one process. -/
theorem ringWaits_two {id id' : RingId} (hne : id ≠ id') (h : ringWait p (v.rings id) = 1)
    (h' : ringWait p (v.rings id') = 1) : 2 ≤ ringWaits v.rings p := by
  have hpair := Finset.add_le_sum (f := fun id => ringWait p (v.rings id))
    (fun _ _ => Nat.zero_le _) (Finset.mem_univ id) (Finset.mem_univ id') hne
  unfold ringWaits
  omega

theorem boundWaits_two {dev dev' : DevId} (hne : dev ≠ dev')
    (h : boundWait p (v.devs.devices dev) = 1) (h' : boundWait p (v.devs.devices dev') = 1) :
    2 ≤ boundWaits v.devs.devices p := by
  have hpair := Finset.add_le_sum (f := fun dev => boundWait p (v.devs.devices dev))
    (fun _ _ => Nat.zero_le _) (Finset.mem_univ dev) (Finset.mem_univ dev') hne
  unfold boundWaits
  omega

/-- The queue of a process in a queue. -/
theorem Ledger.Registered.queue_unique (h : v.Registered) {id id' : EndpointId}
    (hq : p ∈ v.queue id) (hq' : p ∈ v.queue id') : id = id' := by
  by_contra hne
  exact h.disjoint hne hq hq'

/-- The registrations that a place stands for. -/
def Ledger.share (v : Ledger) (p : ProcSlot) : Place → Prop
  | .sender .. => 0 < queued v.queue p
  | .receiver _ => 0 < queued v.queue p
  | .reply => 0 < v.total (objWeight (.reply p))
  | .nowhere => v.regs p = 0
  | .ring _ => 0 < ringWaits v.rings p
  | .bound _ => 0 < boundWaits v.devs.devices p

theorem Ledger.Registration.share {place : Place} (h : v.Registration p place) :
    v.share p place := by
  cases place with
  | sender id mail => exact count_pos_of_queue h.1
  | receiver id => exact count_pos_of_queue h.1
  | reply => exact h
  | nowhere => exact h
  | ring id => exact ringWaits_pos h.1 h.2
  | bound dev => exact boundWaits_pos h

/-- A process is registered at one place at most. -/
theorem Ledger.Registered.place_unique (h : v.Registered) {place place' : Place}
    (hp : v.Registration p place) (hp' : v.Registration p place') : place = place' := by
  have hone := h.le_one p
  have hparts : v.regs p = queued v.queue p + v.total (objWeight (.reply p))
    + ringWaits v.rings p + boundWaits v.devs.devices p + v.awake.count p := rfl
  have hshare := hp.share
  have hshare' := hp'.share
  -- Places of two kinds would make two registrations.
  cases place <;> cases place' <;> try (exfalso; dsimp only [Ledger.share] at *; omega)
  case sender.sender id mail id' mail' =>
    obtain ⟨hq, -, rfl⟩ := hp
    obtain ⟨hq', -, rfl⟩ := hp'
    rw [h.queue_unique hq hq']
  case sender.receiver id mail id' =>
    have hside := hp.2.1
    rw [h.queue_unique hp.1 hp'.1, hp'.2] at hside
    cases hside
  case receiver.sender id id' mail' =>
    have hside := hp.2
    rw [h.queue_unique hp.1 hp'.1, hp'.2.1] at hside
    cases hside
  case receiver.receiver id id' => rw [h.queue_unique hp.1 hp'.1]
  case reply.reply => rfl
  case nowhere.nowhere => rfl
  case ring.ring id id' =>
    by_contra hne
    have htwo := ringWaits_two (p := p) (v := v)
      (fun heq => hne (by rw [heq])) (if_pos hp) (if_pos hp')
    omega
  case bound.bound dev dev' =>
    by_contra hne
    have htwo := boundWaits_two (p := p) (v := v)
      (fun heq => hne (by rw [heq])) (if_pos hp) (if_pos hp')
    omega

/-- A process stands in one place. -/
theorem Ledger.Registered.stands_unique (h : v.Registered) {σ σ' : Standing}
    (hs : v.Stands p σ) (hs' : v.Stands p σ') : σ = σ' := by
  have hone := h.le_one p
  have hparts : v.regs p = queued v.queue p + v.total (objWeight (.reply p))
    + ringWaits v.rings p + boundWaits v.devs.devices p + v.awake.count p := rfl
  have hapart : ∀ {place : Place}, v.Registration p place → p ∉ v.awake := by
    intro place hplace hawake
    have hpos := List.count_pos_iff.mpr hawake
    have hshare := hplace.share
    cases place <;> (dsimp only [Ledger.share] at hshare; omega)
  cases σ with
  | out =>
    cases σ' with
    | out => rfl
    | «at» place => exact absurd hs'.1 hs
    | leaving => exact absurd hs'.1 hs
  | «at» place =>
    cases σ' with
    | out => exact absurd hs.1 hs'
    | «at» place' => rw [h.place_unique hs.2 hs'.2]
    | leaving => exact absurd hs'.2 (hapart hs.2)
  | leaving =>
    cases σ' with
    | out => exact absurd hs.1 hs'
    | «at» place' => exact absurd hs.2 (hapart hs'.2)
    | leaving => rfl

/-- Every process stands somewhere. -/
theorem Ledger.stands_exists (v : Ledger) (p : ProcSlot) : ∃ σ, v.Stands p σ := by
  by_cases hstate : v.state p = .blocked
  · by_cases hawake : p ∈ v.awake
    · exact ⟨.leaving, hstate, hawake⟩
    by_cases hqueue : ∃ id, p ∈ v.queue id
    · obtain ⟨id, hq⟩ := hqueue
      cases hside : v.sendersWait id with
      | true => exact ⟨.at (.sender id (v.mail p)), hstate, hq, hside, rfl⟩
      | false => exact ⟨.at (.receiver id), hstate, hq, hside⟩
    by_cases hreply : 0 < v.total (objWeight (.reply p))
    · exact ⟨.at .reply, hstate, hreply⟩
    by_cases hring : ∃ id, (v.rings id).waiting = true ∧ (v.rings id).owner = p
    · obtain ⟨id, hwait⟩ := hring
      exact ⟨.at (.ring id), hstate, hwait⟩
    by_cases hbound : ∃ dev, waiterOf (v.devs.devices dev) = some p
    · obtain ⟨dev, hwait⟩ := hbound
      exact ⟨.at (.bound dev), hstate, hwait⟩
    refine ⟨.at .nowhere, hstate, ?_⟩
    have hqueued : queued v.queue p = 0 := Finset.sum_eq_zero fun id _ =>
      List.count_eq_zero.mpr fun hq => hqueue ⟨id, hq⟩
    have hrings : ringWaits v.rings p = 0 := Finset.sum_eq_zero fun id _ =>
      if_neg fun hwait => hring ⟨id, hwait⟩
    have hbounds : boundWaits v.devs.devices p = 0 := Finset.sum_eq_zero fun dev _ =>
      if_neg fun hwait => hbound ⟨dev, hwait⟩
    have hawake' : v.awake.count p = 0 := List.count_eq_zero.mpr hawake
    simp only [Ledger.Registration, Ledger.regs]
    omega
  · exact ⟨.out, hstate⟩

/-! ### Every action follows the automaton -/

/-- A process that is not blocked parks, or it stays out. -/
theorem Act.moves_out (act : Act g v v') (hreg : v.Registered) (h : v.state p ≠ .blocked) :
    v'.state p ≠ .blocked ∨
      ∃ place, g.park p place ∧ v'.state p = .blocked ∧ v'.Registration p place := by
  have hother : ∀ (q : ProcSlot) (s : ProcState), s ≠ .blocked →
      Function.update v.state q s p ≠ .blocked := by
    intro q s hs
    rw [Function.update_apply]
    split
    · exact hs
    · exact h
  have hpark : ∀ (q : ProcSlot) (place : Place), v'.state = Function.update v.state q .blocked →
      g.park q place → (q = p → v'.Registration q place) → v'.state p ≠ .blocked ∨
        ∃ place, g.park p place ∧ v'.state p = .blocked ∧ v'.Registration p place := by
    intro q place hstate hg hplace
    rw [hstate]
    by_cases hq : q = p
    · subst hq
      exact Or.inr ⟨place, hg, Function.update_self .., hplace rfl⟩
    · left
      rw [Function.update_of_ne (Ne.symm hq)]
      exact h
  cases act with
  | @parkQueue q proc id k cap senders mail hp hk hcap hstate huse hside hpeer hmail hheld hg =>
    refine hpark q _ rfl hg fun _ => ?_
    have hmem : q ∈ Function.update v.queue id (v.queue id ++ [q]) id := by simp
    cases senders with
    | true => exact ⟨hmem, Function.update_self .., Function.update_self ..⟩
    | false => exact ⟨hmem, Function.update_self ..⟩
  | @parkCall q server proc k t hstate hpq hserver hnone hin hg =>
    refine hpark q .reply rfl hg fun _ => ?_
    have hput := liveTotal_places (objWeight (.reply q)) hserver (CapTable.reclaim_some hin).1
    rw [replyWeight_replyCap, if_pos rfl] at hput
    simp only [Ledger.Registration, Holdings.total]
    omega
  | @parkBare q hstate hg =>
    refine hpark q .nowhere rfl hg fun _ => ?_
    exact hreg.regs_zero (p := q) (by rw [hstate]; decide)
  | @parkRing q proc k cap id r hp hk hobj hlive hstate huse howner hown hsq hcq hmask htail hwait
      hg =>
    refine hpark q (.ring id) rfl hg fun _ => ?_
    simp only [Ledger.Registration, Function.update_self]
    exact ⟨hwait, hown⟩
  | @parkBind q proc k cap dev d b hp hk hobj hstate hd hb hg =>
    refine hpark q (.bound dev) rfl hg fun _ => ?_
    simp only [Ledger.Registration, Devices.setDevice, Function.update_self]
    rfl
  | wake hawake hg => exact Or.inl (hother _ _ (by decide))
  | suspend hstate => exact Or.inl (hother _ _ (by decide))
  | resume hstate => exact Or.inl (hother _ _ (by decide))
  | leave hp hstate hheld hdying htransit hcalm hg => exact Or.inl (hother _ _ (by decide))
  | enter hp hstate hcaps hspaces hframes hdying => exact Or.inl (hother _ _ (by decide))
  | _ => exact Or.inl h

/-- A process that left its place is woken or forgotten, or it stays on its way. -/
theorem Act.moves_leaving (act : Act g v v') (hreg : v.Registered)
    (hblocked : v'.state p = .blocked) (h : p ∈ v.awake) :
    p ∈ v'.awake ∨ g.forget p ∧ v'.regs p = 0 := by
  cases act with
  | @wake q rest r hawake hg =>
    rw [hawake, List.mem_cons] at h
    rcases h with rfl | hrest
    · change Function.update v.state p .ready p = .blocked at hblocked
      rw [Function.update_self] at hblocked
      cases hblocked
    · exact Or.inl hrest
  | @forget q rest hawake hg =>
    by_cases hq : p = q
    · subst hq
      have hone := hreg.le_one p
      refine Or.inr ⟨hg, ?_⟩
      simp only [Ledger.regs, hawake, List.count_cons_self] at hone ⊢
      omega
    · rw [hawake, List.mem_cons] at h
      exact Or.inl (h.resolve_left hq)
  | rouse hperm => exact Or.inl (hperm.mem_iff.mpr h)
  | dequeue hqueue => exact Or.inl (List.mem_cons_of_mem _ h)
  | ringPost huse howner hsq hcq hmask hwait => exact Or.inl (List.mem_append_right _ h)
  | dropReply hheld hobj => exact Or.inl (List.mem_cons_of_mem _ h)
  | unwait hd hb => exact Or.inl (List.mem_append_right _ h)
  | _ => exact Or.inl h

/-- A queued process leaves the queue, or a server takes its request, or it stays in the queue
with its message. -/
theorem Act.moves_queue (act : Act g v v') (hbase : v.Base) (hblocked : v.state p = .blocked)
    {id : EndpointId} (h : p ∈ v.queue id) :
    p ∈ v'.awake ∨
      (v.sendersWait id = true ∧ (v.mail p).call = true ∧ g.serve p ∧
        0 < v'.total (objWeight (.reply p))) ∨
      (p ∈ v'.queue id ∧ v'.sendersWait id = v.sendersWait id ∧ v'.mail p = v.mail p) := by
  have hawake : p ∉ v.awake := fun hawake =>
    hbase.registered.not_queued (Or.inr hawake) id h
  have hne : ∀ {q : ProcSlot} {s : ProcState}, v.state q = s → s ≠ .blocked → p ≠ q := by
    rintro q s hq hs rfl
    exact hs (hq.symm.trans hblocked)
  have hnil : ∀ {id' : EndpointId}, v.queue id' = [] → id ≠ id' := by
    rintro id' hnil rfl
    rw [hnil] at h
    cases h
  have hsettle : ∀ (id' : EndpointId) (n : Nat), v'.queue = v.queue →
      v'.inUse = Function.update v.inUse id' (v.inUse id' && decide (0 < n)) →
      v'.sendersWait = Function.update v.sendersWait id'
        (v.sendersWait id' && decide (0 < n)) → v'.sendersWait id = v.sendersWait id := by
    intro id' n hqueue huse hside
    rw [hside]
    by_cases hid : id = id'
    · subst hid
      have hin := (act.holders hbase.registered hbase.holders id p (by rw [hqueue]; exact h)).1
      rw [huse, Function.update_self, Bool.and_eq_true] at hin
      rw [Function.update_self, hin.2, Bool.and_true]
    · rw [Function.update_of_ne hid]
  cases act with
  | @create id' hfree hfirst =>
    have hid := hnil (hbase.holders.queue_nil hfree)
    exact Or.inr (Or.inr ⟨h, Function.update_of_ne hid .., rfl⟩)
  | @release id' hnone hqueue =>
    exact Or.inr (Or.inr ⟨h, Function.update_of_ne (hnil hqueue) .., rfl⟩)
  | @takeEndpoint q proc k cap id' n hp hk hobj hstate hnone hfirst hg hn =>
    exact Or.inr (Or.inr ⟨h, hsettle id' n rfl rfl rfl, rfl⟩)
  | @dropEndpoint cap rest id' n hheld hobj hdoomed hn =>
    exact Or.inr (Or.inr ⟨h, hsettle id' n rfl rfl rfl, rfl⟩)
  | @parkQueue q proc id' k cap senders mail hp hk hcap hstate huse hside hpeer hmail hheld hg =>
    have hq := hne hstate (by decide)
    refine Or.inr (Or.inr ⟨?_, ?_, Function.update_of_ne hq ..⟩)
    · by_cases hid : id = id'
      · subst hid
        dsimp only
        rw [Function.update_self]
        exact List.mem_append_left _ h
      · dsimp only
        rwa [Function.update_of_ne hid]
    · by_cases hid : id = id'
      · subst hid
        rcases hside with hempty | hsame
        · exact absurd rfl (hnil hempty)
        · exact (Function.update_self ..).trans hsame.symm
      · exact Function.update_of_ne hid ..
  | @dequeue q id' rest hqueue =>
    by_cases hid : id = id'
    · subst hid
      rw [hqueue, List.mem_cons] at h
      rcases h with rfl | hrest
      · exact Or.inl List.mem_cons_self
      · refine Or.inr (Or.inr ⟨?_, rfl, rfl⟩)
        dsimp only
        rwa [Function.update_self]
    · refine Or.inr (Or.inr ⟨?_, rfl, rfl⟩)
      dsimp only
      rwa [Function.update_of_ne hid]
  | @receiveCall q server id' rest proc k t hqueue hside hcall hserver hnone hin hg =>
    by_cases hid : id = id'
    · subst hid
      rw [hqueue, List.mem_cons] at h
      rcases h with rfl | hrest
      · refine Or.inr (Or.inl ⟨hside, hcall, hg, ?_⟩)
        have hput := liveTotal_places (objWeight (.reply p)) hserver
          (CapTable.reclaim_some hin).1
        rw [replyWeight_replyCap, if_pos rfl] at hput
        simp only [Holdings.total]
        omega
      · refine Or.inr (Or.inr ⟨?_, rfl, rfl⟩)
        dsimp only
        rwa [Function.update_self]
    · refine Or.inr (Or.inr ⟨?_, rfl, rfl⟩)
      dsimp only
      rwa [Function.update_of_ne hid]
  | @wake q rest r hq hg =>
    have hpq : p ≠ q := by
      rintro rfl
      exact hawake (by rw [hq]; exact List.mem_cons_self)
    exact Or.inr (Or.inr ⟨h, rfl, Function.update_of_ne hpq ..⟩)
  | @leave q proc hp hstate hheld hdying htransit hcalm hg =>
    exact Or.inr (Or.inr ⟨h, rfl, Function.update_of_ne (hne rfl hstate) ..⟩)
  | _ => exact Or.inr (Or.inr ⟨h, rfl, rfl⟩)

/-- A caller that a reply capability names is awake once the capability ends. -/
theorem Act.moves_reply (act : Act g v v') (hs : v.toHoldings.Sound)
    (h : 0 < v.total (objWeight (.reply p))) :
    p ∈ v'.awake ∨ 0 < v'.total (objWeight (.reply p)) := by
  have hsteady : Steady (objWeight (.reply p)) := objWeight_tracked trivial
  rcases act.flow hs with ⟨gone, hgone, htotal, -⟩ | ⟨cap, -, htotal, -⟩ | ⟨cap, hends, htotal, -⟩
  · have hsum := htotal _ hsteady
    rw [listTotal_droppable (o := .reply p) trivial hgone] at hsum
    exact Or.inr (by omega)
  · have hsum := htotal (objWeight (.reply p))
    exact Or.inr (by omega)
  · have hsum := htotal (objWeight (.reply p))
    by_cases hobj : cap.object = .reply p
    · left
      cases hends with
      | reply hobj' hawake =>
        rw [hobj] at hobj'
        cases hobj'
        exact hawake
      | endpoint hobj' => rw [hobj] at hobj'; cases hobj'
      | frame hobj' => rw [hobj] at hobj'; cases hobj'
      | ring hobj' _ => rw [hobj] at hobj'; cases hobj'
      | bound hobj' => rw [hobj] at hobj'; cases hobj'
    · rw [objWeight_of_ne hobj] at hsum
      exact Or.inr (by omega)

/-- A process that waits for a ring is awake once a completion is posted there. -/
theorem Act.moves_ring (act : Act g v v') (hbase : v.Base) (hblocked : v.state p = .blocked)
    {id : RingId} (hwait : (v.rings id).waiting = true) (howner : (v.rings id).owner = p) :
    p ∈ v'.awake ∨ ((v'.rings id).waiting = true ∧ (v'.rings id).owner = p ∧
      (v'.rings id).cqTail = (v.rings id).cqTail) := by
  obtain ⟨hlive, hholds⟩ := hbase.keyed.ringKey id hwait
  have hput : ∀ (id' : RingId) (r : Ring), v'.rings = Function.update v.rings id' r →
      (id' = id → p ∈ v'.awake ∨
        (r.waiting = true ∧ r.owner = p ∧ r.cqTail = (v.rings id).cqTail)) →
      p ∈ v'.awake ∨ ((v'.rings id).waiting = true ∧ (v'.rings id).owner = p ∧
        (v'.rings id).cqTail = (v.rings id).cqTail) := by
    intro id' r heq hr
    rw [heq]
    by_cases hid : id' = id
    · rw [hid, Function.update_self]
      exact hr hid
    · rw [Function.update_of_ne (Ne.symm hid)]
      exact Or.inr ⟨hwait, howner, rfl⟩
  cases act with
  | @mintRing q proc id' ring rights k t hp hfree =>
    refine hput _ _ rfl fun hid => ?_
    rw [hid, hlive] at hfree
    cases hfree
  | @parkRing q proc k cap id' r hp hk hobj hlive' hstate huse howner' =>
    refine hput _ _ rfl fun hid => ?_
    rw [hid, howner] at howner'
    rw [← howner', hblocked] at hstate
    cases hstate
  | @ringTick id' r huse howner' hsq hcq hmask htail hwait' =>
    refine hput _ _ rfl fun hid => Or.inr ?_
    subst hid
    exact ⟨hwait'.trans hwait, howner'.trans howner, htail⟩
  | @ringPost id' r huse howner' hsq hcq hmask hwait' =>
    refine hput _ _ rfl fun hid => Or.inl ?_
    subst hid
    dsimp only
    rw [if_pos hwait, howner]
    exact List.mem_cons_self
  | @ringStale id' r hfree huse hwait' =>
    refine hput _ _ rfl fun hid => ?_
    rw [hid, hlive] at hfree
    cases hfree
  | @dropRing cap rest id' hheld hobj =>
    refine hput _ _ rfl fun hid => ?_
    subst hid
    -- The waiter holds a second capability for the ring.
    have hone := hbase.keyed.rings id'
    obtain ⟨k, rights, hhas⟩ := hholds
    have hpos := hhas.pos
    have hself : objWeight (.ring id') cap = 1 := by rw [← hobj, objWeight_self]
    simp only [hlive, if_true, Holdings.total, hheld, listTotal_cons, hself] at hone
    omega
  | _ => exact Or.inr ⟨hwait, howner, rfl⟩

/-- A process that waits for a device is awake once the device signals. -/
theorem Act.moves_bound (act : Act g v v') (hbase : v.Base) (hblocked : v.state p = .blocked)
    {dev : DevId} (h : waiterOf (v.devs.devices dev) = some p) :
    p ∈ v'.awake ∨ waiterOf (v'.devs.devices dev) = some p := by
  have hholds := hbase.keyed.boundKey dev p h
  have hput : ∀ (dev' : DevId) (d : Option VirtioBlk),
      v'.devs.devices = Function.update v.devs.devices dev' d →
      (dev' = dev → p ∈ v'.awake ∨ waiterOf d = some p) →
      p ∈ v'.awake ∨ waiterOf (v'.devs.devices dev) = some p := by
    intro dev' d heq hd
    rw [heq]
    by_cases hdev : dev' = dev
    · rw [hdev, Function.update_self]
      exact hd hdev
    · rw [Function.update_of_ne (Ne.symm hdev)]
      exact Or.inr h
  have hsole : ∀ {q : ProcSlot} {proc : Process} {k : CapSlot} {cap : Capability},
      v.proc q = some proc → proc.caps.slots k = some cap → cap.object = .boundDevice dev →
      v.state q ≠ .blocked → False := by
    intro q proc k cap hq hk hobj hstate
    have heq := hholds.unique (Ledger.Holds.of_slot hq hk hobj) (hbase.keyed.bounds dev)
    rw [← heq] at hstate
    exact hstate hblocked
  cases act with
  | @parkBind q proc k cap dev' d b hp hk hobj hstate hd hb hg =>
    refine hput _ _ rfl fun hdev => ?_
    subst hdev
    exact (hsole hp hk hobj (by rw [hstate]; decide)).elim
  | @post q proc dev' d id userData head inf chain hp hd huse howner hsubmit hframe hg =>
    refine hput _ _ rfl fun hdev => Or.inr ?_
    subst hdev
    rw [hd] at h
    exact h
  | @complete dev' d inf hd hinf hwf =>
    refine hput _ _ rfl fun hdev => Or.inr ?_
    subst hdev
    rw [hd] at h
    exact h
  | @unwait dev' d b hd hb =>
    refine hput _ _ rfl fun hdev => Or.inl ?_
    subst hdev
    have hwaiter : b.waiter = some p := by
      unfold waiterOf at h
      rwa [hd, Option.bind_some, hb, Option.bind_some] at h
    dsimp only
    rw [hwaiter]
    exact List.mem_cons_self
  | @takeBound q proc k cap dev' hp hk hobj hstate hnone hfirst hg =>
    rcases devices_detach v.devs dev' with heq | heq
    · right
      dsimp only
      rw [heq]
      exact h
    · refine hput dev' none heq fun hdev => ?_
      subst hdev
      exact (hsole hp hk hobj hstate).elim
  | _ => exact Or.inr h

/-- Every action follows the automaton. -/
theorem Act.moves (act : Act g v v') (hbase : v.Base) {σ : Standing} (h : v.Stands p σ) :
    ∃ σ', v'.Stands p σ' ∧ Moves g p σ σ' := by
  cases σ with
  | out =>
    rcases act.moves_out hbase.registered h with hout | ⟨place, hg, hblocked, hplace⟩
    · exact ⟨.out, hout, .stay _⟩
    · exact ⟨.at place, ⟨hblocked, hplace⟩, .park hg⟩
  | leaving =>
    obtain ⟨hstate, hawake⟩ := h
    rcases act.woken hstate with hblocked | ⟨hready, -, -, hg⟩
    · rcases act.moves_leaving hbase.registered hblocked hawake with hstill | ⟨hg, hzero⟩
      · exact ⟨.leaving, ⟨hblocked, hstill⟩, .stay _⟩
      · exact ⟨.at .nowhere, ⟨hblocked, hzero⟩, .forget hg⟩
    · exact ⟨.out, by rw [Ledger.Stands, hready]; decide, .wake hg⟩
  | «at» place =>
    obtain ⟨hstate, hplace⟩ := h
    have hblocked : v'.state p = .blocked := by
      rcases act.woken hstate with hblocked | ⟨-, -, hawake, -⟩
      · exact hblocked
      · have hat : v.Stands p (.at place) := ⟨hstate, hplace⟩
        have hleaving : v.Stands p .leaving := ⟨hstate, hawake⟩
        cases hbase.registered.stands_unique hat hleaving
    have hleave : place ≠ .nowhere → p ∈ v'.awake →
        ∃ σ', v'.Stands p σ' ∧ Moves g p (.at place) σ' := fun hne hawake =>
      ⟨.leaving, ⟨hblocked, hawake⟩, .leave hne⟩
    have hstay : v'.Registration p place →
        ∃ σ', v'.Stands p σ' ∧ Moves g p (.at place) σ' := fun hplace =>
      ⟨.at place, ⟨hblocked, hplace⟩, .stay _⟩
    cases place with
    | sender id mail =>
      obtain ⟨hqueue, hside, hmail⟩ := hplace
      rcases act.moves_queue hbase hstate hqueue with hawake | ⟨-, hcall, hg, hreply⟩ |
        ⟨hqueue', hside', hmail'⟩
      · exact hleave (fun heq => by cases heq) hawake
      · exact ⟨.at .reply, ⟨hblocked, hreply⟩, .take (hmail ▸ hcall) hg⟩
      · exact hstay ⟨hqueue', hside'.trans hside, hmail'.trans hmail⟩
    | receiver id =>
      obtain ⟨hqueue, hside⟩ := hplace
      rcases act.moves_queue hbase hstate hqueue with hawake | ⟨hsend, -⟩ |
        ⟨hqueue', hside', -⟩
      · exact hleave (fun heq => by cases heq) hawake
      · rw [hside] at hsend
        cases hsend
      · exact hstay ⟨hqueue', hside'.trans hside⟩
    | reply =>
      rcases act.moves_reply hbase.sound hplace with hawake | hreply
      · exact hleave (fun heq => by cases heq) hawake
      · exact hstay hreply
    | nowhere =>
      rcases act.regs_le hbase.sound p with hle | ⟨hrun, -, -⟩
      · exact hstay (Nat.le_zero.mp (hle.trans (le_of_eq hplace)))
      · rw [hstate] at hrun
        cases hrun
    | ring id =>
      rcases act.moves_ring hbase hstate hplace.1 hplace.2 with hawake | ⟨hwait, howner, -⟩
      · exact hleave (fun heq => by cases heq) hawake
      · exact hstay ⟨hwait, howner⟩
    | bound dev =>
      rcases act.moves_bound hbase hstate hplace with hawake | hwait
      · exact hleave (fun heq => by cases heq) hawake
      · exact hstay hwait

/-- Read backwards: where a process stands tells where it can have come from. -/
theorem Act.moved (act : Act g v v') (hbase : v.Base) {σ' : Standing} (h : v'.Stands p σ') :
    ∃ σ, v.Stands p σ ∧ Moves g p σ σ' := by
  obtain ⟨σ, hσ⟩ := v.stands_exists p
  obtain ⟨σ'', hσ'', hmove⟩ := act.moves hbase hσ
  have heq := (act.base hbase).registered.stands_unique hσ'' h
  subst heq
  exact ⟨σ, hσ, hmove⟩

/-- A chain of moves. -/
abbrev Walks (g : Guard) (p : ProcSlot) : Standing → Standing → Prop :=
  Relation.ReflTransGen (Moves g p)

/-- Every path follows the automaton. -/
theorem Path.moves (path : Path g v v') (hbase : v.Base) {σ : Standing} (h : v.Stands p σ) :
    ∃ σ', v'.Stands p σ' ∧ Walks g p σ σ' := by
  induction path with
  | refl => exact ⟨σ, h, .refl⟩
  | tail path act ih =>
    obtain ⟨σ', hσ', hwalk⟩ := ih
    obtain ⟨σ'', hσ'', hmove⟩ := act.moves (Path.base path hbase) hσ'
    exact ⟨σ'', hσ'', hwalk.tail hmove⟩

theorem Path.moved (path : Path g v v') (hbase : v.Base) {σ' : Standing}
    (h : v'.Stands p σ') : ∃ σ, v.Stands p σ ∧ Walks g p σ σ' := by
  obtain ⟨σ, hσ⟩ := v.stands_exists p
  obtain ⟨σ'', hσ'', hwalk⟩ := Path.moves path hbase hσ
  have heq := (Path.base path hbase).registered.stands_unique hσ'' h
  subst heq
  exact ⟨σ, hσ, hwalk⟩

/-! ### Walks -/

/-- A walk that starts at a place and never parks. -/
theorem Walks.of_at (hpark : ∀ place, ¬ g.park p place) {place : Place} {σ : Standing}
    (h : Walks g p (.at place) σ) :
    σ = .at place ∨ σ = .leaving ∧ place ≠ .nowhere ∨
      (∃ id mail, place = .sender id mail ∧ mail.call = true ∧ g.serve p ∧ σ = .at .reply) ∨
      (g.forget p ∧ σ = .at .nowhere) ∨ ((∃ r, g.wake p r) ∧ σ = .out) := by
  induction h with
  | refl => exact Or.inl rfl
  | tail _ move ih =>
    cases move with
    | stay => exact ih
    | park hg => exact absurd hg (hpark _)
    | @leave place' hplace =>
      refine Or.inr (Or.inl ⟨rfl, ?_⟩)
      rintro rfl
      rcases ih with heq | ⟨heq, -⟩ | ⟨id, mail, heq, -⟩ | ⟨-, heq⟩ | ⟨-, heq⟩
      · cases heq
        exact hplace rfl
      · cases heq
      · cases heq
      · cases heq
        exact hplace rfl
      · cases heq
    | @take id mail hcall hg =>
      rcases ih with heq | ⟨heq, -⟩ | ⟨id, mail, -, -, -, heq⟩ | ⟨-, heq⟩ | ⟨-, heq⟩
      · cases heq
        exact Or.inr (Or.inr (Or.inl ⟨id, mail, rfl, hcall, hg, rfl⟩))
      · cases heq
      · cases heq
      · cases heq
      · cases heq
    | forget hg => exact Or.inr (Or.inr (Or.inr (Or.inl ⟨hg, rfl⟩)))
    | wake hg => exact Or.inr (Or.inr (Or.inr (Or.inr ⟨⟨_, hg⟩, rfl⟩)))

/-- A walk that ends at a place where processes arrive only by parking. -/
theorem Walks.to_at {σ : Standing} {place : Place} (hreply : place ≠ .reply)
    (hnowhere : place ≠ .nowhere) (h : Walks g p σ (.at place)) :
    σ = .at place ∨ g.park p place := by
  generalize hend : Standing.at place = τ at h
  induction h with
  | refl => exact Or.inl rfl
  | tail _ move ih =>
    subst hend
    cases move with
    | stay => exact ih rfl
    | park hg => exact Or.inr hg
    | take hcall => exact absurd rfl hreply
    | forget hg => exact absurd rfl hnowhere

/-- A walk that ends where a server took the request. -/
theorem Walks.to_reply {σ : Standing} (h : Walks g p σ (.at .reply)) :
    σ = .at .reply ∨ g.park p .reply ∨ ∃ id mail, mail.call = true ∧ g.serve p ∧
      (σ = .at (.sender id mail) ∨ g.park p (.sender id mail)) := by
  generalize hend : Standing.at .reply = τ at h
  induction h with
  | refl => exact Or.inl rfl
  | tail walk move ih =>
    subst hend
    cases move with
    | stay => exact ih rfl
    | park hg => exact Or.inr (Or.inl hg)
    | @take id mail hcall hg =>
      exact Or.inr (Or.inr ⟨id, mail, hcall, hg,
        Walks.to_at (fun heq => by cases heq) (fun heq => by cases heq) walk⟩)

/-- A walk that ends where nothing names the process. -/
theorem Walks.to_nowhere {σ : Standing} (h : Walks g p σ (.at .nowhere)) :
    σ = .at .nowhere ∨ g.park p .nowhere ∨ g.forget p := by
  generalize hend : Standing.at .nowhere = τ at h
  induction h with
  | refl => exact Or.inl rfl
  | tail walk move ih =>
    subst hend
    cases move with
    | stay => exact ih rfl
    | park hg => exact Or.inr (Or.inl hg)
    | forget hg => exact Or.inr (Or.inr hg)

/-- While a process stays parked on a ring, nothing is posted there. -/
theorem Path.ring_stays (path : Path g v v') (hbase : v.Base)
    (hpark : ∀ place, ¬ g.park p place) {id : RingId} (h : v'.Stands p (.at (.ring id))) :
    v.Stands p (.at (.ring id)) ∧ (v'.rings id).cqTail = (v.rings id).cqTail := by
  induction path with
  | refl => exact ⟨h, rfl⟩
  | @tail u u' path act ih =>
    have hu : u.Base := Path.base path hbase
    obtain ⟨σ, hσ, hmove⟩ := act.moved hu h
    -- No process parks, so it stood there before the last action too.
    have hat : u.Stands p (.at (.ring id)) := by
      cases hmove with
      | stay => exact hσ
      | park hg => exact absurd hg (hpark _)
    obtain ⟨hfirst, htail⟩ := ih hat
    refine ⟨hfirst, ?_⟩
    rcases act.moves_ring hu hat.1 hat.2.1 hat.2.2 with hawake | ⟨-, -, hsame⟩
    · have hleaving : u'.Stands p .leaving := ⟨h.1, hawake⟩
      cases (act.base hu).registered.stands_unique h hleaving
    · rw [hsame, htail]

/-- What a process that was blocked is told when it is woken. -/
theorem Path.told (path : Path g v v') (hbase : v.Base) (hpark : ∀ place, ¬ g.park p place)
    (hleave : ∀ v, ¬ g.leave v p) (hblocked : v.state p = .blocked) :
    v'.state p = .blocked ∨ g.wake p (v'.mail p).result := by
  induction path with
  | refl => exact Or.inl hblocked
  | @tail u u' path act ih =>
    have hu := Path.base path hbase
    by_cases hstate : u.state p = .blocked
    · rcases act.woken hstate with hstill | ⟨-, -, -, hg⟩
      · exact Or.inl hstill
      · exact Or.inr hg
    · have htold := ih.resolve_left hstate
      right
      suffices hmail : (u'.mail p).result = (u.mail p).result by rwa [hmail]
      have hne : ∀ (q : ProcSlot) (mail : Mail), q ≠ p →
          (Function.update u.mail q mail p).result = (u.mail p).result := by
        intro q mail hq
        rw [Function.update_of_ne (Ne.symm hq)]
      cases act with
      | @parkQueue q proc id k cap senders mail hp hk hcap hrun huse hside hpeer hmail hheld hg =>
        refine hne _ _ ?_
        rintro rfl
        exact hpark _ hg
      | @wake q rest r hawake hg =>
        refine hne _ _ ?_
        rintro rfl
        have hzero := hu.registered.regs_zero hstate
        simp only [Ledger.regs, hawake, List.count_cons_self] at hzero
        omega
      | @leave q proc hp hrun hheld hdying htransit hcalm hg =>
        refine hne _ _ ?_
        rintro rfl
        exact hleave _ hg
      | _ => rfl

end

end Plinth
