import Plinth.Runs.Deliveries

/-!
# `Plinth.Runs.Rendezvous`: every message passes once

`messages_exactly_once` relates the operations of a run that returned to the messages that were
passed. A send that returns `IPC_OK` and a receive that returns `IPC_OK` belong to one message each.
A message carries the word of the operation that issued it, passes at most once, and passes before
that operation returns. On one endpoint, messages pass in the order in which they were issued.

`Logged` is the invariant. It says which operation each parked process is in, and that the queues
are sorted by the steps that started these operations.
-/

set_option autoImplicit false

namespace Plinth

open Transition

section

variable {g : Guard} {v v' : Ledger} {p : ProcSlot}

/-! ### The queues stay sorted -/

/-- The queues are sorted by the number `f` of their members. -/
def Ledger.Sorted (v : Ledger) (f : ProcSlot → Nat) : Prop :=
  ∀ id, (v.queue id).Pairwise fun p q => f p < f q

/-- A process joins at the end, and a process leaves at the head. -/
theorem Act.sorted (act : Act g v v') (hbase : v.Base) {f : ProcSlot → Nat}
    (hlast : ∀ p place, g.park p place → (∃ id, (∃ mail, place = .sender id mail) ∨
      place = .receiver id) → ∀ q, q ≠ p → f q < f p) (h : v.Sorted f) : v'.Sorted f := by
  have hset : ∀ {id : EndpointId} {l : List ProcSlot}, l.Pairwise (fun p q => f p < f q) →
      ∀ id', (Function.update v.queue id l id').Pairwise fun p q => f p < f q := by
    intro id l hl id'
    by_cases heq : id' = id
    · subst heq
      rw [Function.update_self]
      exact hl
    · rw [Function.update_of_ne heq]
      exact h id'
  cases act with
  | @parkQueue q proc id k cap senders mail hp hk hcap hrun huse hside hpeer hmail hheld hg =>
    refine hset (List.pairwise_append.mpr ⟨h id, List.pairwise_singleton _ _, fun x hx y hy => ?_⟩)
    obtain rfl := List.mem_singleton.mp hy
    refine hlast y _ hg ?_ x ?_
    · cases senders with
      | true => exact ⟨id, Or.inl ⟨mail, rfl⟩⟩
      | false => exact ⟨id, Or.inr rfl⟩
    · rintro rfl
      refine hbase.registered.not_queued (Or.inl ?_) id hx
      rw [hrun]
      decide
  | @dequeue q id rest hq =>
    have hold := h id
    rw [hq] at hold
    exact hset (List.pairwise_cons.mp hold).2
  | @receiveCall q q' id rest proc k t hq hside hcall hproc hnone hin hg =>
    have hold := h id
    rw [hq] at hold
    exact hset (List.pairwise_cons.mp hold).2
  | _ => exact h

theorem Path.sorted (path : Path g v v') (hbase : v.Base) {f : ProcSlot → Nat}
    (hlast : ∀ p place, g.park p place → (∃ id, (∃ mail, place = .sender id mail) ∨
      place = .receiver id) → ∀ q, q ≠ p → f q < f p) (h : v.Sorted f) : v'.Sorted f :=
  Path.keeps (I := fun v => v.Sorted f) (fun _ _ act hbase h => act.sorted hbase hlast h) path
    hbase h

end

namespace Kernel

variable {s t : Kernel} {ℓ : Label} {p q : ProcSlot} {op : Op} {m : Meeting} {id : EndpointId}
  {hist : List (Kernel × Label)} {i j : Nat}

/-! ### The steps that start operations -/

theorem issuedAt_lt {x : ProcSlot × Op} (h : issuedAt hist i = some x) : i < hist.length := by
  induction hist with
  | nil => cases h
  | cons e hist ih =>
    obtain ⟨s, ℓ⟩ := e
    change (if i = hist.length then s.entry ℓ else issuedAt hist i) = some x at h
    rw [List.length_cons]
    split at h
    · omega
    · have hlt := ih h
      omega

/-- A later step does not change what an earlier one started. -/
theorem issuedAt_cons {x : ProcSlot × Op} (h : issuedAt hist i = some x) (s : Kernel) (ℓ : Label) :
    issuedAt ((s, ℓ) :: hist) i = some x := by
  have hlt := issuedAt_lt h
  show (if i = hist.length then s.entry ℓ else issuedAt hist i) = some x
  rw [if_neg (by omega)]
  exact h

theorem issuedAt_head (hist : List (Kernel × Label)) (s : Kernel) (ℓ : Label) :
    issuedAt ((s, ℓ) :: hist) hist.length = s.entry ℓ := if_pos rfl

/-- The place of a process in the order in which the operations were started. -/
def rank (o : Option (Nat × Op)) : Nat := o.elim 0 fun x => x.1 + 1

/-! ### The invariant -/

/-- The operations that the parked processes are in. -/
structure Logged (hist : List (Kernel × Label)) (s : Kernel) : Prop where
  /-- A parked process is in an operation that fits its place. -/
  fits : ∀ p place, s.ParkedAt p place → place.Fits ((pending p hist s).map Prod.snd)
  issued : ∀ p i op, pending p hist s = some (i, op) → issuedAt hist i = some (p, op)
  /-- The operation has not returned. -/
  unreturned : ∀ p i op, pending p hist s = some (i, op) → ∀ c ∈ outcomes hist s, c.issued ≠ i
  /-- The message of a queued sender was not passed, and those passed on its endpoint are older. -/
  unsent : ∀ p id mail, s.ParkedAt p (.sender id mail) → ∀ i op, pending p hist s = some (i, op) →
    ∀ d ∈ deliveries hist, d.sent ≠ i ∧ (d.meeting.endpoint = id → d.sent < i)
  /-- A queued receiver got no message. -/
  untaken : ∀ p id, s.ParkedAt p (.receiver id) → ∀ i op, pending p hist s = some (i, op) →
    ∀ d ∈ deliveries hist, d.taken ≠ i
  sorted : s.ledger.Sorted fun p => rank (pending p hist s)
  past : ∀ c ∈ outcomes hist s, c.issued < hist.length
  passed : ∀ d ∈ deliveries hist, d.sent < hist.length ∧ d.taken < hist.length ∧
    d.time < hist.length

/-- The operation of a process in a step was started by it. -/
theorem Logged.opOf_issued (h : Logged hist s) (ℓ : Label) (hop : opOf hist s ℓ p = some (i, op)) :
    issuedAt ((s, ℓ) :: hist) i = some (p, op) := by
  unfold opOf at hop
  split at hop
  · rename_i q op' hentry
    split at hop
    · rename_i heq
      subst heq
      obtain ⟨rfl, rfl⟩ := Prod.mk.inj (Option.some.inj hop)
      rw [issuedAt_head]
      exact hentry
    · exact issuedAt_cons (h.issued p i op hop) s ℓ
  · exact issuedAt_cons (h.issued p i op hop) s ℓ

/-- Two processes are in different operations. -/
theorem Logged.opOf_ne (h : Logged hist s) {op' : Op} (hp : opOf hist s ℓ p = some (i, op))
    (hq : opOf hist s ℓ q = some (j, op')) (hne : p ≠ q) : i ≠ j := by
  rintro rfl
  have hfirst := h.opOf_issued ℓ hp
  rw [h.opOf_issued ℓ hq] at hfirst
  exact hne (Prod.mk.inj (Option.some.inj hfirst)).1.symm

theorem Logged.pending_lt (h : Logged hist s) (hp : pending p hist s = some (i, op)) :
    i < hist.length := issuedAt_lt (h.issued p i op hp)

/-- After a step, a parked process is in an operation that fits its place. -/
theorem Logged.fits_next (h : Logged hist s) (hgood : s.Good) (hnext : s.step ℓ = some t)
    {place : Place} (ht : t.ParkedAt p place) : place.Fits ((opOf hist s ℓ p).map Prod.snd) := by
  obtain ⟨σ, hσ, hwalk⟩ := hgood.parked_before hnext ht
  have hstayed : ∀ place', s.ParkedAt p place' →
      place'.Fits ((opOf hist s ℓ p).map Prod.snd) := by
    intro place' hs
    rw [opOf_blocked hgood hs.blocked]
    exact h.fits p place' hs
  have hparks : ∀ place', s.parking ℓ = some (p, place') →
      place'.Fits ((opOf hist s ℓ p).map Prod.snd) := by
    intro place' hpark
    obtain ⟨o, hfits, hentry⟩ := entry_of_parking hpark
    cases o with
    | some op =>
      rw [opOf_entry hentry]
      exact hfits
    | none =>
      have hrun := parking_running hgood hpark
      have hnone : opOf hist s ℓ p = none := by
        unfold opOf
        rw [hentry]
        refine pending_none ?_ hist
        rw [hrun]
        decide
      rw [hnone]
      exact hfits
  by_cases hreply : place = .reply
  · subst hreply
    rcases hwalk.to_reply with rfl | hpark | ⟨id, mail, hcall, -, rfl | hpark⟩
    · exact hstayed _ hσ
    · exact hparks _ hpark
    · have hfits := hstayed _ hσ
      refine ⟨id, mail.msg, hfits.trans ?_⟩
      rw [hcall]
      rfl
    · have hfits := hparks _ hpark
      refine ⟨id, mail.msg, hfits.trans ?_⟩
      rw [hcall]
      rfl
  · by_cases hnowhere : place = .nowhere
    · subst hnowhere
      rcases hwalk.to_nowhere with rfl | hpark | hforget
      · exact hstayed _ hσ
      · exact hparks _ hpark
      · -- A forgotten caller was in the queue with its request.
        have hmeets : ∃ id ipc, s.ipc.takeWaiting id true = some (p, ipc) ∧
            (s.procs.table p).pendingCall = true := by
          change s.forgotten ℓ = some p at hforget
          cases ℓ with
          | recv core epSlot =>
            simp only [forgotten] at hforget
            split at hforget
            · cases hforget
            · rename_i id hid
              split at hforget
              · cases hforget
              · rename_i sender ipc htake
                split at hforget
                · rename_i hcond
                  obtain rfl := Option.some.inj hforget
                  exact ⟨id, ipc, htake, hcond.1⟩
                · cases hforget
          | _ => cases hforget
        obtain ⟨id, ipc, htake, hcall⟩ := hmeets
        have hfits := hstayed _ (hgood.takes_sender htake).1
        have hmail : (s.ledger.mail p).call = true := hcall
        refine ⟨id, (s.ledger.mail p).msg, hfits.trans ?_⟩
        rw [hmail]
        rfl
    · rcases hwalk.to_at hreply hnowhere with rfl | hpark
      · exact hstayed _ hσ
      · exact hparks _ hpark

/-- The message that passes in a step, with the operations of the two sides. -/
theorem Logged.delivery (h : Logged hist s) (hgood : s.Good) (hm : s.meets ℓ = some m) :
    ∃ i j, stepDelivery hist s ℓ = some ⟨m, i, j, hist.length⟩ ∧
      opOf hist s ℓ m.sender = some (i, .post m.call m.endpoint m.word) ∧
      opOf hist s ℓ m.receiver = some (j, .recv m.endpoint) ∧
      ((s.entry ℓ = some (m.sender, .post m.call m.endpoint m.word) ∧ i = hist.length ∧
          s.ParkedAt m.receiver (.receiver m.endpoint)) ∨
        (s.entry ℓ = some (m.receiver, .recv m.endpoint) ∧ j = hist.length ∧
          ∃ mail rest, s.ParkedAt m.sender (.sender m.endpoint mail) ∧
            s.ledger.queue m.endpoint = m.sender :: rest)) := by
  suffices hops : ∃ i j, opOf hist s ℓ m.sender = some (i, .post m.call m.endpoint m.word) ∧
      opOf hist s ℓ m.receiver = some (j, .recv m.endpoint) ∧ _ by
    obtain ⟨i, j, hi, hj, hrest⟩ := hops
    refine ⟨i, j, ?_, hi, hj, hrest⟩
    unfold stepDelivery
    rw [hm, Option.bind_some, hi, Option.bind_some, hj]
    rfl
  rcases hgood.meets_cases hm with ⟨hentry, hparked⟩ | ⟨hentry, mail, rest, hparked, hword, hcall,
    hqueue⟩
  · have hfits : (pending m.receiver hist s).map Prod.snd = some (.recv m.endpoint) :=
      h.fits _ _ hparked
    obtain ⟨⟨j, op⟩, hj, hop⟩ := Option.map_eq_some_iff.mp hfits
    change op = .recv m.endpoint at hop
    subst hop
    refine ⟨hist.length, j, opOf_entry hentry hist, ?_, Or.inl ⟨hentry, rfl, hparked⟩⟩
    rw [opOf_blocked hgood hparked.blocked]
    exact hj
  · have hfits : (pending m.sender hist s).map Prod.snd =
        some (.post mail.call m.endpoint mail.msg) := h.fits _ _ hparked
    rw [hword, hcall] at hfits
    obtain ⟨⟨i, op⟩, hi, hop⟩ := Option.map_eq_some_iff.mp hfits
    change op = .post m.call m.endpoint m.word at hop
    subst hop
    refine ⟨i, hist.length, ?_, opOf_entry hentry hist,
      Or.inr ⟨hentry, rfl, mail, rest, hparked, hqueue⟩⟩
    rw [opOf_blocked hgood hparked.blocked]
    exact hi

theorem mem_deliveries_cons {d : Delivery} (hd : d ∈ deliveries ((s, ℓ) :: hist)) :
    stepDelivery hist s ℓ = some d ∨ d ∈ deliveries hist := by
  rcases List.mem_append.mp hd with hnew | hold
  · exact Or.inl (Option.mem_toList.mp hnew)
  · exact Or.inr hold

theorem mem_outcomes_cons {c : Outcome} :
    c ∈ outcomes ((s, ℓ) :: hist) t ↔ completedNow hist s ℓ = some c ∨
      (∃ p, completedLater hist s t p = some c) ∨ c ∈ outcomes hist s := by
  show c ∈ stepOutcomes hist s ℓ t ++ outcomes hist s ↔ _
  unfold stepOutcomes
  rw [List.mem_append, List.mem_append, Option.mem_toList, List.mem_filterMap, or_assoc]
  simp

theorem completedNow_eq {c : Outcome} (h : completedNow hist s ℓ = some c) :
    s.entry ℓ = some (c.proc, c.op) ∧ s.answer ℓ = some (c.status, c.payload) ∧
      c.issued = hist.length ∧ c.returned = hist.length := by
  obtain ⟨e, he, hrest⟩ := Option.bind_eq_some_iff.mp h
  obtain ⟨a, ha, rfl⟩ := Option.map_eq_some_iff.mp hrest
  exact ⟨he, ha, rfl, rfl⟩

theorem completedLater_eq {c : Outcome} (h : completedLater hist s t p = some c) :
    t.procs.state p ≠ .blocked ∧ pending p hist s = some (c.issued, c.op) ∧ c.proc = p ∧
      c.returned = hist.length ∧ c.status = (t.procs.table p).result.status ∧
      c.payload = some (t.procs.table p).result.payload := by
  unfold completedLater at h
  split at h
  · cases h
  · rename_i hout
    obtain ⟨o, ho, rfl⟩ := Option.map_eq_some_iff.mp h
    exact ⟨hout, ho, rfl, rfl, rfl, rfl⟩

theorem completedLater_some (hout : t.procs.state p ≠ .blocked)
    (hp : pending p hist s = some (i, op)) : completedLater hist s t p =
      some ⟨p, op, i, hist.length, (t.procs.table p).result.status,
        some (t.procs.table p).result.payload⟩ := by
  unfold completedLater
  rw [if_neg hout, hp]
  rfl

/-- A process that is in an operation is Blocked. -/
theorem pending_blocked (h : pending p hist s = some (i, op)) : s.procs.state p = .blocked := by
  by_contra hne
  rw [pending_none hne] at h
  cases h

/-- A process that entered a queue met nobody. -/
theorem Good.parks_unmet (hgood : s.Good) (hnext : s.step ℓ = some t)
    (hblocked : t.procs.state p = .blocked) (hentry : s.entry ℓ = some (p, op))
    (hop : ∀ id w, op ≠ .call id w) : s.meets ℓ = none := by
  cases hm : s.meets ℓ with
  | none => rfl
  | some m =>
    have hrun : ∀ a, s.answer ℓ = some a → False := by
      intro a ha
      rw [hgood.answer_running hnext hentry ha] at hblocked
      cases hblocked
    rcases answer_of_meets hm hentry with ⟨-, ha⟩ | hcall | ⟨-, ha⟩
    · exact (hrun _ ha).elim
    · exact absurd hcall (hop _ _)
    · exact (hrun _ ha).elim

/-- A caller that entered a queue met nobody. -/
theorem parking_sender_unmet {mail : Mail} (hcall : mail.call = true)
    (hpark : s.parking ℓ = some (p, .sender id mail)) : s.meets ℓ = none := by
  cases ℓ with
  | send core epSlot msg capSlot =>
    obtain ⟨id', hid, heq⟩ := Option.map_eq_some_iff.mp hpark
    cases heq
    cases hcall
  | recv core epSlot =>
    obtain ⟨id', hid, heq⟩ := Option.map_eq_some_iff.mp hpark
    cases heq
  | call core epSlot req =>
    obtain ⟨id', hid, heq⟩ := Option.map_eq_some_iff.mp hpark
    have hplace := (Prod.mk.inj heq).2
    unfold callPlace at hplace
    show (s.endpointIdFor core epSlot rightSend).bind _ = _
    rw [hid, Option.bind_some]
    cases htake : s.ipc.takeWaiting id' false with
    | none => rfl
    | some r =>
      rw [htake] at hplace
      dsimp only at hplace
      split at hplace
      · cases hplace
      · cases hplace
  | _ => rfl

/-- After a step, the message of a queued sender was not passed. -/
theorem Logged.unsent_next (h : Logged hist s) (hgood : s.Good) (hnext : s.step ℓ = some t)
    {mail : Mail} (ht : t.ParkedAt p (.sender id mail)) (hop : opOf hist s ℓ p = some (i, op)) :
    ∀ d ∈ deliveries ((s, ℓ) :: hist), d.sent ≠ i ∧ (d.meeting.endpoint = id → d.sent < i) := by
  obtain ⟨σ, hσ, hwalk⟩ := hgood.parked_before hnext ht
  intro d hd
  rcases hwalk.to_at (fun heq => by cases heq) (fun heq => by cases heq) with rfl | hpark
  · -- It was in the queue before.
    have hs : s.ParkedAt p (.sender id mail) := hσ
    have hpending := hop
    rw [opOf_blocked hgood hs.blocked] at hpending
    rcases mem_deliveries_cons hd with hnew | hold
    · cases hm : s.meets ℓ with
      | none =>
        unfold stepDelivery at hnew
        rw [hm] at hnew
        cases hnew
      | some m =>
        obtain ⟨i', j', hstep, hi', hj', hcase⟩ := h.delivery hgood hm
        rw [hstep] at hnew
        obtain rfl := Option.some.inj hnew
        have hne : m.sender ≠ p := by
          rintro rfl
          rcases hcase with ⟨hentry, -⟩ | ⟨hentry, -, mail', rest, hparked, -⟩
          · have hrun := entry_running hgood hentry
            rw [hs.blocked] at hrun
            cases hrun
          · cases hparked.unique hgood hs
            exact (hgood.frees_sender hnext hm hentry).2 _ ht
        refine ⟨h.opOf_ne hi' hop hne, fun hid => ?_⟩
        dsimp only at hid ⊢
        subst hid
        rcases hcase with ⟨-, -, hparked⟩ | ⟨-, -, mail', rest, hparked, hqueue⟩
        · have hside : s.ledger.sendersWait m.endpoint = true := hs.2.2.1
          rw [hparked.2.2] at hside
          cases hside
        · -- The sender that is taken is at the head of the queue.
          have hsorted := h.sorted m.endpoint
          have hmem : p ∈ s.ledger.queue m.endpoint := hs.2.1
          rw [hqueue] at hsorted hmem
          have hrest : p ∈ rest := (List.mem_cons.mp hmem).resolve_left (Ne.symm hne)
          have hlt : rank (pending m.sender hist s) < rank (pending p hist s) :=
            (List.pairwise_cons.mp hsorted).1 p hrest
          rw [opOf_blocked hgood hparked.blocked] at hi'
          rw [hi', hpending] at hlt
          unfold rank at hlt
          simp only [Option.elim_some] at hlt
          omega
    · exact h.unsent p id mail hs i op hpending d hold
  · -- It has just joined the queue.
    obtain ⟨o, hfits, hentry⟩ := entry_of_parking hpark
    obtain rfl : o = some (.post mail.call id mail.msg) := hfits
    rw [opOf_entry hentry] at hop
    obtain ⟨rfl, rfl⟩ := Prod.mk.inj (Option.some.inj hop)
    rcases mem_deliveries_cons hd with hnew | hold
    · have hunmet : s.meets ℓ = none := by
        cases hcall : mail.call with
        | true => exact parking_sender_unmet hcall hpark
        | false =>
          refine hgood.parks_unmet hnext ht.blocked hentry fun id' w heq => ?_
          rw [hcall] at heq
          cases heq
      unfold stepDelivery at hnew
      rw [hunmet] at hnew
      cases hnew
    · have hlt := (h.passed d hold).1
      exact ⟨by omega, fun _ => hlt⟩

/-- After a step, a queued receiver got no message. -/
theorem Logged.untaken_next (h : Logged hist s) (hgood : s.Good) (hnext : s.step ℓ = some t)
    (ht : t.ParkedAt p (.receiver id)) (hop : opOf hist s ℓ p = some (i, op)) :
    ∀ d ∈ deliveries ((s, ℓ) :: hist), d.taken ≠ i := by
  obtain ⟨σ, hσ, hwalk⟩ := hgood.parked_before hnext ht
  intro d hd
  rcases mem_deliveries_cons hd with hnew | hold
  · cases hm : s.meets ℓ with
    | none =>
      unfold stepDelivery at hnew
      rw [hm] at hnew
      cases hnew
    | some m =>
      obtain ⟨i', j', hstep, hi', hj', hcase⟩ := h.delivery hgood hm
      rw [hstep] at hnew
      obtain rfl := Option.some.inj hnew
      refine h.opOf_ne hj' hop ?_
      -- The receiver of the message is not parked any more.
      rintro rfl
      rcases hcase with ⟨hentry, -⟩ | ⟨hentry, -⟩
      · have hready := hgood.wakes_receiver hnext hm hentry
        rw [ht.blocked] at hready
        cases hready
      · have hunmet := hgood.parks_unmet hnext ht.blocked hentry fun _ _ heq => by cases heq
        rw [hm] at hunmet
        cases hunmet
  · rcases hwalk.to_at (fun heq => by cases heq) (fun heq => by cases heq) with rfl | hpark
    · have hs : s.ParkedAt p (.receiver id) := hσ
      rw [opOf_blocked hgood hs.blocked] at hop
      exact h.untaken p id hs i op hop d hold
    · obtain ⟨o, hfits, hentry⟩ := entry_of_parking hpark
      obtain rfl : o = some (.recv id) := hfits
      rw [opOf_entry hentry] at hop
      obtain ⟨rfl, rfl⟩ := Prod.mk.inj (Option.some.inj hop)
      have hlt := (h.passed d hold).2.1
      omega

/-- After a step, the operation of a process that is Blocked has not returned. -/
theorem Logged.unreturned_next (h : Logged hist s) (hgood : s.Good) (hnext : s.step ℓ = some t)
    (hblocked : t.procs.state p = .blocked) (hop : opOf hist s ℓ p = some (i, op)) :
    ∀ c ∈ outcomes ((s, ℓ) :: hist) t, c.issued ≠ i := by
  intro c hc
  rcases mem_outcomes_cons.mp hc with hnow | ⟨q, hlater⟩ | hold
  · obtain ⟨hentry, ha, hissued, -⟩ := completedNow_eq hnow
    rintro rfl
    have hne : c.proc ≠ p := by
      rintro rfl
      rw [hgood.answer_running hnext hentry ha] at hblocked
      cases hblocked
    refine h.opOf_ne (opOf_entry hentry hist) hop hne hissued.symm
  · obtain ⟨hout, hq, -⟩ := completedLater_eq hlater
    have hne : q ≠ p := by
      rintro rfl
      exact hout hblocked
    have hq' : opOf hist s ℓ q = some (c.issued, c.op) := by
      rw [opOf_blocked hgood (pending_blocked hq)]
      exact hq
    exact h.opOf_ne hq' hop hne
  · unfold opOf at hop
    split at hop
    · split at hop
      · obtain ⟨rfl, -⟩ := Prod.mk.inj (Option.some.inj hop)
        have hlt := h.past c hold
        omega
      · exact h.unreturned p i op hop c hold
    · exact h.unreturned p i op hop c hold

/-- After a step, the queues are sorted. -/
theorem Logged.sorted_next (h : Logged hist s) (hgood : s.Good) (hnext : s.step ℓ = some t) :
    t.ledger.Sorted fun p => rank (opOf hist s ℓ p) := by
  obtain ⟨-, spent, hpath⟩ := hgood.step_path hnext
  have hle : ∀ q, rank (pending q hist s) ≤ hist.length := by
    intro q
    cases hq : pending q hist s with
    | none => exact Nat.zero_le _
    | some o =>
      have hlt := h.pending_lt hq
      show o.1 + 1 ≤ hist.length
      omega
  refine Path.sorted hpath hgood.base (fun q place hpark hqueue q' hne => ?_) fun id => ?_
  · have hparking : s.parking ℓ = some (q, place) := hpark
    obtain ⟨o, hfits, hentry⟩ := entry_of_parking hparking
    have hsome : ∃ op, o = some op := by
      obtain ⟨id, ⟨mail, rfl⟩ | rfl⟩ := hqueue
      · exact ⟨_, hfits⟩
      · exact ⟨_, hfits⟩
    obtain ⟨op, rfl⟩ := hsome
    have hother : opOf hist s ℓ q' = pending q' hist s := by
      unfold opOf
      rw [hentry]
      exact if_neg (Ne.symm hne)
    rw [opOf_entry hentry, hother]
    have hlt := hle q'
    show rank (pending q' hist s) < hist.length + 1
    omega
  · refine List.Pairwise.imp_of_mem (fun {x y} hx hy hlt => ?_) (h.sorted id)
    have hblocked : ∀ x ∈ s.ledger.queue id, opOf hist s ℓ x = pending x hist s := by
      intro x hx
      rcases hgood.queued_parked hx with ⟨mail, hparked⟩ | hparked
      · exact opOf_blocked hgood hparked.blocked hist ℓ
      · exact opOf_blocked hgood hparked.blocked hist ℓ
    rw [hblocked x hx, hblocked y hy]
    exact hlt

/-- Every step keeps the invariant. -/
theorem Logged.next (h : Logged hist s) (hgood : s.Good) (hnext : s.step ℓ = some t) :
    Logged ((s, ℓ) :: hist) t := by
  obtain ⟨hgood', -⟩ := hgood.step_path hnext
  have hop : ∀ {p i op}, pending p ((s, ℓ) :: hist) t = some (i, op) →
      t.procs.state p = .blocked ∧ opOf hist s ℓ p = some (i, op) := by
    intro p i op hp
    have hblocked := pending_blocked hp
    rw [pending_next hist hblocked] at hp
    exact ⟨hblocked, hp⟩
  refine ⟨fun p place ht => ?_, fun p i op hp => ?_, fun p i op hp => ?_,
    fun p id mail ht i op hp => ?_, fun p id ht i op hp => ?_, fun id => ?_, fun c hc => ?_,
    fun d hd => ?_⟩
  · rw [pending_next hist ht.blocked]
    exact h.fits_next hgood hnext ht
  · exact h.opOf_issued ℓ (hop hp).2
  · exact h.unreturned_next hgood hnext (hop hp).1 (hop hp).2
  · exact h.unsent_next hgood hnext ht (hop hp).2
  · exact h.untaken_next hgood hnext ht (hop hp).2
  · refine List.Pairwise.imp_of_mem (fun {x y} hx hy hlt => ?_) (h.sorted_next hgood hnext id)
    have hblocked : ∀ x ∈ t.ledger.queue id,
        pending x ((s, ℓ) :: hist) t = opOf hist s ℓ x := by
      intro x hx
      rcases hgood'.queued_parked hx with ⟨mail, hparked⟩ | hparked
      · exact pending_next hist hparked.blocked
      · exact pending_next hist hparked.blocked
    show rank (pending x ((s, ℓ) :: hist) t) < rank (pending y ((s, ℓ) :: hist) t)
    rw [hblocked x hx, hblocked y hy]
    exact hlt
  · rw [List.length_cons]
    rcases mem_outcomes_cons.mp hc with hnow | ⟨q, hlater⟩ | hold
    · obtain ⟨-, -, hissued, -⟩ := completedNow_eq hnow
      omega
    · obtain ⟨-, hq, -⟩ := completedLater_eq hlater
      have hlt := h.pending_lt hq
      omega
    · have hlt := h.past c hold
      omega
  · rw [List.length_cons]
    rcases mem_deliveries_cons hd with hnew | hold
    · cases hm : s.meets ℓ with
      | none =>
        unfold stepDelivery at hnew
        rw [hm] at hnew
        cases hnew
      | some m =>
        obtain ⟨i, j, hstep, hi, hj, -⟩ := h.delivery hgood hm
        rw [hstep] at hnew
        obtain rfl := Option.some.inj hnew
        have hlt := issuedAt_lt (h.opOf_issued ℓ hi)
        have hlt' := issuedAt_lt (h.opOf_issued ℓ hj)
        rw [List.length_cons] at hlt hlt'
        exact ⟨hlt, hlt', Nat.lt_succ_self _⟩
    · obtain ⟨h1, h2, h3⟩ := h.passed d hold
      omega

theorem logged_start (hinit : Booted s) : Logged [] s := by
  have hparked : ∀ p place, ¬ s.ParkedAt p place :=
    fun p place hs => hinit.not_blocked p hs.blocked
  refine ⟨fun p place hs => absurd hs (hparked p place), (fun _ _ _ hp => nomatch hp),
    (fun _ _ _ hp => nomatch hp), fun p id mail hs => absurd hs (hparked _ _),
    fun p id hs => absurd hs (hparked _ _), fun id => ?_, (fun c hc => nomatch hc),
    (fun d hd => nomatch hd)⟩
  rw [show s.ledger.queue id = [] from hinit.waiting_nil id]
  exact List.Pairwise.nil

theorem logged_of_run (run : Run system always hist s) : Logged hist s := by
  induction run with
  | start hinit => exact logged_start hinit
  | step run _ hnext ih => exact ih.next (good_of_reachable run.reachable) hnext

/-! ### The main result -/

/-- The operations that returned and the messages that were passed. -/
structure ExactlyOnce (hist : List (Kernel × Label)) (s : Kernel) : Prop where
  /-- A send that returned `IPC_OK`: its message was passed when it returned. -/
  sends : ∀ c ∈ outcomes hist s, ∀ id word, c.op = .send id word → c.status = ipcOk →
    ∃ d ∈ deliveries hist, d.sent = c.issued ∧ d.time = c.returned ∧
      d.meeting = ⟨id, word, false, c.proc, d.meeting.receiver⟩
  /-- A receive that returned `IPC_OK`: it got the word of a message when it returned. -/
  recvs : ∀ c ∈ outcomes hist s, ∀ id, c.op = .recv id → c.status = ipcOk →
    ∃ d ∈ deliveries hist, d.taken = c.issued ∧ d.time = c.returned ∧
      d.meeting.endpoint = id ∧ d.meeting.receiver = c.proc ∧ c.payload = some d.meeting.word
  /-- A message that was passed: the receive returned its word, and so did the send, unless it was a
  call. -/
  returned : ∀ d ∈ deliveries hist,
    (∃ c ∈ outcomes hist s, c.proc = d.meeting.receiver ∧ c.op = .recv d.meeting.endpoint ∧
      c.issued = d.taken ∧ c.returned = d.time ∧ c.status = ipcOk ∧
      c.payload = some d.meeting.word) ∧
    (d.meeting.call = false → ∃ c ∈ outcomes hist s, c.proc = d.meeting.sender ∧
      c.op = .send d.meeting.endpoint d.meeting.word ∧ c.issued = d.sent ∧ c.returned = d.time ∧
      c.status = ipcOk)
  /-- The two operations were started, and the message carries the word of the first one. -/
  issued : ∀ d ∈ deliveries hist,
    issuedAt hist d.sent = some (d.meeting.sender,
      .post d.meeting.call d.meeting.endpoint d.meeting.word) ∧
    issuedAt hist d.taken = some (d.meeting.receiver, .recv d.meeting.endpoint)
  /-- A message is passed once, a receive gets one message, and an operation returns once. -/
  once : ((deliveries hist).map Delivery.sent).Nodup ∧
    ((deliveries hist).map Delivery.taken).Nodup ∧
    ((outcomes hist s).map Outcome.issued).Nodup
  /-- On one endpoint, the messages pass in the order in which they were issued. -/
  order : (deliveries hist).Pairwise fun later earlier => earlier.time < later.time ∧
    (earlier.meeting.endpoint = later.meeting.endpoint → earlier.sent < later.sent)
  /-- No message is passed after its operation returned, and a send whose message is passed returns
  `IPC_OK`. -/
  settled : ∀ c ∈ outcomes hist s, ∀ d ∈ deliveries hist, d.sent = c.issued →
    d.time ≤ c.returned ∧ (d.meeting.call = false → c.status = ipcOk)

/-- Where a process that is in a send waits. -/
theorem Logged.parked_send (h : Logged hist s) {word : Nat}
    (hp : pending p hist s = some (i, .send id word)) :
    ∃ mail, s.ParkedAt p (.sender id mail) ∧ mail.call = false ∧ mail.msg = word := by
  obtain ⟨place, hparked⟩ :=
    (stands_between s p).resolve_left fun hne => hne (pending_blocked hp)
  have hfits := h.fits p place hparked
  rw [hp] at hfits
  cases place with
  | sender id' mail =>
    have heq : Op.send id word = .post mail.call id' mail.msg := Option.some.inj hfits
    unfold Op.post at heq
    split at heq
    · cases heq
    · rename_i hcall
      cases heq
      exact ⟨mail, hparked, by simpa using hcall, rfl⟩
  | receiver id' => cases hfits
  | reply =>
    obtain ⟨_, _, heq⟩ := hfits
    cases heq
  | nowhere =>
    obtain ⟨_, _, heq⟩ := hfits
    cases heq
  | ring id' => cases hfits
  | bound dev => cases hfits

/-- Where a process that is in a receive waits. -/
theorem Logged.parked_recv (h : Logged hist s) (hp : pending p hist s = some (i, .recv id)) :
    s.ParkedAt p (.receiver id) := by
  obtain ⟨place, hparked⟩ :=
    (stands_between s p).resolve_left fun hne => hne (pending_blocked hp)
  have hfits := h.fits p place hparked
  rw [hp] at hfits
  cases place with
  | sender id' mail =>
    have heq : Op.recv id = .post mail.call id' mail.msg := Option.some.inj hfits
    unfold Op.post at heq
    split at heq
    · cases heq
    · cases heq
  | receiver id' =>
    cases Option.some.inj hfits
    exact hparked
  | reply =>
    obtain ⟨_, _, heq⟩ := hfits
    cases heq
  | nowhere =>
    obtain ⟨_, _, heq⟩ := hfits
    cases heq
  | ring id' => cases hfits
  | bound dev => cases hfits

/-- A send that returns `IPC_OK` in a step: its message passes in the step. -/
theorem Logged.send_returns (h : Logged hist s) (hgood : s.Good) (hnext : s.step ℓ = some t)
    {c : Outcome} (hc : c ∈ outcomes ((s, ℓ) :: hist) t) (hnew : c ∉ outcomes hist s) {word : Nat}
    (hop : c.op = .send id word) (hok : c.status = ipcOk) :
    ∃ d, stepDelivery hist s ℓ = some d ∧ d.sent = c.issued ∧ d.time = c.returned ∧
      d.meeting = ⟨id, word, false, c.proc, d.meeting.receiver⟩ := by
  rcases mem_outcomes_cons.mp hc with hnow | ⟨q, hlater⟩ | hold
  · obtain ⟨hentry, ha, hissued, hreturned⟩ := completedNow_eq hnow
    rw [hok] at ha
    obtain ⟨m, hm, ⟨heq, hcall, hsender⟩ | ⟨heq, -⟩⟩ := answer_ok hentry ha
    · obtain ⟨i, j, hstep, hi, -⟩ := h.delivery hgood hm
      rw [hsender, opOf_entry hentry] at hi
      obtain ⟨rfl, -⟩ := Prod.mk.inj (Option.some.inj hi)
      rw [hop] at heq
      cases heq
      refine ⟨_, hstep, hissued.symm, hreturned.symm, ?_⟩
      rw [← hcall, ← hsender]
    · rw [hop] at heq
      cases heq
  · obtain ⟨hout, hq, hproc, hreturned, hstatus, -⟩ := completedLater_eq hlater
    rw [hop] at hq
    obtain ⟨mail, hparked, hcall, hword⟩ := h.parked_send hq
    rcases hgood.woken_signals hnext hparked ⟨id, hparked.2.1⟩ hout with ⟨hdied, -⟩ |
      ⟨m, -, hplace, -⟩ | ⟨m, mail', hm, hplace, hsender, -⟩
    · rw [← hstatus, hok] at hdied
      cases hdied
    · cases hplace
    · cases hplace
      obtain ⟨i, j, hstep, hi, -⟩ := h.delivery hgood hm
      rw [hsender, opOf_blocked hgood hparked.blocked, hq] at hi
      obtain ⟨rfl, heq⟩ := Prod.mk.inj (Option.some.inj hi)
      unfold Op.post at heq
      split at heq
      · cases heq
      · rename_i hno
        cases heq
        refine ⟨_, hstep, rfl, hreturned.symm, ?_⟩
        rw [hproc, ← hsender]
        have hfalse : m.call = false := by simpa using hno
        rw [← hfalse]
  · exact absurd hold hnew

/-- A receive that returns `IPC_OK` in a step: it gets the message that passes in the step. -/
theorem Logged.recv_returns (h : Logged hist s) (hgood : s.Good) (hnext : s.step ℓ = some t)
    {c : Outcome} (hc : c ∈ outcomes ((s, ℓ) :: hist) t) (hnew : c ∉ outcomes hist s)
    (hop : c.op = .recv id) (hok : c.status = ipcOk) :
    ∃ d, stepDelivery hist s ℓ = some d ∧ d.taken = c.issued ∧ d.time = c.returned ∧
      d.meeting.endpoint = id ∧ d.meeting.receiver = c.proc ∧
      c.payload = some d.meeting.word := by
  rcases mem_outcomes_cons.mp hc with hnow | ⟨q, hlater⟩ | hold
  · obtain ⟨hentry, ha, hissued, hreturned⟩ := completedNow_eq hnow
    rw [hok] at ha
    obtain ⟨m, hm, ⟨heq, -⟩ | ⟨heq, hreceiver, hpayload⟩⟩ := answer_ok hentry ha
    · rw [hop] at heq
      cases heq
    · obtain ⟨i, j, hstep, -, hj, -⟩ := h.delivery hgood hm
      rw [hreceiver, opOf_entry hentry] at hj
      obtain ⟨rfl, -⟩ := Prod.mk.inj (Option.some.inj hj)
      rw [hop] at heq
      cases heq
      exact ⟨_, hstep, hissued.symm, hreturned.symm, rfl, hreceiver, hpayload⟩
  · obtain ⟨hout, hq, hproc, hreturned, hstatus, hpayload⟩ := completedLater_eq hlater
    rw [hop] at hq
    have hparked := h.parked_recv hq
    rcases hgood.woken_signals hnext hparked ⟨id, hparked.2.1⟩ hout with ⟨hdied, -⟩ |
      ⟨m, hm, hplace, hreceiver, -, -, hword⟩ | ⟨m, mail', -, hplace, -⟩
    · rw [← hstatus, hok] at hdied
      cases hdied
    · cases hplace
      obtain ⟨i, j, hstep, -, hj, -⟩ := h.delivery hgood hm
      rw [hreceiver, opOf_blocked hgood hparked.blocked, hq] at hj
      obtain ⟨rfl, -⟩ := Prod.mk.inj (Option.some.inj hj)
      refine ⟨_, hstep, rfl, hreturned.symm, rfl, hreceiver.trans hproc.symm, ?_⟩
      rw [hpayload, hword]
    · cases hplace
  · exact absurd hold hnew

/-- The two sides of a message that passes in a step. -/
theorem Logged.delivery_returns (h : Logged hist s) (hgood : s.Good) (hnext : s.step ℓ = some t)
    {d : Delivery} (hd : stepDelivery hist s ℓ = some d) :
    (∃ c ∈ outcomes ((s, ℓ) :: hist) t, c.proc = d.meeting.receiver ∧
      c.op = .recv d.meeting.endpoint ∧ c.issued = d.taken ∧ c.returned = d.time ∧
      c.status = ipcOk ∧ c.payload = some d.meeting.word) ∧
    (d.meeting.call = false → ∃ c ∈ outcomes ((s, ℓ) :: hist) t, c.proc = d.meeting.sender ∧
      c.op = .send d.meeting.endpoint d.meeting.word ∧ c.issued = d.sent ∧ c.returned = d.time ∧
      c.status = ipcOk) := by
  cases hm : s.meets ℓ with
  | none =>
    unfold stepDelivery at hd
    rw [hm] at hd
    cases hd
  | some m =>
    obtain ⟨i, j, hstep, hi, hj, hcase⟩ := h.delivery hgood hm
    rw [hstep] at hd
    obtain rfl := Option.some.inj hd
    dsimp only
    rcases hcase with ⟨hentry, rfl, hparked⟩ | ⟨hentry, rfl, mail, rest, hparked, -⟩
    · constructor
      · -- The receiver waited, and it is woken.
        have hout : t.procs.state m.receiver ≠ .blocked := by
          rw [hgood.wakes_receiver hnext hm hentry]
          decide
        rw [opOf_blocked hgood hparked.blocked] at hj
        refine ⟨_,
          mem_outcomes_cons.mpr (Or.inr (Or.inl ⟨m.receiver, completedLater_some hout hj⟩)),
          rfl, rfl, rfl, rfl, ?_⟩
        rcases hgood.woken_signals hnext hparked ⟨_, hparked.2.1⟩ hout with ⟨-, hunmet⟩ |
          ⟨m', hm', -, -, -, hstatus, hword⟩ | ⟨m', mail', -, hplace, -⟩
        · rw [hm] at hunmet
          cases hunmet
        · obtain rfl : m = m' := Option.some.inj (hm.symm.trans hm')
          exact ⟨hstatus, by rw [hword]⟩
        · cases hplace
      · intro hcall
        rcases answer_of_meets hm hentry with ⟨heq, ha⟩ | heq | ⟨heq, -⟩
        · refine ⟨⟨m.sender, .send m.endpoint m.word, hist.length, hist.length, ipcOk, none⟩,
            mem_outcomes_cons.mpr (Or.inl ?_), rfl, rfl, rfl, rfl, rfl⟩
          unfold completedNow
          rw [hentry, Option.bind_some, ha, heq]
          rfl
        · unfold Op.post at heq
          rw [hcall, if_neg Bool.false_ne_true] at heq
          cases heq
        · unfold Op.post at heq
          rw [hcall, if_neg Bool.false_ne_true] at heq
          cases heq
    · constructor
      · rcases answer_of_meets hm hentry with ⟨heq, -⟩ | heq | ⟨-, ha⟩
        · cases heq
        · cases heq
        · refine ⟨⟨m.receiver, .recv m.endpoint, hist.length, hist.length, ipcOk, some m.word⟩,
            mem_outcomes_cons.mpr (Or.inl ?_), rfl, rfl, rfl, rfl, rfl, rfl⟩
          unfold completedNow
          rw [hentry, Option.bind_some, ha]
          rfl
      · intro hcall
        have hout : t.procs.state m.sender ≠ .blocked := by
          rw [(hgood.frees_sender hnext hm hentry).1 hcall]
          decide
        rw [opOf_blocked hgood hparked.blocked, hcall] at hi
        refine ⟨_, mem_outcomes_cons.mpr (Or.inr (Or.inl ⟨m.sender, completedLater_some hout hi⟩)),
          rfl, rfl, rfl, rfl, ?_⟩
        rcases hgood.woken_signals hnext hparked ⟨_, hparked.2.1⟩ hout with ⟨-, hunmet⟩ |
          ⟨m', -, hplace, -⟩ | ⟨m', mail', -, -, -, -, hstatus⟩
        · rw [hm] at hunmet
          cases hunmet
        · cases hplace
        · exact hstatus

/-- The message of a step passes for the first time, and those that passed on its endpoint were
issued before it. -/
theorem Logged.delivery_fresh (h : Logged hist s) (hgood : s.Good) {d : Delivery}
    (hd : stepDelivery hist s ℓ = some d) : d.time = hist.length ∧
      ∀ e ∈ deliveries hist, d.sent ≠ e.sent ∧ d.taken ≠ e.taken ∧ e.time < hist.length ∧
        (e.meeting.endpoint = d.meeting.endpoint → e.sent < d.sent) := by
  cases hm : s.meets ℓ with
  | none =>
    unfold stepDelivery at hd
    rw [hm] at hd
    cases hd
  | some m =>
    obtain ⟨i, j, hstep, hi, hj, hcase⟩ := h.delivery hgood hm
    rw [hstep] at hd
    obtain rfl := Option.some.inj hd
    refine ⟨rfl, fun e he => ?_⟩
    dsimp only
    obtain ⟨hsent, htaken, htime⟩ := h.passed e he
    rcases hcase with ⟨-, rfl, hparked⟩ | ⟨-, rfl, mail, rest, hparked, -⟩
    · -- The sender comes second, and the receiver was queued.
      rw [opOf_blocked hgood hparked.blocked] at hj
      have huntaken := h.untaken _ _ hparked _ _ hj e he
      exact ⟨by omega, huntaken.symm, htime, fun _ => hsent⟩
    · -- The receiver comes second, and the sender was queued.
      rw [opOf_blocked hgood hparked.blocked] at hi
      obtain ⟨hunsent, hbefore⟩ := h.unsent _ _ _ hparked _ _ hi e he
      exact ⟨hunsent.symm, by omega, htime, hbefore⟩

theorem mem_deliveries_new {d : Delivery} (hd : stepDelivery hist s ℓ = some d) :
    d ∈ deliveries ((s, ℓ) :: hist) :=
  List.mem_append_left _ (Option.mem_toList.mpr hd)

theorem mem_deliveries_old {d : Delivery} (hd : d ∈ deliveries hist) :
    d ∈ deliveries ((s, ℓ) :: hist) := List.mem_append_right _ hd

/-- The operations that return in a step are different from each other and from those that
returned. -/
theorem Logged.outcomes_once (h : Logged hist s) (hgood : s.Good)
    (honce : ((outcomes hist s).map Outcome.issued).Nodup) :
    ((outcomes ((s, ℓ) :: hist) t).map Outcome.issued).Nodup := by
  have hlater : ∀ {q c}, completedLater hist s t q = some c →
      opOf hist s ℓ q = some (c.issued, c.op) := by
    intro q c hc
    obtain ⟨-, hq, -⟩ := completedLater_eq hc
    rw [opOf_blocked hgood (pending_blocked hq)]
    exact hq
  have hstep : ((stepOutcomes hist s ℓ t).map Outcome.issued).Nodup := by
    unfold stepOutcomes
    rw [List.map_append, List.nodup_append]
    refine ⟨?_, ?_, ?_⟩
    · cases completedNow hist s ℓ with
      | none => exact List.nodup_nil
      | some c => exact List.nodup_singleton _
    · refine List.pairwise_map.mpr (List.pairwise_filterMap.mpr ?_)
      refine (List.nodup_finRange maxProcesses).imp fun hne c hc c' hc' => ?_
      exact h.opOf_ne (hlater hc) (hlater hc') hne
    · intro i hi j hj
      obtain ⟨c, hc, rfl⟩ := List.mem_map.mp hi
      obtain ⟨c', hc', rfl⟩ := List.mem_map.mp hj
      obtain ⟨q, -, hq⟩ := List.mem_filterMap.mp hc'
      obtain ⟨-, hpending, -⟩ := completedLater_eq hq
      obtain ⟨-, -, hissued, -⟩ := completedNow_eq (Option.mem_toList.mp hc)
      have hlt := h.pending_lt hpending
      omega
  show (List.map _ (stepOutcomes hist s ℓ t ++ outcomes hist s)).Nodup
  rw [List.map_append, List.nodup_append]
  refine ⟨hstep, honce, fun i hi j hj => ?_⟩
  obtain ⟨c, hc, rfl⟩ := List.mem_map.mp hi
  obtain ⟨c', hc', rfl⟩ := List.mem_map.mp hj
  rcases List.mem_append.mp hc with hnow | hlate
  · obtain ⟨-, -, hissued, -⟩ := completedNow_eq (Option.mem_toList.mp hnow)
    have hlt := h.past c' hc'
    omega
  · obtain ⟨q, -, hq⟩ := List.mem_filterMap.mp hlate
    obtain ⟨-, hpending, -⟩ := completedLater_eq hq
    exact (h.unreturned q _ _ hpending c' hc').symm

/-- An operation that returns in a step had no message passed before, unless it is a call. -/
theorem Logged.returns_unsent (h : Logged hist s) (hpast : ExactlyOnce hist s) {c : Outcome}
    (hc : c ∈ outcomes ((s, ℓ) :: hist) t) (hnew : c ∉ outcomes hist s) {d : Delivery}
    (hd : d ∈ deliveries hist) (hsent : d.sent = c.issued) : d.meeting.call = true := by
  obtain ⟨hlt, -⟩ := h.passed d hd
  rcases mem_outcomes_cons.mp hc with hnow | ⟨q, hlater⟩ | hold
  · obtain ⟨-, -, hissued, -⟩ := completedNow_eq hnow
    omega
  · obtain ⟨-, hq, -⟩ := completedLater_eq hlater
    by_contra hcall
    have hstarted := (hpast.issued d hd).1
    rw [hsent, h.issued q _ _ hq] at hstarted
    have hop := (Prod.mk.inj (Option.some.inj hstarted)).2
    unfold Op.post at hop
    rw [if_neg hcall] at hop
    rw [hop] at hq
    obtain ⟨mail, hparked, -⟩ := h.parked_send hq
    exact (h.unsent q _ _ hparked _ _ hq d hd).1 hsent
  · exact absurd hold hnew

/-- Every step keeps the relation. -/
theorem ExactlyOnce.next (hpast : ExactlyOnce hist s) (h : Logged hist s) (hgood : s.Good)
    (hnext : s.step ℓ = some t) : ExactlyOnce ((s, ℓ) :: hist) t := by
  have hold : ∀ {c}, c ∈ outcomes hist s → c ∈ outcomes ((s, ℓ) :: hist) t :=
    fun hc => mem_outcomes_cons.mpr (Or.inr (Or.inr hc))
  have hreturned : ∀ c ∈ outcomes ((s, ℓ) :: hist) t, c ∉ outcomes hist s →
      c.returned = hist.length := by
    intro c hc hnew
    rcases mem_outcomes_cons.mp hc with hnow | ⟨q, hlater⟩ | hc
    · exact (completedNow_eq hnow).2.2.2
    · exact (completedLater_eq hlater).2.2.2.1
    · exact absurd hc hnew
  have honce := h.outcomes_once (ℓ := ℓ) (t := t) hgood hpast.once.2.2
  refine ⟨fun c hc id word hop hok => ?_, fun c hc id hop hok => ?_, fun d hd => ?_,
    fun d hd => ?_, ⟨?_, ?_, honce⟩, ?_, fun c hc d hd hsent => ?_⟩
  · by_cases hmem : c ∈ outcomes hist s
    · obtain ⟨d, hd, hrest⟩ := hpast.sends c hmem id word hop hok
      exact ⟨d, mem_deliveries_old hd, hrest⟩
    · obtain ⟨d, hd, hrest⟩ := h.send_returns hgood hnext hc hmem hop hok
      exact ⟨d, mem_deliveries_new hd, hrest⟩
  · by_cases hmem : c ∈ outcomes hist s
    · obtain ⟨d, hd, hrest⟩ := hpast.recvs c hmem id hop hok
      exact ⟨d, mem_deliveries_old hd, hrest⟩
    · obtain ⟨d, hd, hrest⟩ := h.recv_returns hgood hnext hc hmem hop hok
      exact ⟨d, mem_deliveries_new hd, hrest⟩
  · rcases mem_deliveries_cons hd with hnew | hd
    · exact h.delivery_returns hgood hnext hnew
    · obtain ⟨⟨c, hc, hrecv⟩, hsend⟩ := hpast.returned d hd
      refine ⟨⟨c, hold hc, hrecv⟩, fun hcall => ?_⟩
      obtain ⟨c, hc, hrest⟩ := hsend hcall
      exact ⟨c, hold hc, hrest⟩
  · rcases mem_deliveries_cons hd with hnew | hd
    · cases hm : s.meets ℓ with
      | none =>
        unfold stepDelivery at hnew
        rw [hm] at hnew
        cases hnew
      | some m =>
        obtain ⟨i, j, hstep, hi, hj, -⟩ := h.delivery hgood hm
        rw [hstep] at hnew
        obtain rfl := Option.some.inj hnew
        exact ⟨h.opOf_issued ℓ hi, h.opOf_issued ℓ hj⟩
    · obtain ⟨hsend, hrecv⟩ := hpast.issued d hd
      exact ⟨issuedAt_cons hsend s ℓ, issuedAt_cons hrecv s ℓ⟩
  · show (((stepDelivery hist s ℓ).toList ++ deliveries hist).map Delivery.sent).Nodup
    cases hstep : stepDelivery hist s ℓ with
    | none => exact hpast.once.1
    | some d =>
      refine List.nodup_cons.mpr ⟨fun hmem => ?_, hpast.once.1⟩
      obtain ⟨e, he, heq⟩ := List.mem_map.mp hmem
      exact ((h.delivery_fresh hgood hstep).2 e he).1 heq.symm
  · show (((stepDelivery hist s ℓ).toList ++ deliveries hist).map Delivery.taken).Nodup
    cases hstep : stepDelivery hist s ℓ with
    | none => exact hpast.once.2.1
    | some d =>
      refine List.nodup_cons.mpr ⟨fun hmem => ?_, hpast.once.2.1⟩
      obtain ⟨e, he, heq⟩ := List.mem_map.mp hmem
      exact ((h.delivery_fresh hgood hstep).2 e he).2.1 heq.symm
  · show ((stepDelivery hist s ℓ).toList ++ deliveries hist).Pairwise _
    cases hstep : stepDelivery hist s ℓ with
    | none => exact hpast.order
    | some d =>
      obtain ⟨htime, hfresh⟩ := h.delivery_fresh hgood hstep
      refine List.pairwise_cons.mpr ⟨fun e he => ?_, hpast.order⟩
      obtain ⟨-, -, hlt, hbefore⟩ := hfresh e he
      exact ⟨by omega, hbefore⟩
  · by_cases hmem : c ∈ outcomes hist s
    · rcases mem_deliveries_cons hd with hnew | hd
      · -- The operation of the message has returned: it is neither new nor pending.
        exfalso
        cases hm : s.meets ℓ with
        | none =>
          unfold stepDelivery at hnew
          rw [hm] at hnew
          cases hnew
        | some m =>
          obtain ⟨i, j, hstep, hi, -, hcase⟩ := h.delivery hgood hm
          rw [hstep] at hnew
          obtain rfl := Option.some.inj hnew
          dsimp only at hsent
          rcases hcase with ⟨-, rfl, -⟩ | ⟨-, -, mail, rest, hparked, -⟩
          · have hlt := h.past c hmem
            omega
          · rw [opOf_blocked hgood hparked.blocked] at hi
            exact h.unreturned _ _ _ hi c hmem hsent.symm
      · exact hpast.settled c hmem d hd hsent
    · rw [hreturned c hc hmem]
      rcases mem_deliveries_cons hd with hnew | hd
      · refine ⟨(h.delivery_fresh hgood hnew).1.le, fun hcall => ?_⟩
        obtain ⟨c', hc', -, -, hissued, -, hok⟩ :=
          (h.delivery_returns hgood hnext hnew).2 hcall
        have heq : c = c' :=
          List.inj_on_of_nodup_map honce hc hc' (hsent.symm.trans hissued.symm)
        rw [heq]
        exact hok
      · obtain ⟨-, -, htime⟩ := h.passed d hd
        refine ⟨htime.le, fun hcall => ?_⟩
        rw [h.returns_unsent hpast hc hmem hd hsent] at hcall
        cases hcall

/-- In every run, the sends and the receives that return `IPC_OK` belong to the messages that
passed, one to one, and the messages pass in order. -/
theorem messages_exactly_once (run : Run system always hist s) : ExactlyOnce hist s := by
  induction run with
  | start hinit =>
    exact ⟨(fun _ hc => nomatch hc), (fun _ hc => nomatch hc), (fun _ hd => nomatch hd),
      (fun _ hd => nomatch hd), ⟨List.nodup_nil, List.nodup_nil, List.nodup_nil⟩,
      List.Pairwise.nil, (fun _ hc => nomatch hc)⟩
  | step run _ hnext ih =>
    exact ih.next (logged_of_run run) (good_of_reachable run.reachable) hnext

/-- A server takes one message as it waits, and then two that wait for it. -/
def threeSendsRun : List Label :=
  [.createEndpoint,
    .run 0 [some smallImage, some smallImage, some smallImage]
      [some ⟨.endpoint 0, rightRecv, none⟩, some ⟨.endpoint 0, rightSend, none⟩,
        some ⟨.endpoint 0, rightSend, none⟩],
    .recv 0 1, .resume 0 1, .send 0 1 5 noCap, .send 0 1 6 noCap, .resume 0 2,
    .send 0 1 7 noCap, .resume 0 0, .recv 0 1, .recv 0 1]

theorem messages_exactly_once_threeSendsRun :
    ExactlyOnce (system.historyFrom smallMachine [] threeSendsRun)
        (smallMachine.runFrom threeSendsRun) ∧
      (deliveries (system.historyFrom smallMachine [] threeSendsRun)).map
          (fun d => (d.sent, d.taken, d.meeting.word)) = [(7, 10, 7), (5, 9, 6), (4, 2, 5)] :=
  ⟨messages_exactly_once (run_historyFrom smallMachine_booted threeSendsRun), by decide +kernel⟩

end Kernel

end Plinth
