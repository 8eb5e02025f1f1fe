import Plinth.Executor.Staging

/-!
# `Plinth.Executor.Rearm`: a stream that is cancelled and armed again

A stream keeps its cookie for as long as it lives. `EventStream::cancel` posts a `CANCEL` entry, and
the next poll posts a new `EVENT_SUB` entry with the same cookie. Between the two nothing takes out
the completions of the old subscription, neither from the completion queue nor from the staging
table, and the kernel goes on with the old subscription until it consumes the `CANCEL` entry. The
stream cannot tell these completions from those of the new subscription.

Here the kernel of the executor has its subscriptions, and each completion has the number of the
entry under which it was posted. `rearmed_streams` says when every completion that a stream takes
after it was armed again is of an entry that it pushed then.
-/

set_option autoImplicit false

namespace Plinth.Executor

open Transition IndexRing

/-! ### The streams that a poll arms again -/

/-- The stream of a leaf. -/
def Leaf.stream : Leaf → List Nat
  | .request _ => []
  | .next i => [i]

/-- The streams that the next poll of a future reaches. A side of `select2` is not reached if the
side before it is ready. -/
def Fut.reached : Fut → Tenant → List Nat
  | .leaf l, _ => l.stream
  | .collect i _ _, _ => [i]
  | .join reads, _ => (reads.filter (·.2.isNone)).flatMap fun r => r.1.stream
  | .join2 a aOut b bOut, t =>
    (if aOut.isSome then [] else a.reached t) ++
      if bOut.isSome then [] else b.reached (if aOut.isSome then t else (a.poll t).2.2)
  | .select2 a b, t =>
    a.reached t ++ if (a.poll t).1.isSome then [] else b.reached (a.poll t).2.2

/-! ### The kernel's side -/

/-- The executor, and what the kernel has of its ring. An entry is named by the number of entries
that were pushed before it. `tags` are the names of the entries in the submission queue, `live` the
subscriptions, `failed` those that were refused and whose error is to be posted, `flight` the
requests that are not completed, and `under` has for each completion the entry that it answers to.
`cancelled` and `rearmed` are the history of the streams by their cookies: whether there was a
`cancel`, and what had been returned and pushed when the stream was armed again after one. -/
structure Watched where
  exec : State
  tags : IndexRing Nat
  live : UInt64 → Option Nat
  failed : List (UInt64 × Nat)
  flight : List UInt64
  under : List (Option Nat)
  cancelled : UInt64 → Bool
  rearmed : UInt64 → Option (Nat × Nat)

/-- A step of the process or of the kernel. -/
inductive Move where
  /-- A step of the process that neither polls nor rings the doorbell. -/
  | step (ℓ : Label)
  | poll
  /-- `ring_submit`. The list has an item for each entry that is consumed: whether the kernel takes
  a subscription. -/
  | submit (admits : List Bool)
  /-- `EventStream::cancel`, with its `ring_submit`. -/
  | cancel (i : Nat) (admits : List Bool)
  /-- An event at the source of a subscription. -/
  | event (ud : UInt64) (status : UInt32)
  /-- The error of a subscription that was refused. -/
  | fail
  /-- The completion of a request. -/
  | complete (k : Nat) (status : UInt32)

namespace Watched

/-- `post_entry`, without the completions that it posts. -/
def consume (x : Watched) (e : SqEntry) (tag : Nat) (granted : Bool) : Watched :=
  let ud := UInt64.ofNat e.userData
  if e.op = ringOpEventSub then
    if (x.live ud).isNone && granted then { x with live := Function.update x.live ud (some tag) }
    else { x with failed := x.failed ++ [(ud, tag)] }
  else if e.op = ringOpCancel then { x with live := Function.update x.live ud none }
  else { x with flight := x.flight ++ [ud] }

/-- The entries that wait, one for each item of the list. -/
def waiting (sq : IndexRing SqEntry) (tags : IndexRing Nat) (admits : List Bool) :
    List (SqEntry × Nat × Bool) :=
  (sq.entries ringMask admits.length).zip ((tags.entries ringMask admits.length).zip admits)

/-- `ring_submit`, with the process in the state `exec` after it. -/
def drain (x : Watched) (sq : IndexRing SqEntry) (admits : List Bool) (exec : State) : Watched :=
  (waiting sq x.tags admits).foldl (fun y p => y.consume p.1 p.2.1 p.2.2)
    { x with exec, tags := x.tags.advance admits.length }

/-- The names of `n` new entries. -/
def pushTags (x : Watched) (n : Nat) : IndexRing Nat :=
  (List.range' x.exec.tenant.pushed.length n).foldl (IndexRing.push ringMask) x.tags

/-- The cookies of the streams that a poll of `f` arms again. -/
def rearms (x : Watched) (f : Fut) : List UInt64 :=
  ((f.reached x.exec.tenant).filter fun i => !(x.exec.tenant.streams i).armed &&
    x.cancelled (x.exec.tenant.streams i).ud).map fun i => (x.exec.tenant.streams i).ud

/-- The process has polled `f`. -/
def polled (x : Watched) (f : Fut) (exec : State) : Watched :=
  { x with
    exec
    tags := x.pushTags (exec.tenant.pushed.length - x.exec.tenant.pushed.length)
    rearmed := fun ud =>
      if ud ∈ x.rearms f then
        some (x.exec.tenant.returned.length, x.exec.tenant.pushed.length)
      else x.rearmed ud }

/-- The label is one of the process, and it neither polls nor rings the doorbell. -/
def quiet : Label → Bool
  | .read .. | .write .. | .subscribe .. | .call _ | .wake | .reap => true
  | _ => false

/-- One step. -/
def next (x : Watched) : Move → Option Watched
  | .step ℓ =>
    if quiet ℓ then (x.exec.next ℓ).map fun exec => { x with exec } else none
  | .poll =>
    match x.exec.phase with
    | .polling f => (x.exec.next .poll).map (x.polled f)
    | _ => none
  | .submit admits =>
    (x.exec.next (.submit admits.length)).map (x.drain x.exec.tenant.sq admits)
  | .cancel i admits =>
    let e := x.exec.tenant.streams i
    (x.exec.next (.cancel i admits.length)).map fun exec =>
      if e.armed then
        { x with
          tags := x.pushTags 1
          cancelled := Function.update x.cancelled e.ud true }.drain
          (x.exec.tenant.sq.push ringMask (ctrlEntry ringOpCancel e.ud 0)) admits exec
      else x
  | .event ud status =>
    match x.live ud with
    | none => none
    | some tag =>
      if ringEntries ≤ x.exec.cq.count then some x
      else
        (x.exec.next (.post true ud status)).map fun exec =>
          { x with exec, under := x.under ++ [some tag] }
  | .fail =>
    match x.failed with
    | [] => none
    | (ud, tag) :: failed =>
      (x.exec.next (.post false ud 0)).map fun exec =>
        { x with exec, failed, under := x.under ++ [some tag] }
  | .complete k status =>
    match x.flight[k]? with
    | none => none
    | some ud =>
      (x.exec.next (.post false ud status)).map fun exec =>
        { x with exec, flight := x.flight.eraseIdx k, under := x.under ++ [none] }

end Watched

/-- A ring after `init`, and nothing of it in the kernel yet. -/
structure Watched.Fresh (x : Watched) : Prop where
  exec : Executor.Fresh x.exec
  head : x.tags.head = x.exec.tenant.sq.head
  tail : x.tags.tail = x.exec.tenant.sq.tail
  live : ∀ ud, x.live ud = none
  failed : x.failed = []
  under : x.under = []
  rearmed : ∀ ud, x.rearmed ud = none

/-- The executor with its kernel. -/
def watched : System Watched Move where
  init := Watched.Fresh
  next := Watched.next

/-! ### What a cancelled stream promises -/

/-- The completion answers to an entry with this cookie that was pushed when `p` others had been,
or later. -/
def Watched.AnswersTo (x : Watched) (ud : UInt64) (p : Nat) (c : Completion) : Prop :=
  ∃ tag e, x.under[c.seq]? = some (some tag) ∧ p ≤ tag ∧
    x.exec.tenant.pushed[tag]? = some e ∧ e.op = ringOpEventSub ∧ UInt64.ofNat e.userData = ud

/-- What a stream took since it was armed again was posted for the new subscription. -/
def Watched.Silenced (x : Watched) : Prop :=
  ∀ ud r p, x.rearmed ud = some (r, p) → ∀ k c, r ≤ k →
    x.exec.tenant.returned[k]? = some (ud, c) → x.AnswersTo ud p c

namespace Watched

/-- No completion with the cookie waits in the queue or in the staging table. -/
def clear (x : Watched) (ud : UInt64) : Bool :=
  (x.exec.tenant.reactor.done ++ x.exec.cq.contents ringMask).all fun c => c.ud ≠ ud

/-- The entry is of the last arming of the stream. -/
def current (x : Watched) (ud : UInt64) (tag : Nat) : Bool :=
  match x.rearmed ud with
  | some (_, p) => p ≤ tag
  | none => true

/-- A stream is armed again when nothing with its cookie is left, and after that the kernel posts
nothing for an older subscription of it. No request has its cookie. -/
def meets (x : Watched) : Move → Bool
  | .poll =>
    match x.exec.phase with
    | .polling f => (x.rearms f).all x.clear
    | _ => true
  | .event ud _ =>
    match x.live ud with
    | some tag => ringEntries ≤ x.exec.cq.count || x.current ud tag
    | none => true
  | .fail =>
    match x.failed with
    | (ud, tag) :: _ => x.current ud tag
    | [] => true
  | .complete k _ =>
    match x.flight[k]? with
    | some ud => (x.rearmed ud).isNone
    | none => true
  | _ => true

end Watched

/-! ### The streams that a poll reaches -/

theorem take_streams (t : Tenant) (ud : UInt64) : (t.take ud).2.streams = t.streams := by
  rcases t.take_cases ud with ⟨-, hsame, -⟩ | ⟨c, as, bs, -, -, -, -, hafter⟩
  · rw [hsame]
  · rw [hafter]

theorem collectLoop_streams (ud : UInt64) (n : Nat) (events : List UInt64) (t : Tenant) :
    (collectLoop ud n events t).2.2.streams = t.streams := by
  induction n generalizing events t with
  | zero => rfl
  | succ n ih =>
    have htake := take_streams t ud
    unfold collectLoop
    split
    · rename_i status t' heq
      rw [heq] at htake
      exact (ih _ t').trans htake
    · rename_i t' heq
      rw [heq] at htake
      exact htake

theorem armed_arm (t : Tenant) (i j : Nat) :
    ((t.arm i).streams j).armed = true ↔ (t.streams j).armed = true ∨ j = i := by
  unfold Tenant.arm
  by_cases harmed : (t.streams i).armed = true
  · rw [if_pos harmed]
    constructor
    · exact Or.inl
    · rintro (h | rfl)
      · exact h
      · exact harmed
  · rw [if_neg harmed]
    show (Function.update t.streams i { t.streams i with armed := true } j).armed = true ↔ _
    by_cases hj : j = i
    · subst hj
      rw [Function.update_self]
      exact ⟨fun _ => Or.inr rfl, fun _ => rfl⟩
    · rw [Function.update_of_ne hj]
      exact ⟨Or.inl, fun h => h.resolve_right hj⟩

theorem Leaf.armed_poll (l : Leaf) (t : Tenant) (j : Nat) :
    ((l.poll t).2.streams j).armed = true ↔ (t.streams j).armed = true ∨ j ∈ l.stream := by
  cases l with
  | request i =>
    show (((t.post i).take _).2.streams j).armed = true ↔ _ ∨ j ∈ []
    have hpost : (t.post i).streams = t.streams := by
      unfold Tenant.post
      split <;> rfl
    rw [take_streams, hpost]
    exact ⟨Or.inl, fun h => h.resolve_right List.not_mem_nil⟩
  | next i =>
    show (((t.arm i).take _).2.streams j).armed = true ↔ _ ∨ j ∈ [i]
    rw [take_streams, armed_arm, List.mem_singleton]

theorem armed_pollReads (reads : List (Leaf × Option UInt64)) (t : Tenant) (j : Nat) :
    ((pollReads reads t).2.streams j).armed = true ↔ (t.streams j).armed = true ∨
      j ∈ (reads.filter (·.2.isNone)).flatMap fun r => r.1.stream := by
  induction reads generalizing t with
  | nil => exact ⟨Or.inl, fun h => h.resolve_right List.not_mem_nil⟩
  | cons read reads ih =>
    obtain ⟨l, status⟩ := read
    cases status with
    | some w => exact ih t
    | none =>
      show ((pollReads reads (l.poll t).2).2.streams j).armed = true ↔ _
      rw [ih, l.armed_poll, or_assoc, ← List.mem_append]
      rfl

/-- A poll arms the streams that it reaches, and no others. -/
theorem Fut.armed_poll (f : Fut) (t : Tenant) (j : Nat) :
    ((f.poll t).2.2.streams j).armed = true ↔ (t.streams j).armed = true ∨ j ∈ f.reached t := by
  induction f generalizing t with
  | leaf l => exact l.armed_poll t j
  | collect i n events =>
    show ((collectLoop _ n events (t.arm i)).2.2.streams j).armed = true ↔ _ ∨ j ∈ [i]
    rw [collectLoop_streams, armed_arm, List.mem_singleton]
  | join reads => exact armed_pollReads reads t j
  | join2 a aOut b bOut iha ihb =>
    rw [Fut.poll_join2, Fut.reached, List.mem_append, ← or_assoc]
    have hfirst : ((if aOut.isSome then t else (a.poll t).2.2).streams j).armed = true ↔
        (t.streams j).armed = true ∨ j ∈ if aOut.isSome then [] else a.reached t := by
      split
      · exact ⟨Or.inl, fun h => h.resolve_right List.not_mem_nil⟩
      · exact iha t
    rw [← hfirst]
    generalize (if aOut.isSome then t else (a.poll t).2.2) = u
    split
    · exact ⟨Or.inl, fun h => h.resolve_right List.not_mem_nil⟩
    · exact ihb u
  | select2 a b iha ihb =>
    rw [Fut.reached, Fut.poll, List.mem_append, ← or_assoc, ← iha]
    cases hready : (a.poll t).1 with
    | some w => exact ⟨Or.inl, fun h => h.resolve_right List.not_mem_nil⟩
    | none => exact ihb _

/-! ### The names of the entries -/

/-- The queue of the names goes with the submission queue. That queue can be lapped: then the name
of an entry is lapped with it. -/
structure Locked (sq : IndexRing SqEntry) (tags : IndexRing Nat) (pushed : List SqEntry) :
    Prop where
  head : tags.head = sq.head
  tail : tags.tail = sq.tail
  entry : ∀ j, j < sq.count → pushed[tags.entry ringMask j]? = some (sq.entry ringMask j)

theorem Locked.push {sq : IndexRing SqEntry} {tags : IndexRing Nat} {pushed : List SqEntry}
    (h : Locked sq tags pushed) (e : SqEntry) :
    Locked (sq.push ringMask e) (tags.push ringMask pushed.length) (pushed ++ [e]) := by
  refine ⟨h.head, congrArg (· + 1) h.tail, fun j hj => ?_⟩
  unfold IndexRing.entry IndexRing.push
  dsimp only
  rw [h.head, h.tail]
  by_cases heq : index ringMask (sq.head + UInt32.ofNat j) = index ringMask sq.tail
  · rw [heq, Function.update_self, Function.update_self, List.getElem?_concat_length]
  · rw [Function.update_of_ne heq, Function.update_of_ne heq]
    have hlt : j < sq.count := by
      have hle := count_push_le ringMask sq e
      have hne : j ≠ sq.count := by
        rintro rfl
        exact heq (by rw [← sq.tail_eq])
      omega
    have hold := h.entry j hlt
    unfold IndexRing.entry at hold
    rw [h.head] at hold
    rw [List.getElem?_append_left (List.getElem?_eq_some_iff.mp hold).1, hold]

theorem Locked.pushes {sq : IndexRing SqEntry} {tags : IndexRing Nat} {pushed : List SqEntry}
    (h : Locked sq tags pushed) (es : List SqEntry) :
    Locked (es.foldl (IndexRing.push ringMask) sq)
      ((List.range' pushed.length es.length).foldl (IndexRing.push ringMask) tags)
      (pushed ++ es) := by
  induction es generalizing sq tags pushed with
  | nil =>
    rw [List.append_nil]
    exact h
  | cons e es ih =>
    have hrest := ih (h.push e)
    rw [List.length_append, List.append_assoc] at hrest
    exact hrest

theorem Locked.advance {sq : IndexRing SqEntry} {tags : IndexRing Nat} {pushed : List SqEntry}
    (h : Locked sq tags pushed) {n : Nat} (hn : n ≤ sq.count) :
    Locked (sq.advance n) (tags.advance n) pushed := by
  refine ⟨congrArg (· + UInt32.ofNat n) h.head, h.tail, fun j hj => ?_⟩
  rw [count_advance hn] at hj
  rw [entry_advance, entry_advance]
  exact h.entry (n + j) (by omega)

/-- The entries that a submit consumes, with their names. -/
theorem Locked.waiting {sq : IndexRing SqEntry} {tags : IndexRing Nat} {pushed : List SqEntry}
    (h : Locked sq tags pushed) {admits : List Bool} (hn : admits.length ≤ sq.count) :
    ∀ p ∈ Watched.waiting sq tags admits, pushed[p.2.1]? = some p.1 := by
  intro p hp
  obtain ⟨j, hj⟩ := List.mem_iff_getElem?.mp hp
  unfold Watched.waiting at hj
  rw [List.getElem?_zip_eq_some] at hj
  obtain ⟨hentry, hrest⟩ := hj
  obtain ⟨htag, -⟩ := List.getElem?_zip_eq_some.mp hrest
  obtain ⟨hlt, hentry⟩ := List.getElem?_eq_some_iff.mp hentry
  obtain ⟨_, htag⟩ := List.getElem?_eq_some_iff.mp htag
  rw [length_entries] at hlt
  simp only [entries, List.getElem_map, List.getElem_range] at hentry htag
  rw [← hentry, ← htag]
  exact h.entry j (by omega)

/-- What a poll does to the queue, to the table and to what was returned. -/
structure Polled (t u : Tenant) : Prop where
  pushed : ∃ es, u.pushed = t.pushed ++ es ∧ u.sq = es.foldl (IndexRing.push ringMask) t.sq
  returned : ∃ l, u.returned = t.returned ++ l ∧ ∀ r ∈ l, r.2 ∈ t.reactor.done ∧ r.2.ud = r.1
  done : ∀ c ∈ u.reactor.done, c ∈ t.reactor.done

theorem Polled.refl (t : Tenant) : Polled t t :=
  ⟨⟨[], (List.append_nil _).symm, rfl⟩, ⟨[], (List.append_nil _).symm, nofun⟩, fun _ => id⟩

variable {t u : Tenant} {n : Nat}

/-- One more entry. -/
theorem Polled.push (h : Polled t u) (e : SqEntry) {v : Tenant}
    (hpushed : v.pushed = u.pushed ++ [e]) (hsq : v.sq = u.sq.push ringMask e)
    (hreturned : v.returned = u.returned) (hdone : v.reactor.done = u.reactor.done) :
    Polled t v := by
  obtain ⟨es, hes, hfold⟩ := h.pushed
  refine ⟨⟨es ++ [e], ?_, ?_⟩, ?_, ?_⟩
  · rw [hpushed, hes, List.append_assoc]
  · rw [hsq, hfold, List.foldl_append]
    rfl
  · rw [hreturned]
    exact h.returned
  · rw [hdone]
    exact h.done

theorem Works.polled (h : Works n t u) : Polled t u := by
  induction h with
  | refl t => exact .refl t
  | @post n t u _ i hnew ih =>
    have hpost : u.post i = (u.push (u.requests i).entry).setRequest i
        { u.requests i with posted := true } := if_neg (by rw [hnew]; exact Bool.false_ne_true)
    rw [hpost]
    exact ih.push _ rfl rfl rfl rfl
  | @arm n t u _ i hnew ih =>
    have harm : u.arm i = (u.push (ctrlEntry ringOpEventSub (u.streams i).ud
        (u.streams i).sourceSlot)).setStream i { u.streams i with armed := true } :=
      if_neg (by rw [hnew]; exact Bool.false_ne_true)
    rw [harm]
    exact ih.push _ rfl rfl rfl rfl
  | @take n t u _ ud ih =>
    rcases u.take_cases ud with ⟨-, hsame, -⟩ | ⟨c, as, bs, hbefore, -, hud, -, hafter⟩
    · rw [hsame]
      exact ih
    · rw [hafter]
      obtain ⟨l, hl, hmem⟩ := ih.returned
      have hc : c ∈ u.reactor.done := by
        rw [hbefore]
        exact List.mem_append_right _ List.mem_cons_self
      refine ⟨ih.pushed, ⟨l ++ [(ud, c)], ?_, fun r hr => ?_⟩, fun d hd => ih.done d ?_⟩
      · show u.returned ++ [(ud, c)] = _
        rw [hl, List.append_assoc]
      · rcases List.mem_append.mp hr with hr | hr
        · exact hmem r hr
        · obtain rfl := List.mem_singleton.mp hr
          exact ⟨ih.done c hc, hud⟩
      · rw [hbefore]
        rcases List.mem_append.mp hd with hd | hd
        · exact List.mem_append_left _ hd
        · exact List.mem_append_right _ (List.mem_cons_of_mem c hd)

/-- What a reap puts into the table comes from the queue, and it returns nothing. -/
theorem stages_mem (cs : List Completion) (t : Tenant) :
    (∀ c ∈ (cs.foldl Tenant.stage t).reactor.done, c ∈ t.reactor.done ++ cs) ∧
      (cs.foldl Tenant.stage t).returned = t.returned := by
  induction cs generalizing t with
  | nil => exact ⟨fun c hc => List.mem_append_left _ hc, rfl⟩
  | cons d cs ih =>
    obtain ⟨hmem, hreturned⟩ := ih (t.stage d)
    refine ⟨fun c hc => ?_, hreturned⟩
    have hstage : ∀ c ∈ (t.stage d).reactor.done, c ∈ t.reactor.done ++ [d] := by
      intro c hc
      have htally : (t.reactor.tally d).done = t.reactor.done := by
        unfold Reactor.tally
        split <;> rfl
      change c ∈ (t.reactor.stage d).done at hc
      unfold Reactor.stage at hc
      split at hc
      · exact hc
      · rw [show ({ t.reactor.tally d with undelivered := _ } : Reactor).done = _ from htally] at hc
        exact List.mem_append_left _ hc
    rcases List.mem_append.mp (hmem c hc) with hc | hc
    · rcases List.mem_append.mp (hstage c hc) with hc | hc
      · exact List.mem_append_left _ hc
      · obtain rfl := List.mem_singleton.mp hc
        exact List.mem_append_right _ List.mem_cons_self
    · exact List.mem_append_right _ (List.mem_cons_of_mem d hc)

/-! ### The invariant -/

namespace Watched

/-- The entry with this name arms the cookie. -/
def Names (x : Watched) (ud : UInt64) (tag : Nat) : Prop :=
  ∃ e, x.exec.tenant.pushed[tag]? = some e ∧ e.op = ringOpEventSub ∧
    UInt64.ofNat e.userData = ud

/-- The completions that a stream can take. -/
def pending (x : Watched) : List Completion :=
  x.exec.tenant.reactor.done ++ x.exec.cq.contents ringMask

/-- The subscriptions and the completions have the names of the entries that they come from. -/
structure Inv (x : Watched) : Prop where
  locked : Locked x.exec.tenant.sq x.tags x.exec.tenant.pushed
  under : x.under.length = x.exec.posted.length
  live : ∀ ud tag, x.live ud = some tag → x.Names ud tag
  failed : ∀ p ∈ x.failed, x.Names p.1 p.2
  queue : ∀ ud r p, x.rearmed ud = some (r, p) → ∀ c ∈ x.pending, c.ud = ud → x.AnswersTo ud p c
  silenced : x.Silenced

/-- More entries and more completions. -/
structure Grows (x y : Watched) : Prop where
  under : ∃ us, y.under = x.under ++ us
  pushed : ∃ es, y.exec.tenant.pushed = x.exec.tenant.pushed ++ es

variable {x y : Watched} {ud : UInt64} {tag p : Nat} {c : Completion}

theorem Names.grow (h : x.Names ud tag) (hgrow : x.Grows y) : y.Names ud tag := by
  obtain ⟨e, he, hrest⟩ := h
  obtain ⟨es, hes⟩ := hgrow.pushed
  refine ⟨e, ?_, hrest⟩
  rw [hes, List.getElem?_append_left (List.getElem?_eq_some_iff.mp he).1, he]

theorem AnswersTo.grow (h : x.AnswersTo ud p c) (hgrow : x.Grows y) : y.AnswersTo ud p c := by
  obtain ⟨tag, e, htag, hle, hnames⟩ := h
  obtain ⟨us, hus⟩ := hgrow.under
  obtain ⟨e', hnames'⟩ := Names.grow ⟨e, hnames⟩ hgrow
  refine ⟨tag, e', ?_, hle, hnames'⟩
  rw [hus, List.getElem?_append_left (List.getElem?_eq_some_iff.mp htag).1, htag]

/-- A step of the process that pushes nothing and takes nothing. -/
theorem Inv.quiet (h : x.Inv) {exec : State} (hsq : exec.tenant.sq = x.exec.tenant.sq)
    (hpushed : exec.tenant.pushed = x.exec.tenant.pushed)
    (hreturned : exec.tenant.returned = x.exec.tenant.returned)
      (hposted : exec.posted = x.exec.posted)
    (hpending : ∀ c ∈ ({ x with exec } : Watched).pending, c ∈ x.pending) :
    ({ x with exec } : Watched).Inv := by
  have hgrow : x.Grows { x with exec } := by
    refine ⟨⟨[], (List.append_nil _).symm⟩, ⟨[], ?_⟩⟩
    rw [List.append_nil]
    exact hpushed
  refine ⟨?_, ?_, fun ud tag hlive => (h.live ud tag hlive).grow hgrow,
    fun p hp => (h.failed p hp).grow hgrow, fun ud r p hmark c hc hud =>
      (h.queue ud r p hmark c (hpending c hc) hud).grow hgrow, fun ud r p hmark k c hk hc => ?_⟩
  · show Locked exec.tenant.sq x.tags exec.tenant.pushed
    rw [hsq, hpushed]
    exact h.locked
  · show x.under.length = exec.posted.length
    rw [hposted]
    exact h.under
  · change exec.tenant.returned[k]? = _ at hc
    rw [hreturned] at hc
    exact (h.silenced ud r p hmark k c hk hc).grow hgrow

/-- A poll. The streams that it arms again find nothing with their cookies. -/
theorem Inv.polled (h : x.Inv) {f : Fut} {exec : State}
    (hpolled : Polled x.exec.tenant exec.tenant) (hcq : exec.cq = x.exec.cq)
    (hposted : exec.posted = x.exec.posted) (hclear : (x.rearms f).all x.clear = true) :
    (x.polled f exec).Inv := by
  obtain ⟨es, hes, hsq⟩ := hpolled.pushed
  obtain ⟨l, hl, htaken⟩ := hpolled.returned
  have hgrow : x.Grows (x.polled f exec) := ⟨⟨[], (List.append_nil _).symm⟩, ⟨es, hes⟩⟩
  have hpending : ∀ c ∈ (x.polled f exec).pending, c ∈ x.pending := by
    intro c hc
    change c ∈ exec.tenant.reactor.done ++ exec.cq.contents ringMask at hc
    rw [hcq] at hc
    rcases List.mem_append.mp hc with hc | hc
    · exact List.mem_append_left _ (hpolled.done c hc)
    · exact List.mem_append_right _ hc
  have hnone : ∀ ud ∈ x.rearms f, ∀ c ∈ x.pending, c.ud ≠ ud := by
    intro ud hud c hc
    have hall := List.all_eq_true.mp (List.all_eq_true.mp hclear ud hud) c hc
    exact of_decide_eq_true hall
  refine ⟨?_, ?_, fun ud tag hlive => (h.live ud tag hlive).grow hgrow,
    fun p hp => (h.failed p hp).grow hgrow, fun ud r p hmark c hc hud => ?_,
    fun ud r p hmark k c hk hc => ?_⟩
  · have hlength : exec.tenant.pushed.length - x.exec.tenant.pushed.length = es.length := by
      rw [hes, List.length_append, Nat.add_sub_cancel_left]
    show Locked exec.tenant.sq (x.pushTags (exec.tenant.pushed.length -
      x.exec.tenant.pushed.length)) exec.tenant.pushed
    rw [hlength, hsq, hes]
    exact h.locked.pushes es
  · show x.under.length = exec.posted.length
    rw [hposted]
    exact h.under
  · change (if ud ∈ x.rearms f then _ else x.rearmed ud) = _ at hmark
    split at hmark
    · rename_i hin
      exact absurd hud (hnone ud hin c (hpending c hc))
    · exact (h.queue ud r p hmark c (hpending c hc) hud).grow hgrow
  · change (if ud ∈ x.rearms f then _ else x.rearmed ud) = _ at hmark
    change exec.tenant.returned[k]? = _ at hc
    rw [hl] at hc
    -- What is taken in this poll was staged before it.
    have hnew : x.exec.tenant.returned.length ≤ k → c ∈ x.pending ∧ c.ud = ud := by
      intro hle
      rw [List.getElem?_append_right hle] at hc
      obtain ⟨hstaged, hcookie⟩ := htaken _ (List.mem_of_getElem? hc)
      exact ⟨List.mem_append_left _ hstaged, hcookie⟩
    split at hmark
    · rename_i hin
      cases hmark
      obtain ⟨hstaged, hcookie⟩ := hnew hk
      exact absurd hcookie (hnone ud hin c hstaged)
    · rcases Nat.lt_or_ge k x.exec.tenant.returned.length with hlt | hge
      · rw [List.getElem?_append_left hlt] at hc
        exact (h.silenced ud r p hmark k c hk hc).grow hgrow
      · obtain ⟨hstaged, hcookie⟩ := hnew hge
        exact (h.queue ud r p hmark c hstaged hcookie).grow hgrow

/-- A completion that is no event is posted in any case. -/
theorem next_post (s : State) (ud : UInt64) (status : UInt32) :
    s.next (.post false ud status) = some (s.post ud status) := by
  simp only [State.next]
  exact if_neg fun hand => Bool.false_ne_true hand.1

/-- The kernel posts a completion, of the last arming of its stream if that was armed again. -/
theorem Inv.post (h : x.Inv) (status : UInt32) {o : Option Nat} {failed : List (UInt64 × Nat)}
    (flight : List UInt64) (hnames : ∀ tag, o = some tag → x.Names ud tag)
    (hcurrent : ∀ r p, x.rearmed ud = some (r, p) → ∃ tag, o = some tag ∧ p ≤ tag)
    (hfailed : ∀ p ∈ failed, p ∈ x.failed) :
    ({ x with
      exec := x.exec.post ud status, failed, flight, under := x.under ++ [o] } : Watched).Inv := by
  have hgrow : x.Grows { x with
      exec := x.exec.post ud status, failed, flight, under := x.under ++ [o] } :=
    ⟨⟨[o], rfl⟩, ⟨[], (List.append_nil _).symm⟩⟩
  refine ⟨h.locked, ?_, fun ud tag hlive => (h.live ud tag hlive).grow hgrow,
    fun p hp => (h.failed p (hfailed p hp)).grow hgrow, fun ud' r p hmark c hc hud => ?_,
    fun ud' r p hmark k c hk hc => (h.silenced ud' r p hmark k c hk hc).grow hgrow⟩
  · show (x.under ++ [o]).length = (x.exec.posted ++ [_]).length
    rw [List.length_append, List.length_append, h.under]
    rfl
  · change c ∈ x.exec.tenant.reactor.done ++
      (x.exec.cq.push ringMask (x.exec.completion ud status)).contents ringMask at hc
    have hold : c ∈ x.pending ∨ c = x.exec.completion ud status := by
      rcases List.mem_append.mp hc with hc | hc
      · exact Or.inl (List.mem_append_left _ hc)
      · exact (mem_contents_push hc).imp_left (List.mem_append_right _)
    rcases hold with hold | rfl
    · exact (h.queue ud' r p hmark c hold hud).grow hgrow
    · obtain rfl : ud = ud' := hud
      obtain ⟨tag, rfl, hle⟩ := hcurrent r p hmark
      obtain ⟨e, hnamed⟩ := hnames tag rfl
      refine ⟨tag, e, ?_, hle, hnamed⟩
      show (x.under ++ [some tag])[x.exec.posted.length]? = _
      rw [← h.under, List.getElem?_concat_length]

/-- The kernel consumes one entry. It changes what it has of the ring, and nothing else. -/
theorem consume_frame (x : Watched) (e : SqEntry) (tag : Nat) (granted : Bool) :
    (x.consume e tag granted).exec = x.exec ∧ (x.consume e tag granted).tags = x.tags ∧
      (x.consume e tag granted).under = x.under ∧
        (x.consume e tag granted).rearmed = x.rearmed := by
  unfold consume
  dsimp only
  split
  · split
    · exact ⟨rfl, rfl, rfl, rfl⟩
    · exact ⟨rfl, rfl, rfl, rfl⟩
  · split
    · exact ⟨rfl, rfl, rfl, rfl⟩
    · exact ⟨rfl, rfl, rfl, rfl⟩

theorem drain_exec (x : Watched) (sq : IndexRing SqEntry) (admits : List Bool) (exec : State) :
    (x.drain sq admits exec).exec = exec := by
  unfold drain
  generalize waiting sq x.tags admits = l
  suffices hfold : ∀ y : Watched,
      (l.foldl (fun y p => y.consume p.1 p.2.1 p.2.2) y).exec = y.exec from hfold _
  induction l with
  | nil => exact fun y => rfl
  | cons q l ih => exact fun y => (ih _).trans (y.consume_frame q.1 q.2.1 q.2.2).1

theorem Inv.consume (h : x.Inv) {e : SqEntry} (he : x.exec.tenant.pushed[tag]? = some e)
    (granted : Bool) : (x.consume e tag granted).Inv := by
  have hnamed : e.op = ringOpEventSub → x.Names (UInt64.ofNat e.userData) tag :=
    fun hop => ⟨e, he, hop, rfl⟩
  unfold Watched.consume
  dsimp only
  split
  · rename_i hop
    split
    · refine { h with live := fun ud tag' hlive => ?_ }
      change Function.update x.live _ _ ud = _ at hlive
      by_cases heq : ud = UInt64.ofNat e.userData
      · rw [heq, Function.update_self] at hlive
        cases hlive
        rw [heq]
        exact hnamed hop
      · rw [Function.update_of_ne heq] at hlive
        exact h.live ud tag' hlive
    · refine { h with failed := fun p hp => ?_ }
      rcases List.mem_append.mp hp with hp | hp
      · exact h.failed p hp
      · obtain rfl := List.mem_singleton.mp hp
        exact hnamed hop
  · split
    · refine { h with live := fun ud tag' hlive => ?_ }
      change Function.update x.live _ _ ud = _ at hlive
      by_cases heq : ud = UInt64.ofNat e.userData
      · rw [heq, Function.update_self] at hlive
        cases hlive
      · rw [Function.update_of_ne heq] at hlive
        exact h.live ud tag' hlive
    · exact { h with }

/-- A submit consumes entries that were pushed. -/
theorem Inv.drain (h : x.Inv) {l : List (SqEntry × Nat × Bool)}
    (hl : ∀ p ∈ l, x.exec.tenant.pushed[p.2.1]? = some p.1) :
    (l.foldl (fun y p => y.consume p.1 p.2.1 p.2.2) x).Inv := by
  induction l generalizing x with
  | nil => exact h
  | cons q l ih =>
    refine ih (h.consume (hl q List.mem_cons_self) q.2.2) fun p hp => ?_
    rw [(x.consume_frame q.1 q.2.1 q.2.2).1]
    exact hl p (List.mem_cons_of_mem q hp)

/-- `ring_submit`, with the entries that it consumes. -/
theorem Inv.submit (h : x.Inv) {admits : List Bool} {exec : State}
    (hnext : x.exec.submit admits.length = some exec) :
    (x.drain x.exec.tenant.sq admits exec).Inv := by
  unfold State.submit at hnext
  split at hnext
  · rename_i hn
    cases hnext
    refine Inv.drain ?_ (h.locked.waiting hn)
    have hgrow : x.Grows { x with
        exec := { x.exec with
          tenant := { x.exec.tenant with sq := x.exec.tenant.sq.advance admits.length }
          consumed := x.exec.consumed ++ x.exec.tenant.sq.entries ringMask admits.length }
        tags := x.tags.advance admits.length } :=
      ⟨⟨[], (List.append_nil _).symm⟩, ⟨[], (List.append_nil _).symm⟩⟩
    exact ⟨h.locked.advance hn, h.under, fun ud tag hlive => (h.live ud tag hlive).grow hgrow,
      fun p hp => (h.failed p hp).grow hgrow,
      fun ud r p hmark c hc hud => (h.queue ud r p hmark c hc hud).grow hgrow,
      fun ud r p hmark k c hk hc => (h.silenced ud r p hmark k c hk hc).grow hgrow⟩
  · cases hnext

/-- The entry of a `cancel`. -/
theorem Inv.pushCancel (h : x.Inv) (i : Nat) (cancelled : UInt64 → Bool) :
    ({ x with
      exec := { x.exec with
        tenant := (x.exec.tenant.push
          (ctrlEntry ringOpCancel (x.exec.tenant.streams i).ud 0)).setStream i
            { x.exec.tenant.streams i with armed := false } }
      tags := x.pushTags 1
      cancelled } : Watched).Inv := by
  have hgrow : x.Grows { x with
      exec := { x.exec with
        tenant := (x.exec.tenant.push
          (ctrlEntry ringOpCancel (x.exec.tenant.streams i).ud 0)).setStream i
            { x.exec.tenant.streams i with armed := false } }
      tags := x.pushTags 1
      cancelled } := ⟨⟨[], (List.append_nil _).symm⟩, ⟨[_], rfl⟩⟩
  exact ⟨h.locked.push _, h.under, fun ud tag hlive => (h.live ud tag hlive).grow hgrow,
    fun p hp => (h.failed p hp).grow hgrow,
    fun ud r p hmark c hc hud => (h.queue ud r p hmark c hc hud).grow hgrow,
    fun ud r p hmark k c hk hc => (h.silenced ud r p hmark k c hk hc).grow hgrow⟩

theorem current_le (h : x.current ud tag = true) {r : Nat} (hmark : x.rearmed ud = some (r, p)) :
    p ≤ tag := by
  unfold current at h
  rw [hmark] at h
  exact of_decide_eq_true h

/-- The steps of the process that neither poll nor ring the doorbell. -/
theorem Inv.step (h : x.Inv) {ℓ : Label} (hquiet : Watched.quiet ℓ = true) {exec : State}
    (hnext : x.exec.next ℓ = some exec) : ({ x with exec } : Watched).Inv := by
  cases ℓ with
  | read | write | subscribe | call | wake =>
    unfold State.next at hnext
    dsimp only at hnext
    split at hnext
    · cases hnext
      exact h.quiet rfl rfl rfl rfl fun c hc => hc
    · cases hnext
  | reap =>
    unfold State.next at hnext
    dsimp only at hnext
    split at hnext
    · cases hnext
      obtain ⟨hsq, hpushed⟩ := stages_sq (x.exec.cq.contents ringMask) x.exec.tenant
      obtain ⟨hmem, hreturned⟩ := stages_mem (x.exec.cq.contents ringMask) x.exec.tenant
      refine h.quiet hsq hpushed hreturned rfl fun c hc => ?_
      rcases List.mem_append.mp hc with hc | hc
      · exact hmem c hc
      · change c ∈ (x.exec.cq.advance x.exec.cq.count).contents ringMask at hc
        rw [contents_advance_count] at hc
        cases hc
    · cases hnext
  | poll | submit | cancel | post => cases hquiet

/-- One step. -/
theorem Inv.next {m : Move} (h : x.Inv) (hok : x.meets m = true) (hnext : x.next m = some y) :
    y.Inv := by
  cases m with
  | step ℓ =>
    simp only [Watched.next] at hnext
    split at hnext
    · rename_i hquiet
      obtain ⟨exec, hexec, rfl⟩ := Option.map_eq_some_iff.mp hnext
      exact h.step hquiet hexec
    · cases hnext
  | poll =>
    simp only [Watched.next] at hnext
    split at hnext
    · rename_i f hphase
      obtain ⟨exec, hexec, rfl⟩ := Option.map_eq_some_iff.mp hnext
      simp only [Watched.meets, hphase] at hok
      simp only [State.next, hphase] at hexec
      cases hexec
      exact h.polled (f.poll_works x.exec.tenant).polled rfl rfl hok
    · cases hnext
  | submit admits =>
    obtain ⟨exec, hexec, rfl⟩ := Option.map_eq_some_iff.mp hnext
    simp only [State.next] at hexec
    split at hexec
    · rename_i f _
      have hwaiting : ({ x with exec := { x.exec with phase := .waiting f } } : Watched).Inv :=
        h.quiet rfl rfl rfl rfl fun c hc => hc
      exact hwaiting.submit hexec
    · cases hexec
  | cancel i admits =>
    simp only [Watched.next] at hnext
    obtain ⟨exec, hexec, rfl⟩ := Option.map_eq_some_iff.mp hnext
    split
    · rename_i harmed
      simp only [State.next] at hexec
      split at hexec
      · rw [if_pos harmed] at hexec
        exact (h.pushCancel i _).submit hexec
      · cases hexec
    · exact h
  | event ud status =>
    simp only [Watched.next] at hnext
    split at hnext
    · cases hnext
    · rename_i tag hlive
      split at hnext
      · cases hnext
        exact h
      · rename_i hroom
        have hpost : x.exec.next (.post true ud status) = some (x.exec.post ud status) :=
          if_neg fun hand => hroom hand.2
        rw [hpost] at hnext
        cases hnext
        simp only [Watched.meets, hlive, Bool.or_eq_true, decide_eq_true_iff] at hok
        refine h.post status x.flight (fun tag' htag => ?_) (fun r p hmark => ?_) fun p hp => hp
        · cases htag
          exact h.live ud tag hlive
        · exact ⟨tag, rfl, current_le (hok.resolve_left hroom) hmark⟩
  | fail =>
    simp only [Watched.next] at hnext
    split at hnext
    · cases hnext
    · rename_i ud tag failed hfailed
      rw [next_post] at hnext
      cases hnext
      simp only [Watched.meets, hfailed] at hok
      refine h.post 0 x.flight (fun tag' htag => ?_) (fun r p hmark => ?_) fun p hp => ?_
      · cases htag
        refine h.failed (ud, tag) ?_
        rw [hfailed]
        exact List.mem_cons_self
      · exact ⟨tag, rfl, current_le hok hmark⟩
      · rw [hfailed]
        exact List.mem_cons_of_mem _ hp
  | complete k status =>
    simp only [Watched.next] at hnext
    split at hnext
    · cases hnext
    · rename_i ud hud
      rw [next_post] at hnext
      cases hnext
      simp only [Watched.meets, hud, Option.isNone_iff_eq_none] at hok
      refine h.post status _ nofun (fun r p hmark => ?_) fun p hp => hp
      rw [hok] at hmark
      cases hmark

theorem inv_of_fresh (h : x.Fresh) : x.Inv := by
  have hnone : x.exec.tenant.sq.contents ringMask = [] := contents_eq_nil.mpr h.exec.sq
  have hcount := count_of_contents hnone
  refine ⟨⟨h.head, h.tail, fun j hj => ?_⟩, ?_, fun ud tag hlive => ?_, ?_,
    fun ud r p hmark => ?_, fun ud r p hmark => ?_⟩
  · rw [hcount] at hj
    cases hj
  · rw [h.under, h.exec.posted]
    rfl
  · rw [h.live] at hlive
    cases hlive
  · rw [h.failed]
    exact nofun
  · rw [h.rearmed] at hmark
    cases hmark
  · rw [h.rearmed] at hmark
    cases hmark

end Watched

/-! ### Runs -/

/-- The executor of a run with its kernel is that of a run of the executor. -/
theorem exec_reachable {x : Watched} (hx : Reachable watched always x) :
    Reachable system always x.exec := by
  refine hx.invariant (I := fun x => Reachable system always x.exec)
    (fun x (h : x.Fresh) => ⟨_, .start h.exec⟩) fun x m y _ ih _ hnext => ?_
  change x.next m = some y at hnext
  have hstep : ∀ ℓ exec, x.exec.next ℓ = some exec → Reachable system always exec :=
    fun ℓ exec hexec => ih.next (a := ℓ) trivial hexec
  cases m with
  | step ℓ =>
    simp only [Watched.next] at hnext
    split at hnext
    · obtain ⟨exec, hexec, rfl⟩ := Option.map_eq_some_iff.mp hnext
      exact hstep _ _ hexec
    · cases hnext
  | poll =>
    simp only [Watched.next] at hnext
    split at hnext
    · obtain ⟨exec, hexec, rfl⟩ := Option.map_eq_some_iff.mp hnext
      exact hstep _ _ hexec
    · cases hnext
  | submit admits =>
    obtain ⟨exec, hexec, rfl⟩ := Option.map_eq_some_iff.mp hnext
    rw [Watched.drain_exec]
    exact hstep _ _ hexec
  | cancel i admits =>
    simp only [Watched.next] at hnext
    obtain ⟨exec, hexec, rfl⟩ := Option.map_eq_some_iff.mp hnext
    split
    · rw [Watched.drain_exec]
      exact hstep _ _ hexec
    · exact ih
  | event ud status =>
    simp only [Watched.next] at hnext
    split at hnext
    · cases hnext
    · split at hnext
      · cases hnext
        exact ih
      · obtain ⟨exec, hexec, rfl⟩ := Option.map_eq_some_iff.mp hnext
        exact hstep _ _ hexec
  | fail =>
    simp only [Watched.next] at hnext
    split at hnext
    · cases hnext
    · obtain ⟨exec, hexec, rfl⟩ := Option.map_eq_some_iff.mp hnext
      exact hstep _ _ hexec
  | complete k status =>
    simp only [Watched.next] at hnext
    split at hnext
    · cases hnext
    · obtain ⟨exec, hexec, rfl⟩ := Option.map_eq_some_iff.mp hnext
      exact hstep _ _ hexec

/-- In every run in which a stream is armed again only when nothing with its cookie is left in the
queue and in the table, and in which the kernel posts nothing for an older subscription of it after
that, every completion that the stream takes is of the new subscription. -/
theorem rearmed_streams {x : Watched}
    (hx : Reachable watched (fun x m => x.meets m = true) x) : x.Silenced :=
  (hx.invariant (I := Watched.Inv) (fun _ => Watched.inv_of_fresh)
    fun _ _ _ _ ih hok hnext => ih.next hok hnext).silenced

/-- A ring after `init`, with its kernel. -/
def Watched.idle : Watched where
  exec := Executor.idle
  tags := ⟨fun _ => 0, 0, 0⟩
  live := fun _ => none
  failed := []
  flight := []
  under := []
  cancelled := fun _ => false
  rearmed := fun _ => none

theorem watched_fresh : Watched.idle.Fresh :=
  ⟨idle_fresh, rfl, rfl, fun _ => rfl, rfl, rfl, fun _ => rfl⟩

/-- A stream that has taken one event. -/
def firstEvent : List Move :=
  [.step (.subscribe 0 5), .step (.call (.leaf (.next 0))), .poll, .submit [true], .event 1 7,
    .step .wake, .step .reap, .poll]

/-- It is cancelled, armed again, and takes the next event. -/
theorem rearmed_streams_twice : (watched.runFrom Watched.idle (firstEvent ++
    [.cancel 0 [true], .step (.call (.leaf (.next 0))), .poll, .submit [true], .event 1 9,
      .step .wake, .step .reap, .poll])).Silenced :=
  rearmed_streams (Reachable.runFrom ⟨_, .start watched_fresh⟩ (by decide +kernel))

/-- A stream that took a completion of an entry before it was armed again. -/
theorem not_silenced {x : Watched} (ud : UInt64) (r p k tag : Nat) (c : Completion)
    (hmark : x.rearmed ud = some (r, p)) (hk : r ≤ k)
    (hc : x.exec.tenant.returned[k]? = some (ud, c)) (htag : x.under[c.seq]? = some (some tag))
    (hlt : tag < p) : ¬ x.Silenced := by
  intro h
  obtain ⟨tag', e, htag', hle, -⟩ := h ud r p hmark k c hk hc
  rw [htag] at htag'
  cases htag'
  exact absurd hle (Nat.not_le_of_lt hlt)

/-- A second event of the old subscription is staged when the stream is cancelled. -/
def stagedRun : List Move :=
  [.step (.subscribe 0 5), .step (.call (.leaf (.next 0))), .poll, .submit [true], .event 1 7,
    .event 1 8, .step .wake, .step .reap, .poll, .cancel 0 [true],
    .step (.call (.leaf (.next 0))), .poll]

/-- A read that finds the pool of its device full waits in the queue before the `CANCEL` entry, and
so the kernel still has the old subscription when the stream is armed again. -/
def lateRun : List Move :=
  [.step (.subscribe 0 5), .step (.read 0 2 3 40 1),
    .step (.call (.select2 (.leaf (.next 0)) (.leaf (.request 0)))), .poll, .submit [true],
    .event 1 7, .step .wake, .step .reap, .poll, .cancel 0 [],
    .step (.call (.leaf (.next 0))), .poll, .submit [], .event 1 8, .step .wake, .step .reap, .poll]

/-- Two runs, each without one part of the condition: the stream takes an event that was staged
under the old subscription, and one that the kernel posted for it after the stream was armed
again. -/
theorem stale_events :
    (∃ x, Reachable watched always x ∧ x.exec.phase = .idle (some (.word 8)) ∧
      x.live 1 = none ∧ ¬ x.Silenced) ∧
    ∃ x, Reachable watched always x ∧ x.exec.phase = .idle (some (.word 8)) ∧
      x.exec.tenant.sq.count = 3 ∧ ¬ x.Silenced := by
  refine ⟨⟨_, ⟨_, watched.run watched_fresh stagedRun⟩, by decide +kernel, by decide +kernel, ?_⟩,
    ⟨_, ⟨_, watched.run watched_fresh lateRun⟩, by decide +kernel, by decide +kernel, ?_⟩⟩
  · exact not_silenced 1 1 2 1 0 ⟨1, 1, 8⟩
      (by decide +kernel) (by decide) (by decide +kernel) (by decide +kernel) (by decide)
  · exact not_silenced 1 1 3 1 0 ⟨1, 1, 8⟩
      (by decide +kernel) (by decide) (by decide +kernel) (by decide +kernel) (by decide)

end Plinth.Executor
