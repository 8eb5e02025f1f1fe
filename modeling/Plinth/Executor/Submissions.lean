import Plinth.Executor.Reactor

/-!
# `Plinth.Executor.Submissions`: the submission queue of the executor

`push_sq` and `push_ctrl` do not look at the head of the queue, so a tree with more than 16 fresh
leaves overwrites entries that the kernel has not consumed. `joinRun_overwrites` joins 17 reads:
the last one takes the place of the first.

`unlapped` says what is true otherwise. `Fut.demand` counts the leaves that a poll reaches and that
have no entry yet. If it fits behind the entries that wait, at every poll and at every `cancel`,
the queue is never lapped, and the kernel consumes what was pushed, in order.
-/

set_option autoImplicit false

namespace Plinth.Executor

open Transition IndexRing

variable {t u v : Tenant} {s : State} {m n : Nat}

/-! ### What a poll does -/

/-- A poll posts requests and arms streams that have no entry yet, and it takes completions. `n` is
the number of entries that it pushes. -/
inductive Works : Nat → Tenant → Tenant → Prop where
  | refl (t : Tenant) : Works 0 t t
  | post {n : Nat} {t u : Tenant} (h : Works n t u) (i : Nat)
      (hnew : (u.requests i).posted = false) : Works (n + 1) t (u.post i)
  | arm {n : Nat} {t u : Tenant} (h : Works n t u) (i : Nat)
      (hnew : (u.streams i).armed = false) : Works (n + 1) t (u.arm i)
  | take {n : Nat} {t u : Tenant} (h : Works n t u) (ud : UInt64) : Works n t (u.take ud).2

theorem Works.trans (h : Works m t u) (h' : Works n u v) : Works (m + n) t v := by
  induction h' with
  | refl u => exact h
  | post _ i hnew ih => exact (ih h).post i hnew
  | arm _ i hnew ih => exact (ih h).arm i hnew
  | take _ ud ih => exact (ih h).take ud

/-- The entries that a leaf pushes at its next poll. -/
def Leaf.demand : Leaf → Tenant → Nat
  | .request i, t => if (t.requests i).posted then 0 else 1
  | .next i, t => if (t.streams i).armed then 0 else 1

/-- The entries that the children of a join push. -/
def demandReads : List (Leaf × Option UInt64) → Tenant → Nat
  | [], _ => 0
  | (_, some _) :: reads, t => demandReads reads t
  | (l, none) :: reads, t => l.demand t + demandReads reads (l.poll t).2

/-- The leaves that the next poll of a future reaches and that have no entry yet. A side of
`select2` is not reached if the side before it is ready. -/
def Fut.demand : Fut → Tenant → Nat
  | .leaf l, t => l.demand t
  | .collect i _ _, t => if (t.streams i).armed then 0 else 1
  | .join reads, t => demandReads reads t
  | .join2 a aOut b bOut, t =>
    let before := if aOut.isSome then t else (a.poll t).2.2
    (if aOut.isSome then 0 else a.demand t) + if bOut.isSome then 0 else b.demand before
  | .select2 a b, t =>
    a.demand t + if (a.poll t).1.isSome then 0 else b.demand (a.poll t).2.2

theorem works_post (t : Tenant) (i : Nat) :
    Works (if (t.requests i).posted then 0 else 1) t (t.post i) := by
  by_cases hposted : (t.requests i).posted = true
  · rw [if_pos hposted]
    have hsame : t.post i = t := if_pos hposted
    rw [hsame]
    exact .refl t
  · rw [if_neg hposted]
    exact .post (.refl t) i (Bool.eq_false_of_not_eq_true hposted)

theorem works_arm (t : Tenant) (i : Nat) :
    Works (if (t.streams i).armed then 0 else 1) t (t.arm i) := by
  by_cases harmed : (t.streams i).armed = true
  · rw [if_pos harmed]
    have hsame : t.arm i = t := if_pos harmed
    rw [hsame]
    exact .refl t
  · rw [if_neg harmed]
    exact .arm (.refl t) i (Bool.eq_false_of_not_eq_true harmed)

theorem Leaf.poll_works (l : Leaf) (t : Tenant) : Works (l.demand t) t (l.poll t).2 := by
  cases l with
  | request i => exact (works_post t i).take _
  | next i => exact (works_arm t i).take _

theorem collectLoop_works (ud : UInt64) (n : Nat) (events : List UInt64) (t : Tenant) :
    Works 0 t (collectLoop ud n events t).2.2 := by
  induction n generalizing events t with
  | zero => exact .refl t
  | succ n ih =>
    have htake : Works 0 t (t.take ud).2 := .take (.refl t) ud
    unfold collectLoop
    split
    · rename_i status t' heq
      rw [heq] at htake
      exact htake.trans (ih _ t')
    · rename_i t' heq
      rwa [heq] at htake

theorem pollReads_works (reads : List (Leaf × Option UInt64)) (t : Tenant) :
    Works (demandReads reads t) t (pollReads reads t).2 := by
  induction reads generalizing t with
  | nil => exact .refl t
  | cons read reads ih =>
    obtain ⟨l, status⟩ := read
    cases status with
    | some w => exact ih t
    | none => exact (l.poll_works t).trans (ih _)

/-- The process after a poll of both sides, of which each is polled while it has no output. -/
theorem Fut.poll_join2 (a : Fut) (aOut : Option Out) (b : Fut) (bOut : Option Out) (t : Tenant) :
    ((Fut.join2 a aOut b bOut).poll t).2.2 =
      (if bOut.isSome then (if aOut.isSome then t else (a.poll t).2.2)
        else (b.poll (if aOut.isSome then t else (a.poll t).2.2)).2.2) := by
  rw [Fut.poll]
  cases aOut <;> cases bOut <;> dsimp only [Option.isSome] <;> split <;> rfl

/-- A poll pushes as many entries as its future demands. -/
theorem Fut.poll_works (f : Fut) (t : Tenant) : Works (f.demand t) t (f.poll t).2.2 := by
  induction f generalizing t with
  | leaf l => exact l.poll_works t
  | collect i n events =>
    exact (works_arm t i).trans (collectLoop_works _ _ _ _)
  | join reads => exact pollReads_works reads t
  | join2 a aOut b bOut iha ihb =>
    have hfirst : Works (if aOut.isSome then 0 else a.demand t) t
        (if aOut.isSome then t else (a.poll t).2.2) := by
      split
      · exact .refl t
      · exact iha t
    have hsecond : ∀ u : Tenant, Works (if bOut.isSome then 0 else b.demand u) u
        (if bOut.isSome then u else (b.poll u).2.2) := by
      intro u
      split
      · exact .refl u
      · exact ihb u
    rw [Fut.poll_join2]
    exact hfirst.trans (hsecond _)
  | select2 a b iha ihb =>
    rw [Fut.demand, Fut.poll]
    cases hready : (a.poll t).1 with
    | some w => exact iha t
    | none => exact (iha t).trans (ihb _)

/-! ### The queue -/

/-- The number of entries that wait after a poll, whether or not they fit. -/
theorem Works.count (h : Works n t u) (hsmall : t.sq.count + n < 2 ^ 32) :
    u.sq.count = t.sq.count + n := by
  induction h with
  | refl t => rfl
  | @post n t u h i hnew ih =>
    have hpost : u.post i = (u.push (u.requests i).entry).setRequest i
        { u.requests i with posted := true } := if_neg (by rw [hnew]; exact Bool.false_ne_true)
    rw [hpost]
    have hcount := ih (by omega)
    exact (count_push (by omega) _).trans (by omega)
  | @arm n t u h i hnew ih =>
    have harm : u.arm i = (u.push (ctrlEntry ringOpEventSub (u.streams i).ud
        (u.streams i).sourceSlot)).setStream i { u.streams i with armed := true } :=
      if_neg (by rw [hnew]; exact Bool.false_ne_true)
    rw [harm]
    have hcount := ih (by omega)
    exact (count_push (by omega) _).trans (by omega)
  | @take n t u h ud ih =>
    have hsame : (u.take ud).2.sq = u.sq := by
      unfold Tenant.take
      split <;> rfl
    rw [hsame]
    exact ih hsmall

/-- A push that finds room. -/
theorem Tenant.push_extends (hroom : t.sq.count < ringEntries) (e : SqEntry) :
    (t.push e).sq.count = t.sq.count + 1 ∧
      (t.push e).sq.contents ringMask = t.sq.contents ringMask ++ [e] := by
  have hlt : t.sq.count < 16 := hroom
  exact ⟨count_push (by omega) e, push_contents sized_ringMask hlt e⟩

/-- The queue after a poll that finds room for its entries. -/
theorem Works.pushes (h : Works n t u) (hroom : t.sq.count + n ≤ ringEntries) :
    u.sq.count = t.sq.count + n ∧ ∃ es, u.pushed = t.pushed ++ es ∧
      u.sq.contents ringMask = t.sq.contents ringMask ++ es := by
  have hpush : ∀ {n : Nat} {t u v : Tenant} (e : SqEntry), v.sq = (u.push e).sq →
      v.pushed = u.pushed ++ [e] → t.sq.count + (n + 1) ≤ ringEntries →
      (u.sq.count = t.sq.count + n ∧ ∃ es, u.pushed = t.pushed ++ es ∧
        u.sq.contents ringMask = t.sq.contents ringMask ++ es) →
      v.sq.count = t.sq.count + (n + 1) ∧ ∃ es, v.pushed = t.pushed ++ es ∧
        v.sq.contents ringMask = t.sq.contents ringMask ++ es := by
    rintro n t u v e hsq hpushed hle ⟨hcount, es, hes, hcontents⟩
    obtain ⟨hcount', hcontents'⟩ := u.push_extends (by omega) e
    rw [hsq, hpushed, hcount', hcontents', hcount, hes, hcontents]
    exact ⟨by omega, es ++ [e], List.append_assoc .., List.append_assoc ..⟩
  induction h with
  | refl t => exact ⟨rfl, [], (List.append_nil _).symm, (List.append_nil _).symm⟩
  | @post n t u h i hnew ih =>
    have hpost : u.post i = (u.push (u.requests i).entry).setRequest i
        { u.requests i with posted := true } := if_neg (by rw [hnew]; exact Bool.false_ne_true)
    rw [hpost]
    exact hpush _ rfl rfl hroom (ih (by omega))
  | @arm n t u h i hnew ih =>
    have harm : u.arm i = (u.push (ctrlEntry ringOpEventSub (u.streams i).ud
        (u.streams i).sourceSlot)).setStream i { u.streams i with armed := true } :=
      if_neg (by rw [hnew]; exact Bool.false_ne_true)
    rw [harm]
    exact hpush _ rfl rfl hroom (ih (by omega))
  | @take n t u h ud ih =>
    have hsame : (u.take ud).2.sq = u.sq ∧ (u.take ud).2.pushed = u.pushed := by
      unfold Tenant.take
      split <;> exact ⟨rfl, rfl⟩
    rw [hsame.1, hsame.2]
    exact ih hroom

/-- The queue is not lapped: the kernel consumed what was pushed, in order, up to the entries that
wait, and these fit. -/
structure Unlapped (s : State) : Prop where
  room : s.tenant.sq.count ≤ ringEntries
  order : s.consumed ++ s.tenant.sq.contents ringMask = s.tenant.pushed

/-- Every entry that the step pushes finds room: those of a poll, and the one of a `cancel`. -/
def fits (s : State) : Label → Prop
  | .poll => ∀ f, s.phase = .polling f → s.tenant.sq.count + f.demand s.tenant ≤ ringEntries
  | .cancel i _ => (s.tenant.streams i).armed = true → s.tenant.sq.count < ringEntries
  | _ => True

theorem Unlapped.submit {s' : State} (h : Unlapped s) (hnext : s.submit n = some s') :
    Unlapped s' := by
  unfold State.submit at hnext
  split at hnext
  · rename_i hle
    obtain rfl := Option.some.inj hnext
    refine ⟨?_, ?_⟩
    · show (s.tenant.sq.advance n).count ≤ ringEntries
      rw [count_advance hle]
      exact Nat.le_trans (Nat.sub_le _ _) h.room
    · show (s.consumed ++ s.tenant.sq.entries ringMask n) ++
        (s.tenant.sq.advance n).contents ringMask = s.tenant.pushed
      rw [List.append_assoc, advance_contents hle]
      exact h.order
  · cases hnext

/-- A change of the process that works on the queue within its room. -/
theorem Unlapped.works (h : Unlapped s) (hw : Works n s.tenant u)
    (hroom : s.tenant.sq.count + n ≤ ringEntries) (phase : Phase) :
    Unlapped { s with tenant := u, phase := phase } := by
  obtain ⟨hcount, es, hpushed, hcontents⟩ := hw.pushes hroom
  refine ⟨?_, ?_⟩
  · show u.sq.count ≤ ringEntries
    rw [hcount]
    exact hroom
  · show s.consumed ++ u.sq.contents ringMask = u.pushed
    rw [hcontents, hpushed, ← h.order, List.append_assoc]

theorem stages_sq (cs : List Completion) (t : Tenant) :
    (cs.foldl Tenant.stage t).sq = t.sq ∧ (cs.foldl Tenant.stage t).pushed = t.pushed := by
  induction cs generalizing t with
  | nil => exact ⟨rfl, rfl⟩
  | cons c cs ih => exact ih (t.stage c)

/-- A step that does not touch the queue. -/
theorem Unlapped.same {s' : State} (h : Unlapped s) (hsq : s'.tenant.sq = s.tenant.sq)
    (hpushed : s'.tenant.pushed = s.tenant.pushed) (hconsumed : s'.consumed = s.consumed) :
    Unlapped s' := by
  refine ⟨?_, ?_⟩
  · rw [hsq]
    exact h.room
  · rw [hconsumed, hsq, hpushed]
    exact h.order

theorem Unlapped.step {s' : State} {ℓ : Label} (h : Unlapped s) (guard : fits s ℓ)
    (hnext : s.next ℓ = some s') : Unlapped s' := by
  cases ℓ with
  | read | write | subscribe | call | wake =>
    unfold State.next at hnext
    dsimp only at hnext
    split at hnext
    · obtain rfl := Option.some.inj hnext
      exact h.same rfl rfl rfl
    · cases hnext
  | poll =>
    unfold State.next at hnext
    dsimp only at hnext
    split at hnext
    · rename_i f hphase
      obtain rfl := Option.some.inj hnext
      exact h.works (f.poll_works s.tenant) (guard f hphase) _
    · cases hnext
  | submit n =>
    unfold State.next at hnext
    dsimp only at hnext
    split at hnext
    · rename_i f _
      have hwaiting : Unlapped { s with phase := .waiting f } := h.same rfl rfl rfl
      exact hwaiting.submit hnext
    · cases hnext
  | reap =>
    unfold State.next at hnext
    dsimp only at hnext
    split at hnext
    · obtain rfl := Option.some.inj hnext
      have hstages := stages_sq (s.cq.contents ringMask) s.tenant
      exact h.same hstages.1 hstages.2 rfl
    · cases hnext
  | cancel i n =>
    unfold State.next at hnext
    dsimp only at hnext
    split at hnext
    · split at hnext
      · rename_i harmed
        refine Unlapped.submit ?_ hnext
        obtain ⟨hcount, hcontents⟩ := s.tenant.push_extends (guard harmed)
          (ctrlEntry ringOpCancel (s.tenant.streams i).ud 0)
        refine ⟨Nat.le_trans (Nat.le_of_eq hcount) (guard harmed), ?_⟩
        show s.consumed ++ (s.tenant.push _).sq.contents ringMask = s.tenant.pushed ++ [_]
        rw [hcontents, ← List.append_assoc, h.order]
      · obtain rfl := Option.some.inj hnext
        exact h
    · cases hnext
  | post event ud status =>
    unfold State.next at hnext
    dsimp only at hnext
    split at hnext <;> obtain rfl := Option.some.inj hnext
    · exact h
    · exact h.same rfl rfl rfl

/-- In every run whose polls and cancels find room for their entries, the tail of the queue is
never more than 16 ahead of the head, and the kernel consumes what was pushed, in order. -/
theorem submissions_in_order {hist : List (State × Label)} (run : Run system fits hist s) :
    Unlapped s := by
  induction run with
  | start hfresh =>
    have hcount : ∀ {r : IndexRing SqEntry}, r.head = r.tail → r.count = 0 := by
      intro r heq
      unfold IndexRing.count
      rw [heq, UInt32.sub_self]
      rfl
    refine ⟨?_, ?_⟩
    · rw [hcount hfresh.sq]
      exact Nat.zero_le _
    · unfold IndexRing.contents
      rw [hcount hfresh.sq, hfresh.consumed, hfresh.pushed]
      rfl
  | step _ guard hnext ih => exact ih.step guard hnext

/-- The room is needed: a poll whose entries do not fit laps the queue. -/
theorem poll_room_iff {s' : State} {f : Fut} (hphase : s.phase = .polling f)
    (hnext : s.next .poll = some s') (hsmall : s.tenant.sq.count + f.demand s.tenant < 2 ^ 32) :
    s'.tenant.sq.count ≤ ringEntries ↔ fits s .poll := by
  have hcount := (f.poll_works s.tenant).count hsmall
  have htenant : s'.tenant = (f.poll s.tenant).2.2 := by
    unfold State.next at hnext
    dsimp only at hnext
    rw [hphase] at hnext
    exact (congrArg State.tenant (Option.some.inj hnext)).symm
  rw [htenant, hcount]
  refine ⟨fun h f' hf' => ?_, fun h => h f hphase⟩
  cases hphase.symm.trans hf'
  exact h

/-! ### A queue that is lapped -/

/-- A process after `init`. -/
def idle : State :=
  { tenant := { requests := fun _ => ⟨0, 0, false, 0, 0, 0, 0⟩
                streams := fun _ => ⟨0, 0, false⟩
                reactor := ⟨1, [], 0, 0⟩
                sq := ⟨fun _ => ⟨0, 0, 0, 0, 0, 0⟩, 0, 0⟩
                pushed := []
                returned := []
                discarded := [] }
    cq := ⟨fun _ => ⟨0, 0, 0⟩, 0, 0⟩
    phase := .idle none
    consumed := []
    posted := [] }

theorem idle_fresh : Fresh idle := ⟨rfl, rfl, rfl, rfl, rfl, rfl, rfl, rfl, rfl, rfl⟩

/-- A read and two events on one ring. The kernel takes one entry at each submit. -/
theorem submissions_in_order_readAndEvents : ∃ s, Unlapped s ∧ s.tenant.sq.count = 0 ∧
    s.consumed = [⟨0, 1, 2, 3, 40, 1⟩, ⟨1, 0, 5, 0, 0, 2⟩] := by
  have run : Run system fits [] idle := .start idle_fresh
  have run₁ := run.step (a := Label.read 0 2 3 40 1) trivial rfl
  have run₂ := run₁.step (a := Label.subscribe 0 5) trivial rfl
  have run₃ := run₂.step
    (a := Label.call (.join2 (.leaf (.request 0)) none (.collect 0 2 []) none)) trivial rfl
  have run₄ := run₃.step (a := Label.poll) (fun f hf => by cases hf; decide +kernel) rfl
  have run₅ := run₄.step (a := Label.submit 1) trivial rfl
  have run₆ := run₅.step (a := Label.wake) trivial rfl
  have run₇ := run₆.step (a := Label.reap) trivial rfl
  have run₈ := run₇.step (a := Label.poll) (fun f hf => by cases hf; decide +kernel) rfl
  have run₉ := run₈.step (a := Label.submit 1) trivial rfl
  exact ⟨_, submissions_in_order run₉, by decide +kernel, by decide +kernel⟩

/-- Seventeen reads, joined. -/
def joinLabels : List Label :=
  (List.range 17).map (fun i => .read i 0 0 i.toUInt64 1) ++
    [.call (.join ((List.range 17).map fun i => (.request i, none))), .poll]

/-- A join of 17 fresh reads pushes 17 entries into a queue of 16. -/
theorem joinRun_room : ringEntries < (system.runFrom idle joinLabels).tenant.sq.count := by
  decide +kernel

/-- The last one takes the place of the first: the kernel reads it twice, and it never reads the
first. -/
theorem joinRun_overwrites : ∃ hist s, Run system always hist s ∧
    (∃ hist' s', Run system always hist' s' ∧ ringEntries < s'.tenant.sq.count) ∧
    s.tenant.pushed.length = 17 ∧ s.consumed.length = 17 ∧
    ⟨0, 1, 0, 0, 0, 1⟩ ∈ s.tenant.pushed ∧ ⟨0, 1, 0, 0, 0, 1⟩ ∉ s.consumed ∧
    s.consumed.count ⟨0, 1, 0, 0, 16, 17⟩ = 2 := by
  refine ⟨_, _, system.run idle_fresh (joinLabels ++ [.submit 17]),
    ⟨_, _, system.run idle_fresh joinLabels, joinRun_room⟩, ?_⟩
  decide +kernel

end Plinth.Executor
