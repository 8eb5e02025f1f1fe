import Mathlib.Data.List.Perm.Basic
import Plinth.Executor.Submissions

/-!
# `Plinth.Executor.Staging`: the completions of the executor

`reap` moves every completion of the queue into one table of 16 entries, which all cookies share.
A completion that finds the table full is discarded and counted. `floodRun_discards` fills the
table with the events of a stream that nobody polls; the completion of the only block request is
discarded, and `block_on` waits for it.

`completions_accounted` says what the table keeps. Every completion is in one place at any time,
the completions of a cookie are returned in the order in which they were posted, a completion is
discarded only when 16 older ones are staged, and `block_on` does not wait while a completion that
it can use is staged.
-/

set_option autoImplicit false

namespace Plinth.Executor

open Transition IndexRing

variable {t u : Tenant} {s : State} {n : Nat} {queue posted cs : List Completion} {ud : UInt64}
  {c : Completion}

/-! ### The table -/

/-- What `take` does: nothing if no staged completion has the cookie, else the oldest one leaves
the table. -/
theorem Tenant.take_cases (t : Tenant) (ud : UInt64) :
    ((t.take ud).1 = none ∧ (t.take ud).2 = t ∧ ∀ c ∈ t.reactor.done, c.ud ≠ ud) ∨
    ∃ c as bs, t.reactor.done = as ++ c :: bs ∧ (∀ a ∈ as, a.ud ≠ ud) ∧ c.ud = ud ∧
      (t.take ud).1 = some c.status ∧
      (t.take ud).2 = { t with
        reactor := { t.reactor with done := as ++ bs }
        returned := t.returned ++ [(ud, c)] } := by
  unfold Tenant.take Reactor.take
  cases hfind : t.reactor.done.find? (·.ud == ud) with
  | none =>
    left
    refine ⟨rfl, rfl, fun c hc heq => ?_⟩
    have hnot := List.find?_eq_none.mp hfind c hc
    exact hnot (beq_iff_eq.mpr heq)
  | some c =>
    right
    obtain ⟨hud, as, bs, hdone, has⟩ := List.find?_eq_some_iff_append.mp hfind
    have hbefore : ∀ a ∈ as, a.ud ≠ ud := by
      intro a ha heq
      have hnot := has a ha
      rw [beq_iff_eq.mpr heq] at hnot
      cases hnot
    refine ⟨c, as, bs, hdone, hbefore, beq_iff_eq.mp hud, rfl, ?_⟩
    have herase : t.reactor.done.eraseP (·.ud == ud) = as ++ bs := by
      have hpos : (c :: bs).eraseP (·.ud == ud) = bs := by simp [hud]
      rw [hdone, List.eraseP_append_right _ (fun a ha => by simpa using hbefore a ha), hpos]
    dsimp only
    rw [herase]

/-- The completions of one cookie that were returned, that are staged, or that wait in the
queue. -/
def Tenant.line (t : Tenant) (queue : List Completion) (ud : UInt64) : List Completion :=
  (t.returned.filter (·.1 == ud)).map (·.2) ++
    (t.reactor.done ++ queue).filter (·.ud == ud)

theorem Tenant.line_take (t : Tenant) (queue : List Completion) (ud ud' : UInt64) :
    (t.take ud).2.line queue ud' = t.line queue ud' := by
  rcases t.take_cases ud with ⟨-, hsame, -⟩ | ⟨c, as, bs, hdone, hbefore, hud, -, hafter⟩
  · rw [hsame]
  rw [hafter]
  unfold Tenant.line
  dsimp only
  rw [hdone]
  by_cases heq : ud = ud'
  · -- The completion that is taken is the first of its cookie in the table.
    subst heq
    have hnone : as.filter (·.ud == ud) = [] := by
      rw [List.filter_eq_nil_iff]
      intro a ha
      simpa using hbefore a ha
    have hkeep : (c.ud == ud) = true := beq_iff_eq.mpr hud
    simp [hnone, hkeep]
  · have hskip : (c.ud == ud') = false := by
      rw [hud]
      exact beq_eq_false_iff_ne.mpr heq
    simp [heq, hskip]

/-- `n` more losses, up to the limit of the counter. -/
def saturatingAdd (a n : Nat) : Nat := min (a + n) (2 ^ 32 - 1)

theorem saturatingSucc_toNat (a : UInt32) :
    (saturatingSucc a).toNat = saturatingAdd a.toNat 1 := by
  have hlt := a.toNat_lt
  unfold saturatingSucc saturatingAdd
  split
  · rename_i hmax
    rw [hmax]
    decide
  · rename_i hmax
    have hne : a.toNat ≠ 2 ^ 32 - 1 := fun heq => hmax (UInt32.toNat_inj.mp heq)
    rw [UInt32.toNat_add]
    have hone : (1 : UInt32).toNat = 1 := rfl
    omega

/-- What a reap makes of the completions of the queue: the table takes the first ones, and the
others are discarded and counted. -/
theorem stages_spec (cs : List Completion) (h : t.reactor.done.length ≤ ringEntries) :
    (cs.foldl Tenant.stage t).reactor.done = (t.reactor.done ++ cs).take ringEntries ∧
    (cs.foldl Tenant.stage t).discarded =
      t.discarded ++ (t.reactor.done ++ cs).drop ringEntries ∧
    (cs.foldl Tenant.stage t).returned = t.returned ∧
    (cs.foldl Tenant.stage t).requests = t.requests ∧
    (cs.foldl Tenant.stage t).streams = t.streams ∧
    (cs.foldl Tenant.stage t).reactor.undelivered.toNat =
      saturatingAdd t.reactor.undelivered.toNat
        ((t.reactor.done ++ cs).drop ringEntries).length := by
  induction cs generalizing t with
  | nil =>
    have hlt := t.reactor.undelivered.toNat_lt
    have hdrop : t.reactor.done.drop ringEntries = [] := List.drop_eq_nil_of_le h
    refine ⟨?_, ?_, rfl, rfl, rfl, ?_⟩
    · rw [List.append_nil]
      exact (List.take_of_length_le h).symm
    · rw [List.append_nil, hdrop, List.append_nil]
      rfl
    · rw [List.append_nil, hdrop]
      show _ = min _ _
      simp only [List.foldl_nil, List.length_nil]
      omega
  | cons c cs ih =>
    have htally : (t.reactor.tally c).undelivered = t.reactor.undelivered := by
      unfold Reactor.tally
      split <;> rfl
    rw [List.foldl_cons]
    by_cases hroom : t.reactor.done.length < ringEntries
    · have hstage : (t.stage c).reactor.done = t.reactor.done ++ [c] ∧
          (t.stage c).discarded = t.discarded ∧
          (t.stage c).reactor.undelivered = t.reactor.undelivered := by
        unfold Tenant.stage Reactor.stage
        rw [if_pos hroom, if_pos hroom]
        exact ⟨rfl, rfl, htally⟩
      have hle : (t.stage c).reactor.done.length ≤ ringEntries := by
        rw [hstage.1, List.length_append]
        exact hroom
      have hrest := ih hle
      rw [hstage.1, hstage.2.1, hstage.2.2, List.append_assoc] at hrest
      exact hrest
    · have hlen : t.reactor.done.length = ringEntries := by omega
      have hstage : (t.stage c).reactor.done = t.reactor.done ∧
          (t.stage c).discarded = t.discarded ++ [c] ∧
          (t.stage c).reactor.undelivered = saturatingSucc t.reactor.undelivered := by
        unfold Tenant.stage Reactor.stage
        rw [if_neg hroom, if_neg hroom]
        refine ⟨?_, rfl, rfl⟩
        show (t.reactor.tally c).done = _
        unfold Reactor.tally
        split <;> rfl
      have hrest := ih (t := t.stage c) (by rw [hstage.1]; exact h)
      rw [hstage.1, hstage.2.1, hstage.2.2] at hrest
      obtain ⟨hdone, hdiscarded, hreturned, hrequests, hstreams, hcount⟩ := hrest
      have htake : ∀ l : List Completion,
          (t.reactor.done ++ l).take ringEntries = t.reactor.done := by
        intro l
        rw [← hlen, List.take_left]
      have hdrop : ∀ l : List Completion, (t.reactor.done ++ l).drop ringEntries = l := by
        intro l
        rw [← hlen, List.drop_left]
      refine ⟨?_, ?_, hreturned, hrequests, hstreams, ?_⟩
      · rw [hdone, htake, htake]
      · rw [hdiscarded, hdrop, hdrop, List.append_assoc]
        rfl
      · rw [hcount, hdrop, hdrop, saturatingSucc_toNat]
        unfold saturatingAdd
        rw [List.length_cons]
        omega

/-! ### Where the completions are -/

/-- The account of the completions that were posted. `queue` is what the completion queue holds. -/
structure Books (t : Tenant) (queue posted : List Completion) : Prop where
  once : (t.returned.map (·.2) ++ t.discarded ++ (t.reactor.done ++ queue)).Perm posted
  numbered : posted.map (·.seq) = List.range posted.length
  own : ∀ e ∈ t.returned, e.2.ud = e.1
  line : ∀ ud, (t.line queue ud).Pairwise fun c d => c.seq < d.seq
  sorted : (t.reactor.done ++ queue).Pairwise fun c d => c.seq < d.seq
  staged : t.reactor.done.length ≤ ringEntries
  counted : t.reactor.undelivered.toNat = saturatingAdd 0 t.discarded.length

/-- A change that leaves the lists alone. -/
theorem Books.same (h : Books t queue posted) (hreactor : u.reactor.done = t.reactor.done)
    (hcount : u.reactor.undelivered = t.reactor.undelivered)
    (hreturned : u.returned = t.returned) (hdiscarded : u.discarded = t.discarded) :
    Books u queue posted := by
  refine ⟨?_, h.numbered, ?_, fun ud => ?_, ?_, ?_, ?_⟩
  · rw [hreactor, hreturned, hdiscarded]
    exact h.once
  · rw [hreturned]
    exact h.own
  · have hline := h.line ud
    unfold Tenant.line at hline ⊢
    rw [hreactor, hreturned]
    exact hline
  · rw [hreactor]
    exact h.sorted
  · rw [hreactor]
    exact h.staged
  · rw [hcount, hdiscarded]
    exact h.counted

theorem Books.take (h : Books t queue posted) (ud : UInt64) : Books (t.take ud).2 queue posted := by
  have hlines : ∀ ud', ((t.take ud).2.line queue ud').Pairwise fun c d => c.seq < d.seq := by
    intro ud'
    rw [t.line_take]
    exact h.line ud'
  rcases t.take_cases ud with ⟨-, hsame, -⟩ | ⟨c, as, bs, hdone, -, hud, -, hafter⟩
  · rw [hsame]
    exact h
  rw [hafter] at hlines ⊢
  have hsub : (as ++ bs).Sublist t.reactor.done := by
    rw [hdone]
    exact (List.Sublist.refl as).append (List.sublist_cons_self c bs)
  refine ⟨?_, h.numbered, ?_, hlines, ?_, ?_, h.counted⟩
  · -- The completion moves from the table to those that are returned.
    refine List.Perm.trans ?_ h.once
    show ((t.returned ++ [(ud, c)]).map (·.2) ++ t.discarded ++ (as ++ bs ++ queue)).Perm
      (t.returned.map (·.2) ++ t.discarded ++ (t.reactor.done ++ queue))
    rw [hdone, List.map_append, List.map_singleton, List.append_assoc, List.append_assoc,
      List.append_assoc, List.append_assoc, List.append_assoc]
    refine List.Perm.append_left _ ?_
    show ([c] ++ (t.discarded ++ (as ++ (bs ++ queue)))).Perm
      (t.discarded ++ (as ++ ([c] ++ bs ++ queue)))
    refine (List.perm_append_comm_assoc [c] t.discarded _).trans ?_
    refine List.Perm.append_left _ ?_
    rw [List.append_assoc]
    exact List.perm_append_comm_assoc [c] as _
  · intro e he
    rcases List.mem_append.mp he with hold | hnew
    · exact h.own e hold
    · rw [List.mem_singleton.mp hnew]
      exact hud
  · exact h.sorted.sublist (hsub.append (List.Sublist.refl queue))
  · exact Nat.le_trans hsub.length_le h.staged

theorem Books.works (h : Books t queue posted) (hw : Works n t u) : Books u queue posted := by
  induction hw with
  | refl t => exact h
  | post _ i _ ih =>
    refine (ih h).same ?_ ?_ ?_ ?_ <;> unfold Tenant.post <;> split <;> rfl
  | arm _ i _ ih =>
    refine (ih h).same ?_ ?_ ?_ ?_ <;> unfold Tenant.arm <;> split <;> rfl
  | take _ ud ih => exact (ih h).take ud

/-- A reap empties the queue. -/
theorem Books.stages (h : Books t queue posted) :
    Books (queue.foldl Tenant.stage t) [] posted := by
  obtain ⟨hdone, hdiscarded, hreturned, -, -, hcount⟩ := stages_spec queue h.staged
  have hsub : ((t.reactor.done ++ queue).take ringEntries).Sublist (t.reactor.done ++ queue) :=
    List.take_sublist _ _
  refine ⟨?_, h.numbered, ?_, fun ud => ?_, ?_, ?_, ?_⟩
  · rw [hdone, hdiscarded, hreturned, List.append_nil]
    refine List.Perm.trans ?_ h.once
    rw [List.append_assoc, List.append_assoc, List.append_assoc]
    refine List.Perm.append_left _ (List.Perm.append_left _ ?_)
    refine List.perm_append_comm.trans ?_
    rw [List.take_append_drop]
  · rw [hreturned]
    exact h.own
  · unfold Tenant.line
    rw [hdone, hreturned, List.append_nil]
    exact (h.line ud).sublist ((List.Sublist.refl _).append (hsub.filter _))
  · rw [hdone, List.append_nil]
    exact h.sorted.sublist hsub
  · rw [hdone]
    exact List.length_take_le _ _
  · rw [hcount, hdiscarded, h.counted, List.length_append]
    unfold saturatingAdd
    omega

/-- A new completion is the last of its line. -/
theorem Books.post (h : Books t queue posted) (ud status : UInt64) :
    Books t (queue ++ [⟨posted.length, ud, status⟩]) (posted ++ [⟨posted.length, ud, status⟩]) := by
  have hseq : ∀ c ∈ posted, c.seq < posted.length := by
    intro c hc
    have hmem : c.seq ∈ posted.map (·.seq) := List.mem_map_of_mem hc
    rw [h.numbered] at hmem
    exact List.mem_range.mp hmem
  have hall : ∀ c, c ∈ t.returned.map (·.2) ∨ c ∈ t.reactor.done ++ queue →
      c.seq < posted.length := by
    intro c hc
    refine hseq c (h.once.mem_iff.mp ?_)
    rcases hc with hc | hc
    · exact List.mem_append_left _ (List.mem_append_left _ hc)
    · exact List.mem_append_right _ hc
  refine ⟨?_, ?_, h.own, fun ud' => ?_, ?_, h.staged, h.counted⟩
  · rw [← List.append_assoc t.reactor.done, ← List.append_assoc]
    exact h.once.append_right _
  · rw [List.map_append, h.numbered, List.length_append]
    exact List.range_succ.symm
  · have hline := h.line ud'
    unfold Tenant.line at hline ⊢
    rw [← List.append_assoc t.reactor.done, List.filter_append, ← List.append_assoc,
      List.pairwise_append]
    refine ⟨hline, List.Pairwise.sublist List.filter_sublist (List.pairwise_singleton _ _), ?_⟩
    intro c hc d hd
    obtain rfl := List.mem_singleton.mp (List.mem_of_mem_filter hd)
    refine hall c ?_
    rcases List.mem_append.mp hc with hc | hc
    · obtain ⟨e, he, rfl⟩ := List.mem_map.mp hc
      exact Or.inl (List.mem_map_of_mem (List.mem_of_mem_filter he))
    · exact Or.inr (List.mem_of_mem_filter hc)
  · rw [← List.append_assoc, List.pairwise_append]
    refine ⟨h.sorted, List.pairwise_singleton _ _, ?_⟩
    intro c hc d hd
    obtain rfl := List.mem_singleton.mp hd
    exact hall c (Or.inr hc)

/-! ### What a pending future waits for -/

/-- The cookie of a leaf. -/
def Leaf.cookie (t : Tenant) : Leaf → UInt64
  | .request i => (t.requests i).ud
  | .next i => (t.streams i).ud

/-- The cookies of the leaves of a pending future that are not finished. -/
def Fut.awaited (t : Tenant) : Fut → List UInt64
  | .leaf l => [l.cookie t]
  | .collect i _ _ => [(t.streams i).ud]
  | .join reads => (reads.filter (·.2.isNone)).map fun r => r.1.cookie t
  | .join2 a aOut b bOut =>
    (if aOut.isSome then [] else a.awaited t) ++ if bOut.isSome then [] else b.awaited t
  | .select2 a b => a.awaited t ++ b.awaited t

/-- No staged completion has one of the cookies. -/
def Unstaged (t : Tenant) (uds : List UInt64) : Prop :=
  ∀ ud ∈ uds, ∀ c ∈ t.reactor.done, c.ud ≠ ud

/-- A poll leaves the cookies of the objects alone, and it stages nothing. -/
theorem Works.steady (h : Works n t u) :
    (∀ i, (u.requests i).ud = (t.requests i).ud) ∧ (∀ i, (u.streams i).ud = (t.streams i).ud) ∧
      ∀ c ∈ u.reactor.done, c ∈ t.reactor.done := by
  induction h with
  | refl t => exact ⟨fun _ => rfl, fun _ => rfl, fun _ hc => hc⟩
  | @post n t u h i hnew ih =>
    obtain ⟨hrequests, hstreams, hdone⟩ := ih
    have hpost : u.post i = (u.push (u.requests i).entry).setRequest i
        { u.requests i with posted := true } := if_neg (by rw [hnew]; exact Bool.false_ne_true)
    rw [hpost]
    refine ⟨fun j => ?_, hstreams, hdone⟩
    show (Function.update u.requests i { u.requests i with posted := true } j).ud = _
    by_cases hj : j = i
    · subst hj
      rw [Function.update_self]
      exact hrequests j
    · rw [Function.update_of_ne hj]
      exact hrequests j
  | @arm n t u h i hnew ih =>
    obtain ⟨hrequests, hstreams, hdone⟩ := ih
    have harm : u.arm i = (u.push (ctrlEntry ringOpEventSub (u.streams i).ud
        (u.streams i).sourceSlot)).setStream i { u.streams i with armed := true } :=
      if_neg (by rw [hnew]; exact Bool.false_ne_true)
    rw [harm]
    refine ⟨hrequests, fun j => ?_, hdone⟩
    show (Function.update u.streams i { u.streams i with armed := true } j).ud = _
    by_cases hj : j = i
    · subst hj
      rw [Function.update_self]
      exact hstreams j
    · rw [Function.update_of_ne hj]
      exact hstreams j
  | @take n t u h ud ih =>
    obtain ⟨hrequests, hstreams, hdone⟩ := ih
    rcases u.take_cases ud with ⟨-, hsame, -⟩ | ⟨c, as, bs, hbefore, -, -, -, hafter⟩
    · rw [hsame]
      exact ⟨hrequests, hstreams, hdone⟩
    · rw [hafter]
      refine ⟨hrequests, hstreams, fun d hd => hdone d ?_⟩
      rw [hbefore]
      rcases List.mem_append.mp hd with hd | hd
      · exact List.mem_append_left _ hd
      · exact List.mem_append_right _ (List.mem_cons_of_mem c hd)

/-- The cookies depend on the objects only. -/
theorem Leaf.cookie_congr (hrequests : ∀ i, (u.requests i).ud = (t.requests i).ud)
    (hstreams : ∀ i, (u.streams i).ud = (t.streams i).ud) (l : Leaf) : l.cookie u = l.cookie t := by
  cases l with
  | request i => exact hrequests i
  | next i => exact hstreams i

theorem Fut.awaited_congr (hrequests : ∀ i, (u.requests i).ud = (t.requests i).ud)
    (hstreams : ∀ i, (u.streams i).ud = (t.streams i).ud) (f : Fut) :
    f.awaited u = f.awaited t := by
  induction f with
  | leaf l =>
    show [l.cookie u] = [l.cookie t]
    rw [Leaf.cookie_congr hrequests hstreams]
  | collect i n events =>
    show [(u.streams i).ud] = [(t.streams i).ud]
    rw [hstreams i]
  | join reads =>
    show (reads.filter (·.2.isNone)).map (fun r => r.1.cookie u) =
      (reads.filter (·.2.isNone)).map fun r => r.1.cookie t
    exact List.map_congr_left fun r _ => Leaf.cookie_congr hrequests hstreams r.1
  | join2 a aOut b bOut iha ihb => rw [Fut.awaited, Fut.awaited, iha, ihb]
  | select2 a b iha ihb => rw [Fut.awaited, Fut.awaited, iha, ihb]

theorem Works.cookie (h : Works n t u) (l : Leaf) : l.cookie u = l.cookie t :=
  Leaf.cookie_congr h.steady.1 h.steady.2.1 l

theorem Works.awaited (h : Works n t u) (f : Fut) : f.awaited u = f.awaited t :=
  Fut.awaited_congr h.steady.1 h.steady.2.1 f

theorem Unstaged.works {uds : List UInt64} (h : Unstaged t uds) (hw : Works n t u) :
    Unstaged u uds := fun ud hud c hc => h ud hud c (hw.steady.2.2 c hc)

theorem Unstaged.append {uds uds' : List UInt64} (h : Unstaged t uds) (h' : Unstaged t uds') :
    Unstaged t (uds ++ uds') := by
  intro ud hud
  rcases List.mem_append.mp hud with hud | hud
  · exact h ud hud
  · exact h' ud hud

theorem Unstaged.nil (t : Tenant) : Unstaged t [] := by
  intro ud hud
  cases hud

theorem Unstaged.of_eq {a b : UInt64} (h : Unstaged t [a]) (heq : b = a) : Unstaged t [b] := by
  rw [heq]
  exact h

theorem Tenant.take_none (h : (t.take ud).1 = none) : Unstaged (t.take ud).2 [ud] := by
  intro ud' hud' c hc
  obtain rfl := List.mem_singleton.mp hud'
  rcases t.take_cases ud' with ⟨-, hsame, hnot⟩ | ⟨d, as, bs, -, -, -, hsome, -⟩
  · rw [hsame] at hc
    exact hnot c hc
  · rw [hsome] at h
    cases h

/-- A leaf that is pending finds nothing in the table. -/
theorem Leaf.poll_pending (l : Leaf) (h : (l.poll t).1 = none) :
    Unstaged (l.poll t).2 [l.cookie (l.poll t).2] := by
  rw [(l.poll_works t).cookie l]
  cases l with
  | request i =>
    have hud : ((t.post i).requests i).ud = (t.requests i).ud := (works_post t i).steady.1 i
    exact (Tenant.take_none (t := t.post i) h).of_eq hud.symm
  | next i =>
    have hud : ((t.arm i).streams i).ud = (t.streams i).ud := (works_arm t i).steady.2.1 i
    exact (Tenant.take_none (t := t.arm i) (Option.map_eq_none_iff.mp h)).of_eq hud.symm

theorem collectLoop_pending (events : List UInt64) (h : (collectLoop ud n events t).1 ≠ 0) :
    Unstaged (collectLoop ud n events t).2.2 [ud] := by
  induction n generalizing events t with
  | zero => exact absurd rfl h
  | succ n ih =>
    unfold collectLoop at h ⊢
    cases htake : t.take ud with
    | mk status t' =>
      cases status with
      | some w =>
        rw [htake] at h
        exact ih _ h
      | none =>
        have hnone : Unstaged (t.take ud).2 [ud] := Tenant.take_none (by rw [htake])
        rwa [htake] at hnone

/-- The children of a join that are pending after the loop. -/
theorem pollReads_pending (reads : List (Leaf × Option UInt64)) (t : Tenant) :
    Unstaged (pollReads reads t).2 ((Fut.join (pollReads reads t).1).awaited
      (pollReads reads t).2) := by
  induction reads generalizing t with
  | nil => exact fun ud hud => nomatch hud
  | cons read reads ih =>
    obtain ⟨l, status⟩ := read
    cases status with
    | some w => exact ih t
    | none =>
      have hrest := ih (l.poll t).2
      have hworks := pollReads_works reads (l.poll t).2
      cases hpoll : (l.poll t).1 with
      | some w =>
        unfold pollReads
        dsimp only
        rw [hpoll]
        exact hrest
      | none =>
        have hleaf := (l.poll_pending hpoll).works hworks
        rw [← hworks.cookie l] at hleaf
        unfold pollReads
        dsimp only
        rw [hpoll]
        exact hleaf.append hrest

/-- One side of `join2`, which is not polled again once it is ready. -/
theorem side_pending (f : Fut) (out : Option Out) (t : Tenant)
    (h : (f.poll t).1 = none → Unstaged (f.poll t).2.2 ((f.poll t).2.1.awaited (f.poll t).2.2)) :
    let r := if out.isSome then (out, f, t) else f.poll t
    Unstaged r.2.2 (if r.1.isSome then [] else r.2.1.awaited r.2.2) ∧ ∃ n, Works n t r.2.2 := by
  intro r
  show Unstaged r.2.2 _ ∧ _
  by_cases hout : out.isSome
  · have hr : r = (out, f, t) := if_pos hout
    rw [hr, if_pos hout]
    exact ⟨.nil t, 0, .refl t⟩
  · have hr : r = f.poll t := if_neg hout
    rw [hr]
    refine ⟨?_, _, f.poll_works t⟩
    cases hready : (f.poll t).1 with
    | some v => exact .nil _
    | none => exact h hready

/-- After a poll that is pending, no staged completion is one that the future waits for. -/
theorem Fut.poll_pending (f : Fut) (t : Tenant) (h : (f.poll t).1 = none) :
    Unstaged (f.poll t).2.2 ((f.poll t).2.1.awaited (f.poll t).2.2) := by
  induction f generalizing t with
  | leaf l => exact l.poll_pending (Option.map_eq_none_iff.mp h)
  | collect i n events =>
    have hne : (collectLoop ((t.arm i).streams i).ud n events (t.arm i)).1 ≠ 0 := by
      intro heq
      have hsome : ((Fut.collect i n events).poll t).1 = some (.words _) := if_pos heq
      rw [hsome] at h
      cases h
    have hud : ((collectLoop ((t.arm i).streams i).ud n events (t.arm i)).2.2.streams i).ud =
        ((t.arm i).streams i).ud := (collectLoop_works _ n events (t.arm i)).steady.2.1 i
    exact (collectLoop_pending events hne).of_eq hud
  | join reads => exact pollReads_pending reads t
  | join2 a aOut b bOut iha ihb =>
    obtain ⟨hfirst, -⟩ := side_pending a aOut t (iha t)
    obtain ⟨hsecond, n, hworks⟩ := side_pending b bOut
      (if aOut.isSome then (aOut, a, t) else a.poll t).2.2 (ihb _)
    rw [Fut.poll] at h ⊢
    generalize (if aOut.isSome then (aOut, a, t) else a.poll t) = ra at h hfirst hsecond hworks ⊢
    generalize (if bOut.isSome then (bOut, b, ra.2.2) else b.poll ra.2.2) = rb
      at h hsecond hworks ⊢
    obtain ⟨x, a', t₁⟩ := ra
    obtain ⟨y, b', t₂⟩ := rb
    have hkeep := hfirst.works hworks
    cases x with
    | none =>
      dsimp only [Option.isSome] at hkeep
      rw [if_neg Bool.false_ne_true, ← hworks.awaited] at hkeep
      exact hkeep.append hsecond
    | some v =>
      cases y with
      | none => exact hkeep.append hsecond
      | some w => cases h
  | select2 a b iha ihb =>
    rw [Fut.poll] at h ⊢
    cases ha : (a.poll t).1 with
    | some w =>
      dsimp only at h
      rw [ha] at h
      cases h
    | none =>
      dsimp only at h ⊢
      rw [ha] at h
      dsimp only at h ⊢
      have hb := Option.map_eq_none_iff.mp h
      have hworks := b.poll_works (a.poll t).2.2
      have hfirst := (iha t ha).works hworks
      rw [← hworks.awaited] at hfirst
      exact hfirst.append (ihb _ hb)

/-! ### Runs -/

/-- What holds of the completions of a ring. Each one that the kernel posted was returned, was
discarded, is staged, or waits in the queue, and it is in one of these places only. -/
structure Accounted (s : State) : Prop where
  books : Books s.tenant (s.cq.contents ringMask) s.posted
  room : s.cq.count ≤ ringEntries
  /-- `block_on` does not wait for a completion that is staged. -/
  waits : ∀ f, s.phase = .submitting f ∨ s.phase = .waiting f →
    Unstaged s.tenant (f.awaited s.tenant)
  /-- A completion is discarded by a reap that finds 16 older ones. -/
  discards : ∀ ℓ s', s.next ℓ = some s' → ∀ c ∈ s'.tenant.discarded,
    c ∈ s.tenant.discarded ∨ ℓ = .reap ∧ s'.tenant.reactor.done.length = ringEntries ∧
      ∀ d ∈ s'.tenant.reactor.done, d.seq < c.seq

/-- A block completion finds room in the queue. The kernel posts it in any case. -/
def roomFor (s : State) : Label → Prop
  | .post false _ _ => s.cq.count < ringEntries
  | _ => True

theorem Works.discarded (h : Works n t u) : u.discarded = t.discarded := by
  induction h with
  | refl t => rfl
  | post _ i _ ih =>
    rw [← ih]
    unfold Tenant.post
    split <;> rfl
  | arm _ i _ ih =>
    rw [← ih]
    unfold Tenant.arm
    split <;> rfl
  | take _ ud ih =>
    rw [← ih]
    unfold Tenant.take
    split <;> rfl

/-- What a reap discards. -/
theorem Books.discards (h : Books t queue posted)
    (hc : c ∈ (queue.foldl Tenant.stage t).discarded) :
    c ∈ t.discarded ∨ (queue.foldl Tenant.stage t).reactor.done.length = ringEntries ∧
      ∀ d ∈ (queue.foldl Tenant.stage t).reactor.done, d.seq < c.seq := by
  obtain ⟨hdone, hdiscarded, -, -, -, -⟩ := stages_spec queue h.staged
  rw [hdiscarded] at hc
  rcases List.mem_append.mp hc with hold | hnew
  · exact Or.inl hold
  right
  have hlong : ringEntries < (t.reactor.done ++ queue).length := by
    have hpos := List.length_pos_of_mem hnew
    rw [List.length_drop] at hpos
    omega
  rw [hdone]
  refine ⟨?_, fun d hd => ?_⟩
  · rw [List.length_take]
    omega
  · have hsorted := h.sorted
    rw [← List.take_append_drop ringEntries (t.reactor.done ++ queue),
      List.pairwise_append] at hsorted
    exact hsorted.2.2 d hd c hnew

/-- The discards of the next step. -/
theorem Books.next_discards (h : Books s.tenant (s.cq.contents ringMask) s.posted) {s' : State}
    {ℓ : Label} (hnext : s.next ℓ = some s') (hc : c ∈ s'.tenant.discarded) :
    c ∈ s.tenant.discarded ∨ ℓ = .reap ∧ s'.tenant.reactor.done.length = ringEntries ∧
      ∀ d ∈ s'.tenant.reactor.done, d.seq < c.seq := by
  have hsubmit : ∀ {s₁ : State} {n : Nat}, s₁.submit n = some s' →
      s'.tenant.discarded = s₁.tenant.discarded := by
    intro s₁ n h₁
    unfold State.submit at h₁
    split at h₁
    · rw [← Option.some.inj h₁]
    · cases h₁
  cases ℓ with
  | reap =>
    unfold State.next at hnext
    dsimp only at hnext
    split at hnext
    · obtain rfl := Option.some.inj hnext
      rcases h.discards hc with hold | hnew
      · exact Or.inl hold
      · exact Or.inr ⟨rfl, hnew⟩
    · cases hnext
  | poll =>
    left
    unfold State.next at hnext
    dsimp only at hnext
    split at hnext
    · rename_i f _
      obtain rfl := Option.some.inj hnext
      rwa [← (f.poll_works s.tenant).discarded]
    · cases hnext
  | submit n =>
    left
    unfold State.next at hnext
    dsimp only at hnext
    split at hnext
    · rwa [hsubmit hnext] at hc
    · cases hnext
  | cancel i n =>
    left
    unfold State.next at hnext
    dsimp only at hnext
    split at hnext
    · split at hnext
      · rwa [hsubmit hnext] at hc
      · rwa [← Option.some.inj hnext] at hc
    · cases hnext
  | post event ud status =>
    left
    unfold State.next at hnext
    dsimp only at hnext
    split at hnext <;> rwa [← Option.some.inj hnext] at hc
  | read | write | subscribe | call | wake =>
    left
    unfold State.next at hnext
    dsimp only at hnext
    split at hnext
    · rwa [← Option.some.inj hnext] at hc
    · cases hnext

/-- The account of the state, without the outlook on the next step. -/
structure Kept (s : State) : Prop where
  books : Books s.tenant (s.cq.contents ringMask) s.posted
  room : s.cq.count ≤ ringEntries
  waits : ∀ f, s.phase = .submitting f ∨ s.phase = .waiting f →
    Unstaged s.tenant (f.awaited s.tenant)

theorem Kept.accounted (h : Kept s) : Accounted s :=
  ⟨h.books, h.room, h.waits, fun _ _ hnext _ hc => h.books.next_discards hnext hc⟩

/-- The submit moves the head of the submission queue only. -/
theorem Unstaged.advance {f : Fut} (h : Unstaged t (f.awaited t)) (n : Nat) :
    Unstaged { t with sq := t.sq.advance n }
      (f.awaited { t with sq := t.sq.advance n }) := by
  have hsame : f.awaited { t with sq := t.sq.advance n } = f.awaited t := by
    apply Fut.awaited_congr <;> exact fun _ => rfl
  rw [hsame]
  exact h

theorem Kept.submit {s' : State} (h : Kept s) (hnext : s.submit n = some s') : Kept s' := by
  unfold State.submit at hnext
  split at hnext
  · obtain rfl := Option.some.inj hnext
    refine ⟨h.books.same rfl rfl rfl rfl, h.room, fun f hf => ?_⟩
    exact (h.waits f hf).advance n
  · cases hnext

theorem Kept.step {s' : State} {ℓ : Label} (h : Kept s) (guard : roomFor s ℓ)
    (hnext : s.next ℓ = some s') : Kept s' := by
  -- A step between two calls of `block_on`: nothing is awaited.
  have hidle : ∀ {out t}, s.phase = .idle out → t.reactor.done = s.tenant.reactor.done →
      t.reactor.undelivered = s.tenant.reactor.undelivered → t.returned = s.tenant.returned →
      t.discarded = s.tenant.discarded → Kept { s with tenant := t } := by
    intro out t hphase hdone hcount hreturned hdiscarded
    refine ⟨h.books.same hdone hcount hreturned hdiscarded, h.room, fun f hf => ?_⟩
    rcases hf with hf | hf <;> cases hphase.symm.trans hf
  cases ℓ with
  | read | write | subscribe =>
    unfold State.next at hnext
    dsimp only at hnext
    split at hnext
    · rename_i hphase
      obtain rfl := Option.some.inj hnext
      exact hidle hphase rfl rfl rfl rfl
    · cases hnext
  | call f =>
    unfold State.next at hnext
    dsimp only at hnext
    split at hnext
    · obtain rfl := Option.some.inj hnext
      exact ⟨h.books, h.room, fun f hf => by rcases hf with hf | hf <;> cases hf⟩
    · cases hnext
  | poll =>
    unfold State.next at hnext
    dsimp only at hnext
    split at hnext
    · rename_i f hphase
      obtain rfl := Option.some.inj hnext
      refine ⟨h.books.works (f.poll_works s.tenant), h.room, fun f' hf' => ?_⟩
      dsimp only at hf' ⊢
      cases hready : (f.poll s.tenant).1 with
      | some v =>
        rw [hready] at hf'
        rcases hf' with hf' | hf' <;> cases hf'
      | none =>
        rw [hready] at hf'
        rcases hf' with hf' | hf'
        · obtain rfl := Phase.submitting.inj hf'
          exact f.poll_pending s.tenant hready
        · cases hf'
    · cases hnext
  | submit n =>
    unfold State.next at hnext
    dsimp only at hnext
    split at hnext
    · rename_i f hphase
      have hwaiting : Kept { s with phase := .waiting f } := by
        refine ⟨h.books, h.room, fun f' hf' => ?_⟩
        rcases hf' with hf' | hf'
        · cases hf'
        · obtain rfl := Phase.waiting.inj hf'
          exact h.waits f (Or.inl hphase)
      exact hwaiting.submit hnext
    · cases hnext
  | wake =>
    unfold State.next at hnext
    dsimp only at hnext
    split at hnext
    · obtain rfl := Option.some.inj hnext
      exact ⟨h.books, h.room, fun f hf => by rcases hf with hf | hf <;> cases hf⟩
    · cases hnext
  | reap =>
    unfold State.next at hnext
    dsimp only at hnext
    split at hnext
    · obtain rfl := Option.some.inj hnext
      have hempty : (s.cq.advance s.cq.count).count = 0 := by
        rw [count_advance (Nat.le_refl _), Nat.sub_self]
      have hnil : (s.cq.advance s.cq.count).contents ringMask = [] := by
        unfold IndexRing.contents
        rw [hempty]
        rfl
      refine ⟨?_, ?_, fun f hf => by rcases hf with hf | hf <;> cases hf⟩
      · show Books _ ((s.cq.advance s.cq.count).contents ringMask) s.posted
        rw [hnil]
        exact h.books.stages
      · show (s.cq.advance s.cq.count).count ≤ ringEntries
        rw [hempty]
        exact Nat.zero_le _
    · cases hnext
  | cancel i n =>
    unfold State.next at hnext
    dsimp only at hnext
    split at hnext
    · rename_i hphase
      split at hnext
      · have hpushed : Kept { s with
            tenant := (s.tenant.push (ctrlEntry ringOpCancel (s.tenant.streams i).ud 0)).setStream i
              { s.tenant.streams i with armed := false } } := hidle hphase rfl rfl rfl rfl
        exact hpushed.submit hnext
      · obtain rfl := Option.some.inj hnext
        exact h
    · cases hnext
  | post event ud status =>
    unfold State.next at hnext
    dsimp only at hnext
    split at hnext
    · obtain rfl := Option.some.inj hnext
      exact h
    · rename_i hdrop
      obtain rfl := Option.some.inj hnext
      have hroom : s.cq.count < ringEntries := by
        cases event with
        | true => exact Nat.lt_of_not_le fun hle => hdrop ⟨rfl, hle⟩
        | false => exact guard
      have hlt : s.cq.count < 16 := hroom
      refine ⟨?_, ?_, h.waits⟩
      · show Books s.tenant ((s.cq.push ringMask (s.completion ud status)).contents ringMask) _
        rw [push_contents sized_ringMask hlt]
        exact h.books.post ud status.toUInt64
      · show (s.cq.push ringMask (s.completion ud status)).count ≤ ringEntries
        rw [count_push (by omega)]
        exact hroom

/-- In every run whose block completions find room in the completion queue, each completion that
was posted is in one place, those of a cookie are returned in order, only a full table discards,
and `block_on` does not wait for a staged completion. -/
theorem completions_accounted {hist : List (State × Label)} (run : Run system roomFor hist s) :
    Accounted s := by
  refine Kept.accounted ?_
  induction run with
  | @start s hfresh =>
    have hcount : s.cq.count = 0 := by
      unfold IndexRing.count
      rw [hfresh.cq, UInt32.sub_self]
      rfl
    have hnil : s.cq.contents ringMask = [] := by
      unfold IndexRing.contents
      rw [hcount]
      rfl
    refine ⟨?_, ?_, fun f hf => ?_⟩
    · rw [hnil, hfresh.posted]
      refine ⟨?_, rfl, fun e he => ?_, fun ud => ?_, ?_, ?_, ?_⟩
      · rw [hfresh.returned, hfresh.discarded, hfresh.done]
        exact List.Perm.refl _
      · rw [hfresh.returned] at he
        cases he
      · unfold Tenant.line
        rw [hfresh.returned, hfresh.done]
        exact List.Pairwise.nil
      · rw [hfresh.done]
        exact List.Pairwise.nil
      · rw [hfresh.done]
        exact Nat.zero_le _
      · rw [hfresh.undelivered, hfresh.discarded]
        rfl
    · rw [hcount]
      exact Nat.zero_le _
    · rcases hf with hf | hf <;> cases hfresh.phase.symm.trans hf
  | step _ guard hnext ih => exact ih.step guard hnext

/-! ### A table that is full -/

/-- Two events of a stream, of which the first carries the drop flag. The other one is staged for
the next poll. -/
theorem completions_accounted_twoEvents : ∃ s, Accounted s ∧
    s.tenant.returned = [(1, ⟨0, 1, 0x80000007⟩)] ∧ s.tenant.reactor.done = [⟨1, 1, 8⟩] ∧
    s.phase = .idle (some (.word 7)) := by
  have run : Run system roomFor [] idle := .start idle_fresh
  have run₁ := run.step (a := Label.subscribe 0 5) trivial rfl
  have run₂ := run₁.step (a := Label.call (.leaf (.next 0))) trivial rfl
  have run₃ := run₂.step (a := Label.poll) trivial rfl
  have run₄ := run₃.step (a := Label.submit 1) trivial rfl
  have run₅ := run₄.step (a := Label.post true 1 0x80000007) trivial rfl
  have run₆ := run₅.step (a := Label.post true 1 8) trivial rfl
  have run₇ := run₆.step (a := Label.wake) trivial rfl
  have run₈ := run₇.step (a := Label.reap) trivial rfl
  have run₉ := run₈.step (a := Label.poll) trivial rfl
  exact ⟨_, completions_accounted run₉, by decide +kernel, by decide +kernel, by decide +kernel⟩

/-- A stream is armed by its first event. Then 16 more events arrive while `block_on` waits for a
read, and the read completes after that. -/
def floodLabels : List Label :=
  [.subscribe 0 5, .call (.leaf (.next 0)), .poll, .submit 1, .post true 1 7, .wake, .reap, .poll,
    .read 0 0 0 0 1, .call (.leaf (.request 0)), .poll, .submit 1] ++
  List.replicate 16 (.post true 1 7) ++
  [.wake, .reap, .poll, .submit 0, .post false 2 0, .wake, .reap, .poll, .submit 0]

/-- The completion of the read finds the table full of events. It is discarded, and `block_on`
waits for it. -/
theorem floodRun_discards : ∃ hist s, Run system always hist s ∧
    s.phase = .waiting (.leaf (.request 0)) ∧ (Leaf.request 0).cookie s.tenant = 2 ∧
    s.posted.filter (·.ud = 2) = [⟨17, 2, 0⟩] ∧ ⟨17, 2, 0⟩ ∉ s.tenant.returned.map (·.2) ∧
    s.tenant.discarded = [⟨17, 2, 0⟩] ∧ s.tenant.reactor.undelivered = 1 ∧
    s.tenant.reactor.done = (List.range 16).map (fun k => ⟨k + 1, 1, 7⟩) ∧ s.cq.count = 0 := by
  refine ⟨_, _, system.run idle_fresh floodLabels, ?_⟩
  decide +kernel

end Plinth.Executor
