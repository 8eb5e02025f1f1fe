import Plinth.Proofs.Ram
import Plinth.Queues.System

/-!
# `Plinth.Queues.Drops`: the counts of dropped events

A subscription counts the events that its ring did not admit. An admitted event carries a flag if
the count is not zero, and the count starts again. So `ring_dropped` returns the drops since the
last admitted event, up to the largest word. `drops_counted` says when these are all drops since
the subscription was armed. The flag is right in every run.
-/

set_option autoImplicit false

namespace Plinth

open Transition

namespace Queues

/-! ### What an operation does to a record -/

/-- The subscription in record `i`. -/
def sub (s : Queues) (i : Nat) : Option Subscription := s.table.subs.getD i none

/-- The operation arms the subscription of record `i`. -/
def arms (s : Queues) (ℓ : QueueLabel) (i : Nat) : Bool :=
  match ℓ with
  | .subscribe _ id userData =>
    !s.table.subs.any (RingTable.isSub id userData) &&
      s.table.subs.findIdx? Option.isNone == some i
  | _ => false

/-- The operation brings an event to the subscription of record `i`. -/
def hits (s : Queues) (ℓ : QueueLabel) (i : Nat) : Bool :=
  match ℓ with
  | .deliver source _ record =>
    record == i && (s.sub i).any fun sub => sub.source == source
  | _ => false

/-- The completion queue of the ring `id` admits an event. -/
def hasRoom (s : Queues) (id : RingId) : Bool := (s.table.cqPost s.ram id 0 0 true).1.1

/-- The queue of the subscription in record `i` admits an event. -/
def admits (s : Queues) (i : Nat) : Bool := (s.sub i).any fun sub => s.hasRoom sub.ring

/-- The events dropped on record `i` since its subscription was armed. -/
def droppedSinceArmed (i : Nat) : List (Queues × QueueLabel) → Nat
  | [] => 0
  | (s, ℓ) :: hist =>
    if s.arms ℓ i then 0
    else if s.hits ℓ i && !s.admits i then droppedSinceArmed i hist + 1
    else droppedSinceArmed i hist

/-- The events dropped on record `i` since its last admitted event, or since it was armed. -/
def droppedSinceAdmitted (i : Nat) : List (Queues × QueueLabel) → Nat
  | [] => 0
  | (s, ℓ) :: hist =>
    if s.arms ℓ i then 0
    else if s.hits ℓ i then if s.admits i then 0 else droppedSinceAdmitted i hist + 1
    else droppedSinceAdmitted i hist

/-- Since the subscription of record `i` was armed, an event was admitted after one was
dropped. -/
def recovered (i : Nat) : List (Queues × QueueLabel) → Bool
  | [] => false
  | (s, ℓ) :: hist =>
    !s.arms ℓ i && (recovered i hist ||
      s.hits ℓ i && s.admits i && decide (0 < droppedSinceArmed i hist))

/-- The count of a subscription after another drop: it stays at the largest word. -/
def bump (n : UInt32) : UInt32 := if n = 0xFFFFFFFF then n else n + 1

theorem cqPost_admits (rt : RingTable) (ram : Ram) (id : RingId) (userData status : Nat) :
    (rt.cqPost ram id userData status true).1.1 = (rt.cqPost ram id 0 0 true).1.1 := by
  unfold RingTable.cqPost
  dsimp only
  split
  · rfl
  · split
    · rfl
    · rfl

theorem cqPost_subs (rt : RingTable) (ram : Ram) (id : RingId) (userData status : Nat)
    (dropIfFull : Bool) : (rt.cqPost ram id userData status dropIfFull).2.1.subs = rt.subs := by
  unfold RingTable.cqPost
  dsimp only
  split
  · rfl
  · split
    · rfl
    · rfl

/-- What an operation makes of record `i`. -/
inductive SubNext (s : Queues) (ℓ : QueueLabel) (t : Queues) (i : Nat) : Prop where
  | armed (source : Nat) (id : RingId) (userData : Nat) (harms : s.arms ℓ i = true)
      (huse : (t.table.rings id).inUse = true)
      (hnew : ∀ j sub, s.sub j = some sub → sub.ring = id → sub.userData ≠ userData)
      (hsub : t.sub i = some ⟨source, id, userData, 0⟩)
  | event (sub : Subscription) (harms : s.arms ℓ i = false) (hhits : s.hits ℓ i = true)
      (hold : s.sub i = some sub)
      (hsub : t.sub i = some { sub with
        dropped := if s.admits i then 0 else bump sub.dropped })
  | stays (harms : s.arms ℓ i = false) (hhits : s.hits ℓ i = false)
      (hsub : t.sub i = s.sub i ∨ t.sub i = none)

section

variable {s t : Queues} {ℓ : QueueLabel} {i j : Nat} {sub' : Subscription}

theorem getD_set (subs : List (Option Subscription)) (o : Option Subscription)
    (h : j < subs.length) :
    (subs.set j o).getD i none = if j = i then o else subs.getD i none := by
  rw [List.getD_eq_getElem?_getD, List.getElem?_set, List.getD_eq_getElem?_getD]
  by_cases hji : j = i
  · subst hji
    simp [h]
  · simp [hji]

theorem lt_of_getD {subs : List (Option Subscription)} {sub : Subscription}
    (h : subs.getD i none = some sub) : i < subs.length := by
  by_contra hlen
  rw [List.getD_eq_default subs none (Nat.not_lt.mp hlen)] at h
  cases h

theorem sub_mem (h : s.sub i = some sub') : some sub' ∈ s.table.subs := by
  unfold sub at h
  have hlt := lt_of_getD h
  rw [List.getD_eq_getElem s.table.subs none hlt] at h
  rw [← h]
  exact List.getElem_mem hlt

theorem arms_unique (h : s.arms ℓ i = true) (h' : s.arms ℓ j = true) : i = j := by
  cases ℓ with
  | subscribe source id userData =>
    simp only [arms, Bool.and_eq_true, beq_iff_eq] at h h'
    exact Option.some.inj (h.2.symm.trans h'.2)
  | _ => cases h

theorem subscribe_rings (rt : RingTable) (source : Nat) (id : RingId) (userData : Nat) :
    ((rt.subscribe source id userData).getD rt).rings = rt.rings := by
  unfold RingTable.subscribe
  split
  · rfl
  · split
    · rfl
    · rfl

theorem subscribe_next {source : Nat} {id : RingId} {userData : Nat} (i : Nat)
    (hnext : s.step (.subscribe source id userData) = some t) :
    SubNext s (.subscribe source id userData) t i := by
  change (if (s.table.rings id).inUse then
    some (⟨(s.table.subscribe source id userData).getD s.table, s.ram⟩ : Queues) else none)
      = some t at hnext
  split at hnext
  · rename_i huse
    rw [Option.some.injEq] at hnext
    subst hnext
    have huse' : (((s.table.subscribe source id userData).getD s.table).rings id).inUse = true := by
      rw [subscribe_rings]
      exact huse
    revert huse'
    unfold RingTable.subscribe
    cases hany : s.table.subs.any (RingTable.isSub id userData) with
    | true => exact fun _ => .stays (by simp [arms, hany]) rfl (Or.inl rfl)
    | false =>
      rw [if_neg Bool.false_ne_true]
      cases hfind : s.table.subs.findIdx? Option.isNone with
      | none => exact fun _ => .stays (by simp [arms, hfind]) rfl (Or.inl rfl)
      | some j =>
        intro huse'
        have hlen : j < s.table.subs.length := (List.findIdx?_eq_some_iff_getElem.mp hfind).1
        have hset := getD_set (i := i) s.table.subs (some ⟨source, id, userData, 0⟩) hlen
        by_cases hji : j = i
        · subst hji
          rw [if_pos rfl] at hset
          refine .armed source id userData (by simp [arms, hany, hfind]) huse' ?_ hset
          intro k sub hsub hring huser
          have hno := List.any_eq_false.mp hany _ (sub_mem hsub)
          exact hno (by simp [RingTable.isSub, hring, huser])
        · rw [if_neg hji] at hset
          exact .stays (by simp [arms, hfind, hji]) rfl (Or.inl hset)
  · cases hnext

theorem cancel_next {id : RingId} {userData : Nat} (i : Nat)
    (hnext : s.step (.cancel id userData) = some t) : SubNext s (.cancel id userData) t i := by
  change some (⟨s.table.cancel id userData, s.ram⟩ : Queues) = some t at hnext
  rw [Option.some.injEq] at hnext
  subst hnext
  refine .stays rfl rfl ?_
  unfold sub RingTable.cancel
  split
  · rename_i j hfind
    have hlen : j < s.table.subs.length := (List.findIdx?_eq_some_iff_getElem.mp hfind).1
    dsimp only
    rw [getD_set _ _ hlen]
    split
    · exact Or.inr rfl
    · exact Or.inl rfl
  · exact Or.inl rfl

theorem release_next {id : RingId} (i : Nat) (hnext : s.step (.release id) = some t) :
    SubNext s (.release id) t i := by
  change some (⟨s.table.release id, s.ram⟩ : Queues) = some t at hnext
  rw [Option.some.injEq] at hnext
  subst hnext
  refine .stays rfl rfl ?_
  unfold sub RingTable.release
  dsimp only
  rw [List.getD_eq_getElem?_getD, List.getElem?_map, List.getD_eq_getElem?_getD]
  cases hget : s.table.subs[i]? with
  | none => exact Or.inl rfl
  | some o =>
    cases o with
    | none => exact Or.inl rfl
    | some sub =>
      simp only [Option.map_some, Option.getD_some]
      split
      · exact Or.inr rfl
      · exact Or.inl rfl

theorem deliver_next {source record : Nat} {input : Input} (i : Nat)
    (hnext : s.step (.deliver source input record) = some t) :
    SubNext s (.deliver source input record) t i := by
  change some (⟨(RingTable.deliverOne source input.event.pack (s.table, s.ram, []) record).1,
    (RingTable.deliverOne source input.event.pack (s.table, s.ram, []) record).2.1⟩ : Queues)
      = some t at hnext
  rw [Option.some.injEq] at hnext
  subst hnext
  unfold RingTable.deliverOne
  dsimp only
  cases hsub : s.table.subs.getD record none with
  | none =>
    have hold : s.sub record = none := hsub
    refine .stays rfl ?_ (Or.inl rfl)
    unfold hits
    by_cases hrec : record = i
    · subst hrec
      simp [hold]
    · simp [hrec]
  | some old =>
    have hold : s.sub record = some old := hsub
    dsimp only
    by_cases hsource : old.source = source
    · rw [if_neg (not_not.mpr hsource)]
      have hlen := lt_of_getD hsub
      by_cases hrec : record = i
      · subst hrec
        refine .event old rfl ?_ hsub ?_
        · simp [hits, hold, hsource]
        · have hroom : s.admits record = s.hasRoom old.ring := by simp [admits, hold]
          rw [hroom]
          unfold sub hasRoom
          dsimp only
          rw [cqPost_subs, getD_set _ _ hlen, if_pos rfl, cqPost_admits]
          rfl
      · refine .stays rfl ?_ (Or.inl ?_)
        · simp [hits, hrec]
        · unfold sub
          dsimp only
          rw [cqPost_subs, getD_set _ _ hlen, if_neg hrec]
    · rw [if_pos hsource]
      refine .stays rfl ?_ (Or.inl rfl)
      unfold hits
      by_cases hrec : record = i
      · subst hrec
        simp [hold, hsource]
      · simp [hrec]

/-- What an operation makes of a record. -/
theorem sub_next (hnext : s.step ℓ = some t) (i : Nat) : SubNext s ℓ t i := by
  cases ℓ with
  | register id owner sqPhys cqPhys mask =>
    refine .stays rfl rfl (Or.inl ?_)
    change (if (s.table.rings id).inUse then none else some (⟨s.table.setRing id
      ⟨true, owner, sqPhys, cqPhys, mask, 0, 0, false⟩,
        clearHeader (clearHeader s.ram sqPhys mask) cqPhys mask⟩ : Queues)) = some t at hnext
    split at hnext
    · cases hnext
    · rw [Option.some.injEq] at hnext
      rw [← hnext]
      rfl
  | subscribe source id userData => exact subscribe_next i hnext
  | cancel id userData => exact cancel_next i hnext
  | release id => exact release_next i hnext
  | complete id userData status =>
    refine .stays rfl rfl (Or.inl ?_)
    change some (⟨(s.table.postStatus s.ram id userData status).1,
      (s.table.postStatus s.ram id userData status).2⟩ : Queues) = some t at hnext
    rw [Option.some.injEq] at hnext
    rw [← hnext]
    unfold sub
    exact congrArg (fun subs => subs.getD i none) (cqPost_subs ..)
  | deliver source input record => exact deliver_next i hnext
  | memory ram =>
    refine .stays rfl rfl (Or.inl ?_)
    cases hnext
    rfl

/-! ### The drop flag -/

theorem eventDropped_bits : eventDropped.toBitVec = BitVec.twoPow 32 31 := by decide

theorem flag_of_or (x : UInt32) : (x ||| eventDropped) &&& eventDropped ≠ 0 := by
  intro h
  have hbit := congrArg (fun w => w.toBitVec.getLsbD 31) h
  simp [eventDropped_bits] at hbit

/-- No event that is recorded has the top bit of its value set. -/
theorem input_value (input : Input) : input.event.value.toBitVec.getLsbD 7 = false := by
  cases input with
  | key scancode =>
    unfold Input.event Event.key
    dsimp only
    split
    · rfl
    · rfl
  | mouseMove dx dy buttons =>
    unfold Input.event Event.mouseMove
    dsimp only
    rw [UInt8.toBitVec_and, BitVec.getLsbD_and,
      show (0x7F : UInt8).toBitVec.getLsbD 7 = false from rfl, Bool.and_false]

/-- So the flag is clear in a packed event. -/
theorem pack_unflagged (input : Input) : input.event.pack &&& eventDropped = 0 := by
  have hvalue := input_value input
  refine UInt32.toBitVec_inj.mp (BitVec.eq_of_getLsbD_eq fun i hi => ?_)
  rw [UInt32.toBitVec_and, BitVec.getLsbD_and, eventDropped_bits, BitVec.getLsbD_twoPow]
  by_cases htop : i = 31
  · subst htop
    unfold Event.pack
    simpa using hvalue
  · have hne : ¬ 31 = i := fun h => htop h.symm
    simp [hne]

/-! ### Runs -/

/-- The state of the subscriptions after the history `hist`. -/
structure Tallied (hist : List (Queues × QueueLabel)) (s : Queues) : Prop where
  /-- A subscription counts the drops since its last admitted event, up to the largest word. -/
  count : ∀ i sub, s.sub i = some sub →
    sub.dropped.toNat = min (2 ^ 32 - 1) (droppedSinceAdmitted i hist)
  /-- A ring has one subscription with a given cookie. -/
  keys : ∀ i j sub sub', s.sub i = some sub → s.sub j = some sub' → sub.ring = sub'.ring →
    sub.userData = sub'.userData → i = j
  /-- The ring of a subscription is in use. -/
  rings : ∀ i sub, s.sub i = some sub → (s.table.rings sub.ring).inUse = true

theorem bump_toNat {n : UInt32} {k : Nat} (h : n.toNat = min (2 ^ 32 - 1) k) :
    (bump n).toNat = min (2 ^ 32 - 1) (k + 1) := by
  unfold bump
  split
  · rename_i hmax
    rw [hmax] at h ⊢
    have hval : (0xFFFFFFFF : UInt32).toNat = 2 ^ 32 - 1 := rfl
    omega
  · rename_i hmax
    have hlt : n.toNat ≠ 2 ^ 32 - 1 := by
      intro heq
      exact hmax (UInt32.toNat_inj.mp heq)
    have hbound := n.toNat_lt
    rw [UInt32.toNat_add, show (1 : UInt32).toNat = 1 from rfl, Nat.mod_eq_of_lt (by omega)]
    omega

theorem cqPost_inUse (rt : RingTable) (ram : Ram) (id : RingId) (userData status : Nat)
    (dropIfFull : Bool) (j : RingId) :
    ((rt.cqPost ram id userData status dropIfFull).2.1.rings j).inUse = (rt.rings j).inUse := by
  unfold RingTable.cqPost
  dsimp only
  split
  · rfl
  · split
    · rfl
    · unfold RingTable.setRing
      dsimp only
      by_cases hj : j = id
      · rw [hj, Function.update_self]
      · rw [Function.update_of_ne hj]

theorem deliverOne_inUse (source : Nat) (event : UInt32) (d : RingTable.Delivery) (i : Nat)
    (j : RingId) :
    ((RingTable.deliverOne source event d i).1.rings j).inUse = (d.1.rings j).inUse := by
  unfold RingTable.deliverOne
  cases d.1.subs.getD i none with
  | none => rfl
  | some sub =>
    dsimp only
    split
    · rfl
    · exact cqPost_inUse ..

/-- A ring stays in use, unless it is released. Then no subscription of it is left. -/
theorem inUse_next (hnext : s.step ℓ = some t) {id : RingId}
    (huse : (s.table.rings id).inUse = true) (hsub : t.sub i = some sub') (hring : sub'.ring = id) :
    (t.table.rings id).inUse = true := by
  cases ℓ with
  | register id' owner sqPhys cqPhys mask =>
    change (if (s.table.rings id').inUse then none else some (⟨s.table.setRing id'
      ⟨true, owner, sqPhys, cqPhys, mask, 0, 0, false⟩,
        clearHeader (clearHeader s.ram sqPhys mask) cqPhys mask⟩ : Queues)) = some t at hnext
    split at hnext
    · cases hnext
    · rw [Option.some.injEq] at hnext
      rw [← hnext]
      unfold RingTable.setRing
      dsimp only
      by_cases hid : id = id'
      · rw [hid, Function.update_self]
      · rw [Function.update_of_ne hid]
        exact huse
  | subscribe source id' userData =>
    change (if (s.table.rings id').inUse then
      some (⟨(s.table.subscribe source id' userData).getD s.table, s.ram⟩ : Queues) else none)
        = some t at hnext
    split at hnext
    · rw [Option.some.injEq] at hnext
      rw [← hnext]
      dsimp only
      rw [subscribe_rings]
      exact huse
    · cases hnext
  | cancel id' userData =>
    cases hnext
    dsimp only
    unfold RingTable.cancel
    split
    · exact huse
    · exact huse
  | release id' =>
    cases hnext
    have hmem := sub_mem hsub
    unfold RingTable.release at hmem
    obtain ⟨o, -, ho⟩ := List.mem_map.mp hmem
    have hne : sub'.ring ≠ id' := by
      cases o with
      | none => cases ho
      | some old =>
        dsimp only at ho
        split at ho
        · cases ho
        · rename_i hother
          rw [Option.some.injEq] at ho
          rw [← ho]
          exact hother
    unfold RingTable.release RingTable.setRing
    dsimp only
    rw [hring] at hne
    rw [Function.update_of_ne hne]
    exact huse
  | complete id' userData status =>
    cases hnext
    exact (cqPost_inUse ..).trans huse
  | deliver source input record =>
    cases hnext
    exact (deliverOne_inUse ..).trans huse
  | memory ram =>
    cases hnext
    exact huse

/-- Every operation keeps the tally. -/
theorem Tallied.step {hist : List (Queues × QueueLabel)} (h : Tallied hist s)
    (hnext : s.step ℓ = some t) : Tallied ((s, ℓ) :: hist) t := by
  have hold : ∀ i sub, t.sub i = some sub → s.arms ℓ i = false →
      ∃ old, s.sub i = some old ∧ sub.ring = old.ring ∧ sub.userData = old.userData := by
    intro i sub hsub harms
    cases sub_next hnext i with
    | armed source id userData harms' huse hnew hsub' =>
      rw [harms'] at harms
      cases harms
    | event old harms' hhits hold hsub' =>
      rw [hsub', Option.some.injEq] at hsub
      exact ⟨old, hold, by rw [← hsub], by rw [← hsub]⟩
    | stays harms' hhits hsub' =>
      rcases hsub' with hsame | hnone
      · exact ⟨sub, hsame.symm.trans hsub, rfl, rfl⟩
      · rw [hnone] at hsub
        cases hsub
  refine ⟨fun i sub hsub => ?_, fun i j sub sub' hi hj hring hdata => ?_, fun i sub hsub => ?_⟩
  · unfold droppedSinceAdmitted
    cases sub_next hnext i with
    | armed source id userData harms huse hnew hsub' =>
      rw [hsub', Option.some.injEq] at hsub
      rw [if_pos harms, ← hsub]
      rfl
    | event old harms hhits hold hsub' =>
      rw [hsub', Option.some.injEq] at hsub
      rw [if_neg (by rw [harms]; exact Bool.false_ne_true), if_pos hhits, ← hsub]
      dsimp only
      split
      · rfl
      · exact bump_toNat (h.count i old hold)
    | stays harms hhits hsub' =>
      rw [if_neg (by rw [harms]; exact Bool.false_ne_true),
        if_neg (by rw [hhits]; exact Bool.false_ne_true)]
      rcases hsub' with hsame | hnone
      · exact h.count i sub (hsame.symm.trans hsub)
      · rw [hnone] at hsub
        cases hsub
  · -- Two subscriptions with one key were there before, or one was just armed with a new key.
    have hnew : ∀ {i j : Nat} {sub sub' : Subscription}, t.sub i = some sub → t.sub j = some sub' →
        s.arms ℓ i = true → s.arms ℓ j = false → sub.ring = sub'.ring →
          sub.userData ≠ sub'.userData := by
      intro i j sub sub' hi hj harms harms' hring
      obtain ⟨old, hold', hring', hdata'⟩ := hold j sub' hj harms'
      cases sub_next hnext i with
      | armed source id userData harmsi huse hnew hsub' =>
        rw [hsub', Option.some.injEq] at hi
        rw [hdata', ← hi]
        refine (hnew j old hold' ?_).symm
        rw [← hring', ← hring, ← hi]
      | event old' harmsi hhits hold' hsub' =>
        rw [harmsi] at harms
        cases harms
      | stays harmsi hhits hsub' =>
        rw [harmsi] at harms
        cases harms
    cases harmsi : s.arms ℓ i with
    | true =>
      cases harmsj : s.arms ℓ j with
      | true => exact arms_unique harmsi harmsj
      | false => exact absurd hdata (hnew hi hj harmsi harmsj hring)
    | false =>
      cases harmsj : s.arms ℓ j with
      | true => exact absurd hdata.symm (hnew hj hi harmsj harmsi hring.symm)
      | false =>
        obtain ⟨old, hold', hring₁, hdata₁⟩ := hold i sub hi harmsi
        obtain ⟨old', hold'', hring₂, hdata₂⟩ := hold j sub' hj harmsj
        exact h.keys i j old old' hold' hold'' (hring₁.symm.trans (hring.trans hring₂))
          (hdata₁.symm.trans (hdata.trans hdata₂))
  · cases harms : s.arms ℓ i with
    | true =>
      cases sub_next hnext i with
      | armed source id userData harms' huse hnew hsub' =>
        rw [hsub', Option.some.injEq] at hsub
        rw [← hsub]
        exact huse
      | event old harms' hhits hold hsub' =>
        rw [harms'] at harms
        cases harms
      | stays harms' hhits hsub' =>
        rw [harms'] at harms
        cases harms
    | false =>
      obtain ⟨old, hold', hring, -⟩ := hold i sub hsub harms
      have huse := h.rings i old hold'
      rw [hring]
      exact inUse_next hnext huse hsub hring

theorem tallied_of_run {hist : List (Queues × QueueLabel)} (run : Run system always hist s) :
    Tallied hist s := by
  induction run with
  | @start s hinit =>
    have hnone : ∀ i sub, s.sub i ≠ some sub := fun i sub hsub => hinit.subs sub (sub_mem hsub)
    exact ⟨fun i sub hsub => absurd hsub (hnone i sub),
      fun i j sub sub' hsub => absurd hsub (hnone i sub),
        fun i sub hsub => absurd hsub (hnone i sub)⟩
  | step run guard hnext ih => exact ih.step hnext

/-- Without an event admitted after a drop, the drops since the last admitted event are all
drops. -/
theorem droppedSince_eq {hist : List (Queues × QueueLabel)} (h : recovered i hist = false) :
    droppedSinceAdmitted i hist = droppedSinceArmed i hist := by
  induction hist with
  | nil => rfl
  | cons e hist ih =>
    obtain ⟨s, ℓ⟩ := e
    unfold recovered at h
    unfold droppedSinceAdmitted droppedSinceArmed
    cases harms : s.arms ℓ i with
    | true => rfl
    | false =>
      simp only [harms, Bool.not_false, Bool.true_and, Bool.or_eq_false_iff] at h
      obtain ⟨hrec, hlate⟩ := h
      have hsame := ih hrec
      cases hhits : s.hits ℓ i with
      | false => simpa using hsame
      | true =>
        cases hadmits : s.admits i with
        | false => simpa using hsame
        | true =>
          simp only [hhits, hadmits, Bool.true_and, decide_eq_false_iff_not] at hlate
          simp
          omega

/-- With one, they are fewer. -/
theorem droppedSince_lt {hist : List (Queues × QueueLabel)} (h : recovered i hist = true) :
    droppedSinceAdmitted i hist < droppedSinceArmed i hist := by
  induction hist with
  | nil => cases h
  | cons e hist ih =>
    obtain ⟨s, ℓ⟩ := e
    unfold recovered at h
    unfold droppedSinceAdmitted droppedSinceArmed
    cases harms : s.arms ℓ i with
    | true => simp [harms] at h
    | false =>
      simp only [harms, Bool.not_false, Bool.true_and, Bool.or_eq_true] at h
      cases hhits : s.hits ℓ i with
      | false =>
        simp only [hhits, Bool.false_and, Bool.false_eq_true, or_false] at h
        simpa using ih h
      | true =>
        cases hadmits : s.admits i with
        | false =>
          simp only [hhits, hadmits, Bool.and_false, Bool.false_and, Bool.false_eq_true,
            or_false] at h
          simpa using ih h
        | true =>
          simp only [hhits, hadmits, Bool.true_and, decide_eq_true_eq] at h
          simp
          rcases h with hrec | hlate
          · have hlt := ih hrec
            omega
          · exact hlate

/-- `ring_dropped` answers with the count of the subscription that has the cookie. -/
theorem Tallied.query {hist : List (Queues × QueueLabel)} (h : Tallied hist s) (id : RingId)
    (userData : Nat) (n : UInt32) :
    s.table.dropped id userData = some n ↔
      ∃ i sub, s.sub i = some sub ∧ sub.ring = id ∧ sub.userData = userData ∧ sub.dropped = n := by
  have hkey : ∀ {i : Nat} {hlen : i < s.table.subs.length},
      RingTable.isSub id userData s.table.subs[i] = true →
        ∃ sub, s.sub i = some sub ∧ sub.ring = id ∧ sub.userData = userData := by
    intro i hlen hsub
    cases hget : s.table.subs[i] with
    | none =>
      rw [hget] at hsub
      cases hsub
    | some sub =>
      rw [hget] at hsub
      simp only [RingTable.isSub, Bool.and_eq_true, beq_iff_eq] at hsub
      refine ⟨sub, ?_, hsub.1, hsub.2⟩
      unfold Queues.sub
      rw [List.getD_eq_getElem s.table.subs none hlen, hget]
  unfold RingTable.dropped
  constructor
  · intro hdropped
    cases hfind : s.table.subs.findIdx? (RingTable.isSub id userData) with
    | none =>
      rw [hfind] at hdropped
      cases hdropped
    | some i =>
      rw [hfind] at hdropped
      obtain ⟨hlen, hsub, -⟩ := List.findIdx?_eq_some_iff_getElem.mp hfind
      obtain ⟨sub, hi, hring, hdata⟩ := hkey hsub
      have hi' : s.table.subs.getD i none = some sub := hi
      dsimp only at hdropped
      rw [hi', Option.map_some, Option.some.injEq] at hdropped
      exact ⟨i, sub, hi, hring, hdata, hdropped⟩
  · rintro ⟨i, sub, hi, rfl, rfl, rfl⟩
    cases hfind : s.table.subs.findIdx? (RingTable.isSub sub.ring sub.userData) with
    | none =>
      have hno := List.findIdx?_eq_none_iff.mp hfind _ (sub_mem hi)
      simp [RingTable.isSub] at hno
    | some j =>
      obtain ⟨hlen, hsub, -⟩ := List.findIdx?_eq_some_iff_getElem.mp hfind
      obtain ⟨sub', hj, hring, hdata⟩ := hkey hsub
      obtain rfl := h.keys j i sub' sub hj hi hring hdata
      have hi' : s.table.subs.getD j none = some sub := hi
      dsimp only
      rw [hi']
      rfl

/-- What the drop counts and the drop flags say after the history `hist`. -/
structure DropsCounted (hist : List (Queues × QueueLabel)) (s : Queues) : Prop where
  /-- `ring_dropped` answers for the armed subscriptions. -/
  query : ∀ id userData n, s.table.dropped id userData = some n ↔
    ∃ i sub, s.sub i = some sub ∧ sub.ring = id ∧ sub.userData = userData ∧ sub.dropped = n
  /-- The answer is the number of drops since the subscription was armed, if and only if no event
  was admitted after a drop, and the number fits a word. -/
  exact : ∀ i sub, s.sub i = some sub →
    (sub.dropped.toNat = droppedSinceArmed i hist ↔
      recovered i hist = false ∧ droppedSinceArmed i hist < 2 ^ 32)
  /-- An admitted event has the drop flag, if and only if one was dropped since the previous
  admitted event. -/
  flag : ∀ i sub source input t, s.sub i = some sub → sub.source = source →
    s.admits i = true → s.step (.deliver source input i) = some t →
      (t.table.rings sub.ring).cqTail = (s.table.rings sub.ring).cqTail + 1 ∧
      (t.statusAt sub.ring (s.table.rings sub.ring).cqTail &&& eventDropped ≠ 0 ↔
        0 < droppedSinceAdmitted i hist)

theorem accepts_of_hasRoom {id : RingId} (huse : (s.table.rings id).inUse = true)
    (h : s.hasRoom id = true) : s.accepts id true := by
  refine ⟨huse, fun _ hfull => ?_⟩
  unfold hasRoom RingTable.cqPost at h
  dsimp only at h
  rw [if_neg (by rw [huse]; exact Bool.noConfusion)] at h
  rw [if_pos ?_] at h
  · cases h
  · simp only [Bool.true_and, decide_eq_true_eq]
    exact hfull

/-- The delivery to a subscription posts to its ring. -/
theorem deliver_posts {source : Nat} {input : Input} {sub : Subscription}
    (hsub : s.sub i = some sub) (hsource : sub.source = source)
    (hnext : s.step (.deliver source input i) = some t) :
    (∀ id, t.table.rings id = ((s.post sub.ring sub.userData
      (if 0 < sub.dropped then input.event.pack ||| eventDropped else input.event.pack).toNat
        true).table.rings id)) ∧
    t.ram = (s.post sub.ring sub.userData
      (if 0 < sub.dropped then input.event.pack ||| eventDropped else input.event.pack).toNat
        true).ram := by
  have hget : s.table.subs.getD i none = some sub := hsub
  change some (⟨(RingTable.deliverOne source input.event.pack (s.table, s.ram, []) i).1,
    (RingTable.deliverOne source input.event.pack (s.table, s.ram, []) i).2.1⟩ : Queues)
      = some t at hnext
  rw [Option.some.injEq] at hnext
  subst hnext
  unfold RingTable.deliverOne
  dsimp only
  rw [hget]
  dsimp only
  rw [if_neg (not_not.mpr hsource)]
  exact ⟨fun _ => rfl, rfl⟩

end

/-! ### A small ring -/

/-- No ring is in use, and memory is clear. -/
def idle : Queues := ⟨⟨fun _ => Ring.empty, List.replicate maxSubs none⟩, fun _ => 0⟩

theorem idle_fresh : idle.Fresh where
  subs := fun _ hsub => nomatch List.eq_of_mem_replicate hsub
  rings := fun _ => rfl

/-- A ring of one entry gets an event, and drops the next one. -/
def dropRun : List QueueLabel :=
  [.register 0 0 frameSize (2 * frameSize) 0, .subscribe 0 0 7, .deliver 0 (.key 30) 0,
    .deliver 0 (.key 31) 0]

/-- Then the owner reaps, and another event is admitted. -/
def recoveredRun : List QueueLabel :=
  dropRun ++ [.memory ((system.runFrom idle dropRun).ram.w32 (2 * frameSize + hdrHead) 1),
    .deliver 0 (.key 32) 0]

end Queues

end Plinth
