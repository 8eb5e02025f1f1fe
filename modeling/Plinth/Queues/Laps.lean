import Plinth.Queues.Drops

/-!
# `Plinth.Queues.Laps`: a completion queue as a FIFO

The kernel posts completions at the tail of a queue, and the owner reaps them at the head. An event
is posted only if it finds room, but a block completion is posted without a look at the head. So
the queue can be lapped: `lapRun` fills a ring with an event, and the completion of the only block
request overwrites it.

`queues_intact` says what is true otherwise. If every block completion finds room, and no other
ring uses the frame of the queue, the queue holds what was posted and not reaped, in order and at
its index. It never holds more than it has entries.
-/

set_option autoImplicit false

namespace Plinth

open Transition

namespace Queues

variable {s t : Queues} {ℓ : QueueLabel} {id id' : RingId} {dropIfFull : Bool}

/-! ### Indices -/

/-- The ring has a size that `ring_register` accepts. -/
def Sized (mask : UInt32) : Prop := ∃ k, k ≤ 6 ∧ mask.toNat + 1 = 2 ^ k

/-- The entry that an index selects. -/
theorem index_and {mask : UInt32} (h : Sized mask) (j : Nat) :
    (UInt32.ofNat j &&& mask).toNat = j % (mask.toNat + 1) := by
  obtain ⟨k, hk, hmask⟩ := h
  rw [UInt32.toNat_and, show mask.toNat = 2 ^ k - 1 by omega, Nat.and_two_pow_sub_one_eq_mod,
    UInt32.toNat_ofNat', Nat.mod_mod_of_dvd _ (Nat.pow_dvd_pow 2 (by omega)),
    Nat.sub_add_cancel Nat.one_le_two_pow]

/-- Two indices that are less than a lap apart select different entries. -/
theorem index_ne {mask : UInt32} (h : Sized mask) {i j : Nat} (hij : i < j)
    (hlap : j < i + (mask.toNat + 1)) :
    (UInt32.ofNat i &&& mask).toNat ≠ (UInt32.ofNat j &&& mask).toNat := by
  rw [index_and h, index_and h]
  intro heq
  have hdvd : mask.toNat + 1 ∣ j - i :=
    (Nat.dvd_iff_mod_eq_zero).mpr (Nat.sub_mod_eq_zero_of_mod_eq heq.symm)
  have hle := Nat.le_of_dvd (by omega) hdvd
  omega

theorem Sized.lt {mask : UInt32} (h : Sized mask) : mask.toNat < maxEntries := by
  obtain ⟨k, hk, hmask⟩ := h
  have hle : 2 ^ k ≤ 2 ^ 6 := Nat.pow_le_pow_right (by omega) hk
  unfold maxEntries
  omega

/-- The difference of two indices that are close. -/
theorem ofNat_sub {i j : Nat} (hij : i ≤ j) (hclose : j - i < 2 ^ 32) :
    (UInt32.ofNat j - UInt32.ofNat i).toNat = j - i := by
  rw [UInt32.toNat_sub, UInt32.toNat_ofNat', UInt32.toNat_ofNat']
  omega

/-! ### The queue as a FIFO -/

/-- The queue of the ring `id` holds the completions `log` from number `reaped` on. -/
structure Holds (s : Queues) (id : RingId) (log : List (Nat × UInt32)) (reaped : Nat) : Prop where
  tail : (s.table.rings id).cqTail = UInt32.ofNat log.length
  head : s.ram.r32 ((s.table.rings id).cqPhys + hdrHead) = UInt32.ofNat reaped
  le : reaped ≤ log.length
  /-- There are no more of them than entries. -/
  bound : log.length ≤ reaped + ((s.table.rings id).mask.toNat + 1)
  /-- Each one is in the entry of its index. -/
  entries : ∀ j c, reaped ≤ j → log[j]? = some c →
    s.cookieAt id (UInt32.ofNat j) = c.1 ∧ s.statusAt id (UInt32.ofNat j) = c.2

/-- The number of unreaped completions is what the kernel computes. -/
theorem Holds.unreaped {log : List (Nat × UInt32)} {reaped : Nat} (h : s.Holds id log reaped)
    (hsize : Sized (s.table.rings id).mask) :
    (s.unreaped id).toNat = log.length - reaped := by
  have hbound := h.bound
  have hlt := hsize.lt
  unfold maxEntries at hlt
  unfold Queues.unreaped
  rw [h.tail, h.head, ofNat_sub h.le (by omega)]

/-- The ring keeps its place, and the bytes of its queue keep their values. -/
structure SameQueue (s t : Queues) (id : RingId) : Prop where
  cqPhys : (t.table.rings id).cqPhys = (s.table.rings id).cqPhys
  mask : (t.table.rings id).mask = (s.table.rings id).mask
  cqTail : (t.table.rings id).cqTail = (s.table.rings id).cqTail
  bytes : ∀ a, (s.table.rings id).cqPhys ≤ a → a < (s.table.rings id).cqPhys + frameSize →
    t.ram a = s.ram a

theorem SameQueue.entryAt (h : SameQueue s t id) (i : UInt32) :
    t.entryAt id i = s.entryAt id i := by
  unfold Queues.entryAt
  rw [h.cqPhys, h.mask]

theorem entryAt_bounds (hsize : Sized (s.table.rings id).mask) (i : UInt32) :
    (s.table.rings id).cqPhys + ringHdrSize ≤ s.entryAt id i ∧
      s.entryAt id i + cqEntrySize ≤ (s.table.rings id).cqPhys + frameSize := by
  have hle : (i &&& (s.table.rings id).mask).toNat ≤ (s.table.rings id).mask.toNat := by
    rw [UInt32.toNat_and]
    exact Nat.and_le_right
  have hlt := hsize.lt
  unfold Queues.entryAt
  unfold maxEntries at hlt
  unfold ringHdrSize cqEntrySize frameSize
  omega

/-- A queue that keeps its bytes holds what it held. -/
theorem Holds.same {log : List (Nat × UInt32)} {reaped : Nat} (h : s.Holds id log reaped)
    (hsize : Sized (s.table.rings id).mask) (hsame : SameQueue s t id) :
    t.Holds id log reaped := by
  refine ⟨hsame.cqTail.trans h.tail, ?_, h.le, ?_, fun j c hj hc => ?_⟩
  · rw [hsame.cqPhys, ← h.head]
    refine Ram.r32_congr fun i hi => hsame.bytes _ (by omega) ?_
    unfold hdrHead frameSize
    omega
  · rw [hsame.mask]
    exact h.bound
  · obtain ⟨hcookie, hstatus⟩ := h.entries j c hj hc
    obtain ⟨hlow, hhigh⟩ := entryAt_bounds hsize (UInt32.ofNat j)
    unfold ringHdrSize at hlow
    unfold cqEntrySize at hhigh
    constructor
    · rw [← hcookie]
      unfold cookieAt
      rw [hsame.entryAt]
      exact Ram.r64_congr fun i hi => hsame.bytes _ (by omega) (by omega)
    · rw [← hstatus]
      unfold statusAt
      rw [hsame.entryAt]
      exact Ram.r32_congr fun i hi => hsame.bytes _ (by omega) (by omega)

/-! ### Posts -/

theorem post_rings_of_ne (userData status : Nat) (dropIfFull : Bool) (hne : id' ≠ id) :
    (s.post id userData status dropIfFull).table.rings id' = s.table.rings id' := by
  by_cases h : s.accepts id dropIfFull
  · unfold post
    rw [post_eq userData status h]
    unfold RingTable.setRing
    dsimp only
    rw [Function.update_of_ne hne]
  · rw [post_of_not userData status h]

theorem post_ring (userData status : Nat) (dropIfFull : Bool) :
    ((s.post id userData status dropIfFull).table.rings id).cqPhys = (s.table.rings id).cqPhys ∧
      ((s.post id userData status dropIfFull).table.rings id).mask = (s.table.rings id).mask := by
  by_cases h : s.accepts id dropIfFull
  · unfold post
    rw [post_eq userData status h]
    unfold RingTable.setRing
    dsimp only
    rw [Function.update_self]
    exact ⟨rfl, rfl⟩
  · rw [post_of_not userData status h]
    exact ⟨rfl, rfl⟩

/-- A post writes the entry of the tail and the tail word. -/
theorem post_bytes (userData status : Nat) {a : Nat}
    (hentry : a < s.entryAt id (s.table.rings id).cqTail ∨
      s.entryAt id (s.table.rings id).cqTail + cqEntrySize ≤ a)
    (htail : a < (s.table.rings id).cqPhys + hdrTail ∨
      (s.table.rings id).cqPhys + hdrTail + 4 ≤ a) :
    (s.post id userData status dropIfFull).ram a = s.ram a := by
  by_cases h : s.accepts id dropIfFull
  · unfold post
    rw [post_eq userData status h]
    dsimp only
    unfold cqEntrySize at hentry
    rw [Ram.w32_of_outside _ _ _ htail, Ram.w32_of_outside _ _ _ (by omega),
      Ram.w32_of_outside _ _ _ (by omega), Ram.w64_of_outside _ _ _ (by omega)]
  · rw [post_of_not userData status h]

/-- A post to another ring, in another frame. -/
theorem post_sameQueue (userData status : Nat) (dropIfFull : Bool) (hne : id' ≠ id)
    (hsize : Sized (s.table.rings id).mask)
    (hapart : Apart (s.table.rings id').cqPhys (s.table.rings id).cqPhys) :
    SameQueue s (s.post id userData status dropIfFull) id' := by
  have hring := post_rings_of_ne (s := s) userData status dropIfFull hne
  refine ⟨by rw [hring], by rw [hring], by rw [hring], fun a hlow hhigh => ?_⟩
  obtain ⟨hfirst, hlast⟩ := entryAt_bounds hsize (s.table.rings id).cqTail
  unfold Apart at hapart
  refine post_bytes userData status ?_ ?_
  · unfold ringHdrSize at hfirst
    omega
  · unfold hdrTail
    unfold frameSize at hapart hhigh
    omega

/-- An admitted completion is appended, if there is room for it. -/
theorem Holds.post {log : List (Nat × UInt32)} {reaped : Nat} (h : s.Holds id log reaped)
    (hsize : Sized (s.table.rings id).mask) (userData status : Nat)
    (haccepts : s.accepts id dropIfFull)
    (hroom : ¬ (s.table.rings id).mask + 1 ≤ s.unreaped id) :
    (s.post id userData status dropIfFull).Holds id
      (log ++ [(userData % 2 ^ 64, UInt32.ofNat status)]) reaped := by
  have hring : ((s.post id userData status dropIfFull).table.rings id).cqPhys
        = (s.table.rings id).cqPhys ∧
      ((s.post id userData status dropIfFull).table.rings id).mask = (s.table.rings id).mask :=
    post_ring userData status dropIfFull
  obtain ⟨hphys, hmask⟩ := hring
  obtain ⟨htail, hcookie, hstatus⟩ := post_written userData status haccepts
  have hfew : log.length < reaped + ((s.table.rings id).mask.toNat + 1) := by
    have hcount := h.unreaped hsize
    have hlt := hsize.lt
    unfold maxEntries at hlt
    rw [UInt32.not_le, UInt32.lt_iff_toNat_lt, hcount, UInt32.toNat_add,
      show (1 : UInt32).toNat = 1 from rfl, Nat.mod_eq_of_lt (by omega)] at hroom
    omega
  have hbounds := fun i => entryAt_bounds hsize i
  have hentry : ∀ i, (s.post id userData status dropIfFull).entryAt id i = s.entryAt id i := by
    intro i
    unfold Queues.entryAt
    rw [hphys, hmask]
  refine ⟨?_, ?_, ?_, ?_, fun j c hj hc => ?_⟩
  · rw [htail, h.tail, List.length_append, List.length_singleton, UInt32.ofNat_add]
    rfl
  · rw [hphys, ← h.head]
    refine Ram.r32_congr fun i hi => post_bytes userData status ?_ ?_
    · have hfirst := (hbounds (s.table.rings id).cqTail).1
      unfold ringHdrSize at hfirst
      unfold hdrHead
      omega
    · unfold hdrHead hdrTail
      omega
  · rw [List.length_append]
    exact Nat.le_add_right_of_le h.le
  · rw [hmask, List.length_append, List.length_singleton]
    omega
  · by_cases hold : j < log.length
    · rw [List.getElem?_append_left hold] at hc
      obtain ⟨hcookie', hstatus'⟩ := h.entries j c hj hc
      -- The entry of an unreaped completion is not the one that is written.
      have hne := index_ne hsize hold (by omega)
      have hapart : s.entryAt id (UInt32.ofNat j) + cqEntrySize
            ≤ s.entryAt id (s.table.rings id).cqTail ∨
          s.entryAt id (s.table.rings id).cqTail + cqEntrySize
            ≤ s.entryAt id (UInt32.ofNat j) := by
        rw [h.tail]
        unfold Queues.entryAt cqEntrySize
        omega
      have hkept : ∀ a, s.entryAt id (UInt32.ofNat j) ≤ a →
          a < s.entryAt id (UInt32.ofNat j) + cqEntrySize →
            (s.post id userData status dropIfFull).ram a = s.ram a := by
        intro a hlow hhigh
        refine post_bytes userData status (by omega) ?_
        have hfirst := (hbounds (UInt32.ofNat j)).1
        unfold ringHdrSize at hfirst
        unfold hdrTail
        omega
      unfold cqEntrySize at hkept
      constructor
      · rw [← hcookie']
        unfold cookieAt
        rw [hentry]
        exact Ram.r64_congr fun i hi => hkept _ (by omega) (by omega)
      · rw [← hstatus']
        unfold statusAt
        rw [hentry]
        exact Ram.r32_congr fun i hi => hkept _ (by omega) (by omega)
    · have hlast : j = log.length := by
        have hlen := (List.getElem?_eq_some_iff.mp hc).1
        rw [List.length_append, List.length_singleton] at hlen
        omega
      rw [hlast, List.getElem?_append_right (Nat.le_refl _), Nat.sub_self] at hc
      simp only [List.getElem?_cons_zero, Option.some.injEq] at hc
      rw [hlast, ← hc, ← h.tail]
      exact ⟨hcookie, hstatus⟩

/-! ### Runs -/

/-- The owner of the ring reaps completions that are there, and leaves the entries alone. -/
structure Reaps (s : Queues) (ram : Ram) (id : RingId) : Prop where
  head : ram.r32 ((s.table.rings id).cqPhys + hdrHead)
    - s.ram.r32 ((s.table.rings id).cqPhys + hdrHead) ≤ s.unreaped id
  entries : ∀ a, (s.table.rings id).cqPhys + ringHdrSize ≤ a →
    a < (s.table.rings id).cqPhys + frameSize → ram a = s.ram a

/-- A ring has a size that `ring_register` accepts, and no other ring uses the frame of its
queue. The owners reap. -/
def orderly (s : Queues) : QueueLabel → Prop
  | .register _ _ sqPhys cqPhys mask =>
    Sized mask ∧ Apart sqPhys cqPhys ∧ ∀ j, (s.table.rings j).inUse = true →
      Apart sqPhys (s.table.rings j).cqPhys ∧ Apart cqPhys (s.table.rings j).cqPhys
  | .memory ram => ∀ j, (s.table.rings j).inUse = true → Reaps s ram j
  | _ => True

/-- A block completion finds room in its queue. -/
def roomFor (s : Queues) : QueueLabel → Prop
  | .complete id _ _ =>
    (s.table.rings id).inUse = true → ¬ (s.table.rings id).mask + 1 ≤ s.unreaped id
  | _ => True

/-- The guard of the runs in which the owners reap, and every block completion finds room. -/
def keepsUp (s : Queues) (ℓ : QueueLabel) : Prop := s.orderly ℓ ∧ s.roomFor ℓ

/-- The word of an event for the subscription, with the drop flag if it dropped one. -/
def eventWord (sub : Subscription) (input : Input) : UInt32 :=
  if 0 < sub.dropped then input.event.pack ||| eventDropped else input.event.pack

/-- The completions that an operation posts to the ring `id`. -/
def posts (s : Queues) (ℓ : QueueLabel) (id : RingId) : List (Nat × UInt32) :=
  match ℓ with
  | .complete id' userData status =>
    if id' = id then [(userData % 2 ^ 64, UInt32.ofNat status)] else []
  | .deliver source input record =>
    match s.sub record with
    | some sub =>
      if sub.source = source ∧ sub.ring = id ∧ s.hasRoom id = true then
        [(sub.userData % 2 ^ 64, eventWord sub input)]
      else []
    | none => []
  | _ => []

/-- The completions posted to the ring `id` since it was registered. -/
def admitted (id : RingId) : List (Queues × QueueLabel) → List (Nat × UInt32)
  | [] => []
  | (s, ℓ) :: hist =>
    match ℓ with
    | .register id' .. => if id' = id then [] else admitted id hist
    | _ => admitted id hist ++ s.posts ℓ id

/-- How many of them its owner reaped. -/
def reaped (id : RingId) : List (Queues × QueueLabel) → Nat
  | [] => 0
  | (s, ℓ) :: hist =>
    match ℓ with
    | .register id' .. => if id' = id then 0 else reaped id hist
    | .memory ram =>
      reaped id hist + (ram.r32 ((s.table.rings id).cqPhys + hdrHead)
        - s.ram.r32 ((s.table.rings id).cqPhys + hdrHead)).toNat
    | _ => reaped id hist

/-- The completion queues after the history `hist`. -/
structure QueuesIntact (hist : List (Queues × QueueLabel)) (s : Queues) : Prop where
  sized : ∀ id, (s.table.rings id).inUse = true → Sized (s.table.rings id).mask
  apart : ∀ id id', (s.table.rings id).inUse = true → (s.table.rings id').inUse = true →
    id ≠ id' → Apart (s.table.rings id).cqPhys (s.table.rings id').cqPhys
  /-- What was posted and not reaped is in the queue, in order and at its index. -/
  holds : ∀ id, (s.table.rings id).inUse = true → s.Holds id (admitted id hist) (reaped id hist)
  /-- The kernel is never more than a lap ahead of the owner. -/
  unlapped : ∀ id, (s.table.rings id).inUse = true →
    (s.unreaped id).toNat ≤ (s.table.rings id).mask.toNat + 1

theorem Holds.unlapped {log : List (Nat × UInt32)} {n : Nat} (h : s.Holds id log n)
    (hsize : Sized (s.table.rings id).mask) :
    (s.unreaped id).toNat ≤ (s.table.rings id).mask.toNat + 1 := by
  have hbound := h.bound
  rw [h.unreaped hsize]
  omega

/-- Clearing a header writes its own bytes only. -/
theorem clearHeader_of_outside (ram : Ram) (base : Nat) (mask : UInt32) {a : Nat}
    (h : a < base ∨ base + ringHdrSize ≤ a) : clearHeader ram base mask a = ram a := by
  unfold ringHdrSize at h
  unfold clearHeader hdrHead hdrTail hdrMask
  rw [Ram.w32_of_outside _ _ _ (by omega), Ram.w32_of_outside _ _ _ (by omega),
    Ram.w32_of_outside _ _ _ (by omega), Ram.w32_of_outside _ _ _ (by omega)]

theorem clearHeader_head (ram : Ram) (base : Nat) (mask : UInt32) :
    (clearHeader ram base mask).r32 (base + hdrHead) = 0 := by
  unfold clearHeader hdrHead hdrTail hdrMask
  rw [Ram.r32_w32_of_apart _ _ (by omega), Ram.r32_w32_of_apart _ _ (by omega),
    Ram.r32_w32_of_apart _ _ (by omega), Ram.r32_w32]

/-- An operation that leaves the rings in their places and the queues alone, apart from what it
posts. -/
theorem QueuesIntact.keep {hist : List (Queues × QueueLabel)} (h : QueuesIntact hist s)
    (hrings : ∀ id, (t.table.rings id).inUse = true → (s.table.rings id).inUse = true ∧
      (t.table.rings id).cqPhys = (s.table.rings id).cqPhys ∧
      (t.table.rings id).mask = (s.table.rings id).mask)
    (hholds : ∀ id, (t.table.rings id).inUse = true →
      t.Holds id (admitted id ((s, ℓ) :: hist)) (reaped id ((s, ℓ) :: hist))) :
    QueuesIntact ((s, ℓ) :: hist) t := by
  have hsized : ∀ id, (t.table.rings id).inUse = true → Sized (t.table.rings id).mask := by
    intro id huse
    obtain ⟨huse', -, hmask⟩ := hrings id huse
    rw [hmask]
    exact h.sized id huse'
  refine ⟨hsized, fun id id' huse huse' hne => ?_, hholds, fun id huse =>
    (hholds id huse).unlapped (hsized id huse)⟩
  obtain ⟨hold, hphys, -⟩ := hrings id huse
  obtain ⟨hold', hphys', -⟩ := hrings id' huse'
  rw [hphys, hphys']
  exact h.apart id id' hold hold' hne

/-- A post, and the operations that post, keep the queues. -/
theorem QueuesIntact.posted {hist : List (Queues × QueueLabel)} (h : QueuesIntact hist s)
    {id : RingId} {userData status : Nat} (dropIfFull : Bool)
    (hroom : s.accepts id dropIfFull → ¬ (s.table.rings id).mask + 1 ≤ s.unreaped id)
    (huse : (s.table.rings id).inUse = true)
    (hrings : t.table.rings = (s.post id userData status dropIfFull).table.rings)
    (hram : t.ram = (s.post id userData status dropIfFull).ram)
    (hadmitted : ∀ j, admitted j ((s, ℓ) :: hist) = admitted j hist ++ s.posts ℓ j)
    (hreaped : ∀ j, reaped j ((s, ℓ) :: hist) = reaped j hist)
    (hother : ∀ j, j ≠ id → s.posts ℓ j = [])
    (hposts : (s.accepts id dropIfFull ∧
        s.posts ℓ id = [(userData % 2 ^ 64, UInt32.ofNat status)]) ∨
      ¬ s.accepts id dropIfFull ∧ s.posts ℓ id = []) : QueuesIntact ((s, ℓ) :: hist) t := by
  have hsame : ∀ j, SameQueue (s.post id userData status dropIfFull) t j := fun j =>
    ⟨by rw [hrings], by rw [hrings], by rw [hrings], fun a _ _ => by rw [hram]⟩
  have hplace : ∀ j, ((s.post id userData status dropIfFull).table.rings j).inUse
        = (s.table.rings j).inUse ∧
      ((s.post id userData status dropIfFull).table.rings j).cqPhys = (s.table.rings j).cqPhys ∧
      ((s.post id userData status dropIfFull).table.rings j).mask = (s.table.rings j).mask := by
    intro j
    refine ⟨cqPost_inUse .., ?_⟩
    by_cases hj : j = id
    · rw [hj]
      exact post_ring userData status dropIfFull
    · rw [post_rings_of_ne userData status dropIfFull hj]
      exact ⟨rfl, rfl⟩
  have hsizes : ∀ j, (s.table.rings j).inUse = true →
      Sized ((s.post id userData status dropIfFull).table.rings j).mask := by
    intro j hj
    rw [(hplace j).2.2]
    exact h.sized j hj
  refine h.keep (fun j hj => ?_) fun j hj => ?_
  · rw [hrings] at hj ⊢
    rw [(hplace j).1] at hj
    exact ⟨hj, (hplace j).2⟩
  · rw [hrings, (hplace j).1] at hj
    rw [hadmitted, hreaped]
    by_cases hid : j = id
    · subst hid
      rcases hposts with ⟨haccepts, hlist⟩ | ⟨hno, hlist⟩
      · rw [hlist]
        exact ((h.holds j hj).post (h.sized j hj) userData status haccepts
          (hroom haccepts)).same (hsizes j hj) (hsame j)
      · rw [hlist, List.append_nil]
        refine (h.holds j hj).same (h.sized j hj) ?_
        have hkept := hsame j
        rw [post_of_not userData status hno] at hkept
        exact hkept
    · rw [hother j hid, List.append_nil]
      have hquiet := post_sameQueue userData status dropIfFull hid
        (h.sized id huse) (h.apart j id hj huse hid)
      exact ((h.holds j hj).same (h.sized j hj) hquiet).same (hsizes j hj) (hsame j)

/-- An operation that posts nothing and leaves the queues in use alone. -/
theorem QueuesIntact.quiet {hist : List (Queues × QueueLabel)} (h : QueuesIntact hist s)
    (hrings : ∀ j, (t.table.rings j).inUse = true → t.table.rings j = s.table.rings j)
    (hram : t.ram = s.ram)
    (hadmitted : ∀ j, (t.table.rings j).inUse = true →
      admitted j ((s, ℓ) :: hist) = admitted j hist)
    (hreaped : ∀ j, reaped j ((s, ℓ) :: hist) = reaped j hist) :
    QueuesIntact ((s, ℓ) :: hist) t := by
  refine h.keep (fun j hj => ?_) fun j hj => ?_
  · have hsame := hrings j hj
    rw [hsame] at hj
    exact ⟨hj, by rw [hsame], by rw [hsame]⟩
  · have hsame := hrings j hj
    rw [hadmitted j hj, hreaped]
    rw [hsame] at hj
    exact (h.holds j hj).same (h.sized j hj)
      ⟨by rw [hsame], by rw [hsame], by rw [hsame], fun a _ _ => by rw [hram]⟩

theorem QueuesIntact.register {hist : List (Queues × QueueLabel)} (h : QueuesIntact hist s)
    {id : RingId} {owner : ProcSlot} {sqPhys cqPhys : Nat} {mask : UInt32}
    (hok : s.orderly (.register id owner sqPhys cqPhys mask)) :
    QueuesIntact ((s, .register id owner sqPhys cqPhys mask) :: hist)
      ⟨s.table.setRing id ⟨true, owner, sqPhys, cqPhys, mask, 0, 0, false⟩,
        clearHeader (clearHeader s.ram sqPhys mask) cqPhys mask⟩ := by
  obtain ⟨hsize, hframes, hothers⟩ := hok
  have hself : (s.table.setRing id ⟨true, owner, sqPhys, cqPhys, mask, 0, 0, false⟩).rings id
      = ⟨true, owner, sqPhys, cqPhys, mask, 0, 0, false⟩ := Function.update_self ..
  have hother : ∀ j, j ≠ id →
      (s.table.setRing id ⟨true, owner, sqPhys, cqPhys, mask, 0, 0, false⟩).rings j
        = s.table.rings j := fun j hj => Function.update_of_ne hj ..
  have hsized : ∀ j, ((s.table.setRing id ⟨true, owner, sqPhys, cqPhys, mask, 0, 0,
      false⟩).rings j).inUse = true → Sized ((s.table.setRing id ⟨true, owner, sqPhys, cqPhys,
        mask, 0, 0, false⟩).rings j).mask := by
    intro j hj
    by_cases hid : j = id
    · rw [hid, hself]
      exact hsize
    · rw [hother j hid] at hj ⊢
      exact h.sized j hj
  have hholds : ∀ j, ((s.table.setRing id ⟨true, owner, sqPhys, cqPhys, mask, 0, 0,
      false⟩).rings j).inUse = true → Holds ⟨s.table.setRing id ⟨true, owner, sqPhys, cqPhys,
        mask, 0, 0, false⟩, clearHeader (clearHeader s.ram sqPhys mask) cqPhys mask⟩ j
          (admitted j ((s, .register id owner sqPhys cqPhys mask) :: hist))
          (reaped j ((s, .register id owner sqPhys cqPhys mask) :: hist)) := by
    intro j hj
    unfold admitted reaped
    dsimp only
    by_cases hid : j = id
    · rw [if_pos hid.symm, if_pos hid.symm, hid]
      refine ⟨?_, ?_, Nat.le_refl _, by simp, fun i c _ hc => by simp at hc⟩
      · dsimp only
        rw [hself]
        rfl
      · dsimp only
        rw [hself]
        exact clearHeader_head ..
    · rw [if_neg (Ne.symm hid), if_neg (Ne.symm hid)]
      rw [hother j hid] at hj
      refine (h.holds j hj).same (h.sized j hj) ⟨by rw [hother j hid], by rw [hother j hid],
        by rw [hother j hid], fun a hlow hhigh => ?_⟩
      obtain ⟨hsq, hcq⟩ := hothers j hj
      unfold Apart at hsq hcq
      dsimp only
      unfold frameSize at hsq hcq hhigh
      rw [clearHeader_of_outside _ _ _ (by unfold ringHdrSize; omega),
        clearHeader_of_outside _ _ _ (by unfold ringHdrSize; omega)]
  refine ⟨hsized, fun j j' hj hj' hne => ?_, hholds, fun j hj => (hholds j hj).unlapped
    (hsized j hj)⟩
  dsimp only at hj hj' ⊢
  by_cases hid : j = id
  · have hid' : j' ≠ id := fun heq => hne (hid.trans heq.symm)
    rw [hother j' hid'] at hj' ⊢
    rw [hid, hself]
    exact (hothers j' hj').2
  · rw [hother j hid] at hj ⊢
    by_cases hid' : j' = id
    · rw [hid', hself]
      exact (hothers j hj).2.symm
    · rw [hother j' hid'] at hj' ⊢
      exact h.apart j j' hj hj' hne

theorem QueuesIntact.memory {hist : List (Queues × QueueLabel)} (h : QueuesIntact hist s)
    {ram : Ram} (hok : s.orderly (.memory ram)) :
    QueuesIntact ((s, .memory ram) :: hist) { s with ram } := by
  refine h.keep (fun j hj => ⟨hj, rfl, rfl⟩) fun j hj => ?_
  have hheld := h.holds j hj
  obtain ⟨hhead, hentries⟩ := hok j hj
  have hsize := h.sized j hj
  have hlt := hsize.lt
  unfold maxEntries at hlt
  have hcount := hheld.unreaped hsize
  have hle := hheld.le
  have hbound := hheld.bound
  rw [UInt32.le_iff_toNat_le, hcount] at hhead
  have hadmitted : admitted j ((s, .memory ram) :: hist) = admitted j hist := List.append_nil _
  have hreaped : reaped j ((s, .memory ram) :: hist) = reaped j hist +
      (ram.r32 ((s.table.rings j).cqPhys + hdrHead)
        - s.ram.r32 ((s.table.rings j).cqPhys + hdrHead)).toNat := rfl
  rw [hadmitted, hreaped]
  refine ⟨hheld.tail, ?_, by omega, ?_, fun i c hi hc => ?_⟩
  · dsimp only
    rw [UInt32.ofNat_add, ← hheld.head, UInt32.ofNat_toNat, UInt32.add_comm,
      UInt32.sub_add_cancel]
  · dsimp only
    omega
  · obtain ⟨hcookie, hstatus⟩ := hheld.entries i c (by omega) hc
    obtain ⟨hlow, hhigh⟩ := entryAt_bounds hsize (UInt32.ofNat i)
    unfold cqEntrySize at hhigh
    constructor
    · rw [← hcookie]
      exact Ram.r64_congr fun b hb => hentries _ (by
        change _ ≤ s.entryAt j (UInt32.ofNat i) + b
        omega) (by
        change s.entryAt j (UInt32.ofNat i) + b < _
        omega)
    · rw [← hstatus]
      exact Ram.r32_congr fun b hb => hentries _ (by
        change _ ≤ s.entryAt j (UInt32.ofNat i) + 8 + b
        omega) (by
        change s.entryAt j (UInt32.ofNat i) + 8 + b < _
        omega)

/-- The delivery to a record without a subscription of the source changes no ring. -/
theorem deliver_nothing {source record : Nat} {input : Input}
    (hnone : ∀ sub, s.sub record = some sub → sub.source ≠ source)
    (hnext : s.step (.deliver source input record) = some t) :
    t.table.rings = s.table.rings ∧ t.ram = s.ram := by
  change some (⟨(RingTable.deliverOne source input.event.pack (s.table, s.ram, []) record).1,
    (RingTable.deliverOne source input.event.pack (s.table, s.ram, []) record).2.1⟩ : Queues)
      = some t at hnext
  rw [Option.some.injEq] at hnext
  subst hnext
  unfold RingTable.deliverOne
  dsimp only
  cases hsub : s.table.subs.getD record none with
  | none => exact ⟨rfl, rfl⟩
  | some sub =>
    dsimp only
    rw [if_pos (hnone sub hsub)]
    exact ⟨rfl, rfl⟩

theorem hasRoom_iff (huse : (s.table.rings id).inUse = true) :
    s.hasRoom id = true ↔ s.accepts id true := by
  constructor
  · exact accepts_of_hasRoom huse
  · intro h
    unfold hasRoom
    rw [post_eq 0 0 h]

/-- A guarded operation keeps the queues. -/
theorem QueuesIntact.step {hist : List (Queues × QueueLabel)} (h : QueuesIntact hist s)
    (hsubs : ∀ i sub, s.sub i = some sub → (s.table.rings sub.ring).inUse = true)
    (hok : s.keepsUp ℓ) (hnext : s.step ℓ = some t) : QueuesIntact ((s, ℓ) :: hist) t := by
  obtain ⟨horderly, hroom⟩ := hok
  cases ℓ with
  | register id owner sqPhys cqPhys mask =>
    change (if (s.table.rings id).inUse then none else some (⟨s.table.setRing id
      ⟨true, owner, sqPhys, cqPhys, mask, 0, 0, false⟩,
        clearHeader (clearHeader s.ram sqPhys mask) cqPhys mask⟩ : Queues)) = some t at hnext
    split at hnext
    · cases hnext
    · rw [Option.some.injEq] at hnext
      rw [← hnext]
      exact h.register horderly
  | subscribe source id userData =>
    change (if (s.table.rings id).inUse then
      some (⟨(s.table.subscribe source id userData).getD s.table, s.ram⟩ : Queues) else none)
        = some t at hnext
    split at hnext
    · rw [Option.some.injEq] at hnext
      rw [← hnext]
      refine h.quiet (fun j _ => ?_) rfl (fun j _ => List.append_nil _) fun j => rfl
      rw [subscribe_rings]
    · cases hnext
  | cancel id userData =>
    cases hnext
    refine h.quiet (fun j _ => ?_) rfl (fun j _ => List.append_nil _) fun j => rfl
    dsimp only
    unfold RingTable.cancel
    split
    · rfl
    · rfl
  | release id =>
    cases hnext
    refine h.quiet (fun j hj => ?_) rfl (fun j _ => List.append_nil _) fun j => rfl
    unfold RingTable.release RingTable.setRing at hj ⊢
    dsimp only at hj ⊢
    by_cases hid : j = id
    · rw [hid, Function.update_self] at hj
      cases hj
    · rw [Function.update_of_ne hid]
  | complete id userData status =>
    cases hnext
    by_cases huse : (s.table.rings id).inUse = true
    · refine h.posted false (fun _ => hroom huse) huse rfl rfl (fun j => rfl)
        (fun j => rfl) (fun j hj => if_neg (Ne.symm hj)) (Or.inl ⟨⟨huse, fun h => ?_⟩, if_pos rfl⟩)
      cases h
    · have hnot : ¬ s.accepts id false := fun hacc => huse hacc.1
      have hsame := post_of_not userData status hnot
      have hne : ∀ j, (((s.post id userData status false).table).rings j).inUse = true →
        j ≠ id := by
        intro j hj hid
        rw [hsame, hid] at hj
        exact huse hj
      refine h.quiet (fun j _ => ?_) ?_ (fun j hj => ?_) fun j => rfl
      · change (s.post id userData status false).table.rings j = _
        rw [hsame]
      · change (s.post id userData status false).ram = _
        rw [hsame]
      · change admitted j hist ++
          (if id = j then [(userData % 2 ^ 64, UInt32.ofNat status)] else [])
          = admitted j hist
        rw [if_neg (Ne.symm (hne j hj)), List.append_nil]
  | deliver source input record =>
    by_cases hhit : ∃ sub, s.sub record = some sub ∧ sub.source = source
    · obtain ⟨sub, hsub, hsource⟩ := hhit
      have huse := hsubs record sub hsub
      obtain ⟨hrings, hram⟩ := deliver_posts hsub hsource hnext
      have hposts : ∀ j, s.posts (.deliver source input record) j
          = if sub.source = source ∧ sub.ring = j ∧ s.hasRoom j = true then
              [(sub.userData % 2 ^ 64, eventWord sub input)] else [] := by
        intro j
        unfold posts
        dsimp only
        rw [hsub]
      refine h.posted true (fun hacc => hacc.2 rfl) huse (funext hrings) hram (fun j => rfl)
        (fun j => rfl) (fun j hj => ?_) ?_
      · rw [hposts, if_neg fun hall => hj hall.2.1.symm]
      · rw [hposts]
        by_cases hfits : s.hasRoom sub.ring = true
        · rw [if_pos ⟨hsource, rfl, hfits⟩, UInt32.ofNat_toNat]
          exact Or.inl ⟨(hasRoom_iff huse).mp hfits, rfl⟩
        · rw [if_neg fun hall => hfits hall.2.2]
          exact Or.inr ⟨fun hacc => hfits ((hasRoom_iff huse).mpr hacc), rfl⟩
    · have hnone : ∀ sub, s.sub record = some sub → sub.source ≠ source :=
        fun sub hsub hsource => hhit ⟨sub, hsub, hsource⟩
      obtain ⟨hrings, hram⟩ := deliver_nothing hnone hnext
      refine h.quiet (fun j _ => by rw [hrings]) hram (fun j _ => ?_) fun j => rfl
      have hposts : s.posts (.deliver source input record) j = [] := by
        unfold posts
        dsimp only
        cases hsub : s.sub record with
        | none => rfl
        | some sub =>
          dsimp only
          rw [if_neg fun hall => hnone sub hsub hall.1]
      change admitted j hist ++ s.posts (.deliver source input record) j = _
      rw [hposts, List.append_nil]
  | memory ram =>
    cases hnext
    exact h.memory horderly

/-- In every run in which the owners reap and every block completion finds room, every queue holds
what was posted and not reaped, and it is never lapped. -/
theorem queues_intact {hist : List (Queues × QueueLabel)} (run : Run system keepsUp hist s) :
    QueuesIntact hist s := by
  induction run with
  | @start s hinit =>
    have hfree : ∀ id, (s.table.rings id).inUse ≠ true := by
      intro id huse
      rw [hinit.rings id] at huse
      cases huse
    exact ⟨fun id huse => absurd huse (hfree id), fun id _ huse => absurd huse (hfree id),
      fun id huse => absurd huse (hfree id), fun id huse => absurd huse (hfree id)⟩
  | step run guard hnext ih =>
    have hsubs := (tallied_of_run (run.mono fun _ _ _ => trivial)).rings
    exact ih.step hsubs guard hnext

/-! ### A ring that is lapped -/

/-- The operation is a block completion. -/
def isCompletion : QueueLabel → Bool
  | .complete .. => true
  | _ => false

/-- A ring is registered, and a subscription is armed. -/
theorem orderly_register (mask : UInt32) (h : Sized mask) :
    idle.orderly (.register 0 0 frameSize (2 * frameSize) mask) :=
  ⟨h, Or.inl (by decide), fun _ hj => nomatch hj⟩

/-- A ring of two entries has room for an event and for a block completion. -/
theorem queues_intact_twoEntries : ∃ hist s, QueuesIntact hist s ∧
    admitted 0 hist = [(7, (Event.key 30).pack), (5, 0)] ∧ reaped 0 hist = 0 := by
  have run : Run system keepsUp [] idle := .start idle_fresh
  have run₁ := run.step (a := QueueLabel.register 0 0 frameSize (2 * frameSize) 1)
    ⟨orderly_register 1 ⟨1, by omega, rfl⟩, trivial⟩ rfl
  have run₂ := run₁.step (a := QueueLabel.subscribe 0 0 7) ⟨trivial, trivial⟩ rfl
  have run₃ := run₂.step (a := QueueLabel.deliver 0 (.key 30) 0) ⟨trivial, trivial⟩ rfl
  have run₄ := run₃.step (a := QueueLabel.complete 0 5 0) ⟨trivial, fun _ => by decide +kernel⟩ rfl
  exact ⟨_, _, queues_intact run₄, by decide +kernel, by decide +kernel⟩

/-- A ring of one entry has an event in it. The completion of the only block request takes its
place. -/
theorem lapRun_overwrites : ∃ hist s, Run system orderly hist s ∧
    hist.countP (fun e => isCompletion e.2) = 1 ∧
    (s.table.rings 0).inUse = true ∧ (s.table.rings 0).mask + 1 = 1 ∧ s.unreaped 0 = 2 ∧
    admitted 0 hist = [(7, (Event.key 30).pack), (5, 0)] ∧ reaped 0 hist = 0 ∧
    s.cookieAt 0 0 = 5 := by
  have run : Run system orderly [] idle := .start idle_fresh
  have run₁ := run.step (a := QueueLabel.register 0 0 frameSize (2 * frameSize) 0)
    (orderly_register 0 ⟨0, by omega, rfl⟩) rfl
  have run₂ := run₁.step (a := QueueLabel.subscribe 0 0 7) trivial rfl
  have run₃ := run₂.step (a := QueueLabel.deliver 0 (.key 30) 0) trivial rfl
  have run₄ := run₃.step (a := QueueLabel.complete 0 5 0) trivial rfl
  exact ⟨_, _, run₄, by decide +kernel, by decide +kernel, by decide +kernel, by decide +kernel,
    by decide +kernel, by decide +kernel, by decide +kernel⟩

end Queues

end Plinth
