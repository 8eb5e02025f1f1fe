import Plinth.Common.Transition
import Plinth.Proofs.Ram

/-!
# `Plinth.Queues.System`: the rings as a transition system

The ring table, the subscriptions and physical memory, without the processes. A step is one
operation of `rings.rs` on them: a ring is registered or released, a subscription is armed or
cancelled, a block request completes, or an event goes to one record of the subscription table.
`deliver_event` takes one such step for each record. Between the operations the owners of the
rings store to memory, and so they reap completions.
-/

set_option autoImplicit false

namespace Plinth

/-! ### Input events -/

/-- `Event`. -/
structure Event where
  kind : UInt8
  code : UInt16
  value : UInt8
  deriving DecidableEq, Repr

/-- `EVENT_KEY`. -/
def eventKey : UInt8 := 1

/-- `EVENT_MOUSE_MOVE`. -/
def eventMouseMove : UInt8 := 2

namespace Event

/-- `Event::key`. -/
def key (scancode : UInt8) : Event :=
  ⟨eventKey, scancode.toUInt16, if scancode &&& 0x80 = 0 then 1 else 0⟩

/-- `Event::mouse_move`. The deltas are the bytes of the packet. -/
def mouseMove (dx dy buttons : UInt8) : Event :=
  ⟨eventMouseMove, (dx.toUInt16 <<< 8) ||| dy.toUInt16, buttons &&& 0x7F⟩

/-- `Event::pack`, as the word that `record` passes on. -/
def pack (e : Event) : UInt32 :=
  e.kind.toUInt32 ||| (e.code.toUInt32 <<< 8) ||| (e.value.toUInt32 <<< 24)

end Event

/-- What an input device records. -/
inductive Input where
  | key (scancode : UInt8)
  | mouseMove (dx dy buttons : UInt8)
  deriving DecidableEq, Repr

/-- The event that is recorded. -/
def Input.event : Input → Event
  | .key scancode => .key scancode
  | .mouseMove dx dy buttons => .mouseMove dx dy buttons

/-! ### The transition system -/

/-- The rings with physical memory. -/
structure Queues where
  table : RingTable
  ram : Ram

/-- An operation on the rings. -/
inductive QueueLabel where
  /-- `ring_register` takes the ring `id`, and clears the headers. -/
  | register (id : RingId) (owner : ProcSlot) (sqPhys cqPhys : Nat) (mask : UInt32)
  /-- An entry of a ring in use arms a subscription, unless it exists or the table is full. -/
  | subscribe (source : Nat) (id : RingId) (userData : Nat)
  | cancel (id : RingId) (userData : Nat)
  | release (id : RingId)
  /-- `post_completion`: a block request completes, or an entry is refused. -/
  | complete (id : RingId) (userData status : Nat)
  /-- The step of `deliver_event` at one record of the subscription table. -/
  | deliver (source : Nat) (input : Input) (record : Nat)
  /-- Processes and devices store to physical memory. -/
  | memory (ram : Ram)

namespace Queues

/-- Clear a ring header. -/
def clearHeader (ram : Ram) (base : Nat) (mask : UInt32) : Ram :=
  (((ram.w32 (base + hdrHead) 0).w32 (base + hdrTail) 0).w32 (base + hdrMask) mask).w32
    (base + 12) 0

/-- The rings after an operation, if it is possible. -/
def step (s : Queues) : QueueLabel → Option Queues
  | .register id owner sqPhys cqPhys mask =>
    if (s.table.rings id).inUse then none
    else
      some ⟨s.table.setRing id ⟨true, owner, sqPhys, cqPhys, mask, 0, 0, false⟩,
        clearHeader (clearHeader s.ram sqPhys mask) cqPhys mask⟩
  | .subscribe source id userData =>
    if (s.table.rings id).inUse then
      some ⟨(s.table.subscribe source id userData).getD s.table, s.ram⟩
    else none
  | .cancel id userData => some ⟨s.table.cancel id userData, s.ram⟩
  | .release id => some ⟨s.table.release id, s.ram⟩
  | .complete id userData status =>
    let r := s.table.postStatus s.ram id userData status
    some ⟨r.1, r.2⟩
  | .deliver source input record =>
    let r := RingTable.deliverOne source input.event.pack (s.table, s.ram, []) record
    some ⟨r.1, r.2.1⟩
  | .memory ram => some { s with ram }

/-- No ring is in use at first, and no subscription is armed. -/
structure Fresh (s : Queues) : Prop where
  subs : ∀ sub, some sub ∉ s.table.subs
  rings : ∀ id, (s.table.rings id).inUse = false

/-- The rings as a transition system. -/
def system : Transition.System Queues QueueLabel where
  init := Fresh
  next := step

/-- Take steps in order. -/
def steps (s : Queues) (labels : List QueueLabel) : Option Queues := labels.foldlM step s

theorem steps_cons (s : Queues) (ℓ : QueueLabel) (labels : List QueueLabel) :
    s.steps (ℓ :: labels) = (s.step ℓ).bind fun t => t.steps labels := rfl

/-- The rings and the memory after one record do not depend on the wakes so far. -/
theorem deliverOne_wakes (source : Nat) (event : UInt32) (rt : RingTable) (ram : Ram)
    (wakes : List ProcSlot) (i : Nat) :
    (RingTable.deliverOne source event (rt, ram, wakes) i).1
        = (RingTable.deliverOne source event (rt, ram, []) i).1 ∧
      (RingTable.deliverOne source event (rt, ram, wakes) i).2.1
        = (RingTable.deliverOne source event (rt, ram, []) i).2.1 := by
  unfold RingTable.deliverOne
  cases rt.subs.getD i none with
  | none => exact ⟨rfl, rfl⟩
  | some sub =>
    dsimp only
    split
    · exact ⟨rfl, rfl⟩
    · exact ⟨rfl, rfl⟩

/-- `deliver_event` takes one step for each record. -/
theorem deliver_eq_steps (s : Queues) (source : Nat) (input : Input) :
    s.steps ((List.range maxSubs).map (.deliver source input))
      = some ⟨(s.table.deliver s.ram source input.event.pack).1,
          (s.table.deliver s.ram source input.event.pack).2.1⟩ := by
  unfold RingTable.deliver
  have key : ∀ (records : List Nat) (s : Queues) (wakes : List ProcSlot),
      s.steps (records.map (.deliver source input)) = some
        ⟨(records.foldl (RingTable.deliverOne source input.event.pack) (s.table, s.ram, wakes)).1,
          (records.foldl (RingTable.deliverOne source input.event.pack)
            (s.table, s.ram, wakes)).2.1⟩ := by
    intro records
    induction records with
    | nil => exact fun s wakes => rfl
    | cons i records ih =>
      intro s wakes
      rw [List.map_cons, steps_cons, List.foldl_cons]
      obtain ⟨htable, hram⟩ := deliverOne_wakes source input.event.pack s.table s.ram wakes i
      have hnext := ih ⟨(RingTable.deliverOne source input.event.pack (s.table, s.ram, []) i).1,
        (RingTable.deliverOne source input.event.pack (s.table, s.ram, []) i).2.1⟩
        (RingTable.deliverOne source input.event.pack (s.table, s.ram, wakes) i).2.2
      rw [← htable, ← hram] at hnext
      change Queues.steps ⟨(RingTable.deliverOne source input.event.pack (s.table, s.ram, []) i).1,
        (RingTable.deliverOne source input.event.pack (s.table, s.ram, []) i).2.1⟩
          (records.map (.deliver source input)) = _
      rw [← htable, ← hram]
      exact hnext
  exact key _ s []

/-! ### The entries of a completion queue -/

/-- The address of the entry of the ring `id` that an index selects. -/
def entryAt (s : Queues) (id : RingId) (index : UInt32) : Nat :=
  (s.table.rings id).cqPhys + ringHdrSize + (index &&& (s.table.rings id).mask).toNat * cqEntrySize

/-- The cookie of a completion. -/
def cookieAt (s : Queues) (id : RingId) (index : UInt32) : Nat := s.ram.r64 (s.entryAt id index)

/-- The status of a completion. -/
def statusAt (s : Queues) (id : RingId) (index : UInt32) : UInt32 :=
  s.ram.r32 (s.entryAt id index + 8)

/-- The number of completions that the kernel posted and the owner did not reap, as the kernel
computes it. -/
def unreaped (s : Queues) (id : RingId) : UInt32 :=
  (s.table.rings id).cqTail - s.ram.r32 ((s.table.rings id).cqPhys + hdrHead)

/-- The rings after `cq_post`. -/
def post (s : Queues) (id : RingId) (userData status : Nat) (dropIfFull : Bool) : Queues :=
  ⟨(s.table.cqPost s.ram id userData status dropIfFull).2.1,
    (s.table.cqPost s.ram id userData status dropIfFull).2.2⟩

/-- The ring is in use, and an event finds room in its queue. -/
def accepts (s : Queues) (id : RingId) (dropIfFull : Bool) : Prop :=
  (s.table.rings id).inUse = true ∧
    (dropIfFull = true → ¬ (s.table.rings id).mask + 1 ≤ s.unreaped id)

variable {s : Queues} {id : RingId} {dropIfFull : Bool}

/-- What `cq_post` does if it admits the completion. -/
theorem post_eq (userData status : Nat) (h : s.accepts id dropIfFull) :
    s.table.cqPost s.ram id userData status dropIfFull =
      ((true, if (s.table.rings id).waiting then some (s.table.rings id).owner else none),
        s.table.setRing id { s.table.rings id with
          cqTail := (s.table.rings id).cqTail + 1, waiting := false },
        ((((s.ram.w64 (s.entryAt id (s.table.rings id).cqTail) userData).w32
          (s.entryAt id (s.table.rings id).cqTail + 8) (UInt32.ofNat status)).w32
          (s.entryAt id (s.table.rings id).cqTail + 12) 0).w32
          ((s.table.rings id).cqPhys + hdrTail) ((s.table.rings id).cqTail + 1))) := by
  obtain ⟨huse, hroom⟩ := h
  unfold RingTable.cqPost
  dsimp only
  rw [if_neg (by rw [huse]; exact Bool.noConfusion), if_neg ?_]
  · rfl
  · intro hfull
    simp only [Bool.and_eq_true, decide_eq_true_eq] at hfull
    exact hroom hfull.1 hfull.2

/-- A completion that is not admitted changes nothing. -/
theorem post_of_not (userData status : Nat) (h : ¬ s.accepts id dropIfFull) :
    s.post id userData status dropIfFull = s := by
  unfold post RingTable.cqPost
  dsimp only
  by_cases huse : (s.table.rings id).inUse = false
  · rw [if_pos huse]
  · rw [if_neg huse]
    rw [Bool.not_eq_false] at huse
    have hfull : (dropIfFull && ((s.table.rings id).mask + 1 ≤ (s.table.rings id).cqTail
        - s.ram.r32 ((s.table.rings id).cqPhys + hdrHead) : Bool)) = true := by
      by_contra hno
      refine h ⟨huse, fun hdrop hfull => hno ?_⟩
      simp only [Bool.and_eq_true, decide_eq_true_eq]
      exact ⟨hdrop, hfull⟩
    rw [if_pos hfull]

/-- An admitted completion is in its entry, and the tail is past it. -/
theorem post_written (userData status : Nat) (h : s.accepts id dropIfFull) :
    ((s.post id userData status dropIfFull).table.rings id).cqTail
        = (s.table.rings id).cqTail + 1 ∧
      (s.post id userData status dropIfFull).cookieAt id (s.table.rings id).cqTail
        = userData % 2 ^ 64 ∧
      (s.post id userData status dropIfFull).statusAt id (s.table.rings id).cqTail
        = UInt32.ofNat status := by
  unfold post
  rw [post_eq userData status h]
  have hentry : ∀ ram : Ram, entryAt ⟨s.table.setRing id { s.table.rings id with
      cqTail := (s.table.rings id).cqTail + 1, waiting := false }, ram⟩ id
        (s.table.rings id).cqTail = s.entryAt id (s.table.rings id).cqTail := by
    intro ram
    unfold entryAt RingTable.setRing
    dsimp only
    rw [Function.update_self]
  have hge : (s.table.rings id).cqPhys + ringHdrSize ≤ s.entryAt id (s.table.rings id).cqTail := by
    unfold entryAt
    omega
  unfold ringHdrSize at hge
  refine ⟨?_, ?_, ?_⟩
  · unfold RingTable.setRing
    dsimp only
    rw [Function.update_self]
  · unfold cookieAt
    rw [hentry]
    unfold hdrTail
    rw [Ram.r64_w32_of_apart _ _ (by omega), Ram.r64_w32_of_apart _ _ (by omega),
      Ram.r64_w32_of_apart _ _ (by omega), Ram.r64_w64]
  · unfold statusAt
    rw [hentry]
    unfold hdrTail
    rw [Ram.r32_w32_of_apart _ _ (by omega), Ram.r32_w32_of_apart _ _ (by omega), Ram.r32_w32]

end Queues

end Plinth
