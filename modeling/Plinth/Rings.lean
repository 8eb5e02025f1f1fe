import Mathlib.Logic.Function.Basic
import Plinth.Capability
import Plinth.FrameAlloc

/-!
# `Plinth.Rings`: completion rings and event subscriptions

The ring table and the subscription table of `kernel/src/rings.rs`. A ring records the frames
of its submission queue (SQ) and of its completion queue (CQ), which its owner mapped too. So
the ring headers and entries live in physical memory, which is `Ram` here: the value of each
byte. The kernel reads and writes it in little-endian words.
-/

set_option autoImplicit false

namespace Plinth

/-! ### Physical memory -/

/-- The bytes of physical memory. -/
abbrev Ram := Nat → UInt8

namespace Ram

/-- A little-endian word of `n` bytes at `a`. -/
def read (ram : Ram) (a : Nat) : Nat → Nat
  | 0 => 0
  | n + 1 => (ram a).toNat + 256 * read ram (a + 1) n

/-- Write a little-endian word of `n` bytes at `a`. -/
def write (ram : Ram) (a : Nat) (v : Nat) : Nat → Ram
  | 0 => ram
  | n + 1 => write (Function.update ram a (UInt8.ofNat v)) (a + 1) (v / 256) n

/-- `r32`. -/
def r32 (ram : Ram) (a : Nat) : UInt32 := UInt32.ofNat (ram.read a 4)

/-- `r64`. -/
def r64 (ram : Ram) (a : Nat) : Nat := ram.read a 8

/-- `w32`. -/
def w32 (ram : Ram) (a : Nat) (v : UInt32) : Ram := ram.write a v.toNat 4

/-- `w64`. -/
def w64 (ram : Ram) (a v : Nat) : Ram := ram.write a v 8

end Ram

/-! ### The ring table -/

/-- `SQ_ENTRY_SIZE`. -/
def sqEntrySize : Nat := 32

/-- `CQ_ENTRY_SIZE`. -/
def cqEntrySize : Nat := 16

/-- `HDR_HEAD`, the offset of the head word in a ring header. -/
def hdrHead : Nat := 0

/-- `HDR_TAIL`. -/
def hdrTail : Nat := 4

/-- `HDR_MASK`. -/
def hdrMask : Nat := 8

/-- `RING_HDR_SIZE`. -/
def ringHdrSize : Nat := 16

/-- `MAX_ENTRIES`, the largest ring. -/
def maxEntries : Nat := 64

/-- A ring. -/
structure Ring where
  inUse : Bool
  /-- The process slot that registered the ring. -/
  owner : ProcSlot
  sqPhys : Nat
  cqPhys : Nat
  mask : UInt32
  sqHead : UInt32
  cqTail : UInt32
  /-- The owner is parked in `ring_wait`. -/
  waiting : Bool
  deriving DecidableEq, Repr

/-- The free ring. -/
def Ring.empty : Ring := ⟨false, 0, 0, 0, 0, 0, 0, false⟩

/-- An armed event subscription. -/
structure Subscription where
  source : Nat
  ring : RingId
  userData : Nat
  dropped : UInt32
  deriving DecidableEq, Repr

/-- `MAX_SUBS`. -/
def maxSubs : Nat := maxRings * 4

/-- `EVENT_DROPPED`, the flag of a completion that follows a drop. -/
def eventDropped : UInt32 := (1 : UInt32) <<< 31

/-- The ring table and the subscriptions. -/
structure RingTable where
  rings : RingId → Ring
  subs : List (Option Subscription)

namespace RingTable

/-- Replace one ring. -/
def setRing (rt : RingTable) (id : RingId) (r : Ring) : RingTable :=
  { rt with rings := Function.update rt.rings id r }

/-- The first ring that is not in use. -/
def firstFree (rt : RingTable) : Option RingId :=
  (List.finRange maxRings).find? fun i => !(rt.rings i).inUse

/-- The subscription of `ring` with the cookie `userData` is the record `s`. -/
def isSub (ring : RingId) (userData : Nat) (s : Option Subscription) : Bool :=
  match s with
  | some sub => sub.ring == ring && sub.userData == userData
  | none => false

/-- `Subscriptions::subscribe`. `none` if the subscription exists or the table is full. -/
def subscribe (rt : RingTable) (source : Nat) (ring : RingId) (userData : Nat) :
    Option RingTable :=
  if rt.subs.any (isSub ring userData) then none
  else
    match rt.subs.findIdx? Option.isNone with
    | some i => some { rt with subs := rt.subs.set i (some ⟨source, ring, userData, 0⟩) }
    | none => none

/-- `Subscriptions::cancel`. -/
def cancel (rt : RingTable) (ring : RingId) (userData : Nat) : RingTable :=
  match rt.subs.findIdx? (isSub ring userData) with
  | some i => { rt with subs := rt.subs.set i none }
  | none => rt

/-- `Subscriptions::dropped`: the number of events that the subscription dropped. -/
def dropped (rt : RingTable) (ring : RingId) (userData : Nat) : Option UInt32 :=
  match rt.subs.findIdx? (isSub ring userData) with
  | some i => (rt.subs.getD i none).map Subscription.dropped
  | none => none

/-- `rings::release`: free the ring and drop its subscriptions. -/
def release (rt : RingTable) (id : RingId) : RingTable :=
  { rt.setRing id Ring.empty with
    subs := rt.subs.map fun s =>
      match s with
      | some sub => if sub.ring = id then none else some sub
      | none => none }

/-- `cq_post`: append a completion to the CQ of a ring. With `dropIfFull` a full CQ drops it.
The result says whether the completion was admitted, and which process to wake. -/
def cqPost (rt : RingTable) (ram : Ram) (id : RingId) (userData status : Nat)
    (dropIfFull : Bool) : (Bool × Option ProcSlot) × RingTable × Ram :=
  let r := rt.rings id
  if r.inUse = false then ((true, none), rt, ram)
  else if dropIfFull && (r.mask + 1 ≤ r.cqTail - ram.r32 (r.cqPhys + hdrHead) : Bool) then
    ((false, none), rt, ram)
  else
    let e := r.cqPhys + ringHdrSize + (r.cqTail &&& r.mask).toNat * cqEntrySize
    let newTail := r.cqTail + 1
    let ram := ((ram.w64 e userData).w32 (e + 8) (UInt32.ofNat status)).w32 (e + 12) 0
    let ram := ram.w32 (r.cqPhys + hdrTail) newTail
    ((true, if r.waiting then some r.owner else none),
      rt.setRing id { r with cqTail := newTail, waiting := false }, ram)

/-- `post_completion`: a completion that is never dropped. The result is the process to
wake. -/
def postCompletion (rt : RingTable) (ram : Ram) (id : RingId) (userData status : Nat) :
    Option ProcSlot × RingTable × Ram :=
  let r := rt.cqPost ram id userData status false
  (r.1.2, r.2)

/-- `post_status`: a completion for the process that runs now, which needs no wake. -/
def postStatus (rt : RingTable) (ram : Ram) (id : RingId) (userData status : Nat) :
    RingTable × Ram :=
  (rt.postCompletion ram id userData status).2

/-- The state of the loop of `deliver_event`: the rings, the memory, and the processes to
wake, in order. -/
abbrev Delivery := RingTable × Ram × List ProcSlot

/-- One step of `Subscriptions::deliver`: post the event to the subscription in record `i`, if
it subscribes to `source`. -/
def deliverOne (source : Nat) (event : UInt32) (d : Delivery) (i : Nat) : Delivery :=
  match d.1.subs.getD i none with
  | none => d
  | some sub =>
    if sub.source ≠ source then d
    else
      let status := if 0 < sub.dropped then event ||| eventDropped else event
      let r := d.1.cqPost d.2.1 sub.ring sub.userData status.toNat true
      let dropped := if r.1.1 then 0 else if sub.dropped = 0xFFFFFFFF then sub.dropped
        else sub.dropped + 1
      let rt := { r.2.1 with subs := r.2.1.subs.set i (some { sub with dropped }) }
      (rt, r.2.2, d.2.2 ++ r.1.2.toList)

/-- The posting loop of `deliver_event`. -/
def deliver (rt : RingTable) (ram : Ram) (source : Nat) (event : UInt32) : Delivery :=
  (List.range maxSubs).foldl (deliverOne source event) (rt, ram, [])

end RingTable

end Plinth
