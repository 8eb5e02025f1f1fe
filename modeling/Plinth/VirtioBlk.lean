import Mathlib.Logic.Function.Basic
import Plinth.Memory
import Plinth.Rings

/-!
# `Plinth.VirtioBlk`: block devices and their IOMMU domains

The model of the request path of `kernel/src/virtio_blk.rs`, and of the part of
`kernel/src/iommu.rs` that it uses.

A device has a pool of request slots. A slot is live from `submit` until the device reports
the chain of the slot back and `complete` takes the routing entry. The slot owns a chain of
three descriptors, and `Chain` keeps what `post_request` wrote there last: the sector, the
byte count, the address of the data and the direction. So the data descriptor of a live slot
names the frame that the device can access.

A device can be bound to a library OS. Then the kernel does not touch its queue, and `Bound`
keeps the frames that `bind_device` maps.
-/

set_option autoImplicit false

namespace Plinth

/-! ### IOMMU domains -/

/-- A DMA domain: the table frames below its root, and the pages that it maps to themselves.
The tables are named as in an address space. -/
structure Domain where
  root : Nat
  levels : Nat
  tables : List (TableKey × Nat)
  leaves : List Nat
  deriving DecidableEq

/-- The tables below the root that a walk for `iova` passes, from the top. -/
def Domain.keys (d : Domain) (iova : Nat) : List TableKey :=
  (List.range (d.levels - 1)).map fun depth =>
    (depth + 1, iova / 2 ^ (12 + 9 * (d.levels - 1 - depth)))

/-- `Domain::map` of a page to itself. A page that is mapped already is left alone, and a
table that was allocated stays linked. -/
def Domain.mapPage (d : Domain) (fa : FrameAlloc) (page : Nat) : Domain × FrameAlloc :=
  let r := linkTables (d.keys page) fa d.tables
  let d' := { d with tables := r.2.2 }
  if r.1 && !d.leaves.contains page then ({ d' with leaves := page :: d.leaves }, r.2.1)
  else (d', r.2.1)

/-- The frames of a domain: what `Domain::teardown` frees. -/
def Domain.frames (d : Domain) : List Nat := d.tables.map Prod.snd ++ [d.root]

/-- The DMA state of the block devices: the domain that the kernel-bridged devices share, and
the domain of the bound device. -/
structure BlockIommu where
  enabled : Bool
  domain : Domain
  bound : Option Domain
  deriving DecidableEq

/-! ### Requests -/

/-- `DESC_PER_REQ`. -/
def descPerReq : Nat := 3

/-- `MAX_SLOTS`, the largest number of requests in flight on a device. -/
def maxSlots : Nat := 21

/-- `BLK_OK`. -/
def blkOk : Nat := 0

/-- `BLK_E_DEV`. -/
def blkEDev : Nat := 4

/-- The direction of a request. -/
inductive Direction where
  | read
  | write
  deriving DecidableEq, Repr

/-- Where the result of a request goes. The boot self-test polls, and a ring request names its
ring and its cookie. -/
inductive Completion where
  | poll
  | ring (ring : RingId) (userData : Nat)
  deriving DecidableEq, Repr

/-- The pool of request slots. `routing` is occupied for a live slot, and `free` is the stack
of the free slots with its top first. -/
structure Inflights where
  routing : Nat → Option Completion
  free : List Nat
  slots : Nat

namespace Inflights

/-- A pool of `slots` free slots. -/
def new (slots : Nat) : Inflights where
  routing := fun _ => none
  free := (List.range (min slots maxSlots)).reverse
  slots := min slots maxSlots

/-- Claim a free slot and record its routing. The result is the head of its chain. -/
def submit (inf : Inflights) (target : Completion) : Option (Nat × Inflights) :=
  match inf.free with
  | [] => none
  | slot :: free =>
    some (slot * descPerReq,
      { inf with free, routing := Function.update inf.routing slot (some target) })

/-- The slot of a chain head, if the kernel could have issued that head. -/
def slotOf (inf : Inflights) (head : Nat) : Option Nat :=
  if head % descPerReq ≠ 0 then none
  else if head / descPerReq < inf.slots then some (head / descPerReq) else none

/-- Take the routing of the request at chain `head` and free its slot. -/
def complete (inf : Inflights) (head : Nat) : Option (Completion × Inflights) :=
  match inf.slotOf head with
  | none => none
  | some slot =>
    match inf.routing slot with
    | none => none
    | some target =>
      some (target, { inf with
        routing := Function.update inf.routing slot none, free := slot :: inf.free })

end Inflights

/-- What `post_request` wrote into the descriptor chain of a slot. -/
structure Chain where
  sector : Nat
  bytes : Nat
  /-- The address in the data descriptor. -/
  dataAddr : Nat
  dir : Direction
  deriving DecidableEq, Repr

/-- The state of a bound device that `bind_device` and `bind_wait` use. -/
structure Bound where
  bufIova : Nat
  notifyPagePhys : Nat
  descPhys : Nat
  availPhys : Nat
  usedPhys : Nat
  bufPhys : Nat
  dataPhys : Nat
  dataIova : Nat
  /-- The process parked in `bind_wait`. -/
  waiter : Option ProcSlot
  deriving DecidableEq

/-- A device. `ringFrames` are the frames of its virtqueue and of its header buffer. -/
structure VirtioBlk where
  qsize : Nat
  inflights : Inflights
  /-- The descriptor chain of each slot. -/
  chains : Nat → Chain
  ringFrames : List Nat
  bound : Option Bound

/-- The frames that `unbind` frees. -/
def Bound.frames (b : Bound) : List Nat :=
  [b.descPhys, b.availPhys, b.usedPhys, b.bufPhys, b.dataPhys]

/-- The pages that `bind_device` maps: the doorbell, and then the frames in the order of
their addresses. -/
def Bound.pages (b : Bound) : List Nat :=
  [b.notifyPagePhys, b.descPhys, b.availPhys, b.usedPhys, b.bufPhys, b.dataPhys]

/-- The frames that a device owns. -/
def VirtioBlk.frames (d : VirtioBlk) : List Nat :=
  match d.bound with
  | some b => b.frames
  | none => d.ringFrames

/-- The devices with their DMA domains. -/
structure Devices where
  devices : DevId → Option VirtioBlk
  iommu : Option BlockIommu

namespace Devices

/-- Replace one device. -/
def setDevice (ds : Devices) (dev : DevId) (d : Option VirtioBlk) : Devices :=
  { ds with devices := Function.update ds.devices dev d }

/-- `ready`. -/
def ready (ds : Devices) (dev : DevId) : Bool := (ds.devices dev).isSome

/-- `block_map_dma`: map the page of `addr` in the shared domain, if translation is on. -/
def blockMapDma (ds : Devices) (fa : FrameAlloc) (addr : Nat) : Devices × FrameAlloc :=
  match ds.iommu with
  | none => (ds, fa)
  | some bi =>
    if bi.enabled then
      let r := bi.domain.mapPage fa (addr / frameSize * frameSize)
      ({ ds with iommu := some { bi with domain := r.1 } }, r.2)
    else (ds, fa)

/-- `ring_post`: claim a slot and post a request for `count` sectors. `none` if the device is
absent or its pool is empty. -/
def ringPost (ds : Devices) (fa : FrameAlloc) (dev : DevId) (sector count framePhys : Nat)
    (ring : RingId) (userData : Nat) (dir : Direction) : Option (Devices × FrameAlloc) :=
  match ds.devices dev with
  | none => none
  | some d =>
    match d.inflights.submit (.ring ring userData) with
    | none => none
    | some (head, inflights) =>
      -- A bound device has its data frame mapped already.
      let r := if d.bound.isSome then (ds, fa) else ds.blockMapDma fa framePhys
      let chain : Chain := ⟨sector, count * 512, framePhys, dir⟩
      let d' := { d with
        inflights, chains := Function.update d.chains (head / descPerReq) chain }
      some (r.1.setDevice dev (some d'), r.2)

/-- One step of `drain_completions`: the device reports the chain `head` with a status byte.
A head that is not live is dropped. -/
def drainOne (inf : Inflights) (elem : Nat × UInt8) :
    Option (Completion × Nat) × Inflights :=
  let status := match inf.slotOf elem.1 with
    | some _ => if elem.2 = 0 then blkOk else blkEDev
    | none => blkEDev
  match inf.complete elem.1 with
  | some (target, inf') => (some (target, status), inf')
  | none => (none, inf)

/-- `drain_completions`: the loop over the new elements of the used ring, which the device
wrote. The result is the completions to route, at most `maxSlots` of them. -/
def drainCompletions : List (Nat × UInt8) → Inflights → List (Completion × Nat) →
    List (Completion × Nat) × Inflights
  | [], inf, out => (out, inf)
  | elem :: elems, inf, out =>
    let r := drainOne inf elem
    drainCompletions elems r.2
      (match r.1 with
        | some c => if out.length < maxSlots then out ++ [c] else out
        | none => out)

/-- `iommu::bind_teardown`: free the table frames of the bound device's domain. -/
def bindTeardown (ds : Devices) (fa : FrameAlloc) : Devices × FrameAlloc :=
  match ds.iommu with
  | none => (ds, fa)
  | some bi =>
    match bi.bound with
    | none => (ds, fa)
    | some d => ({ ds with iommu := some { bi with bound := none } }, fa.giveBackAll d.frames)

/-- `unbind`: reset a bound device, free its frames and tear its domain down. -/
def unbind (ds : Devices) (fa : FrameAlloc) (dev : DevId) : Devices × FrameAlloc :=
  match ds.devices dev with
  | none => (ds, fa)
  | some d =>
    match d.bound with
    | none => (ds, fa)
    | some b => (ds.setDevice dev none).bindTeardown (fa.giveBackAll b.frames)

end Devices

end Plinth
