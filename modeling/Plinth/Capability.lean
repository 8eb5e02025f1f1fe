import Mathlib.Algebra.GroupWithZero.Nat
import Mathlib.Data.Fintype.Pi
import Mathlib.Data.List.FinRange

/-!
# `Plinth.Capability`: capabilities and the capability table

The model of `kernel/src/capability.rs`. A capability is an object, a set of rights and an
optional origin, which names the process that lent it and the slot it left from. A process
holds its capabilities in a table of `maxCaps` slots. A slot can be *reserved*: it is empty,
but it is held for a capability that is out on loan.

Process-table slots, capability slots, endpoints, rings and devices are indices below the
fixed table sizes of the kernel, so they are `Fin` here. The kernel makes every one of these
indices itself. A slot number that comes from user code is a `Nat`, and `capSlot?` is the
bounds check of `slots.get(slot)`.
-/

set_option autoImplicit false

namespace Plinth

/-- The size of the process table (`scheduler::MAX_PROCESSES`). -/
def maxProcesses : Nat := 4

/-- The size of a capability table (`MAX_CAPS`). -/
def maxCaps : Nat := 16

/-- The number of endpoints (`ipc::MAX_ENDPOINTS`). -/
def maxEndpoints : Nat := 8

/-- The number of completion rings (`rings::MAX_RINGS`). -/
def maxRings : Nat := 8

/-- The number of block devices the kernel tracks (`pci::MAX_DEVICES`). -/
def maxDevices : Nat := 3

/-- The number of cores (`percpu::MAX_CORES`). -/
def maxCores : Nat := 16

instance : NeZero maxProcesses := ⟨by decide⟩
instance : NeZero maxCaps := ⟨by decide⟩
instance : NeZero maxEndpoints := ⟨by decide⟩
instance : NeZero maxRings := ⟨by decide⟩
instance : NeZero maxDevices := ⟨by decide⟩
instance : NeZero maxCores := ⟨by decide⟩

/-- An index into the process table. -/
abbrev ProcSlot := Fin maxProcesses

/-- An index into a capability table. -/
abbrev CapSlot := Fin maxCaps

/-- An index into the endpoint table. -/
abbrev EndpointId := Fin maxEndpoints

/-- An index into the ring table. -/
abbrev RingId := Fin maxRings

/-- An index into the device table. -/
abbrev DevId := Fin maxDevices

/-- A core. -/
abbrev Core := Fin maxCores

/-- `u64::MAX`, the value of `ERR` and of `NO_CAP`. -/
def u64Max : Nat := 2 ^ 64 - 1

/-- The error result of a system call. -/
def errCode : Nat := u64Max

/-- The "no capability" sentinel of the transfer slot of `send` and of the landing slot. -/
def noCap : Nat := u64Max

/-! ### Rights -/

/-- The rights of a capability, as the bit set of the source. -/
abbrev Rights := UInt8

/-- `RIGHT_READ`. -/
def rightRead : Rights := 1

/-- `RIGHT_WRITE`. -/
def rightWrite : Rights := 2

/-- `RIGHT_MAP`. -/
def rightMap : Rights := 4

/-- `RIGHT_CONSUME`, the right to spend a CPU budget. -/
def rightConsume : Rights := 8

/-- `RIGHT_SEND`. -/
def rightSend : Rights := 16

/-- `RIGHT_RECV`. -/
def rightRecv : Rights := 32

/-- `rights` has every bit of `required`: the test of `lookup`. -/
def Rights.covers (rights required : Rights) : Bool :=
  rights &&& required == required

/-- `rights` has a bit of `right`: the test of the endpoint reference counts. -/
def Rights.has (rights right : Rights) : Bool :=
  rights &&& right != 0

/-! ### Capabilities -/

/-- What a capability names. -/
inductive CapObject where
  /-- Ownership of one physical frame. -/
  | frame (addr : Nat)
  /-- A budget of CPU ticks. -/
  | cpuTime (budget : Nat)
  /-- An IPC endpoint. -/
  | endpoint (id : EndpointId)
  /-- The right to reply once to the caller in this process slot. -/
  | reply (caller : ProcSlot)
  /-- `count` sectors from `start` on the device `dev`. -/
  | blockRange (dev : DevId) (start count : Nat)
  /-- An input event source. -/
  | eventSource (id : Nat)
  /-- A completion ring. -/
  | ring (id : RingId)
  /-- A framebuffer region with its geometry. -/
  | framebuffer (physBase width height stride bytesPerPixel format : Nat)
  /-- A directly bound device. -/
  | boundDevice (dev : DevId)
  deriving DecidableEq, Repr

/-- Where a lent capability goes home to: the lender, and the slot it left from. -/
structure Origin where
  /-- The process slot of the lender. -/
  procSlot : ProcSlot
  /-- The slot of the lender's table. -/
  capSlot : CapSlot
  deriving DecidableEq, Repr

/-- `Origin::new`. The source truncates the slot to a `u8`. Every caller passes a slot that it
just emptied, so the slot is in range and nothing is lost. -/
def Origin.new (procSlot : ProcSlot) (capSlot : Nat) : Origin :=
  ⟨procSlot, Fin.ofNat maxCaps capSlot⟩

/-- The process slot of the lender. -/
def Origin.lender (o : Origin) : ProcSlot := o.procSlot

/-- The slot the capability comes home to. -/
def Origin.home (o : Origin) : CapSlot := o.capSlot

/-- A capability: an object, rights, and the lender if it is on loan. -/
structure Capability where
  object : CapObject
  rights : Rights
  origin : Option Origin
  deriving DecidableEq, Repr

/-- The capability as it appears in the table of `dest` after `source` hands it over. A
capability that goes back to its lender loses its origin, another one keeps the origin it has,
and one without an origin gets `source`. -/
def Capability.lentTo (cap : Capability) (source : Origin) (dest : ProcSlot) : Capability :=
  match cap.origin with
  | some o => if o.lender = dest then { cap with origin := none } else cap
  | none => { cap with origin := some source }

/-- The release policy: what the kernel does when a capability leaves a table for good. -/
inductive ReleaseAction where
  /-- Unmap the frame and return it to the allocator. -/
  | freeFrame (addr : Nat)
  /-- Release the slot of the ring table. -/
  | releaseRing (id : RingId)
  /-- Drop one reference to an endpoint. -/
  | dropEndpoint
  /-- Unmap the framebuffer mappings made through the slot. -/
  | unmapFramebuffer
  /-- Send the capability home to its lender. -/
  | reclaimTo (origin : Origin)
  /-- Nothing to do. -/
  | dropSlot
  /-- Tear down the direct binding of a device. -/
  | unbindDevice (dev : DevId)
  /-- Not releasable on request. -/
  | refuse
  deriving DecidableEq, Repr

/-- The kinds that go home to their lender: `Framebuffer`, `BlockRange`, `EventSource`. -/
def isReclaimableKind : CapObject → Bool
  | .framebuffer .. => true
  | .blockRange .. => true
  | .eventSource _ => true
  | _ => false

/-- A hand-over by the outright owner of a reclaimable capability reserves the slot. -/
def lendReservesHome (cap : Capability) : Bool :=
  cap.origin.isNone && isReclaimableKind cap.object

/-- The action for a kind that does not go home. -/
def CapObject.dropAction : CapObject → ReleaseAction
  | .frame addr => .freeFrame addr
  | .ring id => .releaseRing id
  | .endpoint _ => .dropEndpoint
  | .reply _ => .refuse
  | .framebuffer .. => .unmapFramebuffer
  | .cpuTime _ => .dropSlot
  | .blockRange .. => .dropSlot
  | .eventSource _ => .dropSlot
  | .boundDevice dev => .unbindDevice dev

/-- `release_action`: a borrowed capability of a reclaimable kind goes home, and every other
capability follows its kind. -/
def releaseAction (cap : Capability) : ReleaseAction :=
  match isReclaimableKind cap.object, cap.origin with
  | true, some origin => .reclaimTo origin
  | _, _ => cap.object.dropAction

/-- `reclaim_target`: where a capability of the process at `dyingSlot` goes home to, and what
it looks like there. -/
def reclaimTarget (cap : Capability) (dyingSlot : ProcSlot) : Option (Origin × Capability) :=
  match releaseAction cap with
  | .reclaimTo origin =>
    some (origin, cap.lentTo (Origin.new dyingSlot origin.home) origin.lender)
  | _ => none

/-- The errors of the capability table. -/
inductive CapError where
  | tableFull
  | badSlot
  | emptySlot
  | rightsDenied
  | wrongType
  | insufficient
  deriving DecidableEq, Repr

/-! ### The capability table -/

/-- A capability table: its slots, and which of them are held for a capability on loan. -/
structure CapTable where
  slots : CapSlot → Option Capability
  reserved : CapSlot → Bool
  deriving DecidableEq

/-- The bounds check of `slots.get(slot)`. -/
def capSlot? (slot : Nat) : Option CapSlot :=
  if h : slot < maxCaps then some ⟨slot, h⟩ else none

namespace CapTable

/-- The empty table. -/
def new : CapTable where
  slots := fun _ => none
  reserved := fun _ => false

/-- Put `c` into slot `k`, whatever is there. -/
def set (t : CapTable) (k : CapSlot) (c : Option Capability) : CapTable :=
  { t with slots := Function.update t.slots k c }

/-- Set the reservation of slot `k`. -/
def mark (t : CapTable) (k : CapSlot) (b : Bool) : CapTable :=
  { t with reserved := Function.update t.reserved k b }

/-- The capability at `slot`, without a rights check. -/
def peek (t : CapTable) (slot : Nat) : Option Capability :=
  (capSlot? slot).bind t.slots

/-- Hold `slot` for a capability that goes out on loan from it. -/
def reserve (t : CapTable) (slot : Nat) : CapTable :=
  match capSlot? slot with
  | some k => t.mark k true
  | none => t

/-- Is `slot` held for a returning capability? -/
def isReserved (t : CapTable) (slot : Nat) : Bool :=
  (capSlot? slot).elim false t.reserved

/-- Give up a reservation without anything coming home. -/
def clearReservation (t : CapTable) (slot : Nat) : CapTable :=
  match capSlot? slot with
  | some k => t.mark k false
  | none => t

/-- Put a returning capability into the slot that is reserved for it. The check is that the
slot is reserved and empty. Nothing records which capability it is reserved for. -/
def reclaimTo (t : CapTable) (slot : Nat) (cap : Capability) : Option (CapSlot × CapTable) :=
  match capSlot? slot with
  | some k =>
    if t.reserved k = false ∨ (t.slots k).isSome then none
    else some (k, (t.set k (some cap)).mark k false)
  | none => none

/-- A slot that `install` may use: empty and not reserved. -/
def isFree (t : CapTable) (k : CapSlot) : Bool :=
  (t.slots k).isNone && !t.reserved k

/-- The first free slot. -/
def firstFree (t : CapTable) : Option CapSlot :=
  (List.finRange maxCaps).find? t.isFree

/-- Install a capability verbatim in the first free slot. -/
def install (t : CapTable) (cap : Capability) : Except CapError (CapSlot × CapTable) :=
  match t.firstFree with
  | some k => .ok (k, t.set k (some cap))
  | none => .error .tableFull

/-- Install a capability that the kernel makes: it has no lender. -/
def mint (t : CapTable) (object : CapObject) (rights : Rights) :
    Except CapError (CapSlot × CapTable) :=
  t.install { object, rights, origin := none }

/-- Install a returning capability, or `none` if the table is full. -/
def reclaim (t : CapTable) (cap : Capability) : Option (CapSlot × CapTable) :=
  (t.install cap).toOption

/-- Place an arriving capability. `prior` is its origin before the transfer. If `prior` names
the process `dest` itself and the slot it names is reserved, the capability lands there. -/
def installHome (t : CapTable) (cap : Capability) (prior : Option Origin) (dest : ProcSlot) :
    Option (CapSlot × CapTable) :=
  match prior with
  | some o =>
    if o.lender = dest then
      match t.reclaimTo o.home cap with
      | some r => some r
      | none => t.reclaim cap
    else t.reclaim cap
  | none => t.reclaim cap

/-- Clear the origin of a capability if it names `slot` as the lender. -/
def clearLender (slot : ProcSlot) (cap : Capability) : Capability :=
  if cap.origin.map Origin.lender = some slot then { cap with origin := none } else cap

/-- Clear every origin that names the process `slot`. The count that the source returns is
read by its tests only. -/
def clearOrigin (t : CapTable) (slot : ProcSlot) : CapTable :=
  { t with slots := fun k => (t.slots k).map (clearLender slot) }

/-- The capabilities of the table, in slot order. -/
def iter (t : CapTable) : List Capability :=
  (List.finRange maxCaps).filterMap t.slots

/-- The capability at `slot`, if it has every right in `required`. -/
def lookup (t : CapTable) (slot : Nat) (required : Rights) : Except CapError Capability :=
  match capSlot? slot with
  | none => .error .badSlot
  | some k =>
    match t.slots k with
    | none => .error .emptySlot
    | some cap => if cap.rights.covers required then .ok cap else .error .rightsDenied

/-- Debit `amount` from the CPU budget at `slot`. An error leaves the table as it was. -/
def charge (t : CapTable) (slot amount : Nat) (required : Rights) :
    Except CapError (Nat × CapTable) :=
  match capSlot? slot with
  | none => .error .badSlot
  | some k =>
    match t.slots k with
    | none => .error .emptySlot
    | some cap =>
      if cap.rights.covers required then
        match cap.object with
        | .cpuTime budget =>
          if amount ≤ budget then
            .ok (budget - amount,
              t.set k (some { cap with object := .cpuTime (budget - amount) }))
          else .error .insufficient
        | _ => .error .wrongType
      else .error .rightsDenied

/-- Remove and return the capability at `slot`. -/
def revoke (t : CapTable) (slot : Nat) : Except CapError (Capability × CapTable) :=
  match capSlot? slot with
  | none => .error .badSlot
  | some k =>
    match t.slots k with
    | none => .error .emptySlot
    | some cap => .ok (cap, t.set k none)

end CapTable

end Plinth
