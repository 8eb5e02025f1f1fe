import Mathlib.Logic.Function.Basic
import Plinth.Capability
import Plinth.Common.Fifo

/-!
# `Plinth.Endpoint`: endpoints and their reference counts

The endpoint table of `kernel/src/ipc.rs`. An endpoint has a wait queue, and it counts the
live capabilities that can send on it and that can receive on it. The wait queue is
intrusive: the links between the waiters lie in the array `WAIT_LINKS`, which all the queues
share.

`remove_cap` contains a debug assertion that the count is positive. The ghost field
`failedAsserts` counts the debug assertions of the kernel that failed.
-/

set_option autoImplicit false

namespace Plinth

/-- The link array of the wait queues (`scheduler::WAIT_LINKS`). -/
abbrev WaitLinks := ProcSlot → Option ProcSlot

/-- A FIFO of blocked waiters, and the side they wait on. The methods take the link array, of any
length. -/
structure WaitQueue (ι : Type) where
  head : Option ι
  tail : Option ι
  areSenders : Bool
  deriving DecidableEq, Repr

namespace WaitQueue

variable {ι : Type}

/-- The empty queue. -/
def empty : WaitQueue ι := ⟨none, none, false⟩

/-- Append `slot`, and record the side that is waiting now. -/
def enqueue [DecidableEq ι] (q : WaitQueue ι) (slot : ι) (areSenders : Bool)
    (links : ι → Option ι) : WaitQueue ι × (ι → Option ι) :=
  (⟨Fifo.pushHead q.head q.tail slot, some slot, areSenders⟩,
    Fifo.pushLinks links q.tail slot)

/-- Remove the head. -/
def dequeue (q : WaitQueue ι) (links : ι → Option ι) : Option (ι × WaitQueue ι) :=
  match q.head with
  | none => none
  | some head =>
    some (head, { q with
      head := links head
      tail := if (links head).isNone then none else q.tail })

/-- Remove the head only if the queue holds the wanted side. -/
def takeIf (q : WaitQueue ι) (wantSenders : Bool) (links : ι → Option ι) :
    Option (ι × WaitQueue ι) :=
  if q.head.isSome && q.areSenders == wantSenders then q.dequeue links else none

/-- No waiters are queued. -/
def isEmpty (q : WaitQueue ι) : Bool := q.head.isNone

end WaitQueue

/-- An endpoint. -/
structure Endpoint where
  inUse : Bool
  queue : WaitQueue ProcSlot
  /-- Live capabilities that can send here. -/
  senders : Nat
  /-- Live capabilities that can receive here. -/
  receivers : Nat
  deriving DecidableEq, Repr

namespace Endpoint

/-- The free endpoint. -/
def empty : Endpoint := ⟨false, WaitQueue.empty, 0, 0⟩

/-- A capability with `rights` can now reach this endpoint. -/
def addCap (ep : Endpoint) (rights : Rights) : Endpoint :=
  { ep with
    senders := if rights.has rightSend then ep.senders + 1 else ep.senders
    receivers := if rights.has rightRecv then ep.receivers + 1 else ep.receivers }

/-- A capability with `rights` no longer reaches this endpoint. The counts stop at zero. -/
def removeCap (ep : Endpoint) (rights : Rights) : Endpoint :=
  { ep with
    senders := if rights.has rightSend then ep.senders - 1 else ep.senders
    receivers := if rights.has rightRecv then ep.receivers - 1 else ep.receivers }

/-- The debug assertions of `remove_cap`: no count that it decrements is zero. -/
def removeAsserts (ep : Endpoint) (rights : Rights) : Bool :=
  (!rights.has rightSend || 0 < ep.senders) && (!rights.has rightRecv || 0 < ep.receivers)

/-- Nothing can reach this endpoint any more. -/
def isUnreferenced (ep : Endpoint) : Bool :=
  ep.senders == 0 && ep.receivers == 0 && ep.queue.isEmpty

/-- Would the death of a process with this many of the capabilities remove the last sender or
the last receiver? -/
def deathStrandsPeers (ep : Endpoint) (dyingSenders dyingReceivers : Nat) : Bool :=
  (0 < dyingSenders && ep.senders - dyingSenders == 0) ||
    (0 < dyingReceivers && ep.receivers - dyingReceivers == 0)

end Endpoint

/-- The endpoint table with the link array. -/
structure Ipc where
  endpoints : EndpointId → Endpoint
  links : WaitLinks
  /-- Ghost: the number of debug assertions that failed. -/
  failedAsserts : Nat

namespace Ipc

/-- Replace one endpoint. -/
def setEndpoint (ipc : Ipc) (id : EndpointId) (ep : Endpoint) : Ipc :=
  { ipc with endpoints := Function.update ipc.endpoints id ep }

/-- Record a debug assertion. -/
def debugAssert (ipc : Ipc) (b : Bool) : Ipc :=
  if b then ipc else { ipc with failedAsserts := ipc.failedAsserts + 1 }

/-- `create_endpoint`: take the first endpoint that is not in use. -/
def createEndpoint (ipc : Ipc) : Option (EndpointId × Ipc) :=
  match (List.finRange maxEndpoints).find? fun i => !(ipc.endpoints i).inUse with
  | some id => some (id, ipc.setEndpoint id { Endpoint.empty with inUse := true })
  | none => none

/-- `note_cap_added`: an endpoint capability enters a table. -/
def noteCapAdded (ipc : Ipc) (cap : Capability) : Ipc :=
  match cap.object with
  | .endpoint id => ipc.setEndpoint id ((ipc.endpoints id).addCap cap.rights)
  | _ => ipc

/-- `note_cap_removed`: an endpoint capability leaves a table. If it leaves for good and
nothing references the endpoint any more, the endpoint becomes free. -/
def noteCapRemoved (ipc : Ipc) (cap : Capability) (freeIfUnreferenced : Bool) : Ipc :=
  match cap.object with
  | .endpoint id =>
    let ep := ipc.endpoints id
    let ep' := ep.removeCap cap.rights
    (ipc.debugAssert (ep.removeAsserts cap.rights)).setEndpoint id
      (if freeIfUnreferenced && ep'.isUnreferenced then Endpoint.empty else ep')
  | _ => ipc

/-- `release_endpoint`: free an endpoint that nothing references. -/
def releaseEndpoint (ipc : Ipc) (id : EndpointId) : Ipc :=
  if (ipc.endpoints id).isUnreferenced then ipc.setEndpoint id Endpoint.empty else ipc

/-- `take_waiting`: the head waiter of `id`, if it waits on the wanted side. -/
def takeWaiting (ipc : Ipc) (id : EndpointId) (wantSenders : Bool) : Option (ProcSlot × Ipc) :=
  match (ipc.endpoints id).queue.takeIf wantSenders ipc.links with
  | some (slot, q) => some (slot, ipc.setEndpoint id { ipc.endpoints id with queue := q })
  | none => none

/-- The dequeue of `wake_all_stranded`: the head waiter of `id`, whatever its side. -/
def dequeueWaiter (ipc : Ipc) (id : EndpointId) : Option (ProcSlot × Ipc) :=
  match (ipc.endpoints id).queue.dequeue ipc.links with
  | some (slot, q) => some (slot, ipc.setEndpoint id { ipc.endpoints id with queue := q })
  | none => none

/-- `enqueue_waiter`: append `slot` to the queue of `id`. -/
def enqueueWaiter (ipc : Ipc) (id : EndpointId) (slot : ProcSlot) (areSenders : Bool) : Ipc :=
  let r := (ipc.endpoints id).queue.enqueue slot areSenders ipc.links
  { ipc.setEndpoint id { ipc.endpoints id with queue := r.1 } with links := r.2 }

/-- Clear the link of a slot whose process is gone. -/
def clearLink (ipc : Ipc) (slot : ProcSlot) : Ipc :=
  { ipc with links := Function.update ipc.links slot none }

/-- The waiters on endpoint `id`, in queue order. -/
def waiting (ipc : Ipc) (id : EndpointId) : List ProcSlot :=
  Fifo.walk ipc.links maxProcesses (ipc.endpoints id).queue.head

end Ipc

end Plinth
