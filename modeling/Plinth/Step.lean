import Plinth.BlockIo
import Plinth.Common.Transition
import Plinth.Syscall

/-!
# `Plinth.Step`: the kernel as a transition system

A step is one kernel entry: a call of the process that runs on a core, an interrupt, or an
action of the boot code. The big kernel lock orders the entries, so a run is a list of steps.

The labels leave open what the model does not determine: the order of the cores, the choice of
the next process, the reports of the devices, and the stores of user code (`memory`).

`booted` is the state before the first launch: no process, no endpoint, no ring, and devices
that own their frames.
-/

set_option autoImplicit false

namespace Plinth

/-- The kernel entries, with their inputs. -/
inductive Label where
  /-- The boot code creates an endpoint. -/
  | createEndpoint
  /-- The boot code launches images with their grants. -/
  | run (core : Core) (images : List (Option Image)) (extra : List (Option Capability))
  | frameAlloc (core : Core)
  | frameMap (core : Core) (slot va : Nat)
  | fbMap (core : Core) (slot va infoPtr : Nat)
  | bindDevice (core : Core) (slot va infoPtr : Nat)
  | capRelease (core : Core) (slot : Nat)
  | cpuCharge (core : Core) (slot amount : Nat)
  | spawn (core : Core) (binary : Option (Option Image)) (transferSlot : Nat)
  | spawnFromBuffer (core : Core) (bufVa len : Nat) (image : Option Image)
      (transferSlot : Nat)
  | send (core : Core) (epSlot msg capSlot : Nat)
  | recv (core : Core) (epSlot : Nat)
  | call (core : Core) (epSlot req : Nat)
  | reply (core : Core) (replySlot msg : Nat)
  | ringRegister (core : Core) (sqSlot cqSlot entries : Nat)
  | ringSubmit (core : Core) (ringSlot : Nat)
  | ringWait (core : Core) (ringSlot : Nat)
  | bindWait (core : Core) (bindSlot usedSeen : Nat) (usedIdx : UInt16)
  /-- The process exits, or a fault kills it. -/
  | exit (core : Core)
  /-- The timer suspends the process of a core. -/
  | preempt (core : Core)
  /-- An idle core takes a Ready process. -/
  | resume (core : Core) (p : ProcSlot)
  | completeIrq (dev : DevId) (used : List (Nat × UInt8))
  | deliverEvent (source : Nat) (event : UInt32)
  /-- Processes and devices store to physical memory. -/
  | memory (ram : Ram)

/-- The frames of the devices and of the DMA domains. -/
def Devices.allFrames (ds : Devices) : List Nat :=
  ((List.finRange maxDevices).flatMap fun dev => ((ds.devices dev).map VirtioBlk.frames).getD []) ++
    match ds.iommu with
    | some bi => bi.domain.frames ++ (bi.bound.map Domain.frames).getD []
    | none => []

/-- A device before the first launch: its request slots are free and no process waits. -/
def Devices.quiet (d : VirtioBlk) : Prop :=
  d.inflights = Inflights.new d.inflights.slots ∧ (d.bound.bind Bound.waiter) = none

namespace Kernel

/-- A capability that the boot code grants: an endpoint that exists with a right to use it, or
a device resource. -/
def grantable (s : Kernel) (cap : Capability) : Bool :=
  cap.origin.isNone &&
    match cap.object with
    | .endpoint id =>
      (s.ipc.endpoints id).inUse && (cap.rights.has rightSend || cap.rights.has rightRecv)
    | .blockRange .. => true
    | .eventSource _ => true
    | .framebuffer .. => true
    | .boundDevice _ => true
    | _ => false

/-- The bound device that a capability names. -/
def boundOf (cap : Capability) : Option DevId :=
  match cap.object with
  | .boundDevice dev => some dev
  | _ => none

/-- The launches of the boot code: the scheduler is idle, there is an image, the grants fit a
fresh table, and no bound device is granted twice. -/
def canRun (s : Kernel) (core : Core) (images : List (Option Image))
    (extra : List (Option Capability)) : Bool :=
  s.tableEmpty && (s.procs.current core).isNone && !images.isEmpty &&
    decide (extra.length < maxCaps) && extra.reduceOption.all s.grantable &&
    decide (extra.reduceOption.filterMap boundOf).Nodup

/-- A call of the process that runs on `core`. -/
def onCore (s : Kernel) (core : Core) (s' : Kernel) : Option Kernel :=
  if (s.procs.current core).isSome then some s' else none

/-- The state after a label, if the label is enabled. -/
def step (s : Kernel) : Label → Option Kernel
  | .createEndpoint => s.ipc.createEndpoint.map fun r => { s with ipc := r.2 }
  | .run core images extra =>
    if s.canRun core images extra then some (s.run core images extra) else none
  | .frameAlloc core => s.onCore core (s.sysFrameAlloc core).2
  | .frameMap core slot va => s.onCore core (s.sysFrameMap core slot va).2
  | .fbMap core slot va infoPtr => s.onCore core (s.sysFbMap core slot va infoPtr).2
  | .bindDevice core slot va infoPtr => s.onCore core (s.sysBindDevice core slot va infoPtr).2
  | .capRelease core slot => s.onCore core (s.sysCapRelease core slot).2
  | .cpuCharge core slot amount => s.onCore core (s.sysCpuCharge core slot amount).2
  | .spawn core binary transferSlot => s.onCore core (s.sysSpawn core binary transferSlot).2
  | .spawnFromBuffer core bufVa len image transferSlot =>
    s.onCore core (s.sysSpawnFromBuffer core bufVa len image transferSlot).2
  | .send core epSlot msg capSlot => s.onCore core (s.ipcSend core epSlot msg capSlot).2
  | .recv core epSlot => s.onCore core (s.ipcRecv core epSlot).2
  | .call core epSlot req => s.onCore core (s.ipcCall core epSlot req).2
  | .reply core replySlot msg => s.onCore core (s.ipcReply core replySlot msg).2
  | .ringRegister core sqSlot cqSlot entries =>
    s.onCore core (s.ringRegister core sqSlot cqSlot entries).2
  | .ringSubmit core ringSlot => s.onCore core (s.ringSubmit core ringSlot).2
  | .ringWait core ringSlot => s.onCore core (s.ringWait core ringSlot).2
  | .bindWait core bindSlot usedSeen usedIdx =>
    s.onCore core (s.bindWait core bindSlot usedSeen usedIdx).2
  | .exit core => s.onExit core
  | .preempt core => (s.procs.preempt core).map fun procs => { s with procs }
  | .resume core p => (s.procs.resume core p).map fun procs => { s with procs }
  | .completeIrq dev used => some (s.completeIrq dev used)
  | .deliverEvent source event => some (s.deliverEvent source event)
  | .memory ram => some { s with ram }

/-- The state before the first launch. -/
structure Booted (s : Kernel) : Prop where
  table : ∀ p, s.procs.table p = Slot.empty
  idle : ∀ core, s.procs.current core = none
  endpoints : ∀ id, s.ipc.endpoints id = Endpoint.empty
  asserts : s.ipc.failedAsserts = 0
  wakes : s.procs.strayWakes = 0
  rings : ∀ id, (s.rings.rings id).inUse = false ∧ (s.rings.rings id).waiting = false
  subs : ∀ sub, some sub ∉ s.rings.subs
  quiet : ∀ dev d, s.devs.devices dev = some d → Devices.quiet d
  /-- The devices own their frames: each is allocated, and none is listed twice. -/
  owned : ∀ a, (Devices.allFrames s.devs).count a ≤ s.mem.fa.marked a
  refused : s.mem.fa.refused = []

/-- The kernel as a transition system. -/
def system : Transition.System Kernel Label where
  init := Booted
  next := step

end Kernel

end Plinth
