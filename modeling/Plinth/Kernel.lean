import Plinth.Endpoint
import Plinth.ProcTable
import Plinth.VirtioBlk

/-!
# `Plinth.Kernel`: the kernel state, set-up and exit of a process

`Kernel` is the state that the kernel keeps behind its big lock. Every kernel entry holds the
lock from its start to its end, so an entry is one function on this state.

This module has the functions of `kernel/src/scheduler.rs` that use more than the process
table: set-up of a process, reclamation of borrowed capabilities, and exit. It also has the
death-time reaping of `kernel/src/ipc.rs` and the teardown of `kernel/src/process.rs`.
-/

set_option autoImplicit false

namespace Plinth

/-- The kernel state. -/
structure Kernel where
  procs : Procs
  ipc : Ipc
  mem : Mem
  rings : RingTable
  devs : Devices
  ram : Ram

namespace Kernel

/-- Replace the frame allocator. -/
def setFa (s : Kernel) (fa : FrameAlloc) : Kernel := { s with mem := { s.mem with fa } }

/-! ### Set-up -/

/-- The grants of a set-up, in order. `none` if the table is full. -/
def installGrants : List Capability → CapTable → Ipc → Option CapTable × Ipc
  | [], t, ipc => (some t, ipc)
  | cap :: caps, t, ipc =>
    match t.install cap with
    | .error _ => (none, ipc)
    | .ok (_, t') => installGrants caps t' (ipc.noteCapAdded cap)

/-- `setup_process`: build a process from an image into slot `id`, with the grants `caps`. The
result is `false` if an error stopped it. -/
def setupProcess (s : Kernel) (id : ProcSlot) (image : Option Image) (caps : List Capability) :
    Bool × Kernel :=
  match s.mem.createAddressSpace with
  | none => (false, s)
  | some (l4, mem) =>
    match loadAndMap mem image l4 with
    | (none, mem, _) => (false, { s with mem := mem.destroyAddressSpace l4 })
    | (some _, mem, boot) =>
      match installGrants caps spawnProcess.caps s.ipc with
      | (none, ipc) => (false, { s with ipc, mem := mem.destroyAddressSpace l4 })
      | (some t, ipc) =>
        let proc := { spawnProcess with caps := t, l4 }
        (true, { s with
          ipc, mem
          procs := s.procs.setSlot id { s.procs.table id with
            state := .ready, process := some proc, bootFrames := boot } })

/-! ### Reclamation -/

/-- Where a capability that went home ended up. -/
inductive ReclaimHome where
  | landed (slot : CapSlot)
  | lenderFull
  | noLender
  deriving DecidableEq, Repr

/-- `reclaim_cap_home`: send a borrowed capability to its lender, into the slot that is
reserved for it, or else into the first free slot. -/
def reclaimCapHome (s : Kernel) (cap : Capability) (origin : Origin) (home : Capability) :
    ReclaimHome × Kernel :=
  match s.procs.withLenderCaps origin.lender fun t =>
      match t.reclaimTo origin.home home with
      | some r => some r
      | none => t.reclaim home with
  | none => (.noLender, s)
  | some none => (.lenderFull, s)
  | some (some (landing, procs)) =>
    (.landed landing,
      { s with procs, ipc := (s.ipc.noteCapRemoved cap false).noteCapAdded home })

/-- The body of the loop of `reclaim_lent_caps`, for one capability of the dying process. -/
def reclaimLentCap (dyingSlot : ProcSlot) (s : Kernel) (cap : Capability) : Kernel :=
  match reclaimTarget cap dyingSlot with
  | none => s
  | some (origin, home) =>
    match s.reclaimCapHome cap origin home with
    | (.landed landing, s') =>
      { s' with procs := s'.procs.setReclaimLanding origin.lender landing }
    | (.lenderFull, s') => s'
    | (.noLender, s') => { s' with ipc := s'.ipc.debugAssert false }

/-- `reclaim_lent_caps`: send home every capability that the dying process borrowed. -/
def reclaimLentCaps (s : Kernel) (dying : CapTable) (dyingSlot : ProcSlot) : Kernel :=
  dying.iter.foldl (reclaimLentCap dyingSlot) s

/-! ### Death-time reaping -/

/-- The reply half of the first loop of `reap_dying`: wake a caller that waits for a reply of
the dying process. -/
def reapReply (P : Procs) (cap : Capability) : Procs :=
  match cap.object with
  | .reply caller =>
    if P.isBlocked caller then
      (P.takeReclaimLanding caller).2.wakeWith caller ipcPeerDied 0 noCap
    else P
  | _ => P

/-- The capability names the endpoint `id` and has the right `right`. -/
def reaches (id : EndpointId) (right : Rights) (cap : Capability) : Bool :=
  cap.object == .endpoint id && cap.rights.has right

/-- The counting half of that loop: the capabilities of the dying process that reach `id`. -/
def dyingCount (dying : CapTable) (id : EndpointId) (right : Rights) : Nat :=
  dying.iter.countP (reaches id right)

/-- `wake_all_stranded`: wake every waiter of `id` with `IPC_PEER_DIED`. A queue holds at most
`maxProcesses` waiters, so the loop ends within that many rounds. -/
def wakeAllStranded (id : EndpointId) : Nat → Procs × Ipc → Procs × Ipc
  | 0, s => s
  | fuel + 1, (P, ipc) =>
    match ipc.dequeueWaiter id with
    | none => (P, ipc)
    | some (slot, ipc') =>
      let r := P.takeReclaimLanding slot
      wakeAllStranded id fuel (r.2.wakeWith slot ipcPeerDied 0 r.1, ipc')

/-- The body of the second loop of `reap_dying`, for one endpoint. -/
def reapEndpoint (dying : CapTable) (s : Procs × Ipc) (id : EndpointId) : Procs × Ipc :=
  let ep := s.2.endpoints id
  if ep.inUse &&
      ep.deathStrandsPeers (dyingCount dying id rightSend) (dyingCount dying id rightRecv) then
    wakeAllStranded id maxProcesses s
  else s

/-- `reap_dying`: wake every process that can only wait for the dying one. -/
def reapDying (s : Kernel) (dying : CapTable) : Kernel :=
  let r := (List.finRange maxEndpoints).foldl (reapEndpoint dying)
    (dying.iter.foldl reapReply s.procs, s.ipc)
  { s with procs := r.1, ipc := r.2 }

/-! ### Teardown -/

/-- The arm of the drain in `teardown` for one capability. -/
def drainCap (s : Kernel) (cap : Capability) : Kernel :=
  match releaseAction cap with
  | .freeFrame addr => s.setFa (s.mem.fa.giveBack addr)
  | .releaseRing id => { s with rings := s.rings.release id }
  | .dropEndpoint => { s with ipc := s.ipc.noteCapRemoved cap true }
  | .unmapFramebuffer => s
  | .reclaimTo _ => s
  | .dropSlot => s
  | .unbindDevice _ => s
  | .refuse => s

/-- `teardown`: return everything that the process held. -/
def teardown (s : Kernel) (proc : Process) (boot : List (Nat × Nat)) : Kernel :=
  let vas := proc.maps.filterMap fun e => e.map Prod.fst
  let s := { s with mem := s.mem.unmapAll proc.l4 vas }
  let s := proc.caps.iter.foldl drainCap s
  { s with mem := unloadPages proc.l4 boot s.mem }

/-- `on_exit`: reclaim the process that runs on `core`. The core is idle afterwards. -/
def onExit (s : Kernel) (core : Core) : Option Kernel :=
  match s.procs.current core with
  | none => none
  | some proc =>
    let cur := s.procs.currentSlot core
    let s := { s with procs := s.procs.setCurrent core none }
    let s := s.reclaimLentCaps proc.caps cur
    let s := s.reapDying proc.caps
    let s := { s with procs := s.procs.clearOriginsNaming cur }
    let boot := (s.procs.table cur).bootFrames
    let s := s.teardown proc boot
    let s := { s with mem := s.mem.destroyAddressSpace proc.l4 }
    some { s with procs := s.procs.setSlot cur Slot.empty, ipc := s.ipc.clearLink cur }

/-! ### Spawn and launch -/

/-- `scheduler::spawn`: set a process up in the first free slot. -/
def schedSpawn (s : Kernel) (image : Option Image) (caps : List Capability) :
    Option ProcSlot × Kernel :=
  match s.procs.findFreeSlot with
  | none => (none, s)
  | some id =>
    match s.setupProcess id image caps with
    | (true, s') => (some id, s')
    | (false, s') => (none, s')

/-- `teardown_all` for one slot: reclaim a process that was set up before a launch failed. -/
def teardownSlot (s : Kernel) (p : ProcSlot) : Kernel :=
  match (s.procs.table p).process with
  | none => { s with procs := s.procs.setSlot p Slot.empty }
  | some proc =>
    let s' := s.teardown proc (s.procs.table p).bootFrames
    let s' := { s' with mem := s'.mem.destroyAddressSpace proc.l4 }
    { s' with procs := s'.procs.setSlot p Slot.empty }

/-- `teardown_all`. -/
def teardownAll (s : Kernel) : Kernel :=
  let s := (List.finRange maxProcesses).foldl teardownSlot s
  { s with ipc := { s.ipc with links := fun _ => none } }

/-- The grants of process `id` in a launch of `count` processes: a single process gets every
entry of `extra`, and otherwise each one gets its own entry. -/
def grantsFor (count : Nat) (extra : List (Option Capability)) (id : Nat) : List Capability :=
  if count = 1 then extra.reduceOption else (extra.getD id none).toList

/-- The set-up loop of `run`, for the processes `ids`. `false` if one of them failed. -/
def launch (count : Nat) (extra : List (Option Capability)) :
    List (ProcSlot × Option Image) → Kernel → Bool × Kernel
  | [], s => (true, s)
  | (id, image) :: rest, s =>
    match s.setupProcess id image (grantsFor count extra id) with
    | (true, s') => launch count extra rest s'
    | (false, s') => (false, s')

/-- Every slot of the process table is free. -/
def tableEmpty (s : Kernel) : Bool :=
  (List.finRange maxProcesses).all fun p => s.procs.state p == .empty

/-- `run`: launch at most `maxProcesses` images and start the first one on the launching
core. A failed set-up reclaims what was set up and launches nothing. -/
def run (s : Kernel) (core : Core) (images : List (Option Image))
    (extra : List (Option Capability)) : Kernel :=
  let count := min images.length maxProcesses
  let r := launch count extra ((List.finRange maxProcesses).zip images) s
  if r.1 then
    match r.2.procs.resume core 0 with
    | some procs => { r.2 with procs }
    | none => r.2
  else r.2.teardownAll

end Kernel

end Plinth
