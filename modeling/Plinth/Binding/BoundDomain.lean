import Plinth.Queues.Virtqueue
import Plinth.Step

/-!
# `Plinth.Binding.BoundDomain`: the DMA domain of a bound device

The part of `kernel/src/iommu.rs` and `kernel/src/virtio_blk.rs` that binds a device. The boot code
builds a domain for the device and maps its frames there at IOVAs from a window. The device is
programmed with these IOVAs, and the library OS names them in its descriptors.

`Board` is the kernel with this domain. While it boots, it brings devices up, turns translation on
and runs the self-test. After the first entry of the kernel proper it only runs the kernel.

`Board.dma` is what an access of the device reaches. A device whose status register was cleared
makes no access. The root and context tables of the unit and its caches are left out.
-/

set_option autoImplicit false

namespace Plinth

/-! ### The window of IOVAs -/

/-- `IOVA_FREELIST`. -/
def iovaFreelist : Nat := 64

/-- `BOUND_IOVA_BASE`. -/
def boundIovaBase : Nat := 0x40000000

/-- `BOUND_IOVA_PAGES`. -/
def boundIovaPages : Nat := 256

/-- `IovaAllocator`: a cursor in a window that ends at `limit`, and the stack of the freed IOVAs
with its top first. -/
structure IovaAllocator where
  next : Nat
  limit : Nat
  freed : List Nat
  deriving DecidableEq

namespace IovaAllocator

/-- A window of `pages` pages from `base` on. -/
def new (base pages : Nat) : IovaAllocator := ⟨base, base + pages * frameSize, []⟩

/-- Hand out an IOVA. A freed one goes first. -/
def alloc (a : IovaAllocator) : Option (Nat × IovaAllocator) :=
  match a.freed with
  | iova :: freed => some (iova, { a with freed })
  | [] => if a.next < a.limit then some (a.next, { a with next := a.next + frameSize }) else none

/-- Take an IOVA back. It is dropped if the stack is full. -/
def free (a : IovaAllocator) (iova : Nat) : IovaAllocator :=
  if a.freed.length < iovaFreelist then { a with freed := iova :: a.freed } else a

end IovaAllocator

/-! ### The domain -/

/-- `Domain::map` of the page at `iova`. The result is `false` if a table cannot be allocated or
if the page is mapped. A table that was allocated stays linked. -/
def Domain.map (d : Domain) (fa : FrameAlloc) (iova : Nat) : Bool × Domain × FrameAlloc :=
  let r := linkTables (d.keys iova) fa d.tables
  let d' := { d with tables := r.2.2 }
  if r.1 && !d.leaves.contains iova then (true, { d' with leaves := iova :: d.leaves }, r.2.1)
  else (false, d', r.2.1)

/-- `BoundDomain`: the domain of the bound device with the allocator of its IOVAs. `maps` gives the
frame behind each mapped page, by the number of the page. -/
structure BoundDomain where
  domain : Domain
  iova : IovaAllocator
  maps : List (Nat × Nat)
  deriving DecidableEq

namespace BoundDomain

/-- `Domain::map_buffer`: map `phys` at an IOVA from the window. -/
def mapBuffer (bd : BoundDomain) (fa : FrameAlloc) (phys : Nat) :
    Option Nat × BoundDomain × FrameAlloc :=
  match bd.iova.alloc with
  | none => (none, bd, fa)
  | some (iova, window) =>
    let r := bd.domain.map fa iova
    if r.1 then (some iova, ⟨r.2.1, window, (iova / frameSize, phys) :: bd.maps⟩, r.2.2)
    else (none, ⟨r.2.1, window.free iova, bd.maps⟩, r.2.2)

/-- The loop of `bind_prepare` over the fixed frames. The first error ends it. -/
def mapFrames : List Nat → BoundDomain → FrameAlloc →
    Option (List Nat × BoundDomain) × FrameAlloc
  | [], bd, fa => (some ([], bd), fa)
  | frame :: frames, bd, fa =>
    match bd.mapBuffer fa (frame / frameSize * frameSize) with
    | (none, _, fa') => (none, fa')
    | (some iova, bd', fa') =>
      match mapFrames frames bd' fa' with
      | (none, fa'') => (none, fa'')
      | (some (iovas, bd''), fa'') => (some (iova :: iovas, bd''), fa'')

/-- The physical address behind a device address. -/
def translate (bd : BoundDomain) (addr : Nat) : Option Nat :=
  (bd.maps.lookup (addr / frameSize)).map fun phys => phys + addr % frameSize

end BoundDomain

/-- The direct binding of a device. -/
def Devices.binding (ds : Devices) (dev : DevId) : Option Bound :=
  (ds.devices dev).bind VirtioBlk.bound

/-- The domain of the bound device. -/
def Devices.boundDomain (ds : Devices) : Option Domain :=
  ds.iommu.bind BlockIommu.bound

/-- Replace the domain of the bound device. -/
def Devices.setBoundDomain (ds : Devices) (d : Option Domain) : Devices :=
  { ds with iommu := ds.iommu.map fun bi => { bi with bound := d } }

/-- DMA goes through the domains. -/
def Devices.translated (ds : Devices) : Bool := ds.iommu.any BlockIommu.enabled

/-! ### The board -/

/-- What `init` learns from the registers of a device that negotiated its features. -/
structure DeviceRegs where
  /-- `VIRTIO_F_ACCESS_PLATFORM` was negotiated. -/
  accessPlatform : Bool
  queueSize : Nat
  /-- The physical address of the notify register of queue 0. -/
  notifyReg : Nat
  deriving DecidableEq

/-- The kernel, with the domain of the bound device. -/
structure Board where
  kernel : Kernel
  bound : Option BoundDomain
  booting : Bool

namespace Board

/-- The frame allocator. -/
def fa (b : Board) : FrameAlloc := b.kernel.mem.fa

/-- Replace the frame allocator. -/
def setFa (b : Board) (fa : FrameAlloc) : Board := { b with kernel := b.kernel.setFa fa }

/-- Replace the domain of the bound device. -/
def setBound (b : Board) (bd : BoundDomain) : Board :=
  { b with
    kernel := { b.kernel with devs := b.kernel.devs.setBoundDomain (some bd.domain) }
    bound := some bd }

/-- Replace one device. -/
def setDevice (b : Board) (dev : DevId) (d : VirtioBlk) : Board :=
  { b with kernel := { b.kernel with devs := b.kernel.devs.setDevice dev (some d) } }

/-- `alloc_zeroed`, `n` times. The list is shorter if the pool runs out. -/
def allocZeroed : Nat → FrameAlloc → List Nat × FrameAlloc
  | 0, fa => ([], fa)
  | n + 1, fa =>
    match fa.alloc with
    | .error _ => ([], fa)
    | .ok (a, fa') => (a :: (allocZeroed n fa').1, (allocZeroed n fa').2)

/-- `bind_prepare`: build a domain for the device and map its fixed frames. The result is their
IOVAs. -/
def bindPrepare (b : Board) (fixed : List Nat) : Option (List Nat) × Board :=
  match b.kernel.devs.iommu with
  | none => (none, b)
  | some bi =>
    if bi.bound.isSome then (none, b)
    else
      match b.fa.alloc with
      | .error _ => (none, b)
      | .ok (root, fa) =>
        match BoundDomain.mapFrames fixed ⟨⟨root, bi.domain.levels, [], []⟩,
            .new boundIovaBase boundIovaPages, []⟩ fa with
        | (none, fa') => (none, b.setFa fa')
        | (some (iovas, bd), fa') => (some iovas, (b.setFa fa').setBound bd)

/-- `bind_map_dma`: map a data frame in the domain of the bound device. -/
def bindMapDma (b : Board) (phys : Nat) : Option Nat × Board :=
  match b.bound with
  | none => (none, b)
  | some bd =>
    let r := bd.mapBuffer b.fa (phys / frameSize * frameSize)
    (r.1, (b.setFa r.2.2).setBound r.2.1)

/-- `init` of a device that is to be bound. An error keeps the frames that were taken. -/
def init (b : Board) (dev : DevId) (regs : DeviceRegs) : Board :=
  match allocZeroed 4 b.fa with
  | ([desc, avail, used, buf], fa) =>
    if regs.accessPlatform then
      match (b.setFa fa).bindPrepare [desc, avail, used, buf] with
      | (some [_, _, _, bufIova], b') =>
        if regs.queueSize = 0 then b'
        else
          match b'.fa.alloc with
          | .error _ => b'
          | .ok (data, fa') =>
            match (b'.setFa fa').bindMapDma data with
            | (none, b'') => b''
            | (some dataIova, b'') =>
              let qsize := min regs.queueSize queueSizeMax
              b''.setDevice dev {
                qsize, inflights := Inflights.new (qsize / descPerReq)
                chains := fun _ => ⟨0, 0, 0, .read⟩, ringFrames := [desc, avail, used, buf]
                bound := some {
                  bufIova, notifyPagePhys := regs.notifyReg / frameSize * frameSize
                  descPhys := desc, availPhys := avail, usedPhys := used, bufPhys := buf
                  dataPhys := data, dataIova, waiter := none } }
      | (_, b') => b'
    else b.setFa fa
  | (_, fa) => b.setFa fa

/-- `block_enable`. The unit can fail to acknowledge, and the boot goes on without translation. -/
def blockEnable (b : Board) (acknowledged : Bool) : Board :=
  if acknowledged then
    { b with kernel := { b.kernel with devs := { b.kernel.devs with
      iommu := b.kernel.devs.iommu.map fun bi => { bi with enabled := true } } } }
  else b

/-- `read_block_polled` of a device. The device reports the chains `elems`, or nothing at all. -/
def readBlockPolled (d : VirtioBlk) (dataAddr : Nat) (elems : List (Nat × UInt8)) : VirtioBlk :=
  match d.inflights.submit .poll with
  | none => d
  | some (head, inflights) =>
    let done := if elems = [] then (inflights.complete head).elim inflights Prod.snd
      else (Devices.drainCompletions elems inflights []).2
    { d with
      inflights := done
      chains := Function.update d.chains (head / descPerReq) ⟨0, 512, dataAddr, .read⟩ }

/-- `bind_selftest_read`: read a sector into a scratch frame and free the frame. The mapping of the
frame stays in the domain. -/
def bindSelftestRead (b : Board) (dev : DevId) (elems : List (Nat × UInt8)) : Board :=
  match b.fa.alloc with
  | .error _ => b
  | .ok (phys, fa) =>
    match (b.setFa fa).bindMapDma phys with
    | (none, b') => b'.setFa (b'.fa.giveBack phys)
    | (some dataIova, b') =>
      let b' := match b'.kernel.devs.devices dev with
        | some d => b'.setDevice dev (readBlockPolled d dataIova elems)
        | none => b'
      b'.setFa (b'.fa.giveBack phys)

/-- The board after an entry of the kernel. The domain goes with its tables. -/
def afterEntry (b : Board) (t : Kernel) : Board where
  kernel := t
  bound := if t.devs.boundDomain.isSome then b.bound else none
  booting := false

/-- What happens on a board: the boot code brings a bound device up, turns translation on and runs
the self-test, and afterwards the kernel runs. -/
inductive Event where
  | init (dev : DevId) (regs : DeviceRegs)
  | blockEnable (acknowledged : Bool)
  | bindSelftest (dev : DevId) (elems : List (Nat × UInt8))
  | entry (ℓ : Label)

/-- One step. The boot code brings each device up once, before it turns translation on. -/
def step (b : Board) : Event → Option Board
  | .init dev regs =>
    if b.booting && !b.kernel.devs.ready dev && !b.kernel.devs.translated then
      some (b.init dev regs)
    else none
  | .blockEnable acknowledged => if b.booting then some (b.blockEnable acknowledged) else none
  | .bindSelftest dev elems =>
    if b.booting && b.kernel.devs.ready dev then some (b.bindSelftestRead dev elems) else none
  | .entry ℓ => (b.kernel.step ℓ).map b.afterEntry

/-- The kernel is booted but for the device to bind. -/
structure Starts (b : Board) : Prop where
  booted : Kernel.Booted b.kernel
  booting : b.booting = true
  noDomain : b.bound = none ∧ b.kernel.devs.boundDomain = none
  noBinding : ∀ dev, b.kernel.devs.binding dev = none

/-- The board as a transition system. -/
def system : Transition.System Board Event where
  init := Starts
  next := step

/-! ### The accesses of a bound device -/

/-- The physical address that an access of device `dev` at `addr` reaches. `none` if the access
faults, or if the device is not bound: `unbind` resets a device. -/
def dma (b : Board) (dev : DevId) (addr : Nat) : Option Nat :=
  if (b.kernel.devs.binding dev).isSome then
    if b.kernel.devs.translated then b.bound.bind fun bd => bd.translate addr else some addr
  else none

/-- The steps of `unbind`. -/
inductive UnbindStep where
  | reset
  | free (a : Nat)
  | detach
  deriving DecidableEq

/-- A state in the middle of `unbind`: whether the device runs, the domain that its context entry
points at, and the frame allocator. -/
structure Unbinding where
  live : Bool
  routed : Option BoundDomain
  fa : FrameAlloc

/-- What an access of the device reaches there. -/
def Unbinding.dma (u : Unbinding) (addr : Nat) : Option Nat :=
  if u.live then u.routed.bind fun bd => bd.translate addr else none

/-- One step of `unbind`. -/
def Unbinding.apply (u : Unbinding) : UnbindStep → Unbinding
  | .reset => { u with live := false }
  | .free a => { u with fa := u.fa.giveBack a }
  | .detach => { u with routed := none }

/-- The order of the steps: the reset, the frames of the binding, the context entry, and the tables
of the domain. -/
def unbindSteps (c : Bound) (d : Option Domain) : List UnbindStep :=
  .reset :: c.frames.map .free ++ .detach :: (d.elim [] Domain.frames).map .free

/-- The state after the first `n` steps of the unbind of a device with the binding `c`. -/
def unbinding (b : Board) (c : Bound) (n : Nat) : Unbinding :=
  ((unbindSteps c b.kernel.devs.boundDomain).take n).foldl Unbinding.apply ⟨true, b.bound, b.fa⟩

end Board

end Plinth
