import Mathlib.Algebra.GroupWithZero.Nat
import Mathlib.Data.List.Basic
import Mathlib.Logic.Function.Basic
import Plinth.Common.Transition

/-!
# `Plinth.Executor.Bound`: the executor over a directly-bound device

The bound half of `libos/src/ring.rs`. The reactor owns the virtqueue of the device. It writes a
chain of three descriptors for each read and publishes its head in the available ring, and it
reaps the used ring. Each read in flight has a slot, with its own chain, header, status byte and
data sub-buffer.

The memory of the window is kept by cell: a header, a status byte or a sub-buffer is the cell at
its offset in its page. The device is a second party: it fetches the published chains in order, and
after that it moves the data, writes the status and reports the requests in any order. The history
of a run is kept beside the state: the requests that were posted and the reads that resolved.

A read with a poisoned address is not modelled. The doorbell, the wait without an error and the
drop of a future change nothing here.
-/

set_option autoImplicit false

namespace Plinth.BoundPath

open Transition

/-- `B_MAX_INFLIGHT`. -/
def maxInflight : Nat := 8

/-- `B_DESC_PER_READ`. -/
def descPerRead : Nat := 3

/-- `B_SECTOR_LEN`. -/
def sectorLen : Nat := 512

/-- `B_HDR_STRIDE`. -/
def hdrStride : Nat := 16

/-- `B_STATUS_BASE`. -/
def statusBase : Nat := 2048

/-- `B_STATUS_TIMEOUT`. -/
def statusTimeout : UInt64 := 0xFE

/-- The capacity of the staging table (`CAP`). -/
def stagingCap : Nat := 16

/-- The queue of the device. Its size is a power of two, as for every virtio queue, and
`init_bound` refuses one that has no room for a chain. -/
structure Geometry where
  qsize : Nat
  order : Nat
  power : qsize = 2 ^ order
  small : order ≤ 15
  chain : descPerRead ≤ qsize

/-- The number of slots (`chains`). -/
def Geometry.chains (g : Geometry) : Nat := min (g.qsize / descPerRead) maxInflight

/-! ### The memory of the window -/

/-- The pages that the device's domain maps. -/
inductive Page where
  | buf
  | data
  deriving DecidableEq, Repr

/-- An address as the device names it: an offset from the IOVA of a page. -/
structure Iova where
  page : Page
  off : Nat
  deriving DecidableEq, Repr

/-- A descriptor. -/
structure Desc where
  addr : Iova
  len : Nat
  flags : UInt16
  next : UInt16
  deriving DecidableEq, Repr

/-- `VD_F_NEXT`. -/
def flagNext : UInt16 := 1

/-- `VD_F_WRITE`. -/
def flagWrite : UInt16 := 2

/-- `VBLK_T_IN`. -/
def blkIn : UInt32 := 0

/-- A request header. -/
structure Header where
  kind : UInt32
  sector : UInt64
  deriving DecidableEq, Repr

/-- The window. `data` tells for each sub-buffer which sector was written there last. -/
structure Window where
  desc : Nat → Desc
  headers : Nat → Header
  statuses : Nat → UInt8
  data : Nat → Option UInt64
  availRing : Nat → UInt16
  availIdx : UInt16
  usedRing : Nat → UInt32
  usedIdx : UInt16

/-! ### The reactor and the device -/

/-- `BoundRead`. It has no slot if all were busy at its creation. -/
structure BoundRead where
  ud : UInt64
  sector : UInt64
  slot : Option Nat
  posted : Bool
  deriving DecidableEq, Repr

/-- The offset of the sub-buffer of a slot in the data page (`data_va`). -/
def dataOff (i : Nat) : Nat := i * sectorLen

/-- A request that was posted. -/
structure Post where
  ud : UInt64
  sector : UInt64
  slot : Nat
  deriving DecidableEq, Repr

/-- A request that the device fetched, and what the device did for it. -/
structure Job where
  head : UInt16
  sector : UInt64
  dataAt : Iova
  statusAt : Iova
  moved : Bool
  status : Option UInt8
  reported : Bool
  deriving DecidableEq, Repr

/-- The objects of the program, the bound half of the reactor, the window and the device. -/
structure State where
  reads : Nat → BoundRead
  nextUd : UInt64
  slotCookie : Nat → UInt64
  usedSeen : UInt16
  done : List (UInt64 × UInt64)
  undelivered : UInt32
  window : Window
  lastAvail : UInt16
  jobs : List Job
  posts : List Post
  resolved : List (BoundRead × UInt64)

/-- The head descriptor of a slot. -/
def headOf (i : Nat) : UInt16 := UInt16.ofNat i * UInt16.ofNat descPerRead

namespace Window

/-- The entry of a ring of `qsize` entries that an index selects. -/
def place (qsize : Nat) (idx : UInt16) : Nat := idx.toNat % qsize

/-- The header, the status byte and the chain of a slot, as `bound_enqueue` writes them. -/
def writeChain (w : Window) (i : Nat) (sector : UInt64) : Window :=
  { w with
    headers := Function.update w.headers (i * hdrStride) ⟨blkIn, sector⟩
    statuses := Function.update w.statuses (statusBase + i) 0xFF
    desc := Function.update (Function.update (Function.update w.desc
      (headOf i).toNat ⟨⟨.buf, i * hdrStride⟩, 16, flagNext, headOf i + 1⟩)
      ((headOf i).toNat + 1) ⟨⟨.data, dataOff i⟩, sectorLen, flagNext ||| flagWrite, headOf i + 2⟩)
      ((headOf i).toNat + 2) ⟨⟨.buf, statusBase + i⟩, 1, flagWrite, 0⟩ }

/-- Publish a head in the available ring. -/
def publish (w : Window) (qsize : Nat) (head : UInt16) : Window :=
  { w with
    availRing := Function.update w.availRing (place qsize w.availIdx) head
    availIdx := w.availIdx + 1 }

/-- What the device reads of the chain at `head`: header, data and status descriptor. -/
def readChain (w : Window) (head : UInt16) : Job :=
  let d₀ := w.desc head.toNat
  let d₁ := w.desc d₀.next.toNat
  let d₂ := w.desc d₁.next.toNat
  ⟨head, (w.headers d₀.addr.off).sector, d₁.addr, d₂.addr, false, none, false⟩

end Window

namespace State

/-- `u32::saturating_add(1)`. -/
def saturatingSucc (n : UInt32) : UInt32 := if n = 0xFFFFFFFF then n else n + 1

/-- `bound_alloc`: the first free slot, claimed for the cookie. -/
def alloc (g : Geometry) (s : State) (ud : UInt64) : Option Nat × State :=
  match (List.range g.chains).find? (fun i => s.slotCookie i == 0) with
  | some i => (some i, { s with slotCookie := Function.update s.slotCookie i ud })
  | none => (none, s)

/-- `read_bound`: the object `v` is a new read. -/
def create (g : Geometry) (s : State) (v : Nat) (sector : UInt64) : State :=
  let r := ({ s with nextUd := s.nextUd + 1 }).alloc g s.nextUd
  { r.2 with reads := Function.update r.2.reads v ⟨s.nextUd, sector, r.1, false⟩ }

/-- `bound_enqueue` for the read `v` with the slot `i`. -/
def enqueue (g : Geometry) (s : State) (v i : Nat) : State :=
  { s with
    window := (s.window.writeChain i (s.reads v).sector).publish g.qsize (headOf i)
    reads := Function.update s.reads v { s.reads v with posted := true }
    posts := s.posts ++ [⟨(s.reads v).ud, (s.reads v).sector, i⟩] }

/-- `take`: the oldest staged status for the cookie. -/
def take (s : State) (ud : UInt64) : Option UInt64 × State :=
  match s.done.find? (·.1 == ud) with
  | none => (none, s)
  | some e => (some e.2, { s with done := s.done.eraseP (·.1 == ud) })

/-- The end of a poll: the read resolves if its status is staged. -/
def resolve (s : State) (r : BoundRead) : State :=
  match s.take r.ud with
  | (some status, t) => { t with resolved := t.resolved ++ [(r, status)] }
  | (none, t) => t

/-- `BoundRead::poll`. -/
def poll (g : Geometry) (s : State) (v : Nat) : State :=
  match (s.reads v).slot with
  | none => { s with resolved := s.resolved ++ [(s.reads v, statusTimeout)] }
  | some i => (if (s.reads v).posted then s else s.enqueue g v i).resolve (s.reads v)

/-- `stage_done`. -/
def stageDone (s : State) (ud status : UInt64) : State :=
  if ud = 0 then s
  else if s.done.length < stagingCap then { s with done := s.done ++ [(ud, status)] }
  else { s with undelivered := saturatingSucc s.undelivered }

/-- One turn of the loop of `bound_fail_all`. -/
def failSlot (s : State) (i : Nat) : State :=
  if s.slotCookie i ≠ 0 then
    ({ s with slotCookie := Function.update s.slotCookie i 0 }).stageDone (s.slotCookie i)
      statusTimeout
  else s

/-- `bound_fail_all`. -/
def failAll (g : Geometry) (s : State) : State := (List.range g.chains).foldl failSlot s

/-- One turn of the loop of `bound_reap`, if the used index has moved. -/
def reapOne (g : Geometry) (s : State) : Option State :=
  if s.usedSeen = s.window.usedIdx then none
  else
    let head := s.window.usedRing (Window.place g.qsize s.usedSeen)
    let i := head.toNat / descPerRead
    let s' :=
      if i < g.chains then
        ({ s with slotCookie := Function.update s.slotCookie i 0 }).stageDone (s.slotCookie i)
          (s.window.statuses (statusBase + i)).toUInt64
      else s
    some { s' with usedSeen := s.usedSeen + 1 }

/-! ### The device -/

/-- The device fetches the next chain of the available ring. -/
def fetch (g : Geometry) (s : State) : Option State :=
  if s.lastAvail = s.window.availIdx then none
  else
    let head := s.window.availRing (Window.place g.qsize s.lastAvail)
    some { s with
      jobs := s.jobs ++ [s.window.readChain head]
      lastAvail := s.lastAvail + 1 }

/-- The device writes the sector of a request to its buffer. -/
def move (s : State) (n : Nat) : Option State :=
  match s.jobs[n]? with
  | none => none
  | some job =>
    if job.reported then none
    else some { s with
      window := { s.window with
        data := Function.update s.window.data job.dataAt.off (some job.sector) }
      jobs := s.jobs.set n { job with moved := true } }

/-- The device writes the status byte of a request, once. It reports success only for a sector
that it moved. -/
def finish (s : State) (n : Nat) (status : UInt8) : Option State :=
  match s.jobs[n]? with
  | none => none
  | some job =>
    if job.status.isSome ∨ (status = 0 ∧ job.moved = false) then none
    else some { s with
      window := { s.window with
        statuses := Function.update s.window.statuses job.statusAt.off status }
      jobs := s.jobs.set n { job with status := some status } }

/-- The device reports a finished request in the used ring. It does not touch it after that. -/
def report (g : Geometry) (s : State) (n : Nat) : Option State :=
  match s.jobs[n]? with
  | none => none
  | some job =>
    if job.status.isNone ∨ job.reported then none
    else some { s with
      window := { s.window with
        usedRing := Function.update s.window.usedRing (Window.place g.qsize s.window.usedIdx)
          job.head.toUInt32
        usedIdx := s.window.usedIdx + 1 }
      jobs := s.jobs.set n { job with reported := true } }

end State

/-! ### Steps -/

/-- A step of the program or of the device. -/
inductive Label where
  /-- `read_bound` of a sector. -/
  | create (v : Nat) (sector : UInt64)
  | poll (v : Nat)
  /-- `sys_bind_wait` returns an error. -/
  | waitError
  /-- One element of the used ring is reaped. -/
  | reap
  | fetch
  | move (n : Nat)
  | finish (n : Nat) (status : UInt8)
  | report (n : Nat)

/-- One step. -/
def State.next (g : Geometry) (s : State) : Label → Option State
  | .create v sector => some (s.create g v sector)
  | .poll v => some (s.poll g v)
  | .waitError => some (s.failAll g)
  | .reap => s.reapOne g
  | .fetch => s.fetch g
  | .move n => s.move n
  | .finish n status => s.finish n status
  | .report n => s.report g n

/-- The reactor after `init_bound`. The queue is idle, at the indices where the kernel's selftest
left it. -/
structure Fresh (s : State) : Prop where
  reads : ∀ v, (s.reads v).slot = none
  nextUd : s.nextUd = 1
  slotCookie : ∀ i, s.slotCookie i = 0
  done : s.done = []
  usedSeen : s.usedSeen = s.window.usedIdx
  avail : s.window.availIdx = s.window.usedIdx
  lastAvail : s.lastAvail = s.window.availIdx
  jobs : s.jobs = []
  posts : s.posts = []
  resolved : s.resolved = []

/-- The executor over a bound device. -/
def system (g : Geometry) : System State Label where
  init := Fresh
  next := State.next g

end Plinth.BoundPath
