import Plinth.BlockIo
import Plinth.Common.IndexRing
import Plinth.Common.Transition

/-!
# `Plinth.Executor.Reactor`: the reference executor over a kernel ring

The kernel-bridged half of `libos/src/ring.rs`. A future is a tree of leaves and combinators. A
leaf that is polled for the first time pushes its entry into the submission queue. After that a
poll looks for its completion in the staging table of the reactor. `block_on` polls its tree, and
while the tree is pending it rings the doorbell, waits, and reaps the completion queue into the
table.

The objects of the program (reads, writes and event streams) are numbered, and a leaf names its
object, so that a stream outlives the future that borrows it. The history of a run is kept beside
the state: the entries pushed, the completions returned and those discarded. The code has no such
lists.

The kernel is a second party. It takes any number of the entries that wait at a submit, and it
posts completions at any time. The losses that the reactor prints on serial are not modelled, but
their counters are.
-/

set_option autoImplicit false

namespace Plinth.Executor

open Transition IndexRing

/-- The depth of the ring (`ENTRIES`), and the capacity of the staging table (`CAP`). -/
def ringEntries : Nat := 16

/-- The mask that the kernel writes into both ring headers. -/
def ringMask : UInt32 := 15

/-- The operations of an entry (`RING_OP_READ` and so on). -/
def ringOpRead : UInt32 := 0
def ringOpEventSub : UInt32 := 1
def ringOpCancel : UInt32 := 2
def ringOpWrite : UInt32 := 3

/-- `EVENT_DROPPED`. -/
def eventDropped : UInt64 := 0x80000000

theorem sized_ringMask : Sized ringMask := ⟨4, by decide, rfl⟩

/-! ### The reactor -/

/-- A completion `(user_data, status)`. The number `seq` counts the completions that the kernel
posted before it. -/
structure Completion where
  seq : Nat
  ud : UInt64
  status : UInt64
  deriving DecidableEq, Repr

/-- `Reactor`: the cookie source, the table of reaped completions and the two loss counters. -/
structure Reactor where
  nextUd : UInt64
  done : List Completion
  drops : UInt32
  undelivered : UInt32

/-- `u32::saturating_add(1)`. -/
def saturatingSucc (n : UInt32) : UInt32 := if n = 0xFFFFFFFF then n else n + 1

namespace Reactor

/-- `Reactor::take`: the oldest reaped completion for `ud`. It leaves the table, and the others
keep their order. -/
def take (r : Reactor) (ud : UInt64) : Option Completion × Reactor :=
  match r.done.find? (·.ud == ud) with
  | none => (none, r)
  | some c => (some c, { r with done := r.done.eraseP (·.ud == ud) })

/-- The tally of the kernel's drop flag as a completion passes through. -/
def tally (r : Reactor) (c : Completion) : Reactor :=
  if c.status &&& eventDropped ≠ 0 then { r with drops := saturatingSucc r.drops } else r

/-- The body of the loop of `Reactor::reap`: stage the completion, or discard and count it. -/
def stage (r : Reactor) (c : Completion) : Reactor :=
  if r.done.length < ringEntries then { r.tally c with done := r.done ++ [c] }
  else { r.tally c with undelivered := saturatingSucc r.undelivered }

end Reactor

/-! ### The objects of the program -/

/-- `Read` and `Write`, which differ in the operation alone. -/
structure Request where
  op : UInt32
  ud : UInt64
  posted : Bool
  rangeSlot : UInt64
  frameSlot : UInt64
  sectorOff : UInt64
  count : UInt64

/-- The entry that `push_sq` writes for a request. -/
def Request.entry (q : Request) : SqEntry :=
  ⟨q.op, (q.count &&& 0xFFFF).toUInt32, q.rangeSlot.toUInt32, q.frameSlot.toUInt32,
    q.sectorOff.toNat, q.ud.toNat⟩

/-- `EventStream`. -/
structure EventStream where
  ud : UInt64
  sourceSlot : UInt64
  armed : Bool

/-- The entry that `push_ctrl` writes. -/
def ctrlEntry (op : UInt32) (ud sourceSlot : UInt64) : SqEntry :=
  ⟨op, 0, sourceSlot.toUInt32, 0, 0, ud.toNat⟩

/-- The process: its objects, the reactor and the submission queue. -/
structure Tenant where
  requests : Nat → Request
  streams : Nat → EventStream
  reactor : Reactor
  sq : IndexRing SqEntry
  pushed : List SqEntry
  returned : List (UInt64 × Completion)
  discarded : List Completion

namespace Tenant

/-- The next cookie. -/
def nextCookie (t : Tenant) : UInt64 := t.reactor.nextUd

/-- Draw a cookie. -/
def draw (t : Tenant) : Tenant :=
  { t with reactor := { t.reactor with nextUd := t.reactor.nextUd + 1 } }

def setRequest (t : Tenant) (i : Nat) (q : Request) : Tenant :=
  { t with requests := Function.update t.requests i q }

def setStream (t : Tenant) (i : Nat) (e : EventStream) : Tenant :=
  { t with streams := Function.update t.streams i e }

/-- `read` and `write`: the object `i` is a new request. -/
def newRequest (t : Tenant) (i : Nat) (op : UInt32)
    (rangeSlot frameSlot sectorOff count : UInt64) : Tenant :=
  t.draw.setRequest i ⟨op, t.nextCookie, false, rangeSlot, frameSlot, sectorOff, count⟩

/-- `read`. -/
def read (t : Tenant) (i : Nat) (rangeSlot frameSlot sectorOff count : UInt64) : Tenant :=
  t.newRequest i ringOpRead rangeSlot frameSlot sectorOff count

/-- `write`. -/
def write (t : Tenant) (i : Nat) (rangeSlot frameSlot sectorOff count : UInt64) : Tenant :=
  t.newRequest i ringOpWrite rangeSlot frameSlot sectorOff count

/-- `subscribe`: the object `i` is a new stream. -/
def subscribe (t : Tenant) (i : Nat) (sourceSlot : UInt64) : Tenant :=
  t.draw.setStream i ⟨t.nextCookie, sourceSlot, false⟩

/-- Write an entry at the tail of the submission queue (`push_sq`, `push_ctrl`). -/
def push (t : Tenant) (e : SqEntry) : Tenant :=
  { t with sq := t.sq.push ringMask e, pushed := t.pushed ++ [e] }

/-- The submission half of `Read::poll` and `Write::poll`. -/
def post (t : Tenant) (i : Nat) : Tenant :=
  if (t.requests i).posted then t
  else (t.push (t.requests i).entry).setRequest i { t.requests i with posted := true }

/-- `EventStream::arm`. -/
def arm (t : Tenant) (i : Nat) : Tenant :=
  if (t.streams i).armed then t
  else (t.push (ctrlEntry ringOpEventSub (t.streams i).ud (t.streams i).sourceSlot)).setStream i
    { t.streams i with armed := true }

/-- `reactor().take(ud)`. -/
def take (t : Tenant) (ud : UInt64) : Option UInt64 × Tenant :=
  match t.reactor.take ud with
  | (none, r) => (none, { t with reactor := r })
  | (some c, r) => (some c.status, { t with reactor := r, returned := t.returned ++ [(ud, c)] })

/-- Stage one completion of the completion queue. -/
def stage (t : Tenant) (c : Completion) : Tenant :=
  { t with
    reactor := t.reactor.stage c
    discarded := if t.reactor.done.length < ringEntries then t.discarded else t.discarded ++ [c] }

end Tenant

/-! ### The futures -/

/-- A future with one word as its output. These are the futures that `join` takes. -/
inductive Leaf where
  /-- `Read` or `Write`. -/
  | request (i : Nat)
  /-- `EventStream::next`. -/
  | next (i : Nat)
  deriving DecidableEq, Repr

/-- What a future resolves to. -/
inductive Out where
  | word (w : UInt64)
  | words (ws : List UInt64)
  | pair (a b : Out)
  | left (a : Out)
  | right (b : Out)
  deriving DecidableEq, Repr

/-- A future. `join` keeps the status of each child that is done, `join2` the output of each side,
and `collect` the number of events to come and the events that it has. -/
inductive Fut where
  | leaf (l : Leaf)
  | collect (i : Nat) (n : Nat) (events : List UInt64)
  | join (reads : List (Leaf × Option UInt64))
  | join2 (a : Fut) (aOut : Option Out) (b : Fut) (bOut : Option Out)
  | select2 (a b : Fut)
  deriving DecidableEq, Repr

/-- `status & !EVENT_DROPPED`. -/
def eventWord (status : UInt64) : UInt64 := status &&& ~~~eventDropped

/-- `Read::poll`, `Write::poll` and `NextEvent::poll`. -/
def Leaf.poll : Leaf → Tenant → Option UInt64 × Tenant
  | .request i, t => (t.post i).take ((t.post i).requests i).ud
  | .next i, t =>
    let r := (t.arm i).take ((t.arm i).streams i).ud
    (r.1.map eventWord, r.2)

/-- The loop of `Collect::poll`, with `n` events to come. -/
def collectLoop (ud : UInt64) : Nat → List UInt64 → Tenant → Nat × List UInt64 × Tenant
  | 0, events, t => (0, events, t)
  | n + 1, events, t =>
    match t.take ud with
    | (some status, t') => collectLoop ud n (events ++ [eventWord status]) t'
    | (none, t') => (n + 1, events, t')

/-- The loop of `JoinReads::poll`. -/
def pollReads : List (Leaf × Option UInt64) → Tenant → List (Leaf × Option UInt64) × Tenant
  | [], t => ([], t)
  | (l, some status) :: reads, t =>
    let r := pollReads reads t
    ((l, some status) :: r.1, r.2)
  | (l, none) :: reads, t =>
    let p := l.poll t
    let r := pollReads reads p.2
    ((l, p.1) :: r.1, r.2)

/-- `poll`: the output if the future is ready, the future as it is left, and the process. -/
def Fut.poll : Fut → Tenant → Option Out × Fut × Tenant
  | .leaf l, t =>
    let r := l.poll t
    (r.1.map .word, .leaf l, r.2)
  | .collect i n events, t =>
    let r := collectLoop ((t.arm i).streams i).ud n events (t.arm i)
    (if r.1 = 0 then some (.words r.2.1) else none, .collect i r.1 r.2.1, r.2.2)
  | .join reads, t =>
    let r := pollReads reads t
    (if r.1.all (·.2.isSome) then some (.words (r.1.filterMap (·.2))) else none, .join r.1, r.2)
  | .join2 a aOut b bOut, t =>
    let ra := if aOut.isSome then (aOut, a, t) else a.poll t
    let rb := if bOut.isSome then (bOut, b, ra.2.2) else b.poll ra.2.2
    match ra.1, rb.1 with
    | some v, some w => (some (.pair v w), .join2 ra.2.1 none rb.2.1 none, rb.2.2)
    | _, _ => (none, .join2 ra.2.1 ra.1 rb.2.1 rb.1, rb.2.2)
  | .select2 a b, t =>
    let ra := a.poll t
    match ra.1 with
    | some v => (some (.left v), .select2 ra.2.1 b, ra.2.2)
    | none =>
      let rb := b.poll ra.2.2
      (rb.1.map .right, .select2 ra.2.1 rb.2.1, rb.2.2)

/-! ### `block_on` and the kernel -/

/-- Where the process stands. It is between two calls of `block_on`, with the output of the last
one, or at a point of the loop of `block_on`. -/
inductive Phase where
  | idle (out : Option Out)
  | polling (f : Fut)
  | submitting (f : Fut)
  | waiting (f : Fut)
  | reaping (f : Fut)
  deriving DecidableEq, Repr

/-- The process and the two queues that it shares with the kernel. `consumed` and `posted` are what
the kernel took from the one and put into the other. -/
structure State where
  tenant : Tenant
  cq : IndexRing Completion
  phase : Phase
  consumed : List SqEntry
  posted : List Completion

/-- A step of the process or of the kernel. -/
inductive Label where
  | read (i : Nat) (rangeSlot frameSlot sectorOff count : UInt64)
  | write (i : Nat) (rangeSlot frameSlot sectorOff count : UInt64)
  | subscribe (i : Nat) (sourceSlot : UInt64)
  /-- `block_on` of a future. -/
  | call (f : Fut)
  /-- The poll of the loop. -/
  | poll
  /-- `ring_submit`, at which the kernel consumes `n` entries. -/
  | submit (n : Nat)
  /-- `ring_wait` returns. -/
  | wake
  | reap
  /-- `EventStream::cancel`, with the number of entries that its submit consumes. -/
  | cancel (i n : Nat)
  /-- The kernel posts a completion. An event is dropped if the queue is full. -/
  | post (event : Bool) (ud : UInt64) (status : UInt32)

namespace State

/-- `ring_submit`: the kernel consumes the first `n` entries that wait. -/
def submit (s : State) (n : Nat) : Option State :=
  if n ≤ s.tenant.sq.count then
    some { s with
      tenant := { s.tenant with sq := s.tenant.sq.advance n }
      consumed := s.consumed ++ s.tenant.sq.entries ringMask n }
  else none

/-- `Reactor::reap`: stage every completion of the queue, in order. -/
def reap (s : State) : State :=
  { s with
    tenant := (s.cq.contents ringMask).foldl Tenant.stage s.tenant
    cq := s.cq.advance s.cq.count }

/-- The completion that the kernel posts next. -/
def completion (s : State) (ud : UInt64) (status : UInt32) : Completion :=
  ⟨s.posted.length, ud, status.toUInt64⟩

/-- The kernel posts a completion (`cq_post`). -/
def post (s : State) (ud : UInt64) (status : UInt32) : State :=
  { s with
    cq := s.cq.push ringMask (s.completion ud status)
    posted := s.posted ++ [s.completion ud status] }

/-- One step. -/
def next (s : State) : Label → Option State
  | .read i rangeSlot frameSlot sectorOff count =>
    match s.phase with
    | .idle _ => some { s with tenant := s.tenant.read i rangeSlot frameSlot sectorOff count }
    | _ => none
  | .write i rangeSlot frameSlot sectorOff count =>
    match s.phase with
    | .idle _ => some { s with tenant := s.tenant.write i rangeSlot frameSlot sectorOff count }
    | _ => none
  | .subscribe i sourceSlot =>
    match s.phase with
    | .idle _ => some { s with tenant := s.tenant.subscribe i sourceSlot }
    | _ => none
  | .call f =>
    match s.phase with
    | .idle _ => some { s with phase := .polling f }
    | _ => none
  | .poll =>
    match s.phase with
    | .polling f =>
      let r := f.poll s.tenant
      some { s with
        tenant := r.2.2
        phase := match r.1 with
          | some v => .idle (some v)
          | none => .submitting r.2.1 }
    | _ => none
  | .submit n =>
    match s.phase with
    | .submitting f => ({ s with phase := .waiting f }).submit n
    | _ => none
  | .wake =>
    match s.phase with
    | .waiting f => some { s with phase := .reaping f }
    | _ => none
  | .reap =>
    match s.phase with
    | .reaping f => some ({ s with phase := .polling f }).reap
    | _ => none
  | .cancel i n =>
    match s.phase with
    | .idle _ =>
      let e := s.tenant.streams i
      if e.armed then
        ({ s with
          tenant := (s.tenant.push (ctrlEntry ringOpCancel e.ud 0)).setStream i
            { e with armed := false } }).submit n
      else some s
    | _ => none
  | .post event ud status =>
    if event ∧ ringEntries ≤ s.cq.count then some s else some (s.post ud status)

end State

/-- A ring after `init`, with no object yet. The indices are those that the kernel starts with. -/
structure Fresh (s : State) : Prop where
  phase : s.phase = .idle none
  sq : s.tenant.sq.head = s.tenant.sq.tail
  cq : s.cq.head = s.cq.tail
  done : s.tenant.reactor.done = []
  undelivered : s.tenant.reactor.undelivered = 0
  pushed : s.tenant.pushed = []
  returned : s.tenant.returned = []
  discarded : s.tenant.discarded = []
  consumed : s.consumed = []
  posted : s.posted = []

/-- The executor over one ring, with the kernel at the other end. -/
def system : System State Label where
  init := Fresh
  next := State.next

end Plinth.Executor
