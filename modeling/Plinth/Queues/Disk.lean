import Plinth.Queues.Virtqueue

/-!
# `Plinth.Queues.Disk`: polled reads and the disk that answers them

`read_block_polled` of `kernel/src/virtio_blk.rs`, with the loop that spins on the used index, the
bound on it, and the drain into an array of one element. Each test of the loop is a step, and so is
each element of the drain.

The other party is a disk that does its work as the standard says, in its own time: it takes the
entries of the available ring in order and reads the chain of a request when it takes it, it moves
the bytes of the sectors, and it reports a status in the status byte and the head in the used ring.
A status of 0 comes after all the bytes. Requests can overtake each other, and a request can be
reported after its caller has given up.

The numbers of the requests are no data of the program.
-/

set_option autoImplicit false

namespace Plinth

open Transition

/-! ### Words -/

namespace Ram

/-- Two words are equal if their bytes are. -/
theorem read_shift {ram ram' : Ram} {a b n : Nat} (h : ∀ i, i < n → ram' (b + i) = ram (a + i)) :
    ram'.read b n = ram.read a n := by
  induction n generalizing a b with
  | zero => rfl
  | succ n ih =>
    have hfirst := h 0 (Nat.succ_pos n)
    rw [Nat.add_zero, Nat.add_zero] at hfirst
    unfold read
    rw [hfirst, ih fun i hi => ?_]
    have hnext := h (i + 1) (Nat.succ_lt_succ hi)
    rwa [Nat.add_comm i 1, ← Nat.add_assoc, ← Nat.add_assoc] at hnext

theorem r16_congr {ram ram' : Ram} {a : Nat} (h : ∀ i, i < 2 → ram' (a + i) = ram (a + i)) :
    ram'.r16 a = ram.r16 a := by
  unfold r16
  rw [read_congr h]

theorem r16_w16 (ram : Ram) (a v : Nat) : (ram.w16 a v).r16 a = UInt16.ofNat v := by
  unfold r16 w16
  rw [read_write, ← UInt16.toNat_inj, UInt16.toNat_ofNat', UInt16.toNat_ofNat']
  omega

theorem r16_w16_of_apart {a b : Nat} (ram : Ram) (v : Nat) (h : a + 2 ≤ b ∨ b + 2 ≤ a) :
    (ram.w16 b v).r16 a = ram.r16 a :=
  r16_congr fun _ _ => w16_of_outside _ _ _ (by omega)

end Ram

/-! ### The memory of a request -/

namespace Virtqueue

variable {q : Virtqueue} {ram : Ram} {a head slot sector count dataDevAddr : Nat}
  {wantInterrupt : Bool} {dir : Direction}

theorem writeDesc_addr {d addr len flags link : Nat} :
    (writeDesc ram d addr len flags link).r64 d = addr % 2 ^ 64 := by
  unfold writeDesc
  rw [Ram.r64_congr fun i _ => Ram.w16_of_outside _ _ _ (by omega),
    Ram.r64_congr fun i _ => Ram.w16_of_outside _ _ _ (by omega),
    Ram.r64_w32_of_apart _ _ (by omega), Ram.r64_w64]

theorem writeDesc_len {d addr len flags link : Nat} :
    (writeDesc ram d addr len flags link).r32 (d + 8) = UInt32.ofNat len := by
  unfold writeDesc
  rw [Ram.r32_congr fun i _ => Ram.w16_of_outside _ _ _ (by omega),
    Ram.r32_congr fun i _ => Ram.w16_of_outside _ _ _ (by omega), Ram.r32_w32]

theorem writeDesc_link {d addr len flags link : Nat} :
    (writeDesc ram d addr len flags link).r16 (d + 14) = UInt16.ofNat link := by
  unfold writeDesc
  rw [Ram.r16_w16]

/-- The entry of the available ring that an index stands for. -/
def availEntry (q : Virtqueue) (idx : UInt16) : Nat := q.availVa + 4 + (idx % q.qsize).toNat * 2

/-- The element of the used ring that an index stands for. -/
def usedElem (q : Virtqueue) (idx : UInt16) : Nat := q.usedVa + 4 + (idx % q.qsize).toNat * 8

theorem index_lt (q : Virtqueue) (idx : UInt16) : (idx % q.qsize).toNat < queueSizeMax := by
  obtain ⟨hpos, hle⟩ := q.qsize_bounds
  rw [UInt16.toNat_mod]
  exact Nat.lt_of_lt_of_le (Nat.mod_lt _ hpos) hle

theorem publish_idx : (q.publish ram head).r16 (q.availVa + 2) = ram.r16 (q.availVa + 2) + 1 := by
  unfold publish
  rw [Ram.r16_w16, UInt16.ofNat_toNat]

theorem publish_entry :
    (q.publish ram head).r16 (q.availEntry (ram.r16 (q.availVa + 2))) = UInt16.ofNat head := by
  unfold publish availEntry
  rw [Ram.r16_w16_of_apart _ _ (by omega), Ram.r16_w16]

/-- What a request writes before it is published. -/
def prepare (q : Virtqueue) (ram : Ram) (head sector count dataDevAddr : Nat)
    (wantInterrupt : Bool) (dir : Direction) : Ram :=
  q.writeChain (q.writeHeader (ram.w16 q.availVa (if wantInterrupt then 0 else 1))
    (head / descPerReq) sector dir) head count dataDevAddr dir

theorem postRequest_eq : q.postRequest ram head sector count dataDevAddr wantInterrupt dir =
    q.publish (q.prepare ram head sector count dataDevAddr wantInterrupt dir) head := rfl

/-- A header of a slot that exists is in the frame of the headers. -/
theorem hdrVa_bounds (h : slot < maxSlots) :
    q.bufVa ≤ q.hdrVa slot ∧ q.hdrVa slot + hdrBytes ≤ q.bufVa + statusRegionOff := by
  unfold hdrVa statusRegionOff
  unfold maxSlots at h ⊢
  unfold hdrBytes
  omega

/-- The flags, the header, the status byte and the chain are in three frames. -/
theorem prepare_of_outside (hslot : slot < maxSlots)
    (hflags : a < q.availVa ∨ q.availVa + 2 ≤ a)
    (hdesc : a < q.descVa ∨ q.descVa + frameSize ≤ a)
    (hbuf : a < q.bufVa ∨ q.bufVa + frameSize ≤ a) :
    q.prepare ram (slot * descPerReq) sector count dataDevAddr wantInterrupt dir a = ram a := by
  obtain ⟨hlow, hhigh⟩ := statusVa_bounds (q := q) hslot
  obtain ⟨hbase, htop⟩ := hdrVa_bounds (q := q) hslot
  have hin : q.bufVa + statusRegionOff ≤ q.bufVa + frameSize :=
    Nat.le_of_lt (Nat.lt_of_le_of_lt hlow hhigh)
  unfold prepare
  rw [writeChain_of_outside (by unfold maxSlots at hslot ⊢; unfold descPerReq; omega) hdesc,
    Nat.mul_div_cancel _ (by decide : 0 < descPerReq),
    writeHeader_of_outside (by omega) (by omega), Ram.w16_of_outside _ _ _ hflags]

/-- A request leaves what is outside the three frames alone. -/
theorem postRequest_of_outside (hslot : slot < maxSlots)
    (havail : a < q.availVa ∨ q.availVa + frameSize ≤ a)
    (hdesc : a < q.descVa ∨ q.descVa + frameSize ≤ a)
    (hbuf : a < q.bufVa ∨ q.bufVa + frameSize ≤ a) :
    q.postRequest ram (slot * descPerReq) sector count dataDevAddr wantInterrupt dir a = ram a := by
  rw [postRequest_eq, publish_of_outside havail,
    prepare_of_outside hslot (by unfold frameSize at havail; omega) hdesc hbuf]

end Virtqueue

/-! ### The disk -/

/-- A disk with its queue. `view` is the memory that an address of the device stands for, through
its domain or directly, and `content` has the bytes of the disk. -/
structure Disk where
  queue : Virtqueue
  view : Nat → Nat
  content : Nat → UInt8
  /-- The frames come from different calls of `alloc_zeroed`. -/
  desc_avail : Apart queue.descVa queue.availVa
  used_desc : Apart queue.usedVa queue.descVa
  used_avail : Apart queue.usedVa queue.availVa
  used_buf : Apart queue.usedVa queue.bufVa
  /-- The device finds the headers and the status bytes where the kernel wrote them. -/
  header : ∀ slot < maxSlots, ∀ i < hdrBytes,
    view ((queue.deviceAddrs slot).1 + i) = queue.hdrVa slot + i
  status : ∀ slot < maxSlots, view (queue.deviceAddrs slot).2 = queue.statusVa slot
  narrow : ∀ slot < maxSlots,
    (queue.deviceAddrs slot).1 < 2 ^ 64 ∧ (queue.deviceAddrs slot).2 < 2 ^ 64

/-- A request of `read_block_polled`, with its number. -/
structure ReadRequest where
  id : Nat
  sector : Nat
  count : Nat
  dataAddr : Nat
  deriving DecidableEq

/-- The bytes of a request. -/
def ReadRequest.size (r : ReadRequest) : Nat := r.count * 512

/-- A request that the disk has taken, as it read it in memory. `moved` bytes are in the buffer, and
the status byte may have been written. -/
structure Job where
  id : Nat
  head : Nat
  reqType : UInt32
  sector : Nat
  dataAddr : Nat
  bytes : Nat
  statusAddr : Nat
  moved : Nat
  status : Option UInt8
  deriving DecidableEq

namespace Disk

/-- A word of `n` bytes as the device reads it. -/
def seenBy (d : Disk) (ram : Ram) : Ram := fun a => ram (d.view a)

/-- The request of an entry of the available ring: the device follows its chain. -/
def fetched (d : Disk) (ram : Ram) (seen : UInt16) (id : Nat) : Job :=
  let head := (ram.r16 (d.queue.availEntry seen)).toNat
  let hdr := d.queue.descVa + head * 16
  let data := d.queue.descVa + (ram.r16 (hdr + 14)).toNat * 16
  let status := d.queue.descVa + (ram.r16 (data + 14)).toNat * 16
  { id
    head
    reqType := (d.seenBy ram).r32 (ram.r64 hdr)
    sector := (d.seenBy ram).r64 (ram.r64 hdr + 8)
    dataAddr := ram.r64 data
    bytes := (ram.r32 (data + 8)).toNat
    statusAddr := ram.r64 status
    moved := 0
    status := none }

/-- The disk moves `n` more bytes of a request, the lowest first. -/
def move (d : Disk) (j : Job) (ram : Ram) : Nat → Ram
  | 0 => ram
  | n + 1 => Function.update (move d j ram n) (d.view (j.dataAddr + (j.moved + n)))
      (d.content (j.sector * 512 + (j.moved + n)))

/-- The disk puts a head into the used ring. -/
def putUsed (d : Disk) (ram : Ram) (head len : Nat) : Ram :=
  let usedIdx := ram.r16 (d.queue.usedVa + 2)
  let ram := ram.w32 (d.queue.usedElem usedIdx) (UInt32.ofNat head)
  let ram := ram.w32 (d.queue.usedElem usedIdx + 4) (UInt32.ofNat len)
  ram.w16 (d.queue.usedVa + 2) (usedIdx + 1).toNat

/-! ### `read_block_polled` -/

/-- `POLL_MAX`. -/
def pollMax : Nat := 50000000

/-- Where a polled read is. -/
inductive Phase where
  /-- It spins on the used index. -/
  | spinning (spins : Nat)
  /-- The index has changed. -/
  | found
  /-- `drain_completions` with an array of one element. -/
  | draining (usedIdx : UInt16) (out : List (Completion × Nat))
  deriving DecidableEq

/-- A polled read that runs, with the head of its chain. -/
structure Poll where
  request : ReadRequest
  head : Nat
  phase : Phase
  deriving DecidableEq

/-- A polled read that has returned, with the bytes of its buffer at that moment. -/
structure Returned where
  request : ReadRequest
  result : Except String Unit
  bytes : Nat → UInt8

/-- The memory, the kernel's side of the queue and the disk's side. `posted` and `taken` count the
requests, and `reported` has the status with which the disk returned a request. -/
structure State where
  ram : Ram
  inflights : Inflights
  lastUsed : UInt16
  poll : Option Poll
  returned : Option Returned
  seen : UInt16
  jobs : List Job
  posted : Nat
  taken : Nat
  reported : Nat → Option UInt8

/-- The used index in memory. -/
def usedIdx (d : Disk) (s : State) : UInt16 := s.ram.r16 (d.queue.usedVa + 2)

/-- The index of the available ring in memory. -/
def availIdx (d : Disk) (s : State) : UInt16 := s.ram.r16 (d.queue.availVa + 2)

/-- The caller owns the frame of the data, and the frame is large enough. -/
def Buffer (d : Disk) (r : ReadRequest) : Prop :=
  r.size ≤ frameSize ∧ r.sector < 2 ^ 64 ∧ r.dataAddr < 2 ^ 64 ∧
  (∀ i < r.size, d.view (r.dataAddr + i) = d.view r.dataAddr + i) ∧
  Apart (d.view r.dataAddr) d.queue.descVa ∧ Apart (d.view r.dataAddr) d.queue.availVa ∧
  Apart (d.view r.dataAddr) d.queue.usedVa ∧ Apart (d.view r.dataAddr) d.queue.bufVa

instance (d : Disk) (r : ReadRequest) : Decidable (d.Buffer r) :=
  inferInstanceAs (Decidable (_ ∧ _ ∧ _ ∧ (∀ i < r.size, _) ∧ _ ∧ _ ∧ _ ∧ _))

/-- The read returns. -/
def finish (d : Disk) (s : State) (r : ReadRequest) (result : Except String Unit) : State :=
  { s with
    poll := none
    returned := some ⟨r, result, fun i => s.ram (d.view (r.dataAddr + i))⟩ }

/-- The end of a read whose poll has taken too long. -/
def giveUp (d : Disk) (s : State) (p : Poll) : State :=
  let inflights := match s.inflights.complete p.head with
    | some (_, inflights) => inflights
    | none => s.inflights
  d.finish { s with inflights } p.request (.error "virtio-blk read timed out")

/-- The body of the loop of `drain_completions`. -/
def drainElement (d : Disk) (s : State) (p : Poll) (usedIdx : UInt16)
    (out : List (Completion × Nat)) : State :=
  let head := (s.ram.r32 (d.queue.usedElem s.lastUsed)).toUInt16.toNat
  let r := Devices.drainOne s.inflights (head, s.ram (d.queue.statusVa (head / descPerReq)))
  let out := match r.1 with
    | some c => if out.length < 1 then out ++ [c] else out
    | none => out
  { s with
    inflights := r.2
    lastUsed := s.lastUsed + 1
    poll := some { p with phase := .draining usedIdx out } }

/-- What the read returns after the drain. -/
def outcome : List (Completion × Nat) → Except String Unit
  | [] => .error "virtio-blk completion drain found nothing"
  | (_, status) :: _ =>
    if status = blkOk then .ok () else .error "virtio-blk read failed (device status)"

/-- What happens. -/
inductive Label where
  /-- `read_block_polled` begins. -/
  | read (sector count dataAddr : Nat)
  /-- One test of the loop. -/
  | spin
  /-- `drain_completions` reads the used index. -/
  | drain
  /-- The drain takes one element. -/
  | element
  /-- The drain has reached the index. -/
  | done
  /-- The disk takes the next entry of the available ring. -/
  | fetch
  /-- The disk moves `n` more bytes of a job. -/
  | transfer (k n : Nat)
  /-- The disk writes the status byte of a job. -/
  | status (k : Nat) (b : UInt8)
  /-- The disk puts a job into the used ring. -/
  | push (k : Nat)

/-- One step of the kernel or of the disk. -/
def next (d : Disk) (s : State) : Label → Option State
  | .read sector count dataAddr =>
    let r : ReadRequest := ⟨s.posted, sector, count, dataAddr⟩
    if s.poll.isSome ∨ ¬ d.Buffer r then none else
    match s.inflights.submit .poll with
    | none => some (d.finish s r (.error "virtio-blk free pool exhausted"))
    | some (head, inflights) =>
      some { s with
        inflights
        ram := d.queue.postRequest s.ram head sector count dataAddr false .read
        poll := some ⟨r, head, .spinning 0⟩
        returned := none
        posted := s.posted + 1 }
  | .spin =>
    match s.poll with
    | some ⟨r, head, .spinning spins⟩ =>
      if d.usedIdx s = s.lastUsed then
        if pollMax ≤ spins + 1 then some (d.giveUp s ⟨r, head, .spinning spins⟩)
        else some { s with poll := some ⟨r, head, .spinning (spins + 1)⟩ }
      else some { s with poll := some ⟨r, head, .found⟩ }
    | _ => none
  | .drain =>
    match s.poll with
    | some ⟨r, head, .found⟩ =>
      some { s with poll := some ⟨r, head, .draining (d.usedIdx s) []⟩ }
    | _ => none
  | .element =>
    match s.poll with
    | some ⟨r, head, .draining usedIdx out⟩ =>
      if s.lastUsed = usedIdx then none
      else some (d.drainElement s ⟨r, head, .draining usedIdx out⟩ usedIdx out)
    | _ => none
  | .done =>
    match s.poll with
    | some ⟨r, _, .draining usedIdx out⟩ =>
      if s.lastUsed = usedIdx then some (d.finish s r (outcome out)) else none
    | _ => none
  | .fetch =>
    if s.seen = d.availIdx s then none
    else some { s with
      jobs := s.jobs ++ [d.fetched s.ram s.seen s.taken], seen := s.seen + 1
      taken := s.taken + 1 }
  | .transfer k n =>
    match s.jobs[k]? with
    | none => none
    | some j =>
      if j.reqType = 0 ∧ j.status = none ∧ j.moved + n ≤ j.bytes then
        some { s with
          ram := d.move j s.ram n, jobs := s.jobs.set k { j with moved := j.moved + n } }
      else none
  | .status k b =>
    match s.jobs[k]? with
    | none => none
    | some j =>
      if j.status = none ∧ (b = 0 → j.reqType = 0 ∧ j.moved = j.bytes) then
        some { s with
          ram := Function.update s.ram (d.view j.statusAddr) b
          jobs := s.jobs.set k { j with status := some b } }
      else none
  | .push k =>
    match s.jobs[k]? with
    | none => none
    | some j =>
      if j.status = none then none
      else some { s with
        ram := d.putUsed s.ram j.head (j.moved + 1)
        jobs := s.jobs.eraseIdx k
        reported := Function.update s.reported j.id j.status }

/-- The queue after `init`: the pool is free and both rings are empty. -/
def system (d : Disk) : System State Label where
  init s := s.inflights.WF ∧ s.inflights.slots = d.queue.slots ∧ s.poll = none ∧
    s.returned = none ∧ s.jobs = [] ∧ s.seen = d.availIdx s ∧ s.lastUsed = d.usedIdx s ∧
    s.posted = 0 ∧ s.taken = 0 ∧ ∀ id, s.reported id = none
  next := d.next

end Disk

end Plinth
