import Plinth.Common.Transition
import Plinth.Proofs.Inflights
import Plinth.Proofs.Ram

/-!
# `Plinth.Queues.Virtqueue`: the virtqueue of a block device

The kernel half of `kernel/src/virtio_blk.rs` in full detail: `post_request` with every word that
it writes, and `drain_completions` one element at a time, over the bytes that the kernel shares
with the device. The device writes any byte at any moment, also in the middle of a drain.

The kernel runs with interrupts off, so no request is posted while a drain runs.
-/

set_option autoImplicit false

namespace Plinth

open Transition

/-! ### Narrow words -/

namespace Ram

/-- `r16`. -/
def r16 (ram : Ram) (a : Nat) : UInt16 := UInt16.ofNat (ram.read a 2)

/-- `w16`. -/
def w16 (ram : Ram) (a v : Nat) : Ram := ram.write a v 2

/-- `w8`. -/
def w8 (ram : Ram) (a v : Nat) : Ram := ram.write a v 1

theorem w16_of_outside (ram : Ram) (a v : Nat) {b : Nat} (h : b < a ∨ a + 2 ≤ b) :
    ram.w16 a v b = ram b := write_of_outside ram a v 2 h

theorem w8_of_outside (ram : Ram) (a v : Nat) {b : Nat} (h : b < a ∨ a + 1 ≤ b) :
    ram.w8 a v b = ram b := write_of_outside ram a v 1 h

theorem w8_self (ram : Ram) (a v : Nat) : ram.w8 a v a = UInt8.ofNat v :=
  Function.update_self ..

end Ram

/-! ### The queue -/

/-- `QUEUE_SIZE_MAX`. -/
def queueSizeMax : Nat := 64

/-- `HDR_BYTES`. -/
def hdrBytes : Nat := 16

/-- `STATUS_REGION_OFF`: the status bytes follow the headers of all slots. -/
def statusRegionOff : Nat := maxSlots * hdrBytes

/-- The queue size that `init` negotiates, from the size that the device offers. -/
def negotiate (devQsize : UInt16) : Option UInt16 :=
  if devQsize = 0 then none else some (min devQsize (UInt16.ofNat queueSizeMax))

/-- What is fixed when `init` brings a device up: the negotiated size, the frames of the queue and
the frame of the headers and the status bytes. `bufIova` is the address of the last one in the
domain of a bound device. -/
structure Virtqueue where
  devQsize : UInt16
  qsize : UInt16
  descVa : Nat
  availVa : Nat
  usedVa : Nat
  bufVa : Nat
  bufPhys : Nat
  bufIova : Option Nat
  negotiated : negotiate devQsize = some qsize
  /-- The frames come from different calls of `alloc_zeroed`. -/
  desc_apart : Apart bufVa descVa
  avail_apart : Apart bufVa availVa

namespace Virtqueue

/-- `hdr_va`. -/
def hdrVa (q : Virtqueue) (slot : Nat) : Nat := q.bufVa + slot * hdrBytes

/-- `status_va`. -/
def statusVa (q : Virtqueue) (slot : Nat) : Nat := q.bufVa + statusRegionOff + slot

/-- The addresses of the header and of the status byte that the device is given. -/
def deviceAddrs (q : Virtqueue) (slot : Nat) : Nat × Nat :=
  match q.bufIova with
  | some iova => (iova + slot * hdrBytes, iova + statusRegionOff + slot)
  | none => (q.bufPhys + slot * hdrBytes, q.bufPhys + statusRegionOff + slot)

/-- The number of request slots: how many chains fit the queue. -/
def slots (q : Virtqueue) : Nat := q.qsize.toNat / descPerReq

/-! ### `post_request` -/

/-- The request header of a slot, and the sentinel in its status byte. -/
def writeHeader (q : Virtqueue) (ram : Ram) (slot sector : Nat) (dir : Direction) : Ram :=
  let reqType : UInt32 := match dir with
    | .read => 0
    | .write => 1
  let ram := ram.w32 (q.hdrVa slot) reqType
  let ram := ram.w32 (q.hdrVa slot + 4) 0
  let ram := ram.w64 (q.hdrVa slot + 8) sector
  ram.w8 (q.statusVa slot) 0xFF

/-- One descriptor: address, length, flags, next. -/
def writeDesc (ram : Ram) (d addr len flags next : Nat) : Ram :=
  let ram := ram.w64 d addr
  let ram := ram.w32 (d + 8) (UInt32.ofNat len)
  let ram := ram.w16 (d + 12) flags
  ram.w16 (d + 14) next

/-- The three descriptors of a request: the header, the data and the status byte. -/
def writeChain (q : Virtqueue) (ram : Ram) (head count dataDevAddr : Nat) (dir : Direction) :
    Ram :=
  let addrs := q.deviceAddrs (head / descPerReq)
  let dataFlags := match dir with
    | .read => 1 ||| 2
    | .write => 1
  let d := q.descVa + head * 16
  let ram := writeDesc ram d addrs.1 16 1 (head + 1)
  let ram := writeDesc ram (d + 16) dataDevAddr (count * 512) dataFlags (head + 2)
  writeDesc ram (d + 32) addrs.2 1 2 0

/-- Put the head of a chain into the available ring. -/
def publish (q : Virtqueue) (ram : Ram) (head : Nat) : Ram :=
  let availIdx := ram.r16 (q.availVa + 2)
  let ringSlot := (availIdx % q.qsize).toNat
  let ram := ram.w16 (q.availVa + 4 + ringSlot * 2) head
  ram.w16 (q.availVa + 2) (availIdx + 1).toNat

/-- `post_request`. The doorbell that it rings last is no memory. -/
def postRequest (q : Virtqueue) (ram : Ram) (head sector count dataDevAddr : Nat)
    (wantInterrupt : Bool) (dir : Direction) : Ram :=
  let flags := if wantInterrupt then 0 else 1
  let ram := ram.w16 q.availVa flags
  let ram := q.writeHeader ram (head / descPerReq) sector dir
  let ram := q.writeChain ram head count dataDevAddr dir
  q.publish ram head

/-! ### States and steps -/

/-- A drain that runs: the used index that it read, and the completions that it found. -/
structure Drain where
  usedIdx : UInt16
  out : List (Completion × Nat)

/-- The state of a queue: the memory, the pool of slots, the used index that the kernel has
consumed, and the drain that the interrupt handler runs. -/
structure State where
  ram : Ram
  inflights : Inflights
  lastUsed : UInt16
  drain : Option Drain

/-- The id in the used element that the drain looks at. -/
def reportedId (q : Virtqueue) (s : State) : UInt32 :=
  s.ram.r32 (q.usedVa + 4 + (s.lastUsed % q.qsize).toNat * 8)

/-- The head that the kernel takes it for: `r32(..) as u16`. -/
def reportedHead (q : Virtqueue) (s : State) : Nat := (q.reportedId s).toUInt16.toNat

/-- The body of the loop of `drain_completions`. -/
def drainElement (q : Virtqueue) (s : State) (d : Drain) : State :=
  let head := q.reportedHead s
  let r := Devices.drainOne s.inflights (head, s.ram (q.statusVa (head / descPerReq)))
  let out := match r.1 with
    | some c => if d.out.length < maxSlots then d.out ++ [c] else d.out
    | none => d.out
  { s with inflights := r.2, lastUsed := s.lastUsed + 1, drain := some { d with out } }

/-- What happens at a queue. -/
inductive Label where
  /-- `ring_post`, from any ring. If the pool is empty, the entry stays in its ring. -/
  | ringPost (ring : RingId) (userData sector count framePhys : Nat) (dir : Direction)
  /-- The completion interrupt: the drain reads the used index. -/
  | interrupt
  /-- The drain takes one element. -/
  | element
  /-- The drain has reached the index, and its completions go to their rings. -/
  | route
  /-- The device, or a process, writes a byte. -/
  | store (a : Nat) (b : UInt8)

/-- One step. -/
def next (q : Virtqueue) (s : State) : Label → Option State
  | .ringPost ring userData sector count framePhys dir =>
    if s.drain.isSome then none else
    match s.inflights.submit (.ring ring userData) with
    | none => some s
    | some (head, inflights) =>
      some { s with
        inflights, ram := q.postRequest s.ram head sector count framePhys true dir }
  | .interrupt =>
    if s.drain.isSome then none
    else some { s with drain := some ⟨s.ram.r16 (q.usedVa + 2), []⟩ }
  | .element =>
    match s.drain with
    | none => none
    | some d => if s.lastUsed = d.usedIdx then none else some (q.drainElement s d)
  | .route =>
    match s.drain with
    | none => none
    | some d => if s.lastUsed = d.usedIdx then some { s with drain := none } else none
  | .store a b => some { s with ram := Function.update s.ram a b }

/-- The queue starts with a pool of free slots, as `init` and the boot self-test leave it. -/
def system (q : Virtqueue) : System State Label where
  init s := s.inflights.WF ∧ s.inflights.slots = q.slots ∧
    (∀ slot, s.inflights.routing slot = none) ∧
    s.drain = none
  next := q.next

/-! ### The layout -/

variable {q : Virtqueue} {ram : Ram} {slot slot' sector count dataDevAddr a : Nat}
  {wantInterrupt : Bool} {dir : Direction}

theorem qsize_bounds (q : Virtqueue) : 0 < q.qsize.toNat ∧ q.qsize.toNat ≤ queueSizeMax := by
  have h := q.negotiated
  unfold negotiate at h
  split at h
  · cases h
  · rename_i hne
    rw [Option.some.injEq,
      show min q.devQsize (UInt16.ofNat queueSizeMax) =
        if q.devQsize ≤ UInt16.ofNat queueSizeMax then q.devQsize
        else UInt16.ofNat queueSizeMax from rfl] at h
    split at h
    · rename_i hle
      rw [← h]
      have hpos : q.devQsize.toNat ≠ 0 := fun h0 => hne (UInt16.toNat_inj.mp h0)
      exact ⟨by omega, UInt16.le_iff_toNat_le.mp hle⟩
    · rw [← h]
      exact ⟨by decide, by decide⟩

/-- The chains fit the queue, and the slots fit the pool. -/
theorem slots_bounds (q : Virtqueue) :
    q.slots * descPerReq ≤ q.qsize.toNat ∧ q.slots ≤ maxSlots := by
  have h := q.qsize_bounds.2
  unfold slots descPerReq maxSlots
  unfold queueSizeMax at h
  omega

/-- The status byte of a slot is in the frame of the headers. -/
theorem statusVa_bounds (h : slot < maxSlots) :
    q.bufVa + maxSlots * hdrBytes ≤ q.statusVa slot ∧ q.statusVa slot < q.bufVa + frameSize := by
  unfold statusVa statusRegionOff
  unfold maxSlots at h ⊢
  unfold hdrBytes frameSize
  omega

/-- The header of a request is written in its slot. -/
theorem writeHeader_of_outside (hhdr : a < q.hdrVa slot ∨ q.hdrVa slot + hdrBytes ≤ a)
    (hstatus : a ≠ q.statusVa slot) : q.writeHeader ram slot sector dir a = ram a := by
  unfold hdrBytes at hhdr
  unfold writeHeader
  rw [Ram.w8_of_outside _ _ _ (by omega), Ram.w64_of_outside _ _ _ (by omega),
    Ram.w32_of_outside _ _ _ (by omega), Ram.w32_of_outside _ _ _ (by omega)]

theorem writeHeader_status : q.writeHeader ram slot sector dir (q.statusVa slot) = 0xFF :=
  Ram.w8_self ..

theorem writeDesc_of_outside {d addr len flags link : Nat} (h : a < d ∨ d + 16 ≤ a) :
    writeDesc ram d addr len flags link a = ram a := by
  unfold writeDesc
  rw [Ram.w16_of_outside _ _ _ (by omega), Ram.w16_of_outside _ _ _ (by omega),
    Ram.w32_of_outside _ _ _ (by omega), Ram.w64_of_outside _ _ _ (by omega)]

/-- The chain of a request is written in the frame of the descriptors. -/
theorem writeChain_of_outside {head : Nat} (hhead : head < maxSlots * descPerReq)
    (h : a < q.descVa ∨ q.descVa + frameSize ≤ a) :
    q.writeChain ram head count dataDevAddr dir a = ram a := by
  unfold maxSlots descPerReq at hhead
  unfold frameSize at h
  unfold writeChain
  rw [writeDesc_of_outside (by omega), writeDesc_of_outside (by omega),
    writeDesc_of_outside (by omega)]

/-- The head of a chain is written in the frame of the available ring. -/
theorem publish_of_outside {head : Nat} (h : a < q.availVa ∨ q.availVa + frameSize ≤ a) :
    q.publish ram head a = ram a := by
  unfold frameSize at h
  have hslot : (ram.r16 (q.availVa + 2) % q.qsize).toNat < 64 := by
    obtain ⟨hpos, hle⟩ := q.qsize_bounds
    unfold queueSizeMax at hle
    rw [UInt16.toNat_mod]
    have hlt := Nat.mod_lt (ram.r16 (q.availVa + 2)).toNat hpos
    omega
  unfold publish
  rw [Ram.w16_of_outside _ _ _ (by omega), Ram.w16_of_outside _ _ _ (by omega)]

/-- A request writes the sentinel in its own status byte. -/
theorem postRequest_status (hslot : slot < maxSlots) :
    q.postRequest ram (slot * descPerReq) sector count dataDevAddr wantInterrupt dir
      (q.statusVa slot) = 0xFF := by
  obtain ⟨hlow, hhigh⟩ := statusVa_bounds (q := q) hslot
  have hdesc := q.desc_apart
  have havail := q.avail_apart
  unfold Apart at hdesc havail
  unfold maxSlots at hlow hslot
  unfold postRequest
  rw [publish_of_outside (by omega),
    writeChain_of_outside (by unfold maxSlots descPerReq; omega) (by omega),
    Nat.mul_div_cancel _ (by decide : 0 < descPerReq), writeHeader_status]

/-- A request leaves the status bytes of the other slots alone. -/
theorem postRequest_status_of_ne (hslot : slot < maxSlots) (hslot' : slot' < maxSlots)
    (hne : slot' ≠ slot) :
    q.postRequest ram (slot * descPerReq) sector count dataDevAddr wantInterrupt dir
      (q.statusVa slot') = ram (q.statusVa slot') := by
  obtain ⟨hlow, hhigh⟩ := statusVa_bounds (q := q) hslot'
  have hdesc := q.desc_apart
  have havail := q.avail_apart
  unfold Apart at hdesc havail
  have hhdr : q.hdrVa slot + hdrBytes ≤ q.statusVa slot' := by
    unfold hdrVa hdrBytes
    unfold maxSlots at hslot hlow
    unfold hdrBytes at hlow
    omega
  have hother : q.statusVa slot' ≠ q.statusVa slot := by
    unfold statusVa
    omega
  unfold frameSize at hdesc havail hhigh
  unfold maxSlots at hlow hslot
  unfold postRequest
  rw [publish_of_outside (by unfold frameSize; omega),
    writeChain_of_outside (by unfold maxSlots descPerReq; omega) (by unfold frameSize; omega),
    Nat.mul_div_cancel _ (by decide : 0 < descPerReq),
    writeHeader_of_outside (Or.inr hhdr) hother, Ram.w16_of_outside _ _ _ (by omega)]

end Virtqueue

end Plinth
