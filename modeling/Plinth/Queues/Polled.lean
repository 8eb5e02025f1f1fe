import Plinth.Queues.Demux
import Plinth.Queues.Disk

/-!
# `Plinth.Queues.Polled`: does a polled read tell the truth?

`read_block_polled` takes whatever the used ring has for the answer to its own request. When its
poll gives up, `complete` frees the slot, but the request stays at the device. The next read gets
the same slot, so the same head and the same status byte, and the late completion of the first
request passes for its own: `lateRun` is told that sector 1 was read while its buffer is empty.

A read tells the truth (`truthful_of_alone`) in every run in which no earlier request reaches into a
later read (`Disk.alone`). The invariant says of a read that waits that the job of the disk with its
number is about its own chain (`Waiting`), and of one whose completion is in the ring that the used
ring is ahead by this one element (`Landed`).
-/

set_option autoImplicit false

namespace Plinth

open Transition

namespace Disk

variable {d : Disk} {s t : State} {ram ram' : Ram} {r : ReadRequest} {head slot id n k a : Nat}
  {j : Job} {p : Poll} {ℓ : Label}

/-! ### Regions of memory -/

/-- An address in a frame. -/
def InFrame (f a : Nat) : Prop := f ≤ a ∧ a < f + frameSize

/-- What a request is described in: the descriptors and the headers. -/
def Chains (d : Disk) (a : Nat) : Prop :=
  InFrame d.queue.descVa a ∨ (d.queue.bufVa ≤ a ∧ a < d.queue.bufVa + statusRegionOff)

/-- What the kernel posts a request in. -/
def Posting (d : Disk) (a : Nat) : Prop := InFrame d.queue.availVa a ∨ d.Chains a

/-- The caller owns the frame of the data, and the head is one of the pool. -/
structure Fits (d : Disk) (r : ReadRequest) (head : Nat) : Prop where
  buffer : d.Buffer r
  head : ∃ slot < maxSlots, head = slot * descPerReq

/-- The status byte of the chain at a head. -/
def statusAt (d : Disk) (head : Nat) : Nat := d.queue.statusVa (head / descPerReq)

theorem Fits.slot_lt (h : d.Fits r head) : head / descPerReq < maxSlots := by
  obtain ⟨slot, hslot, rfl⟩ := h.head
  rwa [Nat.mul_div_cancel _ (by decide : 0 < descPerReq)]

/-- The status byte is neither in the rings nor in the headers. -/
theorem Fits.statusAt (h : d.Fits r head) :
    ¬ d.Posting (d.statusAt head) ∧ ¬ InFrame d.queue.usedVa (d.statusAt head) := by
  obtain ⟨hlow, hhigh⟩ := Virtqueue.statusVa_bounds (q := d.queue) h.slot_lt
  have hdesc := d.queue.desc_apart
  have havail := d.queue.avail_apart
  have hused := d.used_buf
  unfold Apart at hdesc havail hused
  unfold Posting Chains InFrame Disk.statusAt statusRegionOff
  omega

/-- A byte of the buffer is in no frame of the queue. -/
theorem Fits.buffer_at (h : d.Fits r head) {i : Nat} (hi : i < r.size) :
    ¬ d.Posting (d.view (r.dataAddr + i)) ∧ ¬ InFrame d.queue.usedVa (d.view (r.dataAddr + i)) ∧
      d.view (r.dataAddr + i) ≠ d.statusAt head := by
  obtain ⟨hsize, -, -, hview, hdesc, havail, hused, hbuf⟩ := h.buffer
  obtain ⟨hlow, hhigh⟩ := Virtqueue.statusVa_bounds (q := d.queue) h.slot_lt
  have hin : statusRegionOff ≤ frameSize := by decide
  rw [hview i hi]
  unfold Apart at hdesc havail hused hbuf
  unfold Posting Chains InFrame Disk.statusAt
  omega

/-! ### What the disk reads -/

/-- The chain and the header of a request, as the disk reads them. -/
structure InMemory (d : Disk) (ram : Ram) (r : ReadRequest) (head : Nat) : Prop where
  hdr : ram.r64 (d.queue.descVa + head * 16) = (d.queue.deviceAddrs (head / descPerReq)).1
  link : ram.r16 (d.queue.descVa + head * 16 + 14) = UInt16.ofNat (head + 1)
  data : ram.r64 (d.queue.descVa + (head + 1) * 16) = r.dataAddr
  bytes : ram.r32 (d.queue.descVa + (head + 1) * 16 + 8) = UInt32.ofNat r.size
  next : ram.r16 (d.queue.descVa + (head + 1) * 16 + 14) = UInt16.ofNat (head + 2)
  status : ram.r64 (d.queue.descVa + (head + 2) * 16) =
    (d.queue.deviceAddrs (head / descPerReq)).2
  reqType : ram.r32 (d.queue.hdrVa (head / descPerReq)) = 0
  sector : ram.r64 (d.queue.hdrVa (head / descPerReq) + 8) = r.sector

theorem chains_desc (hhead : head + 2 < 64) {i : Nat} (hi : i < 16 * (head + 3)) :
    d.Chains (d.queue.descVa + i) := Or.inl ⟨by omega, by unfold frameSize; omega⟩

theorem chains_hdr (hslot : slot < maxSlots) {i : Nat} (hi : i < hdrBytes) :
    d.Chains (d.queue.hdrVa slot + i) := by
  obtain ⟨hbase, htop⟩ := Virtqueue.hdrVa_bounds (q := d.queue) hslot
  exact Or.inr ⟨by omega, by omega⟩

theorem Fits.head_le (h : d.Fits r head) : head + 2 < 64 := by
  obtain ⟨slot, hslot, rfl⟩ := h.head
  unfold maxSlots at hslot
  unfold descPerReq
  omega

/-- What the disk will read stays as long as nobody writes there. -/
theorem InMemory.congr (h : d.InMemory ram r head) (hfits : d.Fits r head)
    (hkept : ∀ a, d.Chains a → ram' a = ram a) : d.InMemory ram' r head := by
  have hhead := hfits.head_le
  have hslot := hfits.slot_lt
  have hdesc : ∀ o i, o + i < 16 * (head + 3) →
      ram' (d.queue.descVa + o + i) = ram (d.queue.descVa + o + i) := fun o i hi => by
    rw [Nat.add_assoc]
    exact hkept _ (chains_desc hhead hi)
  have hhdr : ∀ o i, o + i < hdrBytes → ram' (d.queue.hdrVa (head / descPerReq) + o + i) =
      ram (d.queue.hdrVa (head / descPerReq) + o + i) := fun o i hi => by
    rw [Nat.add_assoc]
    exact hkept _ (chains_hdr hslot hi)
  have h64 : ∀ o, o + 8 ≤ 16 * (head + 3) →
      ram'.r64 (d.queue.descVa + o) = ram.r64 (d.queue.descVa + o) :=
    fun o ho => Ram.r64_congr fun i _ => hdesc o i (by omega)
  have h16 : ∀ o, o + 2 ≤ 16 * (head + 3) →
      ram'.r16 (d.queue.descVa + o) = ram.r16 (d.queue.descVa + o) :=
    fun o ho => Ram.r16_congr fun i _ => hdesc o i (by omega)
  have h32 : ram'.r32 (d.queue.descVa + ((head + 1) * 16 + 8)) =
      ram.r32 (d.queue.descVa + ((head + 1) * 16 + 8)) :=
    Ram.r32_congr fun i _ => hdesc _ i (by omega)
  have htype : ram'.r32 (d.queue.hdrVa (head / descPerReq)) =
      ram.r32 (d.queue.hdrVa (head / descPerReq)) :=
    Ram.r32_congr fun i hi => hhdr 0 i (by unfold hdrBytes; omega)
  have hsector : ram'.r64 (d.queue.hdrVa (head / descPerReq) + 8) =
      ram.r64 (d.queue.hdrVa (head / descPerReq) + 8) :=
    Ram.r64_congr fun i hi => hhdr 8 i (by unfold hdrBytes; omega)
  refine ⟨(h64 _ (by omega)).trans h.hdr, ?_, (h64 _ (by omega)).trans h.data, ?_, ?_,
    (h64 _ (by omega)).trans h.status, htype.trans h.reqType, hsector.trans h.sector⟩
  · rw [Nat.add_assoc, h16 _ (by omega), ← Nat.add_assoc]
    exact h.link
  · rw [Nat.add_assoc, h32, ← Nat.add_assoc]
    exact h.bytes
  · rw [Nat.add_assoc, h16 _ (by omega), ← Nat.add_assoc]
    exact h.next

/-- A job for a request: what the disk read is what was asked. -/
structure Serves (d : Disk) (j : Job) (r : ReadRequest) (head : Nat) : Prop where
  id : j.id = r.id
  head : j.head = head
  reqType : j.reqType = 0
  sector : j.sector = r.sector
  dataAddr : j.dataAddr = r.dataAddr
  bytes : j.bytes = r.size
  statusAddr : d.view j.statusAddr = d.statusAt j.head

/-- The disk takes the request that was posted. -/
theorem InMemory.fetched (h : d.InMemory ram r head) (hfits : d.Fits r head) {seen : UInt16}
    (hentry : ram.r16 (d.queue.availEntry seen) = UInt16.ofNat head) :
    d.Serves (d.fetched ram seen r.id) r head := by
  obtain ⟨hsize, -, -, -, -, -, -, -⟩ := hfits.buffer
  have hslot := hfits.slot_lt
  have hle := hfits.head_le
  have hnat : ∀ m, m < 66 → (UInt16.ofNat m).toNat = m := fun m hm => by
    rw [UInt16.toNat_ofNat']
    omega
  have hat : (ram.r16 (d.queue.availEntry seen)).toNat = head := by
    rw [hentry]
    exact hnat _ (by omega)
  have hlink : (ram.r16 (d.queue.descVa + head * 16 + 14)).toNat = head + 1 := by
    rw [h.link]
    exact hnat _ (by omega)
  have hnext : (ram.r16 (d.queue.descVa + (head + 1) * 16 + 14)).toNat = head + 2 := by
    rw [h.next]
    exact hnat _ (by omega)
  have hview : ∀ i, i < hdrBytes → d.seenBy ram ((d.queue.deviceAddrs (head / descPerReq)).1 + i) =
      ram (d.queue.hdrVa (head / descPerReq) + i) := fun i hi => by
    unfold seenBy
    rw [d.header _ hslot i hi]
  have hbytes : hdrBytes = 16 := rfl
  refine ⟨rfl, hat, ?_, ?_, ?_, ?_, ?_⟩
  · show (d.seenBy ram).r32 (ram.r64 (d.queue.descVa + _ * 16)) = 0
    rw [hat, h.hdr, ← h.reqType]
    unfold Ram.r32
    rw [Ram.read_shift fun i hi => hview i (by omega)]
  · show (d.seenBy ram).r64 (ram.r64 (d.queue.descVa + _ * 16) + 8) = r.sector
    rw [hat, h.hdr, ← h.sector]
    refine Ram.read_shift fun i hi => ?_
    rw [Nat.add_assoc, Nat.add_assoc]
    exact hview (8 + i) (by omega)
  · show ram.r64 (d.queue.descVa + (ram.r16 (d.queue.descVa + _ * 16 + 14)).toNat * 16) = _
    rw [hat, hlink, h.data]
  · show (ram.r32 (d.queue.descVa + (ram.r16 (d.queue.descVa + _ * 16 + 14)).toNat * 16 +
      8)).toNat = _
    rw [hat, hlink, h.bytes, UInt32.toNat_ofNat']
    unfold frameSize at hsize
    omega
  · show d.view (ram.r64 (d.queue.descVa + (ram.r16 (d.queue.descVa +
      (ram.r16 (d.queue.descVa + _ * 16 + 14)).toNat * 16 + 14)).toNat * 16)) =
      d.statusAt (ram.r16 (d.queue.availEntry seen)).toNat
    rw [hat, hlink, hnext, h.status]
    exact d.status _ hslot

/-! ### What the kernel posts -/

/-- The three descriptors are written one behind the other. -/
theorem writeDescs_reads (ram : Ram) (b addr₁ len₁ flags₁ link₁ addr₂ len₂ flags₂ link₂ addr₃ len₃
    flags₃ link₃ : Nat) :
    let m := Virtqueue.writeDesc (Virtqueue.writeDesc (Virtqueue.writeDesc ram b addr₁ len₁ flags₁
      link₁) (b + 16) addr₂ len₂ flags₂ link₂) (b + 32) addr₃ len₃ flags₃ link₃
    m.r64 b = addr₁ % 2 ^ 64 ∧ m.r16 (b + 14) = UInt16.ofNat link₁ ∧
    m.r64 (b + 16) = addr₂ % 2 ^ 64 ∧ m.r32 (b + 16 + 8) = UInt32.ofNat len₂ ∧
    m.r16 (b + 16 + 14) = UInt16.ofNat link₂ ∧ m.r64 (b + 32) = addr₃ % 2 ^ 64 := by
  intro m
  refine ⟨?_, ?_, ?_, ?_, ?_, Virtqueue.writeDesc_addr⟩
  · rw [Ram.r64_congr fun i hi => Virtqueue.writeDesc_of_outside (by omega),
      Ram.r64_congr fun i hi => Virtqueue.writeDesc_of_outside (by omega),
      Virtqueue.writeDesc_addr]
  · rw [Ram.r16_congr fun i hi => Virtqueue.writeDesc_of_outside (by omega),
      Ram.r16_congr fun i hi => Virtqueue.writeDesc_of_outside (by omega),
      Virtqueue.writeDesc_link]
  · rw [Ram.r64_congr fun i hi => Virtqueue.writeDesc_of_outside (by omega),
      Virtqueue.writeDesc_addr]
  · rw [Ram.r32_congr fun i hi => Virtqueue.writeDesc_of_outside (by omega),
      Virtqueue.writeDesc_len]
  · rw [Ram.r16_congr fun i hi => Virtqueue.writeDesc_of_outside (by omega),
      Virtqueue.writeDesc_link]

/-- The header of a read. -/
theorem writeHeader_reads (ram : Ram) (hslot : slot < maxSlots) (sector : Nat) :
    (d.queue.writeHeader ram slot sector .read).r32 (d.queue.hdrVa slot) = 0 ∧
      (d.queue.writeHeader ram slot sector .read).r64 (d.queue.hdrVa slot + 8) =
        sector % 2 ^ 64 := by
  have hstatus : d.queue.hdrVa slot + hdrBytes ≤ d.queue.statusVa slot :=
    Nat.le_trans (Virtqueue.hdrVa_bounds hslot).2 (Virtqueue.statusVa_bounds hslot).1
  unfold hdrBytes at hstatus
  unfold Virtqueue.writeHeader
  refine ⟨?_, ?_⟩
  · rw [Ram.r32_congr fun i hi => Ram.w8_of_outside _ _ _ (by omega),
      Ram.r32_w64_of_apart _ _ (by omega), Ram.r32_w32_of_apart _ _ (by omega), Ram.r32_w32]
  · rw [Ram.r64_congr fun i hi => Ram.w8_of_outside _ _ _ (by omega), Ram.r64_w64]

/-- The chain and the header are in memory before the head is published. -/
theorem inMemory_prepare (ram : Ram) (hfits : d.Fits r head) :
    d.InMemory (d.queue.prepare ram head r.sector r.count r.dataAddr false .read) r head := by
  obtain ⟨-, hsector, hdata, -, -, -, -, -⟩ := hfits.buffer
  obtain ⟨haddr, hstatus⟩ := d.narrow _ hfits.slot_lt
  obtain ⟨hlow, hhigh⟩ := Virtqueue.hdrVa_bounds (q := d.queue) hfits.slot_lt
  have hin : statusRegionOff ≤ frameSize := by decide
  have hbytes : hdrBytes = 16 := rfl
  have hlt : head < maxSlots * descPerReq := by
    obtain ⟨slot, hslot, rfl⟩ := hfits.head
    exact Nat.mul_lt_mul_of_pos_right hslot (by decide)
  have hdesc := d.queue.desc_apart
  unfold Apart at hdesc
  have hnext : d.queue.descVa + (head + 1) * 16 = d.queue.descVa + head * 16 + 16 := by omega
  have hlast : d.queue.descVa + (head + 2) * 16 = d.queue.descVa + head * 16 + 32 := by omega
  obtain ⟨h₁, h₂, h₃, h₄, h₅, h₆⟩ := writeDescs_reads
    (d.queue.writeHeader (ram.w16 d.queue.availVa 1) (head / descPerReq) r.sector .read)
    (d.queue.descVa + head * 16) (d.queue.deviceAddrs (head / descPerReq)).1 16 1 (head + 1)
    r.dataAddr (r.count * 512) (1 ||| 2) (head + 2)
    (d.queue.deviceAddrs (head / descPerReq)).2 1 2 0
  obtain ⟨htype, hsec⟩ := writeHeader_reads (ram.w16 d.queue.availVa 1) hfits.slot_lt
    r.sector
  refine ⟨h₁.trans (Nat.mod_eq_of_lt haddr), h₂, ?_, ?_, ?_, ?_, ?_, ?_⟩
  · rw [hnext]
    exact h₃.trans (Nat.mod_eq_of_lt hdata)
  · rw [hnext]
    exact h₄
  · rw [hnext]
    exact h₅
  · rw [hlast]
    exact h₆.trans (Nat.mod_eq_of_lt hstatus)
  · refine (Ram.r32_congr fun i hi => ?_).trans htype
    exact Virtqueue.writeChain_of_outside hlt (by omega)
  · refine (Ram.r64_congr fun i hi => ?_).trans (hsec.trans (Nat.mod_eq_of_lt hsector))
    exact Virtqueue.writeChain_of_outside hlt (by omega)

/-- A request that is posted is one that the disk can take. -/
theorem posted_request (ram : Ram) (hfits : d.Fits r head) :
    let ram' := d.queue.postRequest ram head r.sector r.count r.dataAddr false .read
    d.InMemory ram' r head ∧
    ram'.r16 (d.queue.availVa + 2) = ram.r16 (d.queue.availVa + 2) + 1 ∧
    ram'.r16 (d.queue.availEntry (ram.r16 (d.queue.availVa + 2))) = UInt16.ofNat head := by
  have hprep := inMemory_prepare ram hfits
  obtain ⟨slot, hslot, rfl⟩ := hfits.head
  have hda := d.desc_avail
  have hba := d.queue.avail_apart
  unfold Apart at hda hba
  have hidx : (d.queue.prepare ram (slot * descPerReq) r.sector r.count r.dataAddr false .read).r16
      (d.queue.availVa + 2) = ram.r16 (d.queue.availVa + 2) :=
    Ram.r16_congr fun i hi => Virtqueue.prepare_of_outside hslot (Or.inr (by omega))
      (by unfold frameSize at hda ⊢; omega) (by unfold frameSize at hba ⊢; omega)
  refine ⟨?_, ?_, ?_⟩
  · have hin : statusRegionOff ≤ frameSize := by decide
    have hout : ∀ a, (InFrame d.queue.descVa a ∨
        (d.queue.bufVa ≤ a ∧ a < d.queue.bufVa + statusRegionOff)) →
        d.queue.postRequest ram (slot * descPerReq) r.sector r.count r.dataAddr false .read a =
          d.queue.prepare ram (slot * descPerReq) r.sector r.count r.dataAddr false .read a := by
      intro a ha
      unfold InFrame at ha
      exact Virtqueue.publish_of_outside (by omega)
    exact hprep.congr hfits hout
  · rw [Virtqueue.postRequest_eq, Virtqueue.publish_idx, hidx]
  · rw [Virtqueue.postRequest_eq, ← hidx, Virtqueue.publish_entry]

/-! ### What the disk writes -/

theorem move_of_outside {j : Job} (h : ∀ i < n, a ≠ d.view (j.dataAddr + (j.moved + i))) :
    d.move j ram n a = ram a := by
  induction n with
  | zero => rfl
  | succ n ih =>
    unfold move
    rw [Function.update_of_ne (h n (Nat.lt_succ_self n)),
      ih fun i hi => h i (Nat.lt_succ_of_lt hi)]

/-- The bytes of the sectors are in the buffer, as far as the disk has moved them. -/
def Moved (d : Disk) (ram : Ram) (r : ReadRequest) (n : Nat) : Prop :=
  n ≤ r.size ∧ ∀ i < n, ram (d.view (r.dataAddr + i)) = d.content (r.sector * 512 + i)

theorem Moved.move {j : Job} (h : d.Moved ram r j.moved) (hfits : d.Fits r head)
    (hserves : d.Serves j r head) (hroom : j.moved + n ≤ j.bytes) :
    d.Moved (d.move j ram n) r (j.moved + n) := by
  obtain ⟨-, -, -, hview, -, -, -, -⟩ := hfits.buffer
  rw [hserves.bytes] at hroom
  refine ⟨hroom, ?_⟩
  induction n with
  | zero => exact h.2
  | succ n ih =>
    intro i hi
    unfold Disk.move
    by_cases hlast : i = j.moved + n
    · rw [hlast, ← hserves.dataAddr, ← hserves.sector, Function.update_self]
    · rw [Function.update_of_ne ?_]
      · exact ih (by omega) i (by omega)
      · rw [hserves.dataAddr, hview i (by omega), hview _ (by omega)]
        omega

/-- The disk moves bytes to the buffer of the request. -/
theorem move_kept {j : Job} (hfits : d.Fits r head) (hserves : d.Serves j r head)
    (hroom : j.moved + n ≤ j.bytes) (ha : d.Posting a ∨ InFrame d.queue.usedVa a) :
    d.move j ram n a = ram a := by
  rw [hserves.bytes] at hroom
  refine move_of_outside fun i hi heq => ?_
  obtain ⟨hpost, hused, -⟩ := hfits.buffer_at (i := j.moved + i) (by omega)
  rw [heq, hserves.dataAddr] at ha
  exact ha.elim hpost hused

theorem putUsed_of_outside {m len : Nat} (h : ¬ InFrame d.queue.usedVa a) :
    d.putUsed ram m len a = ram a := by
  have hlt := d.queue.index_lt (ram.r16 (d.queue.usedVa + 2))
  unfold queueSizeMax at hlt
  unfold InFrame frameSize at h
  unfold putUsed Virtqueue.usedElem
  rw [Ram.w16_of_outside _ _ _ (by omega), Ram.w32_of_outside _ _ _ (by omega),
    Ram.w32_of_outside _ _ _ (by omega)]

theorem putUsed_idx {m len : Nat} : (d.putUsed ram m len).r16 (d.queue.usedVa + 2) =
    ram.r16 (d.queue.usedVa + 2) + 1 := by
  unfold putUsed
  rw [Ram.r16_w16, UInt16.ofNat_toNat]

theorem putUsed_elem {m len : Nat} :
    (d.putUsed ram m len).r32 (d.queue.usedElem (ram.r16 (d.queue.usedVa + 2))) =
      UInt32.ofNat m := by
  unfold putUsed Virtqueue.usedElem
  rw [Ram.r32_congr fun i hi => Ram.w16_of_outside _ _ _ (by omega),
    Ram.r32_w32_of_apart _ _ (by omega), Ram.r32_w32]

/-! ### The condition -/

/-- The read that polls, if there is one, is the one that a job is for. -/
def forPoll (s : State) (k : Nat) : Bool :=
  s.poll.all fun p => s.jobs[k]?.all fun j => decide (j.id = p.request.id)

/-- No earlier request reaches into a read: a read begins when the disk has taken every entry of the
available ring and the kernel has taken every element of the used ring, and as long as it polls, the
disk works for it only. -/
def alone (d : Disk) (s : State) : Label → Bool
  | .read .. => decide (s.seen = d.availIdx s ∧ s.lastUsed = d.usedIdx s)
  | .transfer k _ => forPoll s k
  | .status k _ => forPoll s k
  | .push k => forPoll s k
  | _ => true

/-- The read that returned last succeeded only if the disk returned its request with status OK, and
then the bytes of the sectors were in the buffer. -/
def Truthful (d : Disk) (s : State) : Prop :=
  ∀ ret, s.returned = some ret → ret.result = .ok () →
    s.reported ret.request.id = some 0 ∧
      ∀ i < ret.request.size, ret.bytes i = d.content (ret.request.sector * 512 + i)

/-! ### The invariant -/

/-- The disk has taken all requests but at most the last one, which it can take. -/
def Untaken (d : Disk) (s : State) : Prop :=
  s.seen = d.availIdx s ∧ s.taken = s.posted ∨
    s.seen + 1 = d.availIdx s ∧ s.taken + 1 = s.posted ∧
      ∃ r head, r.id = s.taken ∧ d.Fits r head ∧ d.InMemory s.ram r head ∧
        s.ram.r16 (d.queue.availEntry s.seen) = UInt16.ofNat head ∧
        ∀ p, s.poll = some p → p.request = r ∧ p.head = head

/-- The disk works for a read: its bytes and its status are where the kernel will look. -/
structure Works (d : Disk) (ram : Ram) (j : Job) (p : Poll) : Prop where
  serves : d.Serves j p.request p.head
  moved : d.Moved ram p.request j.moved
  status : ∀ b, j.status = some b →
    ram (d.statusAt p.head) = b ∧ (b = 0 → j.moved = p.request.size)

theorem Works.rephase (h : d.Works ram j p) {phase : Phase} :
    d.Works ram j { p with phase := phase } := ⟨h.serves, h.moved, h.status⟩

/-- The slot of a read that polls is live. -/
def Live (s : State) (p : Poll) : Prop :=
  ∃ slot < s.inflights.slots, p.head = slot * descPerReq ∧
    s.inflights.routing slot = some .poll

/-- The completion of a read has not come yet. -/
structure Waiting (d : Disk) (s : State) (p : Poll) : Prop where
  phase : ∃ spins, p.phase = .spinning spins
  live : Live s p
  used : s.lastUsed = d.usedIdx s
  works : ∀ j ∈ s.jobs, j.id = p.request.id → d.Works s.ram j p

/-- The disk has returned a read with the status `b`. -/
structure Landed (d : Disk) (s : State) (p : Poll) (b : UInt8) : Prop where
  reported : s.reported p.request.id = some b
  status : s.ram (d.statusAt p.head) = b
  bytes : b = 0 → d.Moved s.ram p.request p.request.size

/-- The completion of a read is the one element of the used ring that the kernel has not taken. -/
structure Unconsumed (d : Disk) (s : State) (p : Poll) : Prop where
  phase : (∃ spins, p.phase = .spinning spins) ∨ p.phase = .found ∨
    p.phase = .draining (s.lastUsed + 1) []
  live : Live s p
  used : d.usedIdx s = s.lastUsed + 1
  elem : s.ram.r32 (d.queue.usedElem s.lastUsed) = UInt32.ofNat p.head

/-- Where a read is that polls. -/
def Stage (d : Disk) (s : State) (p : Poll) : Prop :=
  d.Waiting s p ∨ ∃ b, d.Landed s p b ∧
    (d.Unconsumed s p ∨ p.phase = .draining s.lastUsed [(.poll, Desk.code b)])

/-- The invariant. -/
structure Inv (d : Disk) (s : State) : Prop where
  wf : s.inflights.WF
  slots : s.inflights.slots = d.queue.slots
  untaken : d.Untaken s
  jobs : ∀ j ∈ s.jobs, j.id < s.taken ∧ s.reported j.id = none ∧
    ∃ r head, d.Fits r head ∧ d.Serves j r head
  ids : (s.jobs.map Job.id).Nodup
  fresh : ∀ id, s.taken ≤ id → s.reported id = none
  polls : ∀ p, s.poll = some p →
    p.request.id + 1 = s.posted ∧ d.Fits p.request p.head ∧ d.Stage s p
  truthful : d.Truthful s

theorem Inv.start (hinit : d.system.init s) : d.Inv s := by
  obtain ⟨hwf, hslots, hpoll, hret, hjobs, hseen, -, hposted, htaken, hfresh⟩ := hinit
  refine ⟨hwf, hslots, Or.inl ⟨hseen, by rw [hposted, htaken]⟩, ?_, ?_, fun id _ => hfresh id,
    ?_, ?_⟩
  · rw [hjobs]
    exact nofun
  · rw [hjobs]
    exact List.nodup_nil
  · rw [hpoll]
    exact nofun
  · intro ret h
    rw [hret] at h
    cases h

/-! ### The kernel's steps -/

/-- A read returns. -/
theorem Inv.finish (h : d.Inv s) {inf : Inflights} (hwf : inf.WF)
    (hslots : inf.slots = s.inflights.slots) {result : Except String Unit}
    (htruth : result = .ok () → s.reported r.id = some 0 ∧ d.Moved s.ram r r.size) :
    d.Inv (d.finish { s with inflights := inf } r result) := by
  refine ⟨hwf, hslots.trans h.slots, ?_, h.jobs, h.ids, h.fresh, nofun, ?_⟩
  · rcases h.untaken with hnone | ⟨hseen, htaken, r', head, hid, hfits, hmem, hentry, -⟩
    · exact Or.inl hnone
    · exact Or.inr ⟨hseen, htaken, r', head, hid, hfits, hmem, hentry, nofun⟩
  · intro ret hret hok
    cases hret
    obtain ⟨hreported, -, hmoved⟩ := htruth hok
    exact ⟨hreported, hmoved⟩

/-- A read goes on. -/
theorem Inv.goOn (h : d.Inv s) (hp : s.poll = some p) {inf : Inflights} (hwf : inf.WF)
    (hslots : inf.slots = s.inflights.slots) {lastUsed : UInt16} {phase : Phase}
    (hstage : d.Stage
      { s with inflights := inf, lastUsed := lastUsed, poll := some { p with phase := phase } }
      { p with phase := phase }) :
    d.Inv { s with
      inflights := inf, lastUsed := lastUsed, poll := some { p with phase := phase } } := by
  obtain ⟨hid, hfits, -⟩ := h.polls p hp
  refine ⟨hwf, hslots.trans h.slots, ?_, h.jobs, h.ids, h.fresh, fun p' hp' => ?_, h.truthful⟩
  · rcases h.untaken with hnone | ⟨hseen, htaken, r', head, hr, hfits', hmem, hentry, hpoll⟩
    · exact Or.inl hnone
    · refine Or.inr ⟨hseen, htaken, r', head, hr, hfits', hmem, hentry, fun p' hp' => ?_⟩
      cases hp'
      exact hpoll p hp
  · cases hp'
    exact ⟨hid, hfits, hstage⟩

theorem succ_ne (x : UInt16) : x + 1 ≠ x := by
  intro h
  have hnat := congrArg UInt16.toNat h
  have hone : (1 : UInt16).toNat = 1 := rfl
  have hlt := x.toNat_lt
  rw [UInt16.toNat_add, hone] at hnat
  omega

/-- A read begins. -/
theorem Inv.read (h : d.Inv s) (halone : s.seen = d.availIdx s ∧ s.lastUsed = d.usedIdx s)
    {sector count dataAddr : Nat} (hnext : d.next s (.read sector count dataAddr) = some t) :
    d.Inv t := by
  unfold Disk.next at hnext
  dsimp only at hnext
  split at hnext
  · cases hnext
  · rename_i hready
    rw [not_or, Decidable.not_not] at hready
    obtain ⟨hidle, hbuffer⟩ := hready
    split at hnext
    · cases hnext
      exact h.finish h.wf rfl (fun hok => (nomatch hok))
    · rename_i head inf hsubmit
      cases hnext
      have hwf := Inflights.submit_wf h.wf hsubmit
      obtain ⟨slot, hfree, hhead, hroute, hslots⟩ := Inflights.submit_some hsubmit
      obtain ⟨hslot, -⟩ := h.wf.free slot (by rw [hfree]; exact List.mem_cons_self)
      have hmax : slot < maxSlots := Nat.lt_of_lt_of_le hslot h.wf.size
      have hfits : d.Fits ⟨s.posted, sector, count, dataAddr⟩ head := ⟨hbuffer, slot, hmax, hhead⟩
      have htaken : s.taken = s.posted := by
        rcases h.untaken with ⟨-, htaken⟩ | ⟨hseen, -⟩
        · exact htaken
        · rw [← halone.1] at hseen
          exact absurd hseen (succ_ne _)
      obtain ⟨hmem, hidx, hentry⟩ := posted_request s.ram hfits
      have hused : ∀ a, InFrame d.queue.usedVa a →
          d.queue.postRequest s.ram head sector count dataAddr false .read a = s.ram a := by
        intro a ha
        have hdesc := d.used_desc
        have havail := d.used_avail
        have hbuf := d.used_buf
        unfold Apart at hdesc havail hbuf
        unfold InFrame at ha
        rw [hhead]
        exact Virtqueue.postRequest_of_outside hmax (by omega) (by omega) (by omega)
      refine ⟨hwf, hslots.trans h.slots, Or.inr ⟨?_, ?_, _, head, ?_, hfits, hmem, ?_, ?_⟩, h.jobs,
        h.ids, h.fresh, ?_, nofun⟩
      · rw [halone.1]
        exact hidx.symm
      · show s.taken + 1 = s.posted + 1
        rw [htaken]
      · exact htaken.symm
      · show Ram.r16 _ (d.queue.availEntry s.seen) = _
        rw [halone.1]
        exact hentry
      · intro p hp
        cases hp
        exact ⟨rfl, rfl⟩
      · intro p hp
        cases hp
        refine ⟨rfl, hfits, Or.inl ⟨⟨0, rfl⟩, ⟨slot, ?_, hhead, ?_⟩, ?_, fun j hj hid => ?_⟩⟩
        · show slot < inf.slots
          rw [hslots]
          exact hslot
        · show inf.routing slot = _
          rw [hroute, Function.update_self]
        · show s.lastUsed = Ram.r16 _ (d.queue.usedVa + 2)
          rw [halone.2]
          exact (Ram.r16_congr fun i hi =>
            hused _ ⟨by omega, by unfold frameSize; omega⟩).symm
        · have hlt := (h.jobs j hj).1
          rw [hid, htaken] at hlt
          exact absurd hlt (Nat.lt_irrefl _)

/-- One test of the loop. -/
theorem Inv.spin (h : d.Inv s) (hnext : d.next s .spin = some t) : d.Inv t := by
  unfold Disk.next at hnext
  dsimp only at hnext
  split at hnext
  · rename_i r head spins hp
    obtain ⟨-, hfits, hstage⟩ := h.polls _ hp
    split at hnext
    · rename_i hidx
      split at hnext
      · -- The read gives up, and its slot is free again.
        cases hnext
        unfold giveUp
        dsimp only
        cases hc : s.inflights.complete head with
        | none => exact h.finish h.wf rfl (fun hok => (nomatch hok))
        | some c =>
          obtain ⟨target, inf⟩ := c
          obtain ⟨-, -, -, -, -, -, hslots⟩ := Inflights.complete_some hc
          exact h.finish (Inflights.complete_wf h.wf hc) hslots (fun hok => (nomatch hok))
      · cases hnext
        refine h.goOn hp h.wf rfl ?_
        rcases hstage with hwait | ⟨b, -, hrest⟩
        · exact Or.inl ⟨⟨_, rfl⟩, hwait.live, hwait.used, fun j hj hid =>
            (hwait.works j hj hid).rephase⟩
        · rcases hrest with hun | hphase
          · rw [hun.used] at hidx
            exact absurd hidx (succ_ne _)
          · cases hphase
    · rename_i hidx
      cases hnext
      refine h.goOn hp h.wf rfl ?_
      rcases hstage with hwait | ⟨b, hland, hrest⟩
      · exact absurd hwait.used.symm hidx
      · rcases hrest with hun | hphase
        · exact Or.inr ⟨b, ⟨hland.reported, hland.status, hland.bytes⟩,
            Or.inl ⟨Or.inr (Or.inl rfl), hun.live, hun.used, hun.elem⟩⟩
        · cases hphase
  · cases hnext

/-- The drain reads the used index. -/
theorem Inv.drain (h : d.Inv s) (hnext : d.next s .drain = some t) : d.Inv t := by
  unfold Disk.next at hnext
  dsimp only at hnext
  split at hnext
  · rename_i r head hp
    obtain ⟨-, hfits, hstage⟩ := h.polls _ hp
    cases hnext
    refine h.goOn hp h.wf rfl ?_
    rcases hstage with hwait | ⟨b, hland, hrest⟩
    · obtain ⟨spins, hphase⟩ := hwait.phase
      cases hphase
    · rcases hrest with hun | hphase
      · refine Or.inr ⟨b, ⟨hland.reported, hland.status, hland.bytes⟩,
          Or.inl ⟨Or.inr (Or.inr ?_), hun.live, hun.used, hun.elem⟩⟩
        show Phase.draining (d.usedIdx s) [] = _
        rw [hun.used]
      · cases hphase
  · cases hnext

/-- The drain takes the element of this read. -/
theorem Inv.element (h : d.Inv s) (hnext : d.next s .element = some t) : d.Inv t := by
  unfold Disk.next at hnext
  dsimp only at hnext
  split at hnext
  · rename_i r head usedIdx out hp
    obtain ⟨-, hfits, hstage⟩ := h.polls _ hp
    split at hnext
    · cases hnext
    · rename_i hidx
      cases hnext
      rcases hstage with hwait | ⟨b, hland, hrest⟩
      · obtain ⟨spins, hphase⟩ := hwait.phase
        cases hphase
      · rcases hrest with hun | hphase
        · obtain ⟨hslot, hout⟩ : usedIdx = s.lastUsed + 1 ∧ out = [] := by
            rcases hun.phase with ⟨spins, hphase⟩ | hphase | hphase
            · cases hphase
            · cases hphase
            · cases hphase
              exact ⟨rfl, rfl⟩
          subst hslot hout
          have hhead : (s.ram.r32 (d.queue.usedElem s.lastUsed)).toUInt16.toNat = head := by
            have hlt := hfits.head_le
            dsimp only at hlt
            rw [hun.elem, UInt32.toNat_toUInt16, UInt32.toNat_ofNat']
            dsimp only
            omega
          obtain ⟨slot, hlt, hslot, hlive⟩ := hun.live
          obtain ⟨⟨target, inf⟩, hcomplete⟩ :=
            Option.ne_none_iff_exists'.mp (Virtqueue.complete_of_live hlt hlive)
          rw [← hslot] at hcomplete
          obtain ⟨slot', hslot', -, htarget, -, -, hslots⟩ := Inflights.complete_some hcomplete
          have hsame : slot' = slot := by
            rw [hslot] at hslot'
            exact (Nat.mul_right_cancel (by decide) hslot').symm
          rw [hsame, hlive, Option.some.injEq] at htarget
          subst htarget
          have hone := Virtqueue.drainOne_some (b := s.ram (d.statusAt head)) hcomplete
          unfold drainElement
          dsimp only
          rw [hhead]
          unfold statusAt at hone
          rw [hone]
          have hstatus := hland.status
          unfold statusAt at hstatus
          dsimp only at hstatus
          dsimp only
          rw [hstatus, if_pos (by decide : ([] : List (Completion × Nat)).length < 1)]
          exact h.goOn hp (Inflights.complete_wf h.wf hcomplete) hslots
            (Or.inr ⟨b, ⟨hland.reported, hland.status, hland.bytes⟩, Or.inr rfl⟩)
        · cases hphase
          exact absurd rfl hidx
  · cases hnext

/-- The read returns after the drain. -/
theorem Inv.done (h : d.Inv s) (hnext : d.next s .done = some t) : d.Inv t := by
  unfold Disk.next at hnext
  dsimp only at hnext
  split at hnext
  · rename_i r head usedIdx out hp
    obtain ⟨-, hfits, hstage⟩ := h.polls _ hp
    split at hnext
    · rename_i hidx
      cases hnext
      refine h.finish h.wf rfl fun hok => ?_
      rcases hstage with hwait | ⟨b, hland, hrest⟩
      · obtain ⟨spins, hphase⟩ := hwait.phase
        cases hphase
      · rcases hrest with hun | hphase
        · rcases hun.phase with ⟨spins, hphase⟩ | hphase | hphase
          · cases hphase
          · cases hphase
          · cases hphase
            exact absurd hidx.symm (succ_ne _)
        · cases hphase
          unfold outcome Desk.code at hok
          dsimp only at hok
          by_cases hb : b = 0
          · subst hb
            exact ⟨hland.reported, hland.bytes rfl⟩
          · rw [if_neg hb, if_neg (by decide)] at hok
            cases hok
    · cases hnext
  · cases hnext

/-! ### The disk's steps -/

/-- The disk takes the next entry. -/
theorem Inv.fetch (h : d.Inv s) (hnext : d.next s .fetch = some t) : d.Inv t := by
  unfold Disk.next at hnext
  dsimp only at hnext
  split at hnext
  · cases hnext
  · rename_i hne
    cases hnext
    obtain ⟨hseen, htaken, r, head, hid, hfits, hmem, hentry, hpoll⟩ :=
      h.untaken.resolve_left fun hall => hne hall.1
    have hserves : d.Serves (d.fetched s.ram s.seen s.taken) r head := by
      rw [← hid]
      exact hmem.fetched hfits hentry
    have hnew : s.reported s.taken = none := h.fresh _ (Nat.le_refl _)
    have hold : ∀ j ∈ s.jobs, j.id ≠ s.taken := fun j hj => Nat.ne_of_lt (h.jobs j hj).1
    refine ⟨h.wf, h.slots, Or.inl ⟨hseen, htaken⟩, fun j hj => ?_, ?_,
      fun id hle => h.fresh id (Nat.le_of_succ_le hle), fun p hp => ?_, h.truthful⟩
    · rcases List.mem_append.mp hj with hj | hj
      · obtain ⟨hlt, hnone, hfor⟩ := h.jobs j hj
        exact ⟨Nat.lt_succ_of_lt hlt, hnone, hfor⟩
      · rw [List.mem_singleton.mp hj]
        exact ⟨Nat.lt_succ_self _, hnew, r, head, hfits, hserves⟩
    · show ((s.jobs ++ [d.fetched s.ram s.seen s.taken]).map Job.id).Nodup
      rw [List.map_append, List.nodup_append]
      refine ⟨h.ids, List.nodup_singleton _, fun a ha b hb => ?_⟩
      obtain ⟨j, hj, rfl⟩ := List.mem_map.mp ha
      rw [List.mem_singleton.mp hb]
      exact hold j hj
    · obtain ⟨hposted, hpfits, hstage⟩ := h.polls p hp
      refine ⟨hposted, hpfits, ?_⟩
      rcases hstage with hwait | ⟨b, hland, hrest⟩
      · refine Or.inl ⟨hwait.phase, hwait.live, hwait.used, fun j hj hjid => ?_⟩
        rcases List.mem_append.mp hj with hj | hj
        · exact hwait.works j hj hjid
        · obtain ⟨hr, hhead⟩ := hpoll p hp
          rw [List.mem_singleton.mp hj]
          rw [← hr, ← hhead] at hserves
          exact ⟨hserves, ⟨Nat.zero_le _, fun i hi => absurd hi (Nat.not_lt_zero i)⟩, nofun⟩
      · -- The request of a read that was returned was taken before.
        have htop : p.request.id = s.taken := by omega
        rw [← htop, hland.reported] at hnew
        cases hnew

/-- The numbers of the jobs stay when one of them goes on. -/
theorem ids_set {jobs : List Job} (hk : jobs[k]? = some j) (j' : Job) (hid : j'.id = j.id) :
    (jobs.set k j').map Job.id = jobs.map Job.id := by
  refine List.ext_getElem? fun i => ?_
  rw [List.getElem?_map, List.getElem?_map, List.getElem?_set]
  split
  · rename_i heq
    subst heq
    rw [hk, if_pos (List.getElem?_eq_some_iff.mp hk).1]
    exact congrArg some hid
  · rfl

/-- Two jobs have two numbers. -/
theorem id_ne {jobs : List Job} (hids : (jobs.map Job.id).Nodup) {i : Nat} {j' : Job}
    (hk : jobs[k]? = some j) (hi : jobs[i]? = some j') (hne : i ≠ k) : j'.id ≠ j.id := by
  intro heq
  have hlt : i < (jobs.map Job.id).length := by
    rw [List.length_map]
    exact (List.getElem?_eq_some_iff.mp hi).1
  refine hne ((List.getElem?_inj hlt hids).mp ?_)
  rw [List.getElem?_map, List.getElem?_map, hi, hk]
  exact congrArg some heq

/-- After one job has gone on, a job is that one or another one. -/
theorem mem_set {jobs : List Job} {x j' : Job} (h : j' ∈ jobs.set k x) :
    j' = x ∨ ∃ i ≠ k, jobs[i]? = some j' := by
  obtain ⟨i, hi⟩ := List.mem_iff_getElem?.mp h
  rw [List.getElem?_set] at hi
  split at hi
  · rename_i heq
    split at hi
    · rw [Option.some.injEq] at hi
      exact Or.inl hi.symm
    · cases hi
  · rename_i hne
    exact Or.inr ⟨i, fun heq => hne heq.symm, hi⟩

theorem forPoll_ids (hk : s.jobs[k]? = some j) (h : forPoll s k = true) (hp : s.poll = some p) :
    j.id = p.request.id := by
  unfold forPoll at h
  rw [hp, hk] at h
  exact of_decide_eq_true h

/-- The disk goes on with a job: what it writes is neither in the rings nor in the headers. -/
theorem Inv.work (h : d.Inv s) (hk : s.jobs[k]? = some j) (halone : forPoll s k = true)
    {moved : Nat} {status : Option UInt8}
    (hkept : ∀ a, d.Posting a ∨ InFrame d.queue.usedVa a → ram' a = s.ram a)
    (hworks : ∀ p, d.Fits p.request p.head → d.Works s.ram j p →
      d.Works ram' { j with moved := moved, status := status } p) :
    d.Inv { s with
      ram := ram', jobs := s.jobs.set k { j with moved := moved, status := status } } := by
  have hmem : j ∈ s.jobs := List.mem_of_getElem? hk
  have havail : ∀ o, o + 2 ≤ frameSize → ram'.r16 (d.queue.availVa + o) =
      s.ram.r16 (d.queue.availVa + o) := fun o ho =>
    Ram.r16_congr fun i hi => hkept _ (Or.inl (Or.inl ⟨by omega, by omega⟩))
  have hused : ram'.r16 (d.queue.usedVa + 2) = s.ram.r16 (d.queue.usedVa + 2) :=
    Ram.r16_congr fun i hi => hkept _ (Or.inr ⟨by omega, by unfold frameSize; omega⟩)
  refine ⟨h.wf, h.slots, ?_, fun j' hj' => ?_, ?_, h.fresh, fun p hp => ?_, h.truthful⟩
  · rcases h.untaken with ⟨hseen, htaken⟩ | ⟨hseen, htaken, r, head, hid, hfits, hchain, hentry,
      hpoll⟩
    · exact Or.inl ⟨hseen.trans (havail 2 (by decide)).symm, htaken⟩
    · refine Or.inr ⟨hseen.trans (havail 2 (by decide)).symm, htaken, r, head, hid, hfits,
        hchain.congr hfits fun a ha => hkept a (Or.inl (Or.inr ha)), ?_, hpoll⟩
      have hlt := d.queue.index_lt s.seen
      unfold queueSizeMax at hlt
      have hat := havail (4 + (s.seen % d.queue.qsize).toNat * 2) (by unfold frameSize; omega)
      rw [← Nat.add_assoc] at hat
      exact hat.trans hentry
  · rcases mem_set hj' with rfl | ⟨i, -, hi⟩
    · obtain ⟨hlt, hnone, r, head, hfits, hserves⟩ := h.jobs j hmem
      exact ⟨hlt, hnone, r, head, hfits, ⟨hserves.id, hserves.head, hserves.reqType,
        hserves.sector, hserves.dataAddr, hserves.bytes, hserves.statusAddr⟩⟩
    · exact h.jobs j' (List.mem_of_getElem? hi)
  · show ((s.jobs.set k { j with moved := moved, status := status }).map Job.id).Nodup
    rw [ids_set hk { j with moved := moved, status := status } rfl]
    exact h.ids
  · obtain ⟨hposted, hfits, hstage⟩ := h.polls p hp
    have hid := forPoll_ids hk halone hp
    refine ⟨hposted, hfits, ?_⟩
    rcases hstage with hwait | ⟨b, hland, -⟩
    · refine Or.inl ⟨hwait.phase, hwait.live, hwait.used.trans hused.symm, fun j' hj' hjid => ?_⟩
      rcases mem_set hj' with rfl | ⟨i, hne, hi⟩
      · exact hworks p hfits (hwait.works j hmem hid)
      · exact absurd (hjid.trans hid.symm) (id_ne h.ids hk hi hne)
    · have hnone := (h.jobs j hmem).2.1
      rw [hid, hland.reported] at hnone
      cases hnone

/-- The disk moves bytes. -/
theorem Inv.transfer (h : d.Inv s) (halone : forPoll s k = true)
    (hnext : d.next s (.transfer k n) = some t) : d.Inv t := by
  unfold Disk.next at hnext
  dsimp only at hnext
  split at hnext
  · cases hnext
  · rename_i j hk
    split at hnext
    · rename_i hready
      cases hnext
      obtain ⟨-, -, r, head, hfits, hserves⟩ := h.jobs j (List.mem_of_getElem? hk)
      refine h.work hk halone (fun a ha => move_kept hfits hserves hready.2.2 ha)
        fun p hpfits hworks => ?_
      refine ⟨⟨hworks.serves.id, hworks.serves.head, hworks.serves.reqType, hworks.serves.sector,
        hworks.serves.dataAddr, hworks.serves.bytes, hworks.serves.statusAddr⟩,
        hworks.moved.move hpfits hworks.serves hready.2.2, fun b hb => ?_⟩
      have hnone := hready.2.1
      dsimp only at hb
      rw [hnone] at hb
      cases hb
    · cases hnext

/-- The disk writes a status byte. -/
theorem Inv.status (h : d.Inv s) (halone : forPoll s k = true) {b : UInt8}
    (hnext : d.next s (.status k b) = some t) : d.Inv t := by
  unfold Disk.next at hnext
  dsimp only at hnext
  split at hnext
  · cases hnext
  · rename_i j hk
    split at hnext
    · rename_i hready
      cases hnext
      obtain ⟨-, -, r, head, hfits, hserves⟩ := h.jobs j (List.mem_of_getElem? hk)
      refine h.work hk halone (fun a ha => ?_) fun p hpfits hworks => ?_
      · refine Function.update_of_ne (fun heq => ?_) ..
        rw [heq, hserves.statusAddr, hserves.head] at ha
        exact ha.elim hfits.statusAt.1 hfits.statusAt.2
      · refine ⟨⟨hworks.serves.id, hworks.serves.head, hworks.serves.reqType,
          hworks.serves.sector, hworks.serves.dataAddr, hworks.serves.bytes,
          hworks.serves.statusAddr⟩, ⟨hworks.moved.1, fun i hi => ?_⟩, fun b' hb' => ?_⟩
        · have hsize : i < p.request.size := Nat.lt_of_lt_of_le hi hworks.moved.1
          rw [Function.update_of_ne ?_]
          · exact hworks.moved.2 i hi
          · rw [hworks.serves.statusAddr, hworks.serves.head]
            exact (hpfits.buffer_at hsize).2.2
        · cases hb'
          refine ⟨?_, fun hb => (hready.2 hb).2.trans hworks.serves.bytes⟩
          rw [hworks.serves.statusAddr, hworks.serves.head, Function.update_self]
    · cases hnext

/-- The disk returns a job. -/
theorem Inv.push (h : d.Inv s) (halone : forPoll s k = true)
    (hnext : d.next s (.push k) = some t) : d.Inv t := by
  unfold Disk.next at hnext
  dsimp only at hnext
  split at hnext
  · cases hnext
  · rename_i j hk
    split at hnext
    · cases hnext
    · rename_i hdone
      cases hnext
      obtain ⟨b, hb⟩ := Option.ne_none_iff_exists'.mp hdone
      have hmem : j ∈ s.jobs := List.mem_of_getElem? hk
      obtain ⟨hjlt, hjnone, -⟩ := h.jobs j hmem
      have hout : ∀ a, ¬ InFrame d.queue.usedVa a →
          d.putUsed s.ram j.head (j.moved + 1) a = s.ram a := fun a ha => putUsed_of_outside ha
      have hpost : ∀ a, d.Posting a → d.putUsed s.ram j.head (j.moved + 1) a = s.ram a := by
        intro a ha
        refine hout a fun hin => ?_
        have hdesc := d.used_desc
        have havail := d.used_avail
        have hbuf := d.used_buf
        have hregion : statusRegionOff ≤ frameSize := by decide
        unfold Apart at hdesc havail hbuf
        unfold Posting Chains InFrame at ha
        unfold InFrame at hin
        omega
      have havail : ∀ o, o + 2 ≤ frameSize →
          (d.putUsed s.ram j.head (j.moved + 1)).r16 (d.queue.availVa + o) =
            s.ram.r16 (d.queue.availVa + o) := fun o ho =>
        Ram.r16_congr fun i hi => hpost _ (Or.inl ⟨by omega, by omega⟩)
      have hne : ∀ id, s.reported id ≠ none →
          Function.update s.reported j.id j.status id = s.reported id := fun id hid => by
        refine Function.update_of_ne ?_ ..
        rintro rfl
        exact hid hjnone
      refine ⟨h.wf, h.slots, ?_, fun j' hj' => ?_, ?_, fun id hle => ?_, fun p hp => ?_,
        fun ret hret hok => ?_⟩
      · rcases h.untaken with ⟨hseen, htaken⟩ | ⟨hseen, htaken, r, head, hid, hfits, hchain, hentry,
          hpoll⟩
        · exact Or.inl ⟨hseen.trans (havail 2 (by decide)).symm, htaken⟩
        · refine Or.inr ⟨hseen.trans (havail 2 (by decide)).symm, htaken, r, head, hid, hfits,
            hchain.congr hfits fun a ha => hpost a (Or.inr ha), ?_, hpoll⟩
          have hlt := d.queue.index_lt s.seen
          unfold queueSizeMax at hlt
          have hat := havail (4 + (s.seen % d.queue.qsize).toNat * 2) (by unfold frameSize; omega)
          rw [← Nat.add_assoc] at hat
          exact hat.trans hentry
      · obtain ⟨i, hik, hi⟩ := List.mem_eraseIdx_iff_getElem?.mp hj'
        obtain ⟨hlt, hnone, hfor⟩ := h.jobs j' (List.mem_of_getElem? hi)
        refine ⟨hlt, ?_, hfor⟩
        show Function.update s.reported j.id j.status j'.id = none
        rw [Function.update_of_ne (id_ne h.ids hk hi hik)]
        exact hnone
      · exact h.ids.sublist ((List.eraseIdx_sublist s.jobs k).map Job.id)
      · show Function.update s.reported j.id j.status id = none
        have hle : s.taken ≤ id := hle
        rw [Function.update_of_ne (by omega)]
        exact h.fresh id hle
      · obtain ⟨hposted, hfits, hstage⟩ := h.polls p hp
        have hid := forPoll_ids hk halone hp
        refine ⟨hposted, hfits, ?_⟩
        rcases hstage with hwait | ⟨b', hland, -⟩
        · have hworks := hwait.works j hmem hid
          obtain ⟨hstatus, hbytes⟩ := hworks.status b hb
          refine Or.inr
            ⟨b, ⟨?_, ?_, fun hzero => ?_⟩, Or.inl ⟨Or.inl hwait.phase, hwait.live, ?_, ?_⟩⟩
          · show Function.update s.reported j.id j.status p.request.id = some b
            rw [← hid, Function.update_self]
            exact hb
          · exact (hout _ hfits.statusAt.2).trans hstatus
          · refine ⟨Nat.le_refl _, fun i hi => ?_⟩
            refine (hout _ (hfits.buffer_at hi).2.1).trans (hworks.moved.2 i ?_)
            rw [hbytes hzero]
            exact hi
          · show (d.putUsed s.ram j.head (j.moved + 1)).r16 (d.queue.usedVa + 2) = s.lastUsed + 1
            rw [putUsed_idx, hwait.used]
            rfl
          · show (d.putUsed s.ram j.head (j.moved + 1)).r32 (d.queue.usedElem s.lastUsed) = _
            rw [hwait.used, ← hworks.serves.head]
            exact putUsed_elem
        · rw [hid, hland.reported] at hjnone
          cases hjnone
      · obtain ⟨hreported, hrest⟩ := h.truthful ret hret hok
        refine ⟨?_, hrest⟩
        show Function.update s.reported j.id j.status ret.request.id = some 0
        rw [hne _ (by rw [hreported]; exact Option.some_ne_none _)]
        exact hreported

theorem Inv.step (h : d.Inv s) (halone : d.alone s ℓ = true) (hnext : d.next s ℓ = some t) :
    d.Inv t := by
  cases ℓ with
  | read => exact h.read (of_decide_eq_true halone) hnext
  | spin => exact h.spin hnext
  | drain => exact h.drain hnext
  | element => exact h.element hnext
  | done => exact h.done hnext
  | fetch => exact h.fetch hnext
  | transfer => exact h.transfer halone hnext
  | status => exact h.status halone hnext
  | push => exact h.push halone hnext

/-- In every run in which no earlier request reaches into a read, a read that succeeds was returned
by the disk with status OK, and its buffer has the bytes of its sectors. -/
theorem truthful_of_alone (hs : Reachable d.system (fun s ℓ => d.alone s ℓ = true) s) :
    d.Truthful s :=
  (hs.invariant (I := d.Inv) (fun _ hinit => .start hinit)
    fun _ _ _ _ hinv halone hnext => hinv.step halone hnext).truthful

/-! ### A late completion -/

/-- A disk at `smallQueue`: the device addresses are physical, and sector `n` is filled with the
byte `n + 1`. -/
def smallDisk : Disk where
  queue := Virtqueue.smallQueue
  view := fun a => a
  content := fun i => UInt8.ofNat (i / 512 + 1)
  desc_avail := by decide
  used_desc := by decide
  used_avail := by decide
  used_buf := by decide
  header := fun _ _ _ _ => rfl
  status := fun _ _ => rfl
  narrow := by decide

/-- The queue after `init`. -/
def smallStart : State where
  ram := fun _ => 0
  inflights := Inflights.new 21
  lastUsed := 0
  poll := none
  returned := none
  seen := 0
  jobs := []
  posted := 0
  taken := 0
  reported := fun _ => none

theorem smallStart_init : smallDisk.system.init smallStart :=
  ⟨Inflights.new_wf 21, by decide +kernel, rfl, rfl, rfl, rfl, rfl, rfl, rfl, fun _ => rfl⟩

/-- Sector 1 is read, and the disk answers in time. -/
def timelyRun : List Label :=
  [.read 1 1 (8 * frameSize), .spin, .fetch, .transfer 0 100, .spin, .transfer 0 412, .status 0 0,
    .push 0, .spin, .drain, .element, .done]

/-- A read that succeeds, with what `truthful_of_alone` says of it. -/
theorem truthful_of_alone_timely :
    smallDisk.Truthful (smallDisk.system.runFrom smallStart timelyRun) ∧
      ((smallDisk.system.runFrom smallStart timelyRun).returned.map fun ret =>
        (ret.request.id, ret.result.isOk, ret.bytes 0)) = some (0, true, 2) :=
  ⟨truthful_of_alone (.runFrom ⟨[], .start smallStart_init⟩ (by decide +kernel)),
    by decide +kernel⟩

/-- The loop spins as long as the used index does not change. -/
theorem spins {poll : Poll} (hs : Reachable d.system always s)
    (hp : s.poll = some { poll with phase := .spinning 0 }) (hidx : d.usedIdx s = s.lastUsed)
    (hn : n < pollMax) :
    Reachable d.system always { s with poll := some { poll with phase := .spinning n } } := by
  induction n with
  | zero =>
    rw [← hp]
    exact hs
  | succ n ih =>
    refine (ih (Nat.lt_of_succ_lt hn)).next (a := Label.spin) trivial ?_
    show (if d.usedIdx s = s.lastUsed then _ else _) = _
    rw [if_pos hidx, if_neg (Nat.not_le_of_lt hn)]

/-- A read gives up if the used index does not change. -/
theorem timesOut (poll : Poll) (hs : Reachable d.system always s)
    (hp : s.poll = some { poll with phase := .spinning 0 }) (hidx : d.usedIdx s = s.lastUsed) :
    Reachable d.system always (d.giveUp s poll) := by
  refine (spins hs hp hidx (n := pollMax - 1) (by decide)).next (a := Label.spin) trivial ?_
  show (if d.usedIdx s = s.lastUsed then _ else _) = _
  rw [if_pos hidx, if_pos (by decide)]
  rfl

/-- Sector 0 is asked for, and the disk takes the request. -/
def lateRun : List Label := [.read 0 1 (8 * frameSize), .fetch]

/-- Sector 1 is asked for. Now the disk answers the first request. -/
def lateAnswer : List Label :=
  [.read 1 1 (9 * frameSize), .transfer 0 512, .status 0 0, .push 0, .spin, .drain, .element, .done]

/-- The first read gives up between the two. The second one succeeds, but the disk has not even
taken its request, and its buffer is empty. -/
def lateState : State :=
  smallDisk.system.runFrom
    (smallDisk.giveUp (smallDisk.system.runFrom smallStart lateRun)
      ⟨⟨0, 0, 1, 8 * frameSize⟩, 60, .found⟩) lateAnswer

theorem lateState_lies : Reachable smallDisk.system always lateState ∧
    lateState.reported 1 = none ∧ ¬ smallDisk.Truthful lateState ∧
    ∃ ret, lateState.returned = some ret ∧ ret.request.id = 1 ∧ ret.result = .ok () ∧
      ret.bytes 0 ≠ smallDisk.content (ret.request.sector * 512) := by
  have hfirst : Reachable smallDisk.system always (smallDisk.system.runFrom smallStart lateRun) :=
    ⟨_, smallDisk.system.run smallStart_init lateRun⟩
  have hgaveUp := timesOut ⟨⟨0, 0, 1, 8 * frameSize⟩, 60, .found⟩ hfirst
    (by decide +kernel) (by decide +kernel)
  have hreach : Reachable smallDisk.system always lateState := by
    obtain ⟨hist, run⟩ := hgaveUp
    exact ⟨_, run.from lateAnswer⟩
  have hnone : lateState.reported 1 = none := by decide +kernel
  have hret : lateState.returned.map (fun ret =>
      (ret.request, ret.result.isOk, decide (ret.bytes 0 = smallDisk.content 512))) =
        some (⟨1, 1, 1, 9 * frameSize⟩, true, false) := by
    decide +kernel
  obtain ⟨ret, hsome, hfields⟩ := Option.map_eq_some_iff.mp hret
  obtain ⟨hrequest, hrest⟩ := Prod.mk.inj hfields
  obtain ⟨hok, hbytes⟩ := Prod.mk.inj hrest
  have hresult : ret.result = .ok () := by
    cases hr : ret.result with
    | error e =>
      rw [hr] at hok
      cases hok
    | ok u => rfl
  have hid : ret.request.id = 1 := congrArg ReadRequest.id hrequest
  refine ⟨hreach, hnone, fun h => ?_, ret, hsome, hid, hresult, ?_⟩
  · have hreported := (h ret hsome hresult).1
    rw [hid, hnone] at hreported
    cases hreported
  · have hsector : ret.request.sector = 1 := congrArg ReadRequest.sector hrequest
    rw [hsector, Nat.one_mul]
    exact of_decide_eq_false hbytes

end Disk

end Plinth
