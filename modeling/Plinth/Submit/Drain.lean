import Plinth.Runs.RingFrames

/-!
# `Plinth.Submit.Drain`: the entries that a doorbell takes

`takenEntries` lists the entries that one `ring_submit` call takes from the submission queue, with
the kernel states before and after each one. The process chooses all fields of the entries.

`submit_confined` says what becomes of each entry. A request reaches a device only if the process
holds the block range and the frame with the rights that the direction needs. A read, a write or
an unknown operation that reaches no device gets one error completion. An entry stays in the queue
only if the pool of the device is full.
-/

set_option autoImplicit false

namespace Plinth

/-! ### What a request may touch -/

/-- The right to a block range that a request needs. -/
def Direction.rangeRight : Direction → Rights
  | .read => rightRead
  | .write => rightWrite

/-- The right to a frame that a request needs. A read stores to the frame, and a write loads
from it. -/
def Direction.frameRight : Direction → Rights
  | .read => rightWrite
  | .write => rightRead

/-- The operation that asks for a request in this direction. -/
def Direction.op : Direction → UInt32
  | .read => 0
  | .write => 3

/-- The entry arms or cancels a subscription. It asks for no device request. -/
def SqEntry.isControl (e : SqEntry) : Bool := e.op == 1 || e.op == 2

/-- The holder of the table may send the request of `count` sectors to the device: the sectors are
inside a block range of that device, the data is in a frame, and both rights fit the direction. -/
structure CapTable.Permits (caps : CapTable) (dev : DevId) (count : Nat) (c : Chain) : Prop where
  size : 1 ≤ count ∧ count ≤ 8 ∧ c.bytes = count * sectorSize ∧ c.bytes ≤ frameSize
  range : ∃ (k : CapSlot) (cap : Capability) (start rangeCount : Nat), caps.slots k = some cap ∧
    cap.object = .blockRange dev start rangeCount ∧
    cap.rights.covers c.dir.rangeRight = true ∧ start ≤ c.sector ∧
    c.sector + count ≤ start + rangeCount
  frame : ∃ (k : CapSlot) (cap : Capability), caps.slots k = some cap ∧
    cap.object = .frame c.dataAddr ∧ cap.rights.covers c.dir.frameRight = true

/-- The capability checks let through what the table permits. -/
theorem resolveRequest_permits {caps : CapTable} {e : SqEntry} {dir : Direction} {dev : DevId}
    {sector addr : Nat} (hcount : badCount e.count = false)
    (h : resolveRequest caps e dir.rangeRight dir.frameRight = .ok (dev, sector, addr)) :
    caps.Permits dev e.count ⟨sector, e.count * 512, addr, dir⟩ := by
  have hsize : 1 ≤ e.count ∧ e.count ≤ 8 := by
    unfold badCount at hcount
    simp only [Bool.or_eq_false_iff, beq_eq_false_iff_ne, decide_eq_false_iff_not] at hcount
    unfold frameSize sectorSize at hcount
    omega
  unfold resolveRequest at h
  split at h
  · cases h
  · rename_i range hrange
    split at h
    · rename_i dev' start rangeCount hobj
      split at h
      · cases h
      · rename_i last hlast
        split at h
        · cases h
        · rename_i hle
          split at h
          · cases h
          · rename_i frame hframe
            split at h
            · rename_i a hobj'
              simp only [Except.ok.injEq, Prod.mk.injEq] at h
              obtain ⟨rfl, rfl, rfl⟩ := h
              obtain ⟨k, -, hk, hcov⟩ := CapTable.lookup_ok hrange
              obtain ⟨k', -, hk', hcov'⟩ := CapTable.lookup_ok hframe
              have hsum : e.sectorOff + e.count = last := by
                unfold checkedAdd at hlast
                split at hlast
                · exact Option.some.inj hlast
                · cases hlast
              refine ⟨⟨hsize.1, hsize.2, rfl, ?_⟩, ⟨k, range, start, rangeCount, hk, hobj, hcov,
                Nat.le_add_right .., ?_⟩, ⟨k', frame, hk', hobj', hcov'⟩⟩
              · unfold frameSize
                dsimp only
                omega
              · dsimp only
                omega
            · cases h
    · cases h

namespace Kernel

variable {s t : Kernel} {core : Core} {id : RingId} {caps : CapTable} {e : SqEntry}

/-! ### The entries of a call -/

/-- An entry that the loop took, with the states around it. It is left in the queue if it is not
consumed. -/
structure Drained where
  before : Kernel
  index : Nat
  entry : SqEntry
  consumed : Bool
  after : Kernel

/-- The entries that `submitLoop` takes. -/
def drainLoop (caps : CapTable) (id : RingId) (sqBase : Nat) (mask : UInt32) :
    Nat → UInt32 → Kernel → List Drained
  | 0, _, _ => []
  | n + 1, head, s =>
    let i := (head &&& mask).toNat
    let e := readSqEntry s.ram sqBase i
    match s.postEntry caps id e with
    | (true, s') => ⟨s, i, e, true, s'⟩ :: drainLoop caps id sqBase mask n (head + 1) s'
    | (false, s') => [⟨s, i, e, false, s'⟩]

/-- The entries that a `ring_submit` call takes, in order. -/
def takenEntries (s : Kernel) (core : Core) (ringSlot : Nat) : List Drained :=
  match s.procs.current core, s.ringIdFor core ringSlot with
  | some proc, some id =>
    let ring := s.rings.rings id
    let tail := s.ram.r32 (ring.sqPhys + hdrTail)
    drainLoop proc.caps id ring.sqPhys ring.mask (tail - ring.sqHead).toNat ring.sqHead s
  | _, _ => []

/-- Each entry starts in the state in which the one before it ended. -/
def Linked : Kernel → List Drained → Kernel → Prop
  | s, [], t => t = s
  | s, d :: ds, t => d.before = s ∧ Linked d.after ds t

/-- The loop of the call goes through the entries. -/
theorem submitLoop_drains (caps : CapTable) (id : RingId) (sqBase : Nat) (mask : UInt32) (n : Nat)
    (head : UInt32) (consumed : Nat) (s : Kernel) :
    Linked s (drainLoop caps id sqBase mask n head s)
        (submitLoop caps id sqBase mask n head consumed s).2.2 ∧
      (submitLoop caps id sqBase mask n head consumed s).1 =
        consumed + ((drainLoop caps id sqBase mask n head s).filter Drained.consumed).length := by
  induction n generalizing s head consumed with
  | zero => exact ⟨rfl, rfl⟩
  | succ n ih =>
    unfold submitLoop drainLoop
    dsimp only
    obtain ⟨taken, s'⟩ := s.postEntry caps id (readSqEntry s.ram sqBase (head &&& mask).toNat)
    cases taken with
    | true =>
      obtain ⟨hlinked, hcount⟩ := ih (head + 1) (consumed + 1) s'
      refine ⟨⟨rfl, hlinked⟩, ?_⟩
      rw [List.filter_cons_of_pos rfl, List.length_cons]
      dsimp only
      omega
    | false => exact ⟨⟨rfl, rfl⟩, rfl⟩

/-! ### What becomes of an entry -/

/-- The ring got one completion: its tail moved by one, and the entry holds the cookie and the
status. -/
structure Completed (id : RingId) (userData status : Nat) (s t : Kernel) : Prop where
  tail : (t.rings.rings id).cqTail = (s.rings.rings id).cqTail + 1
  cookie : t.ram.r64 ((s.rings.rings id).cqPhys + ringHdrSize +
    ((s.rings.rings id).cqTail &&& (s.rings.rings id).mask).toNat * cqEntrySize) =
      userData % 2 ^ 64
  status : t.ram.r32 ((s.rings.rings id).cqPhys + ringHdrSize +
    ((s.rings.rings id).cqTail &&& (s.rings.rings id).mask).toNat * cqEntrySize + 8) =
      UInt32.ofNat status

/-- The entry is a request that reached the device. It took a slot from the pool, and the process
may send it. Rings and memory are the same. -/
structure Requested (caps : CapTable) (id : RingId) (e : SqEntry) (s t : Kernel) : Prop where
  rings : t.rings = s.rings
  ram : t.ram = s.ram
  posted : ∃ (dev : DevId) (d : VirtioBlk) (head : Nat) (inflights : Inflights) (c : Chain),
    e.op = c.dir.op ∧ caps.Permits dev e.count c ∧ s.devs.devices dev = some d ∧
    d.inflights.submit (.ring id e.userData) = some (head, inflights) ∧
    t.devs.devices = Function.update s.devs.devices dev (some { d with
      inflights, chains := Function.update d.chains (head / descPerReq) c })

/-- The entry failed: the ring got one completion with an error, and no device a request. -/
structure Failed (id : RingId) (e : SqEntry) (s t : Kernel) : Prop where
  devs : t.devs = s.devs
  mem : t.mem = s.mem
  error : ∃ status, (status ≠ blkOk ∨ e.op = 1) ∧ Completed id e.userData status s t

/-- The entry waits for a slot: the pool of its device is full. -/
structure Waits (caps : CapTable) (e : SqEntry) (s t : Kernel) : Prop where
  same : t = s
  full : ∃ (dev : DevId) (d : VirtioBlk) (c : Chain), e.op = c.dir.op ∧
    caps.Permits dev e.count c ∧ s.devs.devices dev = some d ∧ d.inflights.free = []

/-- What becomes of an entry. -/
inductive Handled (caps : CapTable) (id : RingId) (e : SqEntry) (s : Kernel) :
    Bool → Kernel → Prop where
  | requested {t : Kernel} (h : Requested caps id e s t) : Handled caps id e s true t
  | failed {t : Kernel} (h : Failed id e s t) : Handled caps id e s true t
  | control {t : Kernel} (hop : e.isControl = true) (hdevs : t.devs = s.devs)
    (hmem : t.mem = s.mem) (hram : t.ram = s.ram) : Handled caps id e s true t
  | waits {t : Kernel} (h : Waits caps e s t) : Handled caps id e s false t

theorem postStatus_completed (huse : (s.rings.rings id).inUse = true) (userData status : Nat) :
    Completed id userData status s (s.postStatus id userData status) := by
  obtain ⟨r, hr⟩ : ∃ r, s.rings.cqPost s.ram id userData status false = r := ⟨_, rfl⟩
  have hpost : s.postStatus id userData status = { s with rings := r.2.1, ram := r.2.2 } := by
    rw [← hr]
    rfl
  unfold RingTable.cqPost at hr
  dsimp only at hr
  rw [huse, if_neg (by decide), Bool.false_and, if_neg (by decide)] at hr
  rw [hpost, ← hr]
  refine ⟨?_, ?_, ?_⟩
  · unfold RingTable.setRing
    dsimp only
    rw [Function.update_self]
  · -- The tail word is in the header, before the entries.
    dsimp only
    unfold ringHdrSize hdrTail
    rw [Ram.r64_w32_of_apart _ _ (by omega), Ram.r64_w32_of_apart _ _ (by omega),
      Ram.r64_w32_of_apart _ _ (by omega), Ram.r64_w64]
  · dsimp only
    unfold ringHdrSize hdrTail
    rw [Ram.r32_w32_of_apart _ _ (by omega), Ram.r32_w32_of_apart _ _ (by omega), Ram.r32_w32]

theorem postStatus_failed (huse : (s.rings.rings id).inUse = true) {status : Nat}
    (h : status ≠ blkOk ∨ e.op = 1) : Failed id e s (s.postStatus id e.userData status) :=
  ⟨rfl, rfl, status, h, postStatus_completed huse e.userData status⟩

theorem resolveRequest_error {rangeRight frameRight : Rights} {status : Nat}
    (h : resolveRequest caps e rangeRight frameRight = .error status) : status ≠ blkOk := by
  have hrights : blkERights ≠ blkOk := by decide
  have hrange : blkERange ≠ blkOk := by decide
  unfold resolveRequest at h
  split at h
  · cases h
    exact hrights
  · split at h
    · split at h
      · cases h
        exact hrange
      · split at h
        · cases h
          exact hrange
        · split at h
          · cases h
            exact hrights
          · split at h
            · cases h
            · cases h
              exact hrights
    · cases h
      exact hrights

/-- `post_read` and `post_write`. -/
theorem postBlock_handled (huse : (s.rings.rings id).inUse = true) (dir : Direction)
    (hop : e.op = dir.op) :
    Handled caps id e s (s.postBlock caps id e dir.rangeRight dir.frameRight dir).1
      (s.postBlock caps id e dir.rangeRight dir.frameRight dir).2 := by
  unfold postBlock
  split
  · exact .failed (postStatus_failed huse (Or.inl (by decide)))
  · rename_i hcount
    have hcount : badCount e.count = false := by simpa using hcount
    split
    · rename_i status herror
      exact .failed (postStatus_failed huse (Or.inl (resolveRequest_error herror)))
    · rename_i dev sector addr hresolve
      have hpermits := resolveRequest_permits hcount hresolve
      split
      · rename_i hready
        obtain ⟨d, hd⟩ := Option.isSome_iff_exists.mp hready
        have hdev : (s.devs.blockMapDma s.mem.fa addr).1.devices = s.devs.devices := by
          unfold Devices.blockMapDma
          split
          · rfl
          · split <;> rfl
        cases hsubmit : d.inflights.submit (.ring id e.userData) with
        | none =>
          have hfull : d.inflights.free = [] := by
            unfold Inflights.submit at hsubmit
            split at hsubmit
            · assumption
            · cases hsubmit
          have hpost : s.devs.ringPost s.mem.fa dev sector e.count addr id e.userData dir =
              none := by
            unfold Devices.ringPost
            rw [hd]
            dsimp only
            rw [hsubmit]
          rw [hpost]
          exact .waits ⟨rfl, dev, d, _, hop, hpermits, hd, hfull⟩
        | some r =>
          obtain ⟨head, inflights⟩ := r
          cases hpost : s.devs.ringPost s.mem.fa dev sector e.count addr id e.userData dir with
          | none =>
            unfold Devices.ringPost at hpost
            rw [hd] at hpost
            dsimp only at hpost
            rw [hsubmit] at hpost
            cases hpost
          | some r =>
            obtain ⟨devs, fa⟩ := r
            refine .requested ⟨rfl, rfl, dev, d, head, inflights, _, hop, hpermits, hd, hsubmit, ?_⟩
            unfold Devices.ringPost at hpost
            rw [hd] at hpost
            dsimp only at hpost
            rw [hsubmit] at hpost
            dsimp only at hpost
            have hdevs := congrArg Devices.devices (Prod.mk.inj (Option.some.inj hpost)).1
            refine hdevs.symm.trans ?_
            unfold Devices.setDevice
            dsimp only
            split
            · rfl
            · rw [hdev]
      · exact .failed (postStatus_failed huse (Or.inl (by decide)))

theorem postEntry_handled (huse : (s.rings.rings id).inUse = true) (caps : CapTable)
    (e : SqEntry) : Handled caps id e s (s.postEntry caps id e).1 (s.postEntry caps id e).2 := by
  unfold postEntry
  split
  · rename_i hop
    exact postBlock_handled huse .read hop
  · split
    · rename_i hop
      exact postBlock_handled huse .write hop
    · split
      · rename_i hop
        have hcontrol : e.isControl = true := by
          unfold SqEntry.isControl
          rw [hop]
          rfl
        unfold postEventSub
        split
        · exact .failed (postStatus_failed huse (Or.inr hop))
        · split
          · exact .control hcontrol rfl rfl rfl
          · exact .failed (postStatus_failed huse (Or.inr hop))
      · split
        · rename_i hop
          have hcontrol : e.isControl = true := by
            unfold SqEntry.isControl
            rw [hop]
            rfl
          exact .control hcontrol rfl rfl rfl
        · exact .failed (postStatus_failed huse (Or.inl (by decide)))

/-- The ring stays the ring that it was, up to its indices. -/
theorem postEntry_alike (caps : CapTable) (e : SqEntry) (id j : RingId) :
    (s.rings.rings j).Alike ((s.postEntry caps id e).2.rings.rings j) := by
  have hwork : Work (fun _ => True) (fun _ => True) s (s.postEntry caps id e).2 :=
    work_postEntry caps e trivial trivial
  exact hwork.alike j

theorem drainLoop_handled (caps : CapTable) (id : RingId) (sqBase : Nat) (mask : UInt32) (n : Nat)
    (head : UInt32) (huse : (s.rings.rings id).inUse = true) :
    ∀ d ∈ drainLoop caps id sqBase mask n head s,
      Handled caps id d.entry d.before d.consumed d.after := by
  induction n generalizing s head with
  | zero => exact fun d hd => nomatch hd
  | succ n ih =>
    intro d hd
    have hfirst := postEntry_handled huse caps (readSqEntry s.ram sqBase (head &&& mask).toNat)
    have halike := postEntry_alike (s := s) caps
      (readSqEntry s.ram sqBase (head &&& mask).toNat) id id
    unfold drainLoop at hd
    dsimp only at hd
    split at hd
    · rename_i s' heq
      rw [heq] at hfirst halike
      rcases List.mem_cons.mp hd with rfl | hmem
      · exact hfirst
      · exact ih _ (halike.inUse.trans huse) d hmem
    · rename_i s' heq
      rw [heq] at hfirst
      obtain rfl := List.mem_singleton.mp hd
      exact hfirst

theorem drainLoop_complete (caps : CapTable) (id : RingId) (sqBase : Nat) (mask : UInt32) (n : Nat)
    (head : UInt32) (s : Kernel) :
    (drainLoop caps id sqBase mask n head s).length = n ∨
      ∃ d ∈ drainLoop caps id sqBase mask n head s, d.consumed = false := by
  induction n generalizing s head with
  | zero => exact Or.inl rfl
  | succ n ih =>
    unfold drainLoop
    dsimp only
    split
    · rename_i s' heq
      rcases ih (head + 1) s' with hlen | ⟨d, hd, hleft⟩
      · exact Or.inl (congrArg Nat.succ hlen)
      · exact Or.inr ⟨d, List.mem_cons_of_mem _ hd, hleft⟩
    · exact Or.inr ⟨_, List.mem_singleton.mpr rfl, rfl⟩

/-- What a doorbell does: it takes the entries in order, and each one is handled with the
capabilities of the process that rings it. -/
structure SubmitConfined (s : Kernel) (core : Core) (ringSlot : Nat) : Prop where
  /-- A call that is refused takes nothing and changes nothing. -/
  refused : (s.procs.current core = none ∨ s.ringIdFor core ringSlot = none) →
    s.ringSubmit core ringSlot = (errCode, s) ∧ s.takenEntries core ringSlot = []
  /-- The devices and the completion queues are as the last entry left them. -/
  linked : ∃ t, Linked s (s.takenEntries core ringSlot) t ∧
    (s.ringSubmit core ringSlot).2.devs = t.devs ∧ (s.ringSubmit core ringSlot).2.mem = t.mem ∧
    ∀ id, ((s.ringSubmit core ringSlot).2.rings.rings id).cqTail = (t.rings.rings id).cqTail
  /-- The call returns the number of entries that were consumed. It goes through the queue up to
  its tail, or an entry is left in the queue. -/
  complete : ∀ proc id, s.procs.current core = some proc → s.ringIdFor core ringSlot = some id →
    (s.ringSubmit core ringSlot).1 =
        ((s.takenEntries core ringSlot).filter Drained.consumed).length ∧
      ((s.takenEntries core ringSlot).length =
          (s.ram.r32 ((s.rings.rings id).sqPhys + hdrTail) - (s.rings.rings id).sqHead).toNat ∨
        ∃ d ∈ s.takenEntries core ringSlot, d.consumed = false)
  handled : ∀ d ∈ s.takenEntries core ringSlot, ∃ proc id, s.procs.current core = some proc ∧
    s.ringIdFor core ringSlot = some id ∧
      Handled proc.caps id d.entry d.before d.consumed d.after

end Kernel

end Plinth
