import Plinth.Ipc

/-!
# `Plinth.BlockIo`: ring calls, completions and events

The ring operations of `kernel/src/rings.rs`, and the completion interrupt and `bind_wait` of
`kernel/src/virtio_blk.rs`.

`ring_submit` drains the submission queue of a ring. For each entry it checks the capabilities
of the submitting process, and then it posts a request to a device, arms or cancels an event
subscription, or posts an error. The index words of the queue wrap at 2^32, so the loop runs
once for each step from the kernel's head to the tail that the user stored.

The completion interrupt routes what the device reports to the rings. The used ring is written
by the device, so its new elements are an input of the step.
-/

set_option autoImplicit false

namespace Plinth

/-- `BLK_E_BADARG`. -/
def blkEBadArg : Nat := 1

/-- `BLK_E_RANGE`. -/
def blkERange : Nat := 2

/-- `BLK_E_RIGHTS`. -/
def blkERights : Nat := 3

/-- `EVENT_SUB_ERR`, the status of a refused subscription. -/
def eventSubErr : Nat := 0

/-- `SECTOR_SIZE`. -/
def sectorSize : Nat := 512

/-- `N_SOURCES`, the number of input event sources. -/
def nSources : Nat := 2

/-- An entry of the submission queue. -/
structure SqEntry where
  op : UInt32
  flags : UInt32
  rangeSlot : UInt32
  frameSlot : UInt32
  sectorOff : Nat
  userData : Nat
  deriving DecidableEq, Repr

/-- The count field of an entry. -/
def SqEntry.count (e : SqEntry) : Nat := (e.flags &&& 0xFFFF).toNat

/-- Read the entry at index `i` of the submission queue at `base`. -/
def readSqEntry (ram : Ram) (base : Nat) (i : Nat) : SqEntry :=
  let e := base + ringHdrSize + i * sqEntrySize
  ⟨ram.r32 e, ram.r32 (e + 4), ram.r32 (e + 8), ram.r32 (e + 12), ram.r64 (e + 16),
    ram.r64 (e + 24)⟩

/-- `count.saturating_mul(SECTOR_SIZE) > FRAME_SIZE` or a zero count. -/
def badCount (count : Nat) : Bool := count == 0 || frameSize < count * sectorSize

/-- `sector_off.checked_add(count)`. -/
def checkedAdd (a b : Nat) : Option Nat := if a + b < 2 ^ 64 then some (a + b) else none

/-- The capability checks of `post_read` and `post_write`: a block range with `rangeRight` that
covers the sectors, and a frame with `frameRight`. -/
def resolveRequest (caps : CapTable) (e : SqEntry) (rangeRight frameRight : Rights) :
    Except Nat (DevId × Nat × Nat) :=
  match caps.lookup e.rangeSlot.toNat rangeRight with
  | .error _ => .error blkERights
  | .ok range =>
    match range.object with
    | .blockRange dev start rangeCount =>
      match checkedAdd e.sectorOff e.count with
      | none => .error blkERange
      | some last =>
        if rangeCount < last then .error blkERange
        else
          match caps.lookup e.frameSlot.toNat frameRight with
          | .error _ => .error blkERights
          | .ok frame =>
            match frame.object with
            | .frame addr => .ok (dev, start + e.sectorOff, addr)
            | _ => .error blkERights
    | _ => .error blkERights

namespace Kernel

/-- `ring_register`: make a ring over two frames of the current process. -/
def ringRegister (s : Kernel) (core : Core) (sqSlot cqSlot entries : Nat) : Nat × Kernel :=
  if entries = 0 ∨ maxEntries < entries ∨ ¬ entries.isPowerOfTwo then (errCode, s)
  else
    match s.procs.current core with
    | none => (errCode, s)
    | some proc =>
      match proc.caps.lookup sqSlot (rightRead ||| rightWrite),
          proc.caps.lookup cqSlot (rightRead ||| rightWrite) with
      | .ok ⟨.frame sqPhys, _, _⟩, .ok ⟨.frame cqPhys, _, _⟩ =>
        if sqPhys = cqPhys then (errCode, s)
        else
          match s.rings.firstFree with
          | none => (errCode, s)
          | some id =>
            let mask := UInt32.ofNat (entries - 1)
            let ring : Ring :=
              ⟨true, s.procs.currentSlot core, sqPhys, cqPhys, mask, 0, 0, false⟩
            let header := fun (ram : Ram) (base : Nat) =>
              (((ram.w32 (base + hdrHead) 0).w32 (base + hdrTail) 0).w32
                (base + hdrMask) mask).w32 (base + 12) 0
            let ram := header (header s.ram sqPhys) cqPhys
            let s := { s with rings := s.rings.setRing id ring, ram }
            match proc.caps.mint (.ring id) (rightRead ||| rightWrite) with
            | .ok (slot, t) =>
              (slot, { s with procs := s.procs.setCurrent core (some (proc.setCaps t)) })
            | .error _ =>
              (errCode, { s with
                rings := s.rings.setRing id { s.rings.rings id with inUse := false } })
      | _, _ => (errCode, s)

/-- `ring_id_for`: the ring that `slot` of the current process names, if it is in use and the
process slot owns it. -/
def ringIdFor (s : Kernel) (core : Core) (slot : Nat) : Option RingId :=
  match s.procs.current core with
  | none => none
  | some proc =>
    match proc.caps.lookup slot (rightRead ||| rightWrite) with
    | .ok ⟨.ring id, _, _⟩ =>
      if (s.rings.rings id).inUse && (s.rings.rings id).owner == s.procs.currentSlot core then
        some id
      else none
    | _ => none

/-- Post a status to the ring of the process that runs now. -/
def postStatus (s : Kernel) (id : RingId) (userData status : Nat) : Kernel :=
  let r := s.rings.postStatus s.ram id userData status
  { s with rings := r.1, ram := r.2 }

/-- `post_read` and `post_write`. The result is `false` if the device pool is full. -/
def postBlock (s : Kernel) (caps : CapTable) (id : RingId) (e : SqEntry)
    (rangeRight frameRight : Rights) (dir : Direction) : Bool × Kernel :=
  if badCount e.count then (true, s.postStatus id e.userData blkEBadArg)
  else
    match resolveRequest caps e rangeRight frameRight with
    | .error status => (true, s.postStatus id e.userData status)
    | .ok (dev, sector, addr) =>
      if s.devs.ready dev then
        match s.devs.ringPost s.mem.fa dev sector e.count addr id e.userData dir with
        | some (devs, fa) => (true, { s with devs }.setFa fa)
        | none => (false, s)
      else (true, s.postStatus id e.userData blkEDev)

/-- `post_read`. -/
def postRead (s : Kernel) (caps : CapTable) (id : RingId) (e : SqEntry) : Bool × Kernel :=
  s.postBlock caps id e rightRead rightWrite .read

/-- `post_write`. -/
def postWrite (s : Kernel) (caps : CapTable) (id : RingId) (e : SqEntry) : Bool × Kernel :=
  s.postBlock caps id e rightWrite rightRead .write

/-- `input::source_for`: the event source that `slot` names. -/
def sourceFor (caps : CapTable) (slot : Nat) : Option Nat :=
  match caps.lookup slot rightRead with
  | .ok ⟨.eventSource id, _, _⟩ => if id < nSources then some id else none
  | _ => none

/-- `post_event_sub`. -/
def postEventSub (s : Kernel) (caps : CapTable) (id : RingId) (e : SqEntry) : Bool × Kernel :=
  match sourceFor caps e.rangeSlot.toNat with
  | none => (true, s.postStatus id e.userData eventSubErr)
  | some source =>
    match s.rings.subscribe source id e.userData with
    | some rings => (true, { s with rings })
    | none => (true, s.postStatus id e.userData eventSubErr)

/-- `post_cancel`. -/
def postCancel (s : Kernel) (id : RingId) (e : SqEntry) : Bool × Kernel :=
  (true, { s with rings := s.rings.cancel id e.userData })

/-- `post_entry`: `false` stops the drain. -/
def postEntry (s : Kernel) (caps : CapTable) (id : RingId) (e : SqEntry) : Bool × Kernel :=
  if e.op = 0 then s.postRead caps id e
  else if e.op = 3 then s.postWrite caps id e
  else if e.op = 1 then s.postEventSub caps id e
  else if e.op = 2 then s.postCancel id e
  else (true, s.postStatus id e.userData blkEBadArg)

/-- The loop of `ring_submit`, with `n` entries left. The result is the number of entries that
were consumed and the new head. -/
def submitLoop (caps : CapTable) (id : RingId) (sqBase : Nat) (mask : UInt32) :
    Nat → UInt32 → Nat → Kernel → Nat × UInt32 × Kernel
  | 0, head, consumed, s => (consumed, head, s)
  | n + 1, head, consumed, s =>
    match s.postEntry caps id (readSqEntry s.ram sqBase (head &&& mask).toNat) with
    | (true, s') => submitLoop caps id sqBase mask n (head + 1) (consumed + 1) s'
    | (false, s') => (consumed, head, s')

/-- `ring_submit`: drain the submission queue of a ring. -/
def ringSubmit (s : Kernel) (core : Core) (ringSlot : Nat) : Nat × Kernel :=
  match s.procs.current core, s.ringIdFor core ringSlot with
  | some proc, some id =>
    let ring := s.rings.rings id
    let tail := s.ram.r32 (ring.sqPhys + hdrTail)
    let r := submitLoop proc.caps id ring.sqPhys ring.mask (tail - ring.sqHead).toNat
      ring.sqHead 0 s
    (r.1, { r.2.2 with
      rings := r.2.2.rings.setRing id { r.2.2.rings.rings id with sqHead := r.2.1 }
      ram := r.2.2.ram.w32 (ring.sqPhys + hdrHead) r.2.1 })
  | _, _ => (errCode, s)

/-- `ring_wait`: return if the CQ has an entry, or park until one is posted. -/
def ringWait (s : Kernel) (core : Core) (ringSlot : Nat) : Ret × Kernel :=
  match s.ringIdFor core ringSlot with
  | none => (.value errCode, s)
  | some id =>
    let ring := s.rings.rings id
    if ring.cqTail ≠ s.ram.r32 (ring.cqPhys + hdrHead) then (.value 0, s)
    else
      (.parked, { s with
        rings := s.rings.setRing id { ring with waiting := true }
        procs := s.procs.blockCurrent core })

/-- `dropped_for`: the number of events that a subscription of the ring dropped. It changes
nothing. -/
def ringDropped (s : Kernel) (core : Core) (ringSlot userData : Nat) : Nat :=
  match s.ringIdFor core ringSlot with
  | none => errCode
  | some id =>
    match s.rings.dropped id userData with
    | some n => n.toNat
    | none => errCode

/-- Wake a list of processes that waited for a completion. -/
def wakeAll (P : Procs) (wakes : List ProcSlot) : Procs :=
  wakes.foldl (fun P w => P.wakeWith w 0 0 noCap) P

/-- `deliver_event`: post an event to every subscription of its source, and then wake the
owners of the rings. -/
def deliverEvent (s : Kernel) (source : Nat) (event : UInt32) : Kernel :=
  let r := s.rings.deliver s.ram source event
  { s with rings := r.1, ram := r.2.1, procs := wakeAll s.procs r.2.2 }

/-- Route one completion of `complete_irq` to its ring. -/
def routeCompletion (d : RingTable.Delivery) (c : Completion × Nat) : RingTable.Delivery :=
  match c.1 with
  | .poll => d
  | .ring ring userData =>
    let r := d.1.postCompletion d.2.1 ring userData c.2
    (r.2.1, r.2.2, d.2.2 ++ r.1.toList)

/-- `complete_irq`: the completion interrupt of a device. `used` is what the device appended to
its used ring: the head of each chain, with the status byte of its slot. For a bound device
the kernel wakes the process in `bind_wait` and does not touch the queue. -/
def completeIrq (s : Kernel) (dev : DevId) (used : List (Nat × UInt8)) : Kernel :=
  match s.devs.devices dev with
  | none => s
  | some d =>
    match d.bound with
    | some b =>
      { s with
        devs := s.devs.setDevice dev (some { d with bound := some { b with waiter := none } })
        procs := wakeAll s.procs b.waiter.toList }
    | none =>
      let r := Devices.drainCompletions used d.inflights []
      let delivery := r.1.foldl routeCompletion (s.rings, s.ram, [])
      { s with
        devs := s.devs.setDevice dev (some { d with inflights := r.2 })
        rings := delivery.1, ram := delivery.2.1
        procs := wakeAll s.procs delivery.2.2 }

/-- `bind_wait`: park until the used index of the bound device passes `usedSeen`. `usedIdx` is
the index that the device wrote. -/
def bindWait (s : Kernel) (core : Core) (bindSlot usedSeen : Nat) (usedIdx : UInt16) :
    Ret × Kernel :=
  match s.procs.current core with
  | none => (.value u64Max, s)
  | some proc =>
    match proc.caps.lookup bindSlot rightMap with
    | .ok ⟨.boundDevice dev, _, _⟩ =>
      match s.devs.devices dev with
      | none => (.value u64Max, s)
      | some d =>
        match d.bound with
        | none => (.value u64Max, s)
        | some b =>
          if usedIdx.toNat ≠ usedSeen then (.value 0, s)
          else
            (.parked, { s with
              devs := s.devs.setDevice dev
                (some { d with bound := some { b with waiter := s.procs.currentSlot core } })
              procs := s.procs.blockCurrent core })
    | _ => (.value u64Max, s)

end Kernel

end Plinth
