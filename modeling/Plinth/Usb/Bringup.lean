import Plinth.Common.Procedure
import Plinth.Usb.Rings

/-!
# `Plinth.Usb.Bringup`: the bring-up of the USB controller

`init` of `kernel/src/xhci.rs`, from the reset to the first report read. The driver allocates
frames, fills them with rings, contexts and buffers, and gives their addresses to the controller.
How many scratchpad buffers there are, how large a context is and how long a report is come from the
controller and from the device.

The state has a trace of what the driver wrote, what it handed to the controller, and which bytes of
the configuration descriptor it read. The accesses to the registers are not in it: the registers
stand in a window of their own, which holds no frame. What the driver cannot choose is in `World`.
-/

set_option autoImplicit false

namespace Plinth

open Procedure

namespace Usb

/-! ### Accesses -/

/-- `FRAME_SIZE`. -/
def frameBytes : Nat := 4096

/-- `trbs_per_frame`. -/
def trbsPerFrame : Nat := frameBytes / 16

/-- What the driver does with memory. -/
inductive Access where
  /-- It writes bytes. -/
  | write (addr len : Nat)
  /-- It hands bytes to the controller. -/
  | hand (addr len : Nat)
  /-- It reads a byte of the configuration descriptor. -/
  | read (off : Nat)
  deriving DecidableEq, Repr

/-- What comes from outside: the frames, whether the controller runs at first, the ends of the
waits, the ports, and the event of the wanted type that a poll finds. `dequeue` is the slot of the
event ring after a poll. -/
structure World where
  frames : Nat → Option UInt64
  running : Bool
  waits : Nat → Bool
  connected : Nat → Bool
  speed : UInt8
  events : Nat → TrbType → Option Trb
  dequeue : Nat → Fin trbsPerFrame

/-- The capability registers. -/
structure Capabilities where
  maxSlots : UInt8
  maxPorts : UInt8
  csz : Bool
  hcs2 : UInt32
  deriving DecidableEq, Repr

/-- The size of a context. -/
def Capabilities.contextBytes (caps : Capabilities) : Nat := if caps.csz then 64 else 32

/-- The number of scratchpad buffers that the controller wants. -/
def Capabilities.scratch (caps : Capabilities) : Nat :=
  ((((caps.hcs2 >>> 21) &&& 0x1F) <<< 5) ||| ((caps.hcs2 >>> 27) &&& 0x1F)).toNat

/-- The bytes that a TRB describes to the controller: a buffer, or an input context with its 33
entries. -/
def Trb.buffers (contextBytes : Nat) (t : Trb) : List Access :=
  if t.trbType = TrbType.normal.code ∨ t.trbType = TrbType.dataStage.code then
    [.hand t.param.toNat (t.status &&& 0x1FFFF).toNat]
  else if t.trbType = TrbType.addressDevice.code ∨ t.trbType = TrbType.configureEndpoint.code then
    [.hand t.param.toNat (33 * contextBytes)]
  else []

/-- The slots that a push writes. -/
def ProducerRing.touched (r : ProducerRing) : List Nat :=
  if r.enqueue + 1 = r.cap - 1 then [r.enqueue, r.cap - 1] else [r.enqueue]

/-! ### The driver -/

/-- A producer ring in a frame. -/
structure Ring where
  frame : UInt64
  ring : ProducerRing
  deriving DecidableEq, Repr

/-- `Device`. -/
structure Device where
  slot : UInt8
  port : UInt8
  speed : UInt8
  ep0 : Ring
  devCtx : UInt64
  inputCtx : UInt64
  iface : UInt8
  intEpNum : UInt8
  intEpMps : UInt16
  intEpInterval : UInt8
  intRing : Option Ring
  reportBuf : UInt64
  deriving DecidableEq, Repr

/-- `Xhci`, with the trace, the frames that the driver allocated, and how many frames, waits and
events it asked for. -/
structure Driver where
  trace : List Access
  frames : List UInt64
  allocs : Nat
  waited : Nat
  polls : Nat
  dcbaa : UInt64
  erseg : UInt64
  port : UInt8
  cmd : Option Ring
  dev : Option Device
  deriving DecidableEq, Repr

/-- The driver before the bring-up. -/
def Driver.fresh : Driver where
  trace := []
  frames := []
  allocs := 0
  waited := 0
  polls := 0
  dcbaa := 0
  erseg := 0
  port := 0
  cmd := none
  dev := none

/-- Add to the trace. -/
def log (accesses : List Access) : Proc Driver Unit :=
  act fun s => { s with trace := s.trace ++ accesses }

/-- `alloc_zeroed`. -/
def allocZeroed (w : World) : Proc Driver UInt64 := do
  let n ← ask Driver.allocs
  act fun s => { s with allocs := s.allocs + 1 }
  let phys ← orGiveUp (w.frames n)
  act fun s => { s with frames := phys :: s.frames }
  log [.write phys.toNat frameBytes]
  pure phys

/-- `wait_until`. -/
def waitUntil (w : World) : Proc Driver Unit := do
  let n ← ask Driver.waited
  act fun s => { s with waited := s.waited + 1 }
  require (w.waits n = true)

/-- `poll_event`. It tells the controller how far it read. -/
def pollEvent (w : World) (want : TrbType) : Proc Driver (Option Trb) := do
  let n ← ask Driver.polls
  act fun s => { s with polls := s.polls + 1 }
  let erseg ← ask Driver.erseg
  log [.hand (erseg.toNat + 16 * (w.dequeue n).val) 16]
  pure ((w.events n want).filter fun ev => ev.trbType == want.code)

/-- The device, if there is one. -/
def device : Proc Driver Device := do
  let dev ← ask Driver.dev
  orGiveUp dev

/-- `ProducerRing::new` on a frame. -/
def newRing (frame : UInt64) : Proc Driver Ring := do
  let ring ← orGiveUp (ProducerRing.new trbsPerFrame frame fun _ => Trb.zeroed)
  log ((List.range trbsPerFrame ++ [trbsPerFrame - 1]).map fun i =>
    .write (frame.toNat + 16 * i) 16)
  log [.hand frame.toNat (16 * trbsPerFrame)]
  pure ⟨frame, ring.2⟩

/-- `ProducerRing::push` on the ring of a frame. -/
def pushRing (caps : Capabilities) (r : Ring) (t : Trb) : Proc Driver Ring := do
  log (r.ring.touched.map fun i => .write (r.frame.toNat + 16 * i) 16)
  log (t.buffers caps.contextBytes)
  pure ⟨r.frame, (r.ring.push (fun _ => Trb.zeroed) t).2.2⟩

/-- Push on the command ring. -/
def pushCommand (caps : Capabilities) (t : Trb) : Proc Driver Unit := do
  let cmd ← ask Driver.cmd
  let ring ← orGiveUp cmd
  let ring ← pushRing caps ring t
  act fun s => { s with cmd := some ring }

/-- `write_context`. -/
def writeContext (addr : Nat) : Proc Driver Unit := log [.write addr 32]

/-! ### The controller -/

/-- The scratchpad buffers of `program_and_run`. -/
def scratchpads (w : World) (caps : Capabilities) (dcbaa : UInt64) : Proc Driver Unit :=
  if 0 < caps.scratch then do
    let arr ← allocZeroed w
    forAll (List.range caps.scratch) fun i => do
      let buf ← allocZeroed w
      log [.write (arr.toNat + 8 * i) 8, .hand buf.toNat frameBytes]
    log [.write dcbaa.toNat 8, .hand arr.toNat (8 * caps.scratch)]
  else pure ()

/-- The port loop of `program_and_run`. -/
def resetPorts (w : World) : List Nat → Proc Driver Unit
  | [] => pure ()
  | p :: ps =>
    if w.connected p then do
      let ev ← pollEvent w .portStatusChange
      if ev.isSome then act fun s => { s with port := UInt8.ofNat p } else resetPorts w ps
    else resetPorts w ps

/-- `program_and_run`. -/
def programAndRun (w : World) (caps : Capabilities) : Proc Driver Unit := do
  let dcbaa ← allocZeroed w
  scratchpads w caps dcbaa
  log [.hand dcbaa.toNat (8 * (max caps.maxSlots.toNat 1 + 1))]
  act fun s => { s with dcbaa := dcbaa }
  let cr ← allocZeroed w
  let ring ← newRing cr
  act fun s => { s with cmd := some ring }
  let erseg ← allocZeroed w
  let erst ← allocZeroed w
  log ((List.range 4).map fun i => .write (erst.toNat + 4 * i) 4)
  log [.hand erst.toNat 16, .hand erseg.toNat (16 * trbsPerFrame)]
  act fun s => { s with erseg := erseg }
  waitUntil w
  resetPorts w ((List.range caps.maxPorts.toNat).map fun p => p + 1)

/-- The event of a command that succeeded. -/
def awaitCommand (w : World) : Proc Driver Trb := do
  let ev ← pollEvent w .commandCompletion
  let ev ← orGiveUp ev
  require (ev.completionCode = 1)
  pure ev

/-- `enable_slot`. -/
def enableSlot (w : World) (caps : Capabilities) : Proc Driver UInt8 := do
  pushCommand caps Trb.enableSlot
  let ev ← awaitCommand w
  pure ev.eventSlotId

/-- `address_device`. -/
def addressDevice (w : World) (caps : Capabilities) (slot : UInt8) : Proc Driver Unit := do
  let cs := caps.contextBytes
  let port ← ask Driver.port
  let devCtx ← allocZeroed w
  let inputCtx ← allocZeroed w
  let ep0Frame ← allocZeroed w
  let ep0 ← newRing ep0Frame
  writeContext inputCtx.toNat
  writeContext (inputCtx.toNat + cs)
  writeContext (inputCtx.toNat + cs * 2)
  let dcbaa ← ask Driver.dcbaa
  log [.write (dcbaa.toNat + slot.toNat * 8) 8, .hand devCtx.toNat (32 * cs)]
  pushCommand caps (Trb.addressDevice inputCtx slot false)
  let _ ← awaitCommand w
  act fun s => { s with dev := some {
    slot, port, speed := w.speed, ep0, devCtx, inputCtx, iface := 0, intEpNum := 0, intEpMps := 0,
    intEpInterval := 0, intRing := none, reportBuf := 0 } }

/-! ### The device -/

/-- The setup packet of `control_in`. -/
def setupPacket (reqType req : UInt8) (value index len : UInt16) : UInt64 :=
  reqType.toUInt64 ||| (req.toUInt64 <<< 8) ||| (value.toUInt64 <<< 16) |||
    (index.toUInt64 <<< 32) ||| (len.toUInt64 <<< 48)

/-- The data stage of `control_in`. -/
def pushData (caps : Capabilities) (ep0 : Ring) (buf : UInt64) (len : UInt16) : Proc Driver Ring :=
  if 0 < len then pushRing caps ep0 (Trb.dataStage buf len.toUInt32 true) else pure ep0

/-- `control_in`. -/
def controlIn (w : World) (caps : Capabilities) (reqType req : UInt8) (value index : UInt16)
    (buf : UInt64) (len : UInt16) : Proc Driver Unit := do
  let dev ← device
  let setup := setupPacket reqType req value index len
  let ep0 ← pushRing caps dev.ep0 (Trb.setupStage setup (if 0 < len then 3 else 0))
  let ep0 ← pushData caps ep0 buf len
  let ep0 ← pushRing caps ep0 (Trb.statusStage (len == 0) true)
  act fun s => { s with dev := some { dev with ep0 } }
  let ev ← pollEvent w .transferEvent
  let ev ← orGiveUp ev
  require (ev.completionCode = 1 ∨ ev.completionCode = 13)

/-- What the walk over the configuration descriptor finds. -/
structure Found where
  ifaceNum : UInt8
  iface : Option (UInt8 × UInt8 × UInt8)
  intEp : Option (UInt8 × UInt16 × UInt8)
  deriving DecidableEq, Repr

/-- Nothing is found at first. -/
def Found.none : Found := ⟨0, Option.none, Option.none⟩

/-- The bytes of the buffer after a transfer. The driver zeroed them before. -/
def bufferByte (received : List UInt8) (off : Nat) : UInt8 := received.getD off 0

/-- `rd16`. -/
def readWord (rd : Nat → UInt8) (off : Nat) : UInt16 :=
  (rd off).toUInt16 ||| ((rd (off + 1)).toUInt16 <<< 8)

/-- The endpoint is an interrupt endpoint that sends. -/
def isInterruptIn (addr attr : UInt8) : Bool := attr &&& 0x3 == 3 && addr &&& 0x80 != 0

/-- The arms of the walk for the descriptor at `off`, with the bytes that they read. -/
def descriptorAt (rd : Nat → UInt8) (total off : Nat) (f : Found) : Found × List Nat :=
  if rd (off + 1) = 4 ∧ off + 9 ≤ total then
    ({ f with
        ifaceNum := rd (off + 2)
        iface := some (rd (off + 5), rd (off + 6), rd (off + 7)) },
      [off + 2, off + 5, off + 6, off + 7])
  else if rd (off + 1) = 5 ∧ off + 7 ≤ total then
    if isInterruptIn (rd (off + 2)) (rd (off + 3)) ∧ f.intEp.isNone then
      ({ f with intEp := some (rd (off + 2) &&& 0x0F, readWord rd (off + 4), rd (off + 6)) },
        [off + 2, off + 3, off + 4, off + 5, off + 6])
    else (f, [off + 2, off + 3])
  else (f, [])

/-- The walk of `describe_device`, with the bytes that it reads. -/
def walk (rd : Nat → UInt8) (total off : Nat) (f : Found) : Found × List Nat :=
  if off + 2 ≤ total then
    if rd off = 0 then (f, [off])
    else
      let here := descriptorAt rd total off f
      let rest := walk rd total (off + (rd off).toNat) here.1
      (rest.1, off :: (off + 1) :: here.2 ++ rest.2)
  else (f, [])
termination_by total - off
decreasing_by
  have hpos : (rd off).toNat ≠ 0 := fun h => ‹¬ rd off = 0› (UInt8.toNat_inj.mp h)
  omega

/-- The reads of the configuration descriptor: its header, and then the walk. -/
def parseConfig (received : List UInt8) : Found × List Nat :=
  let rd := bufferByte received
  let total := min (readWord rd 2).toNat 64
  let r := walk rd total (rd 0).toNat Found.none
  (r.1, [2, 3, 5, 0] ++ r.2)

/-- `describe_device`. -/
def describeDevice (w : World) (caps : Capabilities) (received : List UInt8) :
    Proc Driver Unit := do
  let buf ← allocZeroed w
  controlIn w caps 0x80 6 0x100 0 buf 18
  log [.write buf.toNat 64]
  controlIn w caps 0x80 6 0x200 0 buf 64
  let r := parseConfig received
  log (r.2.map Access.read)
  let dev ← device
  let dev := { dev with iface := r.1.ifaceNum }
  let dev := match r.1.intEp with
    | some (epNum, mps, interval) =>
      { dev with intEpNum := epNum, intEpMps := mps, intEpInterval := interval }
    | none => dev
  act fun s => { s with dev := some dev }
  controlIn w caps 0x00 9 (bufferByte received 5).toUInt16 0 0 0

/-- `dci`. -/
def dci (epNum : UInt8) (dirIn : Bool) : UInt8 :=
  if epNum = 0 then 1 else epNum * 2 + (if dirIn then 1 else 0)

/-- `arm_report_read`. -/
def armReportRead (caps : Capabilities) : Proc Driver Unit := do
  let dev ← device
  let ring ← orGiveUp dev.intRing
  require (dev.reportBuf ≠ 0)
  let ring ← pushRing caps ring (Trb.normal dev.reportBuf (max dev.intEpMps 8).toUInt32 true)
  act fun s => { s with dev := some { dev with intRing := some ring } }

/-- `configure_interrupt_endpoint`. -/
def configureInterruptEndpoint (w : World) (caps : Capabilities) : Proc Driver Unit := do
  let cs := caps.contextBytes
  let dev ← device
  require (dev.intEpNum ≠ 0)
  controlIn w caps 0x21 0x0B 0 dev.iface.toUInt16 0 0
  attempt (controlIn w caps 0x21 0x0A 0 dev.iface.toUInt16 0 0)
  let ringFrame ← allocZeroed w
  let ring ← newRing ringFrame
  let d := dci dev.intEpNum true
  log [.write dev.inputCtx.toNat frameBytes]
  writeContext dev.inputCtx.toNat
  writeContext (dev.inputCtx.toNat + cs)
  writeContext (dev.inputCtx.toNat + cs * (1 + d.toNat))
  pushCommand caps (Trb.configureEndpoint dev.inputCtx dev.slot)
  let _ ← awaitCommand w
  act fun s => { s with dev := s.dev.map fun dev => { dev with intRing := some ring } }
  let reportBuf ← allocZeroed w
  act fun s => { s with dev := s.dev.map fun dev => { dev with reportBuf } }
  armReportRead caps

/-- A controller that runs is halted first. -/
def halt (w : World) : Proc Driver Unit := if w.running then waitUntil w else pure ()

/-- `reset`. -/
def reset (w : World) : Proc Driver Unit := do
  halt w
  waitUntil w
  waitUntil w

/-- `init`. The device sends the bytes `received` as its configuration descriptor. -/
def bringUp (w : World) (caps : Capabilities) (received : List UInt8) : Proc Driver Unit := do
  reset w
  programAndRun w caps
  let slot ← enableSlot w caps
  addressDevice w caps slot
  describeDevice w caps received
  configureInterruptEndpoint w caps

/-- The state after the bring-up. -/
def broughtUp (w : World) (caps : Capabilities) (received : List UInt8) : Driver :=
  (bringUp w caps received Driver.fresh).2

/-! ### Staying in the memory -/

/-- The access lies in one of the frames. A byte that is read was received. -/
def Access.Fine (frames : List UInt64) (received : Nat) : Access → Prop
  | .write addr len | .hand addr len =>
    ∃ f ∈ frames, f.toNat ≤ addr ∧ addr + len ≤ f.toNat + frameBytes
  | .read off => off < received

/-- Every access of the driver is fine. -/
def Driver.Stays (received : Nat) (s : Driver) : Prop := ∀ a ∈ s.trace, a.Fine s.frames received

/-- The announced length of the configuration descriptor, at most 64. -/
def totalLength (received : List UInt8) : Nat := min (readWord (bufferByte received) 2).toNat 64

section

variable (rd : Nat → UInt8) (total : Nat)

/-- An interrupt endpoint that sends stands at `off`. -/
def InterruptAt (off : Nat) : Bool :=
  rd (off + 1) == 5 && decide (off + 7 ≤ total) && isInterruptIn (rd (off + 2)) (rd (off + 3))

/-- The descriptor at `off'` follows after the one at `off`. The flags tell whether an interrupt
endpoint stands before it. -/
inductive Chain : Nat → Bool → Nat → Bool → Prop where
  | here (off : Nat) (seen : Bool) : Chain off seen off seen
  | next {off off' : Nat} {seen seen' : Bool} : off + 2 ≤ total → rd off ≠ 0 →
    Chain (off + (rd off).toNat) (seen || InterruptAt rd total off) off' seen' →
      Chain off seen off' seen'

/-- How many bytes of the descriptor at `off` count: its length and its type, the fields of an
interface, and the fields of the first interrupt endpoint. -/
def extent (off : Nat) (seen : Bool) : Nat :=
  if rd off = 0 then 1
  else if rd (off + 1) = 4 ∧ off + 9 ≤ total then 8
  else if rd (off + 1) = 5 ∧ off + 7 ≤ total then
    if isInterruptIn (rd (off + 2)) (rd (off + 3)) ∧ seen = false then 7 else 4
  else 2

end

/-- The controller and the device ask for what fits: at most 512 scratchpad buffers, and reports of
at most a frame. The device sends the header of its configuration descriptor, and each descriptor in
the chain as far as it counts. -/
structure Modest (caps : Capabilities) (received : List UInt8) : Prop where
  scratch : caps.scratch ≤ 512
  report : ∀ off, Chain (bufferByte received) (totalLength received)
      (bufferByte received 0).toNat false off false → off + 2 ≤ totalLength received →
    bufferByte received off ≠ 0 →
      InterruptAt (bufferByte received) (totalLength received) off = true →
        bufferByte received (off + 2) &&& 0x0F ≠ 0 →
          (readWord (bufferByte received) (off + 4)).toNat ≤ frameBytes
  header : 6 ≤ received.length
  chain : ∀ off seen, Chain (bufferByte received) (totalLength received)
      (bufferByte received 0).toNat false off seen → off + 2 ≤ totalLength received →
    off + extent (bufferByte received) (totalLength received) off seen ≤ received.length

/-! ### The walk -/

section

variable {rd : Nat → UInt8} {total : Nat}

theorem descriptorAt_found (off : Nat) (f : Found) :
    (descriptorAt rd total off f).1.intEp =
      if InterruptAt rd total off ∧ f.intEp.isNone then
        some (rd (off + 2) &&& 0x0F, readWord rd (off + 4), rd (off + 6))
      else f.intEp := by
  unfold descriptorAt InterruptAt
  simp only [Bool.and_eq_true, beq_iff_eq, decide_eq_true_eq]
  by_cases h4 : rd (off + 1) = 4 ∧ off + 9 ≤ total
  · rw [if_pos h4, h4.1, if_neg (fun h => absurd h.1.1.1 (by decide))]
  · rw [if_neg h4]
    by_cases h5 : rd (off + 1) = 5 ∧ off + 7 ≤ total
    · rw [if_pos h5]
      by_cases hint : isInterruptIn (rd (off + 2)) (rd (off + 3)) = true ∧ f.intEp.isNone = true
      · rw [if_pos hint, if_pos ⟨⟨h5, hint.1⟩, hint.2⟩]
      · rw [if_neg hint, if_neg (fun h => hint ⟨h.1.2, h.2⟩)]
    · rw [if_neg h5, if_neg (fun h => h5 h.1.1)]

theorem descriptorAt_seen (off : Nat) (f : Found) :
    (descriptorAt rd total off f).1.intEp.isSome =
      (f.intEp.isSome || InterruptAt rd total off) := by
  rw [descriptorAt_found]
  cases hep : f.intEp with
  | none =>
    cases InterruptAt rd total off with
    | true => rfl
    | false => rfl
  | some e => simp

/-- What the arms read is what counts. -/
theorem descriptorAt_reads (total : Nat) {off : Nat} (f : Found) (hne : rd off ≠ 0) (n : Nat) :
    (∀ x ∈ off :: (off + 1) :: (descriptorAt rd total off f).2, x < n) ↔
      off + extent rd total off f.intEp.isSome ≤ n := by
  have hnone : f.intEp.isNone = true ↔ f.intEp.isSome = false := by
    cases f.intEp <;> simp
  unfold descriptorAt extent
  rw [if_neg hne]
  by_cases h4 : rd (off + 1) = 4 ∧ off + 9 ≤ total
  · rw [if_pos h4, if_pos h4]
    simp
    omega
  · rw [if_neg h4, if_neg h4]
    by_cases h5 : rd (off + 1) = 5 ∧ off + 7 ≤ total
    · rw [if_pos h5, if_pos h5]
      by_cases hint : isInterruptIn (rd (off + 2)) (rd (off + 3)) = true ∧ f.intEp.isNone = true
      · rw [if_pos hint, if_pos ⟨hint.1, hnone.mp hint.2⟩]
        simp
        omega
      · rw [if_neg hint, if_neg (fun h => hint ⟨h.1, hnone.mpr h.2⟩)]
        simp
        omega
    · rw [if_neg h5, if_neg h5]
      simp
      omega

theorem Chain.seen_of_seen {off off' : Nat} {seen seen' : Bool}
    (h : Chain rd total off seen off' seen') (hseen : seen = true) : seen' = true := by
  induction h with
  | here => exact hseen
  | next _ _ _ ih => exact ih (by rw [hseen, Bool.true_or])

/-- The walk reads what counts of each descriptor in the chain. -/
theorem walk_reads (off : Nat) (f : Found) (n : Nat) :
    (∀ x ∈ (walk rd total off f).2, x < n) ↔
      ∀ off' seen', Chain rd total off f.intEp.isSome off' seen' → off' + 2 ≤ total →
        off' + extent rd total off' seen' ≤ n := by
  induction hk : total - off using Nat.strongRecOn generalizing off f with
  | ind k ih =>
    rw [walk]
    by_cases hoff : off + 2 ≤ total
    · rw [if_pos hoff]
      by_cases hzero : rd off = 0
      · rw [if_pos hzero]
        constructor
        · intro h off' seen' hchain _
          cases hchain with
          | here =>
            have hlt := h off List.mem_cons_self
            unfold extent
            rw [if_pos hzero]
            omega
          | next _ hne _ => exact absurd hzero hne
        · intro h x hx
          have hle := h off _ (.here off _) hoff
          unfold extent at hle
          rw [if_pos hzero] at hle
          rw [List.mem_singleton.mp hx]
          omega
      · have hpos : (rd off).toNat ≠ 0 := fun h => hzero (UInt8.toNat_inj.mp h)
        have hrest := ih (total - (off + (rd off).toNat)) (by omega) (off + (rd off).toNat)
          (descriptorAt rd total off f).1 rfl
        rw [descriptorAt_seen] at hrest
        have hhere := descriptorAt_reads total f hzero n
        rw [if_neg hzero]
        constructor
        · intro h off' seen' hchain hle
          cases hchain with
          | here => exact hhere.mp fun x hx => h x (List.mem_append_left _ hx)
          | next _ _ hchain =>
            exact hrest.mp (fun x hx => h x (List.mem_append_right _ hx)) off' seen' hchain hle
        · intro h x hx
          rcases List.mem_append.mp hx with hx | hx
          · exact hhere.mpr (h off _ (.here off _) hoff) x hx
          · exact hrest.mpr (fun off' seen' hchain => h off' seen' (.next hoff hzero hchain)) x hx
    · rw [if_neg hoff]
      constructor
      · intro _ off' seen' hchain hle
        cases hchain with
        | here => exact absurd hle hoff
        | next hle' _ _ => exact absurd hle' hoff
      · intro _ x hx
        cases hx

/-- The walk finds the first interrupt endpoint of the chain. -/
theorem walk_found (off : Nat) (f : Found) (e : UInt8 × UInt16 × UInt8) :
    (walk rd total off f).1.intEp = some e ↔ f.intEp = some e ∨ f.intEp = none ∧
      ∃ off', Chain rd total off false off' false ∧ off' + 2 ≤ total ∧ rd off' ≠ 0 ∧
        InterruptAt rd total off' = true ∧
          e = (rd (off' + 2) &&& 0x0F, readWord rd (off' + 4), rd (off' + 6)) := by
  induction hk : total - off using Nat.strongRecOn generalizing off f with
  | ind k ih =>
    rw [walk]
    by_cases hoff : off + 2 ≤ total
    · rw [if_pos hoff]
      by_cases hzero : rd off = 0
      · rw [if_pos hzero]
        constructor
        · exact Or.inl
        · rintro (h | ⟨-, off', hchain, -, hne, -⟩)
          · exact h
          · cases hchain with
            | here => exact absurd hzero hne
            | next _ hne _ => exact absurd hzero hne
      · have hpos : (rd off).toNat ≠ 0 := fun h => hzero (UInt8.toNat_inj.mp h)
        rw [if_neg hzero]
        show (walk rd total (off + (rd off).toNat) (descriptorAt rd total off f).1).1.intEp =
          some e ↔ _
        rw [ih _ (by omega) _ _ rfl, descriptorAt_found]
        cases hep : f.intEp with
        | some e' => simp
        | none =>
          cases hint : InterruptAt rd total off with
          | true =>
            rw [if_pos ⟨rfl, rfl⟩]
            constructor
            · rintro (h | ⟨h, -⟩)
              · cases h
                exact Or.inr ⟨rfl, off, .here off false, hoff, hzero, hint, rfl⟩
              · cases h
            · rintro (h | ⟨-, off', hchain, -, -, -, rfl⟩)
              · cases h
              · cases hchain with
                | here => exact Or.inl rfl
                | next _ _ hchain =>
                  rw [hint, Bool.or_true] at hchain
                  exact absurd (hchain.seen_of_seen rfl) (by decide)
          | false =>
            rw [if_neg (fun h => Bool.false_ne_true h.1)]
            constructor
            · rintro (h | ⟨-, off', hchain, h⟩)
              · cases h
              · refine Or.inr ⟨rfl, off', .next hoff hzero ?_, h⟩
                rw [hint]
                exact hchain
            · rintro (h | ⟨-, off', hchain, h⟩)
              · cases h
              · cases hchain with
                | here => exact absurd (hint.symm.trans h.2.2.1) Bool.false_ne_true
                | next _ _ hchain =>
                  rw [hint] at hchain
                  exact Or.inr ⟨rfl, off', hchain, h⟩
    · rw [if_neg hoff]
      constructor
      · exact Or.inl
      · rintro (h | ⟨-, off', hchain, hle, -⟩)
        · exact h
        · cases hchain with
          | here => exact absurd hle hoff
          | next hle' _ _ => exact absurd hle' hoff

end

end Usb

end Plinth
