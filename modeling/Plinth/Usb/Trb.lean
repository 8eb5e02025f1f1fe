import Mathlib.Data.List.Basic

/-!
# `Plinth.Usb.Trb`: transfer request blocks

The TRBs of `kernel/src/xhci.rs`: the words that the driver and the controller exchange over the
rings. Bit 0 of the control word is the cycle bit, which tells whose entry it is. The lemmas say
what `setCycle` leaves alone, and that no TRB that the driver builds for a command or a transfer is
a link.
-/

set_option autoImplicit false

namespace Plinth

namespace Usb

/-! ### Fields -/

/-- `field`. -/
def field (word shift width : UInt32) : UInt32 := (word >>> shift) &&& ((1 <<< width) - 1)

/-- `set_field`. -/
def setField (word shift width val : UInt32) : UInt32 :=
  let mask := ((1 <<< width) - 1) <<< shift
  (word &&& ~~~mask) ||| ((val <<< shift) &&& mask)

/-! ### TRBs -/

/-- `TrbType`. -/
inductive TrbType where
  | normal
  | setupStage
  | dataStage
  | statusStage
  | link
  | enableSlot
  | addressDevice
  | configureEndpoint
  | transferEvent
  | commandCompletion
  | portStatusChange
  deriving DecidableEq, Repr

/-- The code of a type. -/
def TrbType.code : TrbType → UInt32
  | normal => 1
  | setupStage => 2
  | dataStage => 3
  | statusStage => 4
  | link => 6
  | enableSlot => 9
  | addressDevice => 11
  | configureEndpoint => 12
  | transferEvent => 32
  | commandCompletion => 33
  | portStatusChange => 34

/-- `TRB_TYPE_SHIFT`. -/
def trbTypeShift : UInt32 := 10

/-- `TRB_TYPE_WIDTH`. -/
def trbTypeWidth : UInt32 := 6

/-- `TRB_CYCLE`. -/
def trbCycle : UInt32 := 1

/-- `TRB_LINK_TOGGLE`. -/
def trbLinkToggle : UInt32 := (1 : UInt32) <<< 1

/-- `TRB_BSR`. -/
def trbBsr : UInt32 := (1 : UInt32) <<< 9

/-- `TRB_IOC`. -/
def trbIoc : UInt32 := (1 : UInt32) <<< 5

/-- `TRB_IDT`. -/
def trbIdt : UInt32 := (1 : UInt32) <<< 6

/-- `TRB_DIR`. -/
def trbDir : UInt32 := (1 : UInt32) <<< 16

/-- `Trb`. -/
structure Trb where
  param : UInt64
  status : UInt32
  control : UInt32
  deriving DecidableEq, Repr, Inhabited

namespace Trb

/-- `zeroed`. -/
def zeroed : Trb := ⟨0, 0, 0⟩

/-- `trb_type`. -/
def trbType (t : Trb) : UInt32 := field t.control trbTypeShift trbTypeWidth

/-- `set_trb_type`. -/
def setTrbType (t : Trb) (type : TrbType) : Trb :=
  { t with control := setField t.control trbTypeShift trbTypeWidth type.code }

/-- `cycle`. -/
def cycle (t : Trb) : Bool := t.control &&& trbCycle != 0

/-- `set_cycle`. -/
def setCycle (t : Trb) (c : Bool) : Trb :=
  { t with control := if c then t.control ||| trbCycle else t.control &&& ~~~trbCycle }

/-- Set bits of the control word. -/
def withControl (t : Trb) (bits : UInt32) : Trb := { t with control := t.control ||| bits }

/-- Set the bits if the condition holds. -/
def withControlIf (t : Trb) (c : Bool) (bits : UInt32) : Trb := if c then t.withControl bits else t

/-- The toggle bit of a link. -/
def toggle (t : Trb) : Bool := t.control &&& trbLinkToggle != 0

/-- What a TRB says, apart from whose entry it is. -/
def payload (t : Trb) : Trb := t.setCycle false

/-! ### The TRBs of the driver -/

/-- `link`. -/
def link (ringBasePhys : UInt64) (toggle : Bool) : Trb :=
  ((⟨ringBasePhys, 0, 0⟩ : Trb).setTrbType .link).withControlIf toggle trbLinkToggle

/-- `enable_slot`. -/
def enableSlot : Trb := zeroed.setTrbType .enableSlot

/-- The slot id of a command, in bits 24 to 31. -/
def withSlot (t : Trb) (slotId : UInt8) : Trb :=
  { t with control := setField t.control 24 8 slotId.toUInt32 }

/-- `address_device`. -/
def addressDevice (inputCtxPhys : UInt64) (slotId : UInt8) (bsr : Bool) : Trb :=
  (((⟨inputCtxPhys, 0, 0⟩ : Trb).setTrbType .addressDevice).withSlot slotId).withControlIf bsr
    trbBsr

/-- `configure_endpoint`. -/
def configureEndpoint (inputCtxPhys : UInt64) (slotId : UInt8) : Trb :=
  ((⟨inputCtxPhys, 0, 0⟩ : Trb).setTrbType .configureEndpoint).withSlot slotId

/-- `setup_stage`. -/
def setupStage (setupPacket : UInt64) (trt : UInt8) : Trb :=
  let t := ((⟨setupPacket, 8, 0⟩ : Trb).setTrbType .setupStage).withControl trbIdt
  { t with control := setField t.control 16 2 trt.toUInt32 }

/-- `data_stage`. -/
def dataStage (bufPhys : UInt64) (len : UInt32) (dirIn : Bool) : Trb :=
  ((⟨bufPhys, len &&& 0x1FFFF, 0⟩ : Trb).setTrbType .dataStage).withControlIf dirIn trbDir

/-- `status_stage`. -/
def statusStage (dirIn ioc : Bool) : Trb :=
  ((zeroed.setTrbType .statusStage).withControlIf dirIn trbDir).withControlIf ioc trbIoc

/-- `normal`. -/
def normal (bufPhys : UInt64) (len : UInt32) (ioc : Bool) : Trb :=
  ((⟨bufPhys, len &&& 0x1FFFF, 0⟩ : Trb).setTrbType .normal).withControlIf ioc trbIoc

/-! ### The events of the controller -/

/-- `completion_code`. -/
def completionCode (t : Trb) : UInt8 := (field t.status 24 8).toUInt8

/-- `event_slot_id`. -/
def eventSlotId (t : Trb) : UInt8 := (field t.control 24 8).toUInt8

/-- `event_endpoint_id`. -/
def eventEndpointId (t : Trb) : UInt8 := (field t.control 16 5).toUInt8

/-- `port_id`. -/
def portId (t : Trb) : UInt8 := ((t.param >>> 24) &&& 0xFF).toUInt8

/-! ### Words -/

theorem or_andNot (w bits : UInt32) : (w ||| bits) &&& ~~~bits = w &&& ~~~bits := by
  apply UInt32.eq_of_toBitVec_eq
  ext i hi
  simp only [UInt32.toBitVec_and, UInt32.toBitVec_or, UInt32.toBitVec_not, BitVec.getElem_and,
    BitVec.getElem_or, BitVec.getElem_not]
  cases w.toBitVec[i] <;> cases bits.toBitVec[i] <;> rfl

theorem andNot_or (w bits : UInt32) : (w &&& ~~~bits) ||| bits = w ||| bits := by
  apply UInt32.eq_of_toBitVec_eq
  ext i hi
  simp only [UInt32.toBitVec_and, UInt32.toBitVec_or, UInt32.toBitVec_not, BitVec.getElem_and,
    BitVec.getElem_or, BitVec.getElem_not]
  cases w.toBitVec[i] <;> cases bits.toBitVec[i] <;> rfl

/-- A mask does not see the bits that are not in it. -/
theorem or_and_of_disjoint (w : UInt32) {bits mask : UInt32} (h : bits &&& mask = 0) :
    (w ||| bits) &&& mask = w &&& mask := by
  apply UInt32.eq_of_toBitVec_eq
  have hbits := congrArg UInt32.toBitVec h
  ext i hi
  have hbit : (bits.toBitVec[i] && mask.toBitVec[i]) = false := by
    rw [← BitVec.getElem_and, ← UInt32.toBitVec_and, hbits]
    simp
  simp only [UInt32.toBitVec_and, UInt32.toBitVec_or, BitVec.getElem_and, BitVec.getElem_or]
  cases hw : w.toBitVec[i] <;> simp_all

theorem andNot_and_of_disjoint (w : UInt32) {bits mask : UInt32} (h : bits &&& mask = 0) :
    (w &&& ~~~bits) &&& mask = w &&& mask := by
  apply UInt32.eq_of_toBitVec_eq
  have hbits := congrArg UInt32.toBitVec h
  ext i hi
  have hbit : (bits.toBitVec[i] && mask.toBitVec[i]) = false := by
    rw [← BitVec.getElem_and, ← UInt32.toBitVec_and, hbits]
    simp
  simp only [UInt32.toBitVec_and, UInt32.toBitVec_not, BitVec.getElem_and, BitVec.getElem_not]
  cases hm : mask.toBitVec[i] <;> simp_all

theorem or_self_and (w : UInt32) : (w ||| trbCycle) &&& trbCycle = trbCycle := by
  apply UInt32.eq_of_toBitVec_eq
  ext i hi
  simp only [UInt32.toBitVec_and, UInt32.toBitVec_or, BitVec.getElem_and, BitVec.getElem_or]
  cases w.toBitVec[i] <;> cases trbCycle.toBitVec[i] <;> rfl

/-! ### The cycle bit -/

@[simp] theorem cycle_setCycle (t : Trb) (c : Bool) : (t.setCycle c).cycle = c := by
  unfold cycle setCycle
  cases c with
  | true =>
    rw [if_pos rfl, or_self_and]
    rfl
  | false =>
    rw [if_neg Bool.false_ne_true, UInt32.and_assoc, show ~~~trbCycle &&& trbCycle = 0 from rfl,
      UInt32.and_zero]
    rfl

@[simp] theorem setCycle_setCycle (t : Trb) (a b : Bool) :
    (t.setCycle a).setCycle b = t.setCycle b := by
  unfold setCycle
  cases a <;> cases b <;> simp [or_andNot, andNot_or, UInt32.and_assoc, UInt32.or_assoc]

@[simp] theorem payload_setCycle (t : Trb) (c : Bool) : (t.setCycle c).payload = t.payload :=
  setCycle_setCycle t c false

@[simp] theorem param_setCycle (t : Trb) (c : Bool) : (t.setCycle c).param = t.param := rfl

/-- The cycle bit is not in the mask of another field. -/
theorem control_setCycle (t : Trb) (c : Bool) {mask : UInt32} (h : trbCycle &&& mask = 0) :
    (t.setCycle c).control &&& mask = t.control &&& mask := by
  unfold setCycle
  cases c with
  | true => exact or_and_of_disjoint t.control h
  | false => exact andNot_and_of_disjoint t.control h

/-- The type is in bits 10 to 15. -/
theorem trbType_congr {t t' : Trb} (h : t'.control &&& 0xFC00 = t.control &&& 0xFC00) :
    t'.trbType = t.trbType := by
  have hmask :
    ∀ w : UInt32, field w trbTypeShift trbTypeWidth = (w &&& 0xFC00) >>> trbTypeShift := by
    intro w
    unfold field
    rw [UInt32.shiftRight_and]
    rfl
  unfold trbType
  rw [hmask, hmask, h]

@[simp] theorem trbType_setCycle (t : Trb) (c : Bool) : (t.setCycle c).trbType = t.trbType :=
  trbType_congr (control_setCycle t c rfl)

@[simp] theorem toggle_setCycle (t : Trb) (c : Bool) : (t.setCycle c).toggle = t.toggle := by
  unfold toggle
  rw [control_setCycle t c rfl]

/-! ### Types -/

@[simp] theorem trbType_setTrbType (param : UInt64) (status : UInt32) (type : TrbType) :
    ((⟨param, status, 0⟩ : Trb).setTrbType type).trbType = type.code := by
  show field (setField 0 trbTypeShift trbTypeWidth type.code) trbTypeShift trbTypeWidth = type.code
  cases type <;> decide +kernel

/-- Bits outside of the type keep it. -/
theorem trbType_withControl (t : Trb) {bits : UInt32} (h : bits &&& 0xFC00 = 0) :
    (t.withControl bits).trbType = t.trbType :=
  trbType_congr (or_and_of_disjoint t.control h)

theorem trbType_withControlIf (t : Trb) (c : Bool) {bits : UInt32} (h : bits &&& 0xFC00 = 0) :
    (t.withControlIf c bits).trbType = t.trbType := by
  cases c with
  | true => exact trbType_withControl t h
  | false => rfl

/-- A field outside of the mask keeps what the mask sees. -/
theorem setField_and (word shift width val : UInt32) {mask : UInt32}
    (h : (((1 <<< width) - 1) <<< shift) &&& mask = 0) :
    setField word shift width val &&& mask = word &&& mask := by
  have hval : ((val <<< shift) &&& (((1 <<< width) - 1) <<< shift)) &&& mask = 0 := by
    rw [UInt32.and_assoc, h, UInt32.and_zero]
  unfold setField
  dsimp only
  rw [or_and_of_disjoint _ hval, andNot_and_of_disjoint _ h]

theorem trbType_withSlot (t : Trb) (slot : UInt8) : (t.withSlot slot).trbType = t.trbType :=
  trbType_congr (setField_and t.control 24 8 slot.toUInt32 rfl)

theorem trbType_enableSlot : enableSlot.trbType = TrbType.enableSlot.code :=
  trbType_setTrbType 0 0 .enableSlot

theorem trbType_addressDevice (ctx : UInt64) (slot : UInt8) (bsr : Bool) :
    (addressDevice ctx slot bsr).trbType = TrbType.addressDevice.code := by
  unfold addressDevice
  rw [trbType_withControlIf _ bsr rfl, trbType_withSlot, trbType_setTrbType]

theorem trbType_configureEndpoint (ctx : UInt64) (slot : UInt8) :
    (configureEndpoint ctx slot).trbType = TrbType.configureEndpoint.code := by
  unfold configureEndpoint
  rw [trbType_withSlot, trbType_setTrbType]

theorem trbType_setupStage (packet : UInt64) (trt : UInt8) :
    (setupStage packet trt).trbType = TrbType.setupStage.code := by
  have hfield : (setupStage packet trt).trbType
      = (((⟨packet, 8, 0⟩ : Trb).setTrbType .setupStage).withControl trbIdt).trbType :=
    trbType_congr (setField_and _ 16 2 trt.toUInt32 rfl)
  rw [hfield, trbType_withControl _ rfl, trbType_setTrbType]

theorem trbType_dataStage (buf : UInt64) (len : UInt32) (dirIn : Bool) :
    (dataStage buf len dirIn).trbType = TrbType.dataStage.code := by
  unfold dataStage
  rw [trbType_withControlIf _ dirIn rfl, trbType_setTrbType]

theorem trbType_statusStage (dirIn ioc : Bool) :
    (statusStage dirIn ioc).trbType = TrbType.statusStage.code := by
  unfold statusStage
  rw [trbType_withControlIf _ ioc rfl, trbType_withControlIf _ dirIn rfl]
  exact trbType_setTrbType 0 0 .statusStage

theorem trbType_normal (buf : UInt64) (len : UInt32) (ioc : Bool) :
    (normal buf len ioc).trbType = TrbType.normal.code := by
  unfold normal
  rw [trbType_withControlIf _ ioc rfl, trbType_setTrbType]

/-! ### Links -/

/-- A link is one, it toggles, and it points back. Its cycle bit is clear. -/
theorem link_fields (ringBasePhys : UInt64) :
    (link ringBasePhys true).trbType = TrbType.link.code ∧ (link ringBasePhys true).toggle = true ∧
      (link ringBasePhys true).param = ringBasePhys ∧ (link ringBasePhys true).cycle = false := by
  have h : (link 0 true).toggle = true ∧ (link 0 true).cycle = false := by decide +kernel
  refine ⟨?_, h.1, rfl, h.2⟩
  unfold link
  rw [trbType_withControlIf _ true rfl, trbType_setTrbType]

theorem setCycle_link (ringBasePhys : UInt64) :
    (link ringBasePhys true).setCycle false = link ringBasePhys true := by
  have h : ((link 0 true).setCycle false).control = (link 0 true).control := by decide +kernel
  exact congrArg (Trb.mk ringBasePhys 0) h

/-- No TRB of a command or of a transfer is a link. -/
theorem work_not_link (address : UInt64) (slot : UInt8) (len : UInt32) (a b : Bool) :
    ∀ t ∈ [enableSlot, addressDevice address slot a, configureEndpoint address slot,
      setupStage address slot, dataStage address len a, statusStage a b, normal address len a],
      t.trbType ≠ TrbType.link.code := by
  intro t ht
  simp only [List.mem_cons, List.not_mem_nil, or_false] at ht
  rcases ht with rfl | rfl | rfl | rfl | rfl | rfl | rfl
  · rw [trbType_enableSlot]
    decide
  · rw [trbType_addressDevice]
    decide
  · rw [trbType_configureEndpoint]
    decide
  · rw [trbType_setupStage]
    decide
  · rw [trbType_dataStage]
    decide
  · rw [trbType_statusStage]
    decide
  · rw [trbType_normal]
    decide

end Trb

end Usb

end Plinth
