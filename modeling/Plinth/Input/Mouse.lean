import Plinth.Shims.EventRecv

/-!
# `Plinth.Input.Mouse`: packets of the mouse

`kernel/src/mouse.rs`: the mouse sends three bytes for a motion, and each interrupt brings one of
them. `push` puts them together, `decode_axis` brings an axis of nine bits into eight, and the event
goes to the rings as one packed word. `libplinth` takes the word apart again.

`stream_decodes` is the way of a stream of motions from the wire to the program: one event for each
motion, and in it the motion with both axes clamped, also if the kernel has set the drop flag.

A byte of the stream can get lost. A packet begins with a byte that has bit 3 set, and a byte
without it is not taken as the first one. But the bytes of a motion can have this bit too, so the
assembler can stay out of step for any number of packets. `slip` is what a motion does to the place
in the packet, and `resync_iff` says after which streams the assembler is in step again.
-/

set_option autoImplicit false

namespace Plinth

namespace Mouse

/-! ### The assembler -/

/-- `clamp` to the range of `i8`. -/
def clampAxis (v : Int) : Int := max (-128) (min v 127)

/-- `decode_axis`. The values have nine bits, so nothing wraps in sixteen. -/
def decodeAxis (magnitude : UInt8) (sign : Bool) : Int8 :=
  Int8.ofInt (clampAxis (if sign then (magnitude.toNat : Int) - 256 else magnitude.toNat))

/-- `Packet`. The position is inside of the packet. -/
structure Packet where
  bytes : Fin 3 → UInt8
  pos : Fin 3

/-- `Packet::new`. -/
def Packet.new : Packet := ⟨fun _ => 0, 0⟩

/-- `Packet::push`: the deltas and the buttons of a packet that is complete, and what is kept. -/
def Packet.push (p : Packet) (byte : UInt8) : Option (Int8 × Int8 × UInt8) × Packet :=
  if p.pos = 0 ∧ byte &&& 0x08 = 0 then (none, p)
  else
    let bytes := Function.update p.bytes p.pos byte
    if h : p.pos.val + 1 < 3 then (none, ⟨bytes, ⟨p.pos.val + 1, h⟩⟩)
    else
      let flags := bytes 0
      (some (decodeAxis (bytes 1) (flags &&& 0x10 != 0), decodeAxis (bytes 2) (flags &&& 0x20 != 0),
        flags &&& 0x07), ⟨bytes, 0⟩)

/-- The event that `mouse_interrupt` records. -/
def record (r : Int8 × Int8 × UInt8) : Input := .mouseMove r.1.toUInt8 r.2.1.toUInt8 r.2.2

/-- The interrupts of a list of bytes: what is recorded, and what is kept. -/
def Packet.feed (p : Packet) : List UInt8 → List Input × Packet
  | [] => ([], p)
  | byte :: bytes =>
    let r := p.push byte
    let rest := r.2.feed bytes
    ((r.1.map record).toList ++ rest.1, rest.2)

/-! ### The word of an event -/

/-- `event_kind`. -/
def eventKind (ev : UInt64) : UInt8 := (ev &&& 0xFF).toUInt8

/-- `event_code`. -/
def eventCode (ev : UInt64) : UInt16 := ((ev >>> 8) &&& 0xFFFF).toUInt16

/-- `event_value`. -/
def eventValue (ev : UInt64) : UInt8 := ((ev >>> 24) &&& 0xFF).toUInt8

/-- `mouse_dx`. -/
def mouseDx (ev : UInt64) : Int8 := (eventCode ev >>> 8).toUInt8.toInt8

/-- `mouse_dy`. -/
def mouseDy (ev : UInt64) : Int8 := (eventCode ev &&& 0xFF).toUInt8.toInt8

/-- `mouse_buttons`. -/
def mouseButtons (ev : UInt64) : UInt8 := eventValue ev

/-! ### Motions -/

/-- A motion that the mouse reports. The axes have nine bits. The bits for an overflow say whatever
they say. -/
structure Motion where
  dx : Int
  dy : Int
  buttons : Fin 8
  overflow : Fin 4
  dx_range : -256 ≤ dx ∧ dx < 256
  dy_range : -256 ≤ dy ∧ dy < 256

namespace Motion

/-- The first byte: the buttons, the bit that is always set, the signs and the overflows. -/
def flags (m : Motion) : UInt8 :=
  UInt8.ofNat (m.buttons + 8 + (if m.dx < 0 then 16 else 0) + (if m.dy < 0 then 32 else 0) +
    64 * m.overflow)

/-- The low byte of an axis. -/
def low (v : Int) : UInt8 := UInt8.ofNat (v % 256).toNat

/-- The bytes on the wire. -/
def bytes (m : Motion) : List UInt8 := [m.flags, low m.dx, low m.dy]

/-- What is recorded for a motion. -/
def input (m : Motion) : Input :=
  record (Int8.ofInt (clampAxis m.dx), Int8.ofInt (clampAxis m.dy), UInt8.ofNat m.buttons)

end Motion

variable {p : Packet} {m : Motion} {ms : List Motion}

/-- The bits of the first byte. -/
theorem flags_bits (m : Motion) : m.flags &&& 0x08 ≠ 0 ∧
    (m.flags &&& 0x10 != 0) = decide (m.dx < 0) ∧ (m.flags &&& 0x20 != 0) = decide (m.dy < 0) ∧
      m.flags &&& 0x07 = UInt8.ofNat m.buttons := by
  have hall : ∀ (b : Fin 8) (left up : Bool) (o : Fin 4),
      UInt8.ofNat (b + 8 + (if left then 16 else 0) + (if up then 32 else 0) + 64 * o) &&& 0x08 ≠
        0 ∧
      (UInt8.ofNat (b + 8 + (if left then 16 else 0) + (if up then 32 else 0) + 64 * o) &&& 0x10 !=
        0) =
        left ∧
      (UInt8.ofNat (b + 8 + (if left then 16 else 0) + (if up then 32 else 0) + 64 * o) &&& 0x20 !=
        0) =
        up ∧
      UInt8.ofNat (b + 8 + (if left then 16 else 0) + (if up then 32 else 0) + 64 * o) &&& 0x07 =
        UInt8.ofNat b := by decide +kernel
  have h := hall m.buttons (decide (m.dx < 0)) (decide (m.dy < 0)) m.overflow
  simp only [decide_eq_true_eq] at h
  exact h

/-- An axis comes out of its low byte and its sign. -/
theorem decodeAxis_low {v : Int} (hv : -256 ≤ v ∧ v < 256) :
    decodeAxis (Motion.low v) (decide (v < 0)) = Int8.ofInt (clampAxis v) := by
  have hbyte : (v % 256).toNat < 2 ^ 8 := by omega
  have hlow : ((Motion.low v).toNat : Int) = v % 256 := by
    rw [Motion.low, UInt8.toNat_ofNat_of_lt' hbyte]
    omega
  unfold decodeAxis
  rw [hlow]
  by_cases hneg : v < 0
  · rw [decide_eq_true hneg, if_pos rfl, show v % 256 - 256 = v by omega]
  · rw [decide_eq_false hneg, if_neg Bool.false_ne_true, show v % 256 = v by omega]

/-- A clamped axis is in the range of its type. -/
theorem toInt_clampAxis (v : Int) : (Int8.ofInt (clampAxis v)).toInt = clampAxis v := by
  have hrange : -128 ≤ clampAxis v ∧ clampAxis v < 128 := by
    unfold clampAxis
    omega
  exact Int8.toInt_ofInt_of_le hrange.1 hrange.2

/-! ### Bytes in their places -/

section

variable {b : Fin 3 → UInt8} {byte : UInt8}

/-- The first byte of a packet needs its bit. -/
theorem push_first : (⟨b, 0⟩ : Packet).push byte =
    if byte &&& 0x08 = 0 then (none, ⟨b, 0⟩) else (none, ⟨Function.update b 0 byte, 1⟩) := by
  by_cases hbit : byte &&& 0x08 = 0
  · rw [Packet.push, if_pos ⟨rfl, hbit⟩, if_pos hbit]
  · rw [Packet.push, if_neg (fun h => hbit h.2), if_neg hbit]
    rfl

/-- The second byte is taken as it comes. -/
theorem push_second : (⟨b, 1⟩ : Packet).push byte = (none, ⟨Function.update b 1 byte, 2⟩) := rfl

/-- The third byte completes the packet. -/
theorem push_third : (⟨b, 2⟩ : Packet).push byte =
    (some (decodeAxis (b 1) (b 0 &&& 0x10 != 0), decodeAxis byte (b 0 &&& 0x20 != 0),
      b 0 &&& 0x07), ⟨Function.update b 2 byte, 0⟩) := rfl

/-- The packet of a motion that comes in step is recorded as the motion. -/
theorem feed_motion : ∃ b', (⟨b, 0⟩ : Packet).feed m.bytes = ([m.input], ⟨b', 0⟩) := by
  obtain ⟨hbit, hleft, hup, hbuttons⟩ := flags_bits m
  refine ⟨Function.update (Function.update (Function.update b 0 m.flags) 1 (Motion.low m.dx)) 2
    (Motion.low m.dy), ?_⟩
  simp only [Motion.bytes, Packet.feed, push_first, if_neg hbit, push_second, push_third]
  have hfirst : Function.update (Function.update b 0 m.flags) 1 (Motion.low m.dx) 0 = m.flags := by
    simp
  have hsecond : Function.update (Function.update b 0 m.flags) 1 (Motion.low m.dx) 1 =
      Motion.low m.dx := by simp
  rw [hfirst, hsecond, hleft, hup, hbuttons, decodeAxis_low m.dx_range, decodeAxis_low m.dy_range]
  rfl

end

/-- Bytes after bytes. -/
theorem feed_append {bs bs' : List UInt8} : p.feed (bs ++ bs') =
    ((p.feed bs).1 ++ ((p.feed bs).2.feed bs').1, ((p.feed bs).2.feed bs').2) := by
  induction bs generalizing p with
  | nil => rfl
  | cons byte bs ih =>
    rw [List.cons_append, Packet.feed, ih]
    simp [Packet.feed]

/-- A stream of motions that comes in step is recorded motion by motion. The induction is on the
stream: every packet leaves the assembler in step. -/
theorem feed_stream {b : Fin 3 → UInt8} (ms : List Motion) :
    ∃ b', (⟨b, 0⟩ : Packet).feed (ms.flatMap Motion.bytes) = (ms.map Motion.input, ⟨b', 0⟩) := by
  induction ms generalizing b with
  | nil => exact ⟨b, rfl⟩
  | cons m ms ih =>
    obtain ⟨b₁, hmotion⟩ := feed_motion (b := b) (m := m)
    obtain ⟨b', hrest⟩ := ih (b := b₁)
    refine ⟨b', ?_⟩
    rw [List.flatMap_cons, feed_append, hmotion, hrest]
    rfl

/-! ### From the wire to the program -/

/-- The fields of a word do not overlap. -/
theorem toNat_pack_add (e : Event) :
    e.pack.toNat = e.kind.toNat + e.code.toNat * 2 ^ 8 + e.value.toNat * 2 ^ 24 := by
  have hkind := e.kind.toNat_lt
  have hcode := e.code.toNat_lt
  have hlow : e.kind.toNat ||| e.code.toNat * 2 ^ 8 = e.kind.toNat + e.code.toNat * 2 ^ 8 := by
    rw [Nat.or_comm, ← Nat.shiftLeft_eq, ← Nat.shiftLeft_add_eq_or_of_lt (by omega), Nat.add_comm]
  rw [Input.toNat_pack, hlow, Nat.or_comm, ← Nat.shiftLeft_eq _ 24,
    ← Nat.shiftLeft_add_eq_or_of_lt (by omega), Nat.add_comm]

/-- The program takes a word apart as the kernel has put it together. -/
theorem decode_pack (e : Event) : eventKind e.pack.toUInt64 = e.kind ∧
    eventCode e.pack.toUInt64 = e.code ∧ eventValue e.pack.toUInt64 = e.value := by
  have hkind := e.kind.toNat_lt
  have hcode := e.code.toNat_lt
  have hvalue := e.value.toNat_lt
  have hword := toNat_pack_add e
  have hmask : ∀ v : Nat, v &&& 255 = v % 256 := fun v => Nat.and_two_pow_sub_one_eq_mod v 8
  have hmask' : ∀ v : Nat, v &&& 65535 = v % 65536 := fun v => Nat.and_two_pow_sub_one_eq_mod v 16
  refine ⟨UInt8.toNat_inj.mp ?_, UInt16.toNat_inj.mp ?_, UInt8.toNat_inj.mp ?_⟩
  · simp [eventKind, hmask, hword]
    omega
  · simp [eventCode, hmask', hword, Nat.shiftRight_eq_div_pow]
    omega
  · simp [eventValue, hmask, hword, Nat.shiftRight_eq_div_pow]
    omega

/-- The deltas come out of the code as they went in. -/
theorem deltas_mouseMove (dx dy buttons : UInt8) :
    ((Event.mouseMove dx dy buttons).code >>> 8).toUInt8 = dx ∧
      ((Event.mouseMove dx dy buttons).code &&& 0xFF).toUInt8 = dy := by
  have hdx := dx.toNat_lt
  have hdy := dy.toNat_lt
  have hcode : (Event.mouseMove dx dy buttons).code.toNat = dx.toNat * 2 ^ 8 + dy.toNat := by
    unfold Event.mouseMove
    rw [UInt16.toNat_or, UInt16.toNat_shiftLeft, UInt8.toNat_toUInt16, UInt8.toNat_toUInt16,
      ← Nat.shiftLeft_eq, Nat.shiftLeft_add_eq_or_of_lt (by omega)]
    show dx.toNat <<< 8 % 2 ^ 16 ||| _ = _
    rw [Nat.mod_eq_of_lt (by rw [Nat.shiftLeft_eq]; omega)]
  have hmask : ∀ v : Nat, v &&& 255 = v % 256 := fun v => Nat.and_two_pow_sub_one_eq_mod v 8
  refine ⟨UInt8.toNat_inj.mp ?_, UInt8.toNat_inj.mp ?_⟩
  · simp [hcode, Nat.shiftRight_eq_div_pow]
    omega
  · simp [hcode, hmask]

/-- A stream of motions from the wire to the program, from a state in step: one event for each
motion. Whether the kernel sets the drop flag on the status or not, the program sees a motion of the
mouse, with both axes clamped to eight bits and with the buttons. -/
theorem stream_decodes (b : Fin 3 → UInt8) (ms : List Motion) :
    ∃ b', (⟨b, 0⟩ : Packet).feed (ms.flatMap Motion.bytes) = (ms.map Motion.input, ⟨b', 0⟩) ∧
      ∀ m ∈ ms, ∀ status : UInt32, m.input.Shows status →
        eventKind (status &&& ~~~eventDropped).toUInt64 = eventMouseMove ∧
        (mouseDx (status &&& ~~~eventDropped).toUInt64).toInt = clampAxis m.dx ∧
        (mouseDy (status &&& ~~~eventDropped).toUInt64).toInt = clampAxis m.dy ∧
        mouseButtons (status &&& ~~~eventDropped).toUInt64 = UInt8.ofNat m.buttons := by
  obtain ⟨b', hfeed⟩ := feed_stream (b := b) ms
  refine ⟨b', hfeed, fun m _ status hshows => ?_⟩
  obtain ⟨hkind, hcode, hvalue⟩ := decode_pack m.input.event
  obtain ⟨hdx, hdy⟩ := deltas_mouseMove (Int8.ofInt (clampAxis m.dx)).toUInt8
    (Int8.ofInt (clampAxis m.dy)).toUInt8 (UInt8.ofNat m.buttons)
  have hevent : m.input.event = Event.mouseMove (Int8.ofInt (clampAxis m.dx)).toUInt8
    (Int8.ofInt (clampAxis m.dy)).toUInt8 (UInt8.ofNat m.buttons) := rfl
  rw [hshows.word]
  show eventKind m.input.event.pack.toUInt64 = _ ∧ (mouseDx m.input.event.pack.toUInt64).toInt = _ ∧
    (mouseDy m.input.event.pack.toUInt64).toInt = _ ∧
    mouseButtons m.input.event.pack.toUInt64 = _
  refine ⟨hkind, ?_, ?_, ?_⟩
  · rw [mouseDx, hcode, hevent, hdx, Int8.toInt8_toUInt8, toInt_clampAxis]
  · rw [mouseDy, hcode, hevent, hdy, Int8.toInt8_toUInt8, toInt_clampAxis]
  · have hall : ∀ v : Fin 8, UInt8.ofNat v &&& 0x7F = UInt8.ofNat v := by decide
    rw [mouseButtons, hvalue, hevent]
    exact hall m.buttons

/-! ### Out of step -/

/-- The low byte of an axis has the bit of a first byte. -/
def LooksFirst (v : Int) : Prop := Motion.low v &&& 0x08 ≠ 0

instance (v : Int) : Decidable (LooksFirst v) := inferInstanceAs (Decidable (_ ≠ _))

/-- The place in the packet after the three bytes of a motion. -/
def slip (pos : Fin 3) (m : Motion) : Fin 3 :=
  if pos = 0 then 0
  else if pos = 2 ∧ LooksFirst m.dx then 2
  else if LooksFirst m.dy then 1
  else 0

/-- The bytes of a motion complete one packet, from any place. -/
theorem feed_slip (p : Packet) (m : Motion) :
    (p.feed m.bytes).1.length = 1 ∧ (p.feed m.bytes).2.pos = slip p.pos m := by
  obtain ⟨b, pos⟩ := p
  have hplaces : pos = 0 ∨ pos = 1 ∨ pos = 2 := by omega
  rcases hplaces with rfl | rfl | rfl
  · -- in step
    obtain ⟨b', hmotion⟩ := feed_motion (b := b) (m := m)
    rw [hmotion]
    exact ⟨rfl, rfl⟩
  · -- the flags and the first axis end the packet, and the second axis may begin the next one
    simp only [Motion.bytes, Packet.feed, push_second, push_third, push_first]
    by_cases hdy : Motion.low m.dy &&& 0x08 = 0
    · simp [hdy, slip, LooksFirst]
    · simp [hdy, slip, LooksFirst]
  · -- the flags end the packet, and either axis may begin the next one
    simp only [Motion.bytes, Packet.feed, push_third, push_first]
    by_cases hdx : Motion.low m.dx &&& 0x08 = 0
    · by_cases hdy : Motion.low m.dy &&& 0x08 = 0
      · simp [hdx, hdy, slip, LooksFirst, push_first]
      · simp [hdx, hdy, slip, LooksFirst, push_first]
    · simp [hdx, slip, LooksFirst, push_second]

/-- A stream moves the place by the slips of its motions. -/
theorem feed_slips (p : Packet) (ms : List Motion) :
    (p.feed (ms.flatMap Motion.bytes)).1.length = ms.length ∧
      (p.feed (ms.flatMap Motion.bytes)).2.pos = ms.foldl slip p.pos := by
  induction ms generalizing p with
  | nil => exact ⟨rfl, rfl⟩
  | cons m ms ih =>
    obtain ⟨hlen, hpos⟩ := feed_slip p m
    obtain ⟨hlen', hpos'⟩ := ih (p.feed m.bytes).2
    rw [List.flatMap_cons, feed_append]
    refine ⟨?_, ?_⟩
    · rw [List.length_append, hlen, hlen', List.length_cons, Nat.add_comm]
    · rw [List.foldl_cons, ← hpos]
      exact hpos'

/-- What is in step stays in step. -/
@[simp] theorem slips_zero (ms : List Motion) : ms.foldl slip 0 = 0 := by
  induction ms with
  | nil => rfl
  | cons m ms ih => exact ih

/-- One byte ahead, the stream is in step after the first motion whose second axis cannot begin a
packet. -/
theorem slips_one (ms : List Motion) : ms.foldl slip 1 = 0 ↔ ∃ m ∈ ms, ¬ LooksFirst m.dy := by
  induction ms with
  | nil => simp
  | cons m ms ih =>
    rw [List.foldl_cons]
    by_cases hdy : LooksFirst m.dy
    · rw [show slip 1 m = 1 by simp [slip, hdy], ih]
      simp [hdy]
    · rw [show slip 1 m = 0 by simp [slip, hdy]]
      simp [hdy]

/-- Two bytes ahead, it takes a motion whose first axis cannot begin a packet, and then one whose
second axis cannot. -/
theorem slips_two (ms : List Motion) : ms.foldl slip 2 = 0 ↔ ∃ before m after,
    ms = before ++ m :: after ∧ ¬ LooksFirst m.dx ∧ ∃ m' ∈ m :: after, ¬ LooksFirst m'.dy := by
  induction ms with
  | nil => simp
  | cons m ms ih =>
    rw [List.foldl_cons]
    by_cases hdx : LooksFirst m.dx
    · rw [show slip 2 m = 2 by simp [slip, hdx], ih]
      constructor
      · rintro ⟨before, m', after, rfl, h⟩
        exact ⟨m :: before, m', after, rfl, h⟩
      · rintro ⟨before, m', after, heq, hdx', h⟩
        cases before with
        | nil =>
          cases heq
          exact absurd hdx hdx'
        | cons m₀ before =>
          cases heq
          exact ⟨before, m', after, rfl, hdx', h⟩
    · -- from here on it is one byte ahead
      rw [show slip 2 m = slip 1 m by simp [slip, hdx], ← List.foldl_cons, slips_one]
      constructor
      · intro h
        exact ⟨[], m, ms, rfl, hdx, h⟩
      · rintro ⟨before, m', after, heq, -, m'', hm'', hdy⟩
        exact ⟨m'', by rw [heq]; exact List.mem_append_right _ hm'', hdy⟩

/-- Each motion is recorded as one event, in step or not. A stream that begins out of step is in
step after it exactly if its motions had the axes for it, and then every later motion is recorded as
it was made. -/
theorem resync_iff (p : Packet) (ms : List Motion) :
    (p.feed (ms.flatMap Motion.bytes)).1.length = ms.length ∧
    ((p.feed (ms.flatMap Motion.bytes)).2.pos = 0 ↔ p.pos = 0 ∨
      (p.pos = 1 ∧ ∃ m ∈ ms, ¬ LooksFirst m.dy) ∨
      (p.pos = 2 ∧ ∃ before m after, ms = before ++ m :: after ∧ ¬ LooksFirst m.dx ∧
        ∃ m' ∈ m :: after, ¬ LooksFirst m'.dy)) ∧
    ((p.feed (ms.flatMap Motion.bytes)).2.pos = 0 → ∀ later : List Motion,
      (p.feed ((ms ++ later).flatMap Motion.bytes)).1 =
        (p.feed (ms.flatMap Motion.bytes)).1 ++ later.map Motion.input) := by
  obtain ⟨hlen, hpos⟩ := feed_slips p ms
  refine ⟨hlen, ?_, fun hstep later => ?_⟩
  · rw [hpos, ← slips_one, ← slips_two]
    have hplaces : p.pos = 0 ∨ p.pos = 1 ∨ p.pos = 2 := by omega
    rcases hplaces with h | h | h
    · simp [h]
    · simp [h]
    · simp [h]
  · rw [List.flatMap_append, feed_append]
    generalize p.feed (ms.flatMap Motion.bytes) = r at hstep
    obtain ⟨events, b, pos⟩ := r
    cases hstep
    obtain ⟨b', hfeed⟩ := feed_stream (b := b) later
    show events ++ ((⟨b, 0⟩ : Packet).feed _).1 = _
    rw [hfeed]

/-- A motion whose axes both look like a first byte keeps a stream out of step for as long as it is
repeated. -/
theorem stays_out {m : Motion} (hdy : LooksFirst m.dy) (n : Nat) :
    (List.replicate n m).foldl slip 1 = 1 := by
  induction n with
  | zero => rfl
  | succ n ih =>
    rw [List.replicate_succ, List.foldl_cons, show slip 1 m = 1 by simp [slip, hdy], ih]

end Mouse

end Plinth
