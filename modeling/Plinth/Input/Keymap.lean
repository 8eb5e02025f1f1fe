import Plinth.Queues.System

/-!
# `Plinth.Input.Keymap`: the keymap of the library OS

`libinput/src/keymap.rs`: `feed` turns the raw key events of the kernel into characters and actions.
The kernel makes one event of each scancode byte (`Event::key` of `kernel/src/input.rs`).

Over it stands a keyboard. Its keys go down and up, a key that is held repeats, and each change is
sent as the bytes of set 1. The keyboard knows which keys are down, and `expected` is what a press
means. `shift_follows` compares the two: the keymap has one flag for two Shift keys, and it is right
as long as no Shift key goes up while the other one is down.
-/

set_option autoImplicit false

namespace Plinth

open Transition

namespace Libinput

/-! ### The keymap -/

/-- `Key`. -/
inductive Key where
  | char (ch : UInt8)
  | enter
  | backspace
  | up
  | down
  | left
  | right
  | none
  deriving DecidableEq, Repr

/-- `SC_LSHIFT`. -/
def scLshift : UInt8 := 0x2A

/-- `SC_RSHIFT`. -/
def scRshift : UInt8 := 0x36

/-- `SC_ENTER`. -/
def scEnter : UInt8 := 0x1C

/-- `SC_BACKSPACE`. -/
def scBackspace : UInt8 := 0x0E

/-- `EXT_PREFIX`. -/
def extPrefix : UInt16 := 0xE0

/-- `SC_UP`. -/
def scUp : UInt8 := 0x48

/-- `SC_DOWN`. -/
def scDown : UInt8 := 0x50

/-- `SC_LEFT`. -/
def scLeft : UInt8 := 0x4B

/-- `SC_RIGHT`. -/
def scRight : UInt8 := 0x4D

/-- The characters of the mapped keys. -/
def charTable : List (UInt8 × Char) :=
  [(0x02, '1'), (0x03, '2'), (0x04, '3'), (0x05, '4'), (0x06, '5'),
    (0x07, '6'), (0x08, '7'), (0x09, '8'), (0x0A, '9'), (0x0B, '0'),
    (0x10, 'q'), (0x11, 'w'), (0x12, 'e'), (0x13, 'r'), (0x14, 't'),
    (0x15, 'y'), (0x16, 'u'), (0x17, 'i'), (0x18, 'o'), (0x19, 'p'),
    (0x1E, 'a'), (0x1F, 's'), (0x20, 'd'), (0x21, 'f'), (0x22, 'g'),
    (0x23, 'h'), (0x24, 'j'), (0x25, 'k'), (0x26, 'l'),
    (0x2C, 'z'), (0x2D, 'x'), (0x2E, 'c'), (0x2F, 'v'), (0x30, 'b'),
    (0x31, 'n'), (0x32, 'm'),
    (0x39, ' ')]

/-- `decode`. -/
def decode (key : UInt8) : Option UInt8 := (charTable.lookup key).map fun ch => UInt8.ofNat ch.toNat

/-- `is_ascii_lowercase`. -/
def isAsciiLowercase (ch : UInt8) : Bool := 97 ≤ ch ∧ ch ≤ 122

/-- `Keymap`. -/
structure Keymap where
  shift : Bool
  extended : Bool
  deriving DecidableEq, Repr

namespace Keymap

/-- `new`. -/
def new : Keymap := ⟨false, false⟩

/-- The arm of `feed` for the byte after a prefix. -/
def extendedKey (key : UInt8) : Key :=
  if key = scUp then .up
  else if key = scDown then .down
  else if key = scLeft then .left
  else if key = scRight then .right
  else .none

/-- The arm of `feed` for the press of an ordinary key. -/
def ordinaryKey (key : UInt8) (shift : Bool) : Key :=
  if key = scEnter then .enter
  else if key = scBackspace then .backspace
  else
    match decode key with
    | some ch => if shift && isAsciiLowercase ch then .char (ch - 32) else .char ch
    | none => .none

/-- `feed`. -/
def feed (km : Keymap) (kind : UInt8) (code : UInt16) (value : UInt8) : Key × Keymap :=
  if kind ≠ eventKey then (.none, km)
  else if code = extPrefix then (.none, { km with extended := true })
  else
    let key := (code &&& 0x7F).toUInt8
    let press := value == 1
    if km.extended then
      (if press then extendedKey key else .none, { km with extended := false })
    else if key = scLshift ∨ key = scRshift then (.none, { km with shift := press })
    else if press then (ordinaryKey key km.shift, km)
    else (.none, km)

/-- Feed the event of a scancode byte. -/
def feedByte (km : Keymap) (b : UInt8) : Key × Keymap :=
  km.feed (Event.key b).kind (Event.key b).code (Event.key b).value

/-- Feed the events of bytes. -/
def feedBytes (km : Keymap) : List UInt8 → List Key × Keymap
  | [] => ([], km)
  | b :: bs =>
    let r := km.feedByte b
    let rest := r.2.feedBytes bs
    (r.1 :: rest.1, rest.2)

end Keymap

/-! ### The keyboard -/

/-- A scancode of set 1. No key has the code 0x60, because its break byte would be the prefix. -/
structure ScanCode where
  val : Fin 128
  real : val ≠ 0x60
  deriving DecidableEq

/-- The byte of a press. -/
def ScanCode.make (c : ScanCode) : UInt8 := UInt8.ofNat c.val

/-- The byte of a release. -/
def ScanCode.break (c : ScanCode) : UInt8 := UInt8.ofNat (c.val + 128)

/-- A key of the keyboard. The fake Shift codes that go with extended keys are extended codes. -/
inductive Switch where
  | plain (c : ScanCode)
  | extended (c : ScanCode)
  /-- The Pause key sends its codes when it goes down. -/
  | pause
  deriving DecidableEq

/-- The bytes that the keyboard sends. -/
def Switch.bytes : Switch → Bool → List UInt8
  | .plain c, true => [c.make]
  | .plain c, false => [c.break]
  | .extended c, true => [0xE0, c.make]
  | .extended c, false => [0xE0, c.break]
  | .pause, true => [0xE1, 0x1D, 0x45, 0xE1, 0x9D, 0xC5]
  | .pause, false => []

/-- A key goes down, or repeats, or goes up. -/
structure Stroke where
  switch : Switch
  press : Bool
  deriving DecidableEq

/-- Left Shift. -/
def leftShift : Switch := .plain ⟨0x2A, by decide⟩

/-- Right Shift. -/
def rightShift : Switch := .plain ⟨0x36, by decide⟩

/-- A keyboard and the keymap that reads it. -/
structure Keyboard where
  held : Switch → Bool
  keymap : Keymap

/-! ### What a press means -/

/-- What a key stands for. -/
inductive Meaning where
  | letter (lower : UInt8)
  | fixed (key : Key)
  | unmapped
  deriving DecidableEq, Repr

/-- The keys of the US layout that are mapped. -/
def Switch.meaning : Switch → Meaning
  | .plain c =>
    if c.make = scEnter then .fixed .enter
    else if c.make = scBackspace then .fixed .backspace
    else
      match decode c.make with
      | some ch => if isAsciiLowercase ch then .letter ch else .fixed (.char ch)
      | none => .unmapped
  | .extended c =>
    if c.make = scUp then .fixed .up
    else if c.make = scDown then .fixed .down
    else if c.make = scLeft then .fixed .left
    else if c.make = scRight then .fixed .right
    else .unmapped
  | .pause => .unmapped

/-- What the press of a key yields. -/
def Meaning.yields (shift : Bool) : Meaning → List Key
  | .letter lower => [.char (if shift then lower - 32 else lower)]
  | .fixed key => [key]
  | .unmapped => []

namespace Keyboard

/-- A Shift key is down. -/
def shiftDown (s : Keyboard) : Bool := s.held leftShift || s.held rightShift

/-- What a stroke is to yield. -/
def expected (s : Keyboard) (e : Stroke) : List Key :=
  if e.press then e.switch.meaning.yields s.shiftDown else []

/-- What the keymap makes of a stroke. -/
def actual (s : Keyboard) (e : Stroke) : List Key :=
  (s.keymap.feedBytes (e.switch.bytes e.press)).1.filter fun key => key ≠ .none

/-- The state after a stroke. A key that is up does not go up. -/
def next (s : Keyboard) (e : Stroke) : Option Keyboard :=
  if e.press || s.held e.switch then
    some {
      held := Function.update s.held e.switch e.press
      keymap := (s.keymap.feedBytes (e.switch.bytes e.press)).2 }
  else none

/-- No key is down at first. -/
def system : System Keyboard Stroke where
  init s := s = ⟨fun _ => false, Keymap.new⟩
  next := next

/-- The stroke does not release a Shift key while the other one is down. -/
def Apart (s : Keyboard) (e : Stroke) : Prop :=
  e.press = false → (e.switch = leftShift → s.held rightShift = false) ∧
    (e.switch = rightShift → s.held leftShift = false)

instance (s : Keyboard) (e : Stroke) : Decidable (s.Apart e) :=
  inferInstanceAs (Decidable (_ → _))

end Keyboard

/-! ### Bytes -/

namespace Keymap

/-- An extended prefix is no key. -/
theorem feedByte_extPrefix (km : Keymap) :
    km.feedByte 0xE0 = (.none, { km with extended := true }) := rfl

/-- Any other byte is the press or the release of a key. -/
theorem feedByte_key (km : Keymap) {b key : UInt8} {press : Bool}
    (hcode : (Event.key b).code ≠ extPrefix) (hkey : ((Event.key b).code &&& 0x7F).toUInt8 = key)
    (hpress : ((Event.key b).value == 1) = press) :
    km.feedByte b =
      if km.extended then
        (if press then extendedKey key else .none, { km with extended := false })
      else if key = scLshift ∨ key = scRshift then (.none, { km with shift := press })
      else if press then (ordinaryKey key km.shift, km)
      else (.none, km) := by
  unfold feedByte feed
  dsimp only
  rw [if_neg (fun h => h rfl : ¬ (Event.key b).kind ≠ eventKey), if_neg hcode, hkey, hpress]

/-- The byte of a press. -/
theorem feedByte_make (km : Keymap) (c : ScanCode) :
    km.feedByte c.make =
      if km.extended then (extendedKey c.make, { km with extended := false })
      else if c.make = scLshift ∨ c.make = scRshift then (.none, { km with shift := true })
      else (ordinaryKey c.make km.shift, km) := by
  have hall : ∀ v : Fin 128, (Event.key (UInt8.ofNat v)).code ≠ extPrefix ∧
      ((Event.key (UInt8.ofNat v)).code &&& 0x7F).toUInt8 = UInt8.ofNat v ∧
        ((Event.key (UInt8.ofNat v)).value == 1) = true := by decide
  obtain ⟨hcode, hkey, hpress⟩ := hall c.val
  exact feedByte_key km hcode hkey hpress

/-- The byte of a release. -/
theorem feedByte_break (km : Keymap) (c : ScanCode) :
    km.feedByte c.break =
      if km.extended then (.none, { km with extended := false })
      else if c.make = scLshift ∨ c.make = scRshift then (.none, { km with shift := false })
      else (.none, km) := by
  have hall : ∀ v : Fin 128, v ≠ 0x60 →
      (Event.key (UInt8.ofNat (v.val + 128))).code ≠ extPrefix ∧
      ((Event.key (UInt8.ofNat (v.val + 128))).code &&& 0x7F).toUInt8 = UInt8.ofNat v ∧
        ((Event.key (UInt8.ofNat (v.val + 128))).value == 1) = false := by decide
  obtain ⟨hcode, hkey, hpress⟩ := hall c.val c.real
  exact feedByte_key km hcode hkey hpress

/-- An extended prefix is undone by the byte that follows. -/
theorem feedByte_after_prefix (km : Keymap) {b : UInt8} (h : b ≠ 0xE0) :
    (((km.feedByte 0xE0).2).feedByte b).2 = { km with extended := false } := by
  have hcode : (Event.key b).code ≠ extPrefix := by
    intro heq
    have hb : b.toUInt16 = (0xE0 : UInt8).toUInt16 := heq
    exact h (UInt8.toUInt16_inj.mp hb)
  rw [feedByte_extPrefix, feedByte_key _ hcode rfl rfl]
  rfl

end Keymap

namespace Keyboard

variable {s t : Keyboard} {e : Stroke} {c : ScanCode}

/-- The keymap agrees with the keyboard. -/
def Agrees (s : Keyboard) : Prop := s.keymap = ⟨s.shiftDown, false⟩

/-! ### Steps -/

theorem plain_eq_shift : (Switch.plain c = leftShift ↔ c.make = scLshift) ∧
    (Switch.plain c = rightShift ↔ c.make = scRshift) := by
  obtain ⟨v, hv⟩ := c
  have hall : ∀ v : Fin 128, (v = 0x2A ↔ UInt8.ofNat v = scLshift) ∧
      (v = 0x36 ↔ UInt8.ofNat v = scRshift) := by decide
  unfold leftShift rightShift
  rw [Switch.plain.injEq, Switch.plain.injEq, ScanCode.mk.injEq, ScanCode.mk.injEq]
  exact hall v

/-- The press of an ordinary key yields what the key means. -/
theorem ordinaryKey_yields (c : ScanCode) (shift : Bool) :
    [Keymap.ordinaryKey c.make shift].filter (fun key => key ≠ .none) =
      (Switch.plain c).meaning.yields shift := by
  unfold Keymap.ordinaryKey Switch.meaning
  dsimp only
  split
  · rfl
  · split
    · rfl
    · cases decode c.make with
      | none => rfl
      | some ch =>
        cases hlower : isAsciiLowercase ch with
        | false =>
          simp only [hlower, Bool.and_false, Bool.false_eq_true, if_false]
          rfl
        | true =>
          cases shift with
          | false => simp only [hlower, Bool.false_and, Bool.false_eq_true, if_false, if_true]; rfl
          | true => simp only [hlower, Bool.and_self, if_true]; rfl

/-- The press of an extended key yields what the key means, whatever the Shift state. -/
theorem extendedKey_yields (c : ScanCode) (shift : Bool) :
    [Keymap.extendedKey c.make].filter (fun key => key ≠ .none) =
      (Switch.extended c).meaning.yields shift := by
  unfold Keymap.extendedKey Switch.meaning
  dsimp only
  split
  · rfl
  · split
    · rfl
    · split
      · rfl
      · split
        · rfl
        · rfl

/-- A Shift key stands for nothing. -/
theorem shift_unmapped (shift : Bool) (h : c.make = scLshift ∨ c.make = scRshift) :
    (Switch.plain c).meaning.yields shift = [] := by
  rcases h with h | h
  · rw [← plain_eq_shift.1] at h
    rw [h]
    rfl
  · rw [← plain_eq_shift.2] at h
    rw [h]
    rfl

/-- The keymap that agrees answers every stroke as it should. -/
theorem Agrees.actual (h : s.Agrees) (e : Stroke) : s.actual e = s.expected e := by
  obtain ⟨switch, press⟩ := e
  unfold Keyboard.actual expected
  rw [show s.keymap = ⟨s.shiftDown, false⟩ from h]
  generalize s.shiftDown = shift
  cases switch with
  | plain c =>
    cases press with
    | true =>
      show [((⟨shift, false⟩ : Keymap).feedByte c.make).1].filter _ = _
      rw [Keymap.feedByte_make, if_neg Bool.false_ne_true, if_pos rfl]
      split
      · rename_i hshift
        rw [shift_unmapped shift hshift]
        rfl
      · exact ordinaryKey_yields c shift
    | false =>
      show [((⟨shift, false⟩ : Keymap).feedByte c.break).1].filter _ = _
      rw [Keymap.feedByte_break, if_neg Bool.false_ne_true, if_neg Bool.false_ne_true]
      split <;> rfl
  | extended c =>
    cases press with
    | true =>
      show [Key.none, ((⟨shift, true⟩ : Keymap).feedByte c.make).1].filter _ = _
      rw [Keymap.feedByte_make, if_pos rfl, if_pos rfl]
      exact extendedKey_yields c shift
    | false =>
      show [Key.none, ((⟨shift, true⟩ : Keymap).feedByte c.break).1].filter _ = _
      rw [Keymap.feedByte_break, if_pos rfl, if_neg Bool.false_ne_true]
      rfl
  | pause =>
    cases press with
    | true => cases shift <;> rfl
    | false => rfl

/-- A Shift key sets the flag of the keymap, and no other key does. -/
theorem feedBytes_shift (shift : Bool) (e : Stroke) :
    ((⟨shift, false⟩ : Keymap).feedBytes (e.switch.bytes e.press)).2 =
      ⟨if e.switch = leftShift ∨ e.switch = rightShift then e.press else shift, false⟩ := by
  obtain ⟨switch, press⟩ := e
  cases switch with
  | plain c =>
    simp only [plain_eq_shift.1, plain_eq_shift.2]
    cases press with
    | true =>
      show ((⟨shift, false⟩ : Keymap).feedByte c.make).2 = _
      rw [Keymap.feedByte_make, if_neg Bool.false_ne_true]
      split <;> rfl
    | false =>
      show ((⟨shift, false⟩ : Keymap).feedByte c.break).2 = _
      rw [Keymap.feedByte_break, if_neg Bool.false_ne_true]
      split <;> rfl
  | extended c =>
    have hne : ¬ (Switch.extended c = leftShift ∨ Switch.extended c = rightShift) := by
      rintro (h | h) <;> cases h
    dsimp only
    rw [if_neg hne]
    cases press with
    | true =>
      show ((⟨shift, true⟩ : Keymap).feedByte c.make).2 = _
      rw [Keymap.feedByte_make, if_pos rfl]
    | false =>
      show ((⟨shift, true⟩ : Keymap).feedByte c.break).2 = _
      rw [Keymap.feedByte_break, if_pos rfl]
  | pause =>
    have hne : ¬ (Switch.pause = leftShift ∨ Switch.pause = rightShift) := by
      rintro (h | h) <;> cases h
    dsimp only
    rw [if_neg hne]
    cases press with
    | true => cases shift <;> rfl
    | false => rfl

/-- After a stroke the keymap agrees if and only if the stroke did not release a Shift key while the
other one was down. -/
theorem Agrees.next (h : s.Agrees) (hnext : s.next e = some t) : t.Agrees ↔ s.Apart e := by
  unfold Keyboard.next at hnext
  split at hnext
  · cases hnext
    unfold Agrees
    rw [show s.keymap = ⟨s.shiftDown, false⟩ from h, feedBytes_shift, Keymap.mk.injEq]
    have hlr : leftShift ≠ rightShift := by decide
    unfold shiftDown Apart
    dsimp only
    by_cases hl : e.switch = leftShift
    · rw [if_pos (Or.inl hl), hl, Function.update_self, Function.update_of_ne hlr.symm]
      cases e.press with
      | true => simp
      | false => simp [hlr]
    · by_cases hr : e.switch = rightShift
      · rw [if_pos (Or.inr hr), hr, Function.update_self, Function.update_of_ne hlr]
        cases e.press with
        | true => simp
        | false => simp [hlr.symm]
      · rw [if_neg (not_or.mpr ⟨hl, hr⟩), Function.update_of_ne (Ne.symm hl),
          Function.update_of_ne (Ne.symm hr)]
        simp [hl, hr]
  · cases hnext

/-! ### Runs -/

/-- The keymap answers every stroke as it should. -/
def Faithful (s : Keyboard) : Prop := ∀ e, s.actual e = s.expected e

theorem agrees_of_reachable (hs : Reachable system Apart s) : s.Agrees := by
  refine hs.invariant (I := Agrees) (fun s hinit => ?_) fun s e t _ hagrees hok hnext => ?_
  · cases hinit
    rfl
  · exact (Agrees.next hagrees hnext).mpr hok

/-- The press of a letter shows the flag of the keymap. -/
theorem Faithful.agrees (h : s.Faithful) (hext : s.keymap.extended = false) : s.Agrees := by
  have hpress := h ⟨.plain ⟨0x1E, by decide⟩, true⟩
  obtain ⟨shift, hkeymap⟩ : ∃ shift, s.keymap = ⟨shift, false⟩ :=
    ⟨s.keymap.shift, by rw [← hext]⟩
  unfold Keyboard.actual expected at hpress
  unfold Agrees
  rw [hkeymap] at hpress ⊢
  generalize s.shiftDown = down at hpress ⊢
  clear hkeymap hext h
  revert shift down
  decide

/-- As long as no Shift key goes up while the other one is down, every press of a letter yields the
upper-case letter if a Shift key is down and the lower-case letter otherwise, every other mapped key
its character or action, and nothing else yields anything. The first stroke that breaks the
condition ends this. A prefix changes nothing but the meaning of the byte that follows. -/
theorem shift_follows (hs : Reachable system Apart s) :
    s.Faithful ∧ (∀ e t, system.next s e = some t → (t.Faithful ↔ s.Apart e)) ∧
      ∀ (km : Keymap) (b : UInt8), b ≠ 0xE0 →
        (((km.feedByte 0xE0).2).feedByte b).2 = { km with extended := false } := by
  have hagrees := agrees_of_reachable hs
  refine ⟨hagrees.actual, fun e t hnext => ?_, fun km b hb => Keymap.feedByte_after_prefix km hb⟩
  have hnext : s.next e = some t := hnext
  rw [← Agrees.next hagrees hnext]
  refine ⟨fun h => h.agrees ?_, Agrees.actual⟩
  unfold Keyboard.next at hnext
  split at hnext
  · cases hnext
    rw [show s.keymap = ⟨s.shiftDown, false⟩ from hagrees, feedBytes_shift]
  · cases hnext

/-- The A key. -/
def keyA : Switch := .plain ⟨0x1E, by decide⟩

/-- Both Shift keys go down, and the left one goes up. -/
def twoShifts : List Stroke := [⟨leftShift, true⟩, ⟨rightShift, true⟩, ⟨leftShift, false⟩]

theorem idle_init : system.init ⟨fun _ => false, Keymap.new⟩ := rfl

/-- Then the right Shift key is down, and the A key yields the lower-case letter. -/
theorem twoShifts_lowercase : ∃ s, Reachable system always s ∧ s.held rightShift = true ∧
    s.actual ⟨keyA, true⟩ = [.char 97] ∧ s.expected ⟨keyA, true⟩ = [.char 65] :=
  ⟨_, (system.run idle_init twoShifts).reachable, by decide +kernel, by decide +kernel,
    by decide +kernel⟩

/-- The right Shift key goes down and up, and then the left one goes down. -/
theorem shift_follows_shiftAfterShift :
    ∃ s, Reachable system Apart s ∧ s.actual ⟨keyA, true⟩ = [.char 65] ∧ s.Faithful := by
  have hstart : Reachable system Apart ⟨fun _ => false, Keymap.new⟩ := ⟨[], .start idle_init⟩
  have hdown := hstart.pass (a := ⟨rightShift, true⟩) (by decide)
  have hup := hdown.pass (a := ⟨rightShift, false⟩) (by decide +kernel)
  have hs := hup.pass (a := ⟨leftShift, true⟩) (by decide +kernel)
  exact ⟨_, hs, by decide +kernel, (shift_follows hs).1⟩

end Keyboard

end Libinput

end Plinth
