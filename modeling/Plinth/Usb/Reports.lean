import Plinth.Input.Keymap
import Plinth.Usb.Trb
import Mathlib.Data.List.FinRange

/-!
# `Plinth.Usb.Reports`: the reports of the boot keyboard

`decode_report` and `poll_keyboard` of `kernel/src/xhci.rs`. A report says which keys are pressed.
The driver compares each report with the one before and records the scancodes of the keys that
changed.

`Story` says what is to be recorded: for each report a make of every key that came and a break of
every key that went. The buffer between the two holds 16 bytes, and what does not fit is lost, while
the report is saved in any case. `reports_recorded` says that the driver records the story if and
only if the changes from each report to the next take at most 16 bytes.
-/

set_option autoImplicit false

namespace Plinth

open Transition

namespace Usb

/-! ### Reports -/

/-- A report: the modifiers, a reserved byte and six usages. -/
structure Report where
  modifiers : UInt8
  reserved : UInt8
  usages : List UInt8
  six : usages.length = 6
  deriving DecidableEq

/-- The report before the first one. -/
def Report.zero : Report := ⟨0, 0, List.replicate 6 0, rfl⟩

/-- The usages of a report are distinct. 0 and 1 are no keys. -/
def Report.Valid (r : Report) : Prop := (r.usages.filter fun u => 1 < u).Nodup

instance (r : Report) : Decidable r.Valid := inferInstanceAs (Decidable (List.Nodup _))

/-! ### Scancodes -/

/-- The usages with a scancode of one byte. -/
def usageTable : List (UInt8 × UInt8) :=
  [(0x04, 0x1E), (0x05, 0x30), (0x06, 0x2E), (0x07, 0x20), (0x08, 0x12),
    (0x09, 0x21), (0x0A, 0x22), (0x0B, 0x23), (0x0C, 0x17), (0x0D, 0x24),
    (0x0E, 0x25), (0x0F, 0x26), (0x10, 0x32), (0x11, 0x31), (0x12, 0x18),
    (0x13, 0x19), (0x14, 0x10), (0x15, 0x13), (0x16, 0x1F), (0x17, 0x14),
    (0x18, 0x16), (0x19, 0x2F), (0x1A, 0x11), (0x1B, 0x2D), (0x1C, 0x15),
    (0x1D, 0x2C),
    (0x1E, 0x02), (0x1F, 0x03), (0x20, 0x04), (0x21, 0x05), (0x22, 0x06),
    (0x23, 0x07), (0x24, 0x08), (0x25, 0x09), (0x26, 0x0A), (0x27, 0x0B),
    (0x28, 0x1C), (0x29, 0x01), (0x2A, 0x0E), (0x2B, 0x0F), (0x2C, 0x39),
    (0x2D, 0x0C), (0x2E, 0x0D), (0x2F, 0x1A), (0x30, 0x1B), (0x31, 0x2B),
    (0x33, 0x27), (0x34, 0x28), (0x35, 0x29), (0x36, 0x33), (0x37, 0x34), (0x38, 0x35),
    (0x39, 0x3A)]

/-- The arrows, whose scancodes follow a prefix. -/
def arrowTable : List (UInt8 × UInt8) := [(0x4F, 0x4D), (0x50, 0x4B), (0x51, 0x50), (0x52, 0x48)]

/-- `usage_to_set1`. -/
def usageToSet1 (usage : UInt8) : Option (Bool × UInt8) :=
  match arrowTable.lookup usage with
  | some base => some (true, base)
  | none => (usageTable.lookup usage).map fun base => (false, base)

/-- `modifier_to_set1`. -/
def modifierToSet1 (bit : Nat) : Option (Bool × UInt8) :=
  ([(false, 0x1D), (false, 0x2A), (false, 0x38), (true, 0x5B), (true, 0x1D), (false, 0x36),
    (true, 0x38), (true, 0x5C)] : List (Bool × UInt8))[bit]?

/-- The bytes of a press or of a release. -/
def scancode (code : Bool × UInt8) (press : Bool) : List UInt8 :=
  (if code.1 then [0xE0] else []) ++ [if press then code.2 else code.2 ||| 0x80]

/-- The bytes of a key that may have no scancode. -/
def scancodeOf (code : Option (Bool × UInt8)) (press : Bool) : List UInt8 :=
  match code with
  | some code => scancode code press
  | none => []

/-! ### The driver -/

/-- The modifier loop of `decode_report`. -/
def modifierBytes (prev cur : Report) : List UInt8 :=
  if prev.modifiers ≠ cur.modifiers then
    (List.range 8).flatMap fun bit =>
      let mask := (1 : UInt8) <<< UInt8.ofNat bit
      let was := prev.modifiers &&& mask != 0
      let now := cur.modifiers &&& mask != 0
      if was ≠ now then scancodeOf (modifierToSet1 bit) now else []
  else []

/-- The release loop of `decode_report`. -/
def releaseBytes (prev cur : Report) : List UInt8 :=
  prev.usages.flatMap fun u =>
    if 1 < u ∧ u ∉ cur.usages then scancodeOf (usageToSet1 u) false else []

/-- The press loop of `decode_report`. -/
def pressBytes (prev cur : Report) : List UInt8 :=
  cur.usages.flatMap fun u =>
    if 1 < u ∧ u ∉ prev.usages then scancodeOf (usageToSet1 u) true else []

/-- The `push` of `decode_report`. -/
def pushOut (room : Nat) (out : List UInt8) (b : UInt8) : List UInt8 :=
  if out.length < room then out ++ [b] else out

/-- `decode_report`, with a buffer of `room` bytes. -/
def decodeReport (prev cur : Report) (room : Nat) : List UInt8 :=
  (modifierBytes prev cur ++ releaseBytes prev cur ++ pressBytes prev cur).foldl (pushOut room) []

/-- The length of the buffer in `poll_keyboard`. -/
def scancodeRoom : Nat := 16

/-- The driver with the keyboard. `armed` tells whether the keyboard has a read to complete, `sent`
are the reports that it sent, and `read` the ones that the driver read. -/
structure Hid where
  slot : UInt8
  intDci : UInt8
  armed : Bool
  buffer : Report
  events : List Trb
  prevReport : Report
  recorded : List Event
  sent : List Report
  read : List Report

namespace Hid

/-- The event says that a report read is complete. -/
def isReport (s : Hid) (ev : Trb) : Bool :=
  ev.trbType == TrbType.transferEvent.code && ev.eventSlotId == s.slot &&
    ev.eventEndpointId == s.intDci

/-- `poll_keyboard`. -/
def pollKeyboard (s : Hid) : Hid :=
  if s.events.any s.isReport then
    { s with
      events := []
      recorded := s.recorded ++
        (decodeReport s.prevReport s.buffer scancodeRoom).map Event.key
      prevReport := s.buffer
      armed := true
      read := s.read ++ [s.buffer] }
  else { s with events := [] }

/-- What happens to the keyboard. -/
inductive Move where
  | report (r : Report) (ev : Trb)
  | event (ev : Trb)
  | poll

/-- The state after a move. The keyboard completes a read only if there is one. -/
def next (s : Hid) : Move → Option Hid
  | .report r ev =>
    if s.armed ∧ s.isReport ev then
      some { s with
        armed := false, buffer := r, events := s.events ++ [ev], sent := s.sent ++ [r] }
    else none
  | .event ev => if s.isReport ev then none else some { s with events := s.events ++ [ev] }
  | .poll => some s.pollKeyboard

/-- The first read is armed. -/
def system : System Hid Move where
  init s := s.armed = true ∧ s.events = [] ∧ s.prevReport = Report.zero ∧ s.recorded = [] ∧
    s.sent = [] ∧ s.read = []
  next := next

/-- The keyboard sends reports with distinct usages. -/
def Wellformed (_ : Hid) : Move → Prop
  | .report r _ => r.Valid
  | _ => True

instance (s : Hid) : (m : Move) → Decidable (s.Wellformed m)
  | .report r _ => inferInstanceAs (Decidable r.Valid)
  | .event _ => inferInstanceAs (Decidable True)
  | .poll => inferInstanceAs (Decidable True)

/-- The report that the driver did not read yet. -/
def unread (s : Hid) : List Report := if s.armed then [] else [s.buffer]

end Hid

/-! ### What is to be recorded -/

/-- A key of the keyboard. -/
inductive KeyId where
  | modifier (bit : Fin 8)
  | usage (u : UInt8)
  deriving DecidableEq

/-- The scancode of a key. -/
def KeyId.code : KeyId → Option (Bool × UInt8)
  | .modifier bit => modifierToSet1 bit
  | .usage u => usageToSet1 u

/-- A report says that a key is pressed. -/
def Report.holds (r : Report) : KeyId → Bool
  | .modifier bit => r.modifiers.toNat.testBit bit
  | .usage u => 1 < u && u ∈ r.usages

/-- A key comes or goes. -/
structure Change where
  key : KeyId
  press : Bool
  deriving DecidableEq

/-- The bytes of a change. -/
def Change.bytes (c : Change) : List UInt8 := scancodeOf c.key.code c.press

/-- The changes from a report to the next one: a make of each key that came, a break of each key
that went, and nothing for a key that stayed. -/
structure Changes (prev cur : Report) (chunk : List Change) : Prop where
  once : chunk.Nodup
  mem : ∀ c, c ∈ chunk ↔
    c.key.code.isSome = true ∧ prev.holds c.key = !c.press ∧ cur.holds c.key = c.press

/-- The changes of a sequence of reports, in their order. -/
inductive Story : Report → List Report → List Change → Prop where
  | nil (prev : Report) : Story prev [] []
  | cons {prev cur : Report} {rest : List Report} {chunk story : List Change} :
    Changes prev cur chunk → Story cur rest story → Story prev (cur :: rest) (chunk ++ story)

/-- A key is recorded as pressed after changes. -/
def pressedAfter (key : KeyId) (down : Bool) (story : List Change) : Bool :=
  story.foldl (fun down c => if c.key = key then c.press else down) down

/-- The last report. -/
def lastReport (prev : Report) (reports : List Report) : Report := reports.getLastD prev

/-- What is to be recorded of the reports after `prev`. If the last one holds no key, then every key
that was recorded as pressed was recorded as released. -/
def Told (reports : List Report) (recorded : List Event) : Prop :=
  ∃ story, Story Report.zero reports story ∧
    recorded = (story.flatMap Change.bytes).map Event.key ∧
      ((∀ key, (lastReport Report.zero reports).holds key = false) →
        ∀ key, pressedAfter key false story = false)

/-! ### The bytes that changes take -/

/-- The modifiers that changed. -/
def modifierChanges (prev cur : Report) : List Change :=
  (List.finRange 8).filterMap fun bit =>
    if prev.holds (.modifier bit) ≠ cur.holds (.modifier bit) then
      some ⟨.modifier bit, cur.holds (.modifier bit)⟩
    else none

/-- The usages with a scancode that one report has and the other one has not. -/
def usageChanges (here there : Report) (press : Bool) : List Change :=
  here.usages.filterMap fun u =>
    if 1 < u ∧ u ∉ there.usages ∧ (usageToSet1 u).isSome then some ⟨.usage u, press⟩ else none

/-- The changes from a report to the next one. -/
def changes (prev cur : Report) : List Change :=
  modifierChanges prev cur ++ usageChanges prev cur false ++ usageChanges cur prev true

/-- The number of bytes that the changes take: two for a key with a prefix and one for another
key. -/
def changeBytes (prev cur : Report) : Nat := ((changes prev cur).flatMap Change.bytes).length

/-- The changes to each report fit the buffer. -/
def Fits : Report → List Report → Prop
  | _, [] => True
  | prev, cur :: rest => changeBytes prev cur ≤ scancodeRoom ∧ Fits cur rest

instance : (prev : Report) → (reports : List Report) → Decidable (Fits prev reports)
  | _, [] => inferInstanceAs (Decidable True)
  | prev, cur :: rest =>
    have := instDecidableFits cur rest
    inferInstanceAs (Decidable (changeBytes prev cur ≤ scancodeRoom ∧ Fits cur rest))

/-! ### The buffer -/

theorem foldl_pushOut {room : Nat} (bytes : List UInt8) {out : List UInt8} (h : out.length ≤ room) :
    bytes.foldl (pushOut room) out = (out ++ bytes).take room := by
  induction bytes generalizing out with
  | nil => rw [List.foldl_nil, List.append_nil, List.take_of_length_le h]
  | cons b bytes ih =>
    rw [List.foldl_cons, pushOut]
    split
    · rename_i hlt
      rw [ih (by rw [List.length_append, List.length_singleton]; exact hlt), List.append_assoc]
      rfl
    · rename_i hfull
      have hlen : out.length = room := by omega
      rw [ih h, ← hlen, List.take_left, List.take_left]

variable {prev cur : Report}

/-- The bit of a modifier is the one that the mask of the driver selects. -/
theorem mask_testBit (m : UInt8) (bit : Fin 8) :
    (m &&& (1 : UInt8) <<< UInt8.ofNat bit != 0) = m.toNat.testBit bit := by
  have hall : ∀ (v : Fin 256) (bit : Fin 8),
      (UInt8.ofNat v &&& (1 : UInt8) <<< UInt8.ofNat bit != 0) = v.val.testBit bit := by
    decide +kernel
  have h := hall ⟨m.toNat, m.toNat_lt⟩ bit
  dsimp only at h
  rw [UInt8.ofNat_toNat] at h
  exact h

theorem flatMap_filterMap {α β γ : Type} (f : α → Option β) (g : β → List γ) (l : List α) :
    (l.filterMap f).flatMap g = l.flatMap fun x => ((f x).map g).getD [] := by
  induction l with
  | nil => rfl
  | cons x l ih =>
    rw [List.flatMap_cons, ← ih]
    cases hx : f x with
    | none => rw [List.filterMap_cons_none hx]; rfl
    | some y => rw [List.filterMap_cons_some hx, List.flatMap_cons]; rfl

theorem modifierBytes_eq (prev cur : Report) :
    modifierBytes prev cur = (modifierChanges prev cur).flatMap Change.bytes := by
  unfold modifierBytes modifierChanges
  rw [flatMap_filterMap, ← List.map_coe_finRange_eq_range, List.flatMap_map]
  have hloop : ∀ bit : Fin 8, (((if prev.holds (.modifier bit) ≠ cur.holds (.modifier bit) then
      some (⟨.modifier bit, cur.holds (.modifier bit)⟩ : Change) else none).map Change.bytes).getD
        []) =
      if (prev.modifiers &&& (1 : UInt8) <<< UInt8.ofNat bit != 0) ≠
          (cur.modifiers &&& (1 : UInt8) <<< UInt8.ofNat bit != 0) then
        scancodeOf (modifierToSet1 bit) (cur.modifiers &&& (1 : UInt8) <<< UInt8.ofNat bit != 0)
      else [] := by
    intro bit
    rw [mask_testBit, mask_testBit]
    show ((if prev.modifiers.toNat.testBit bit ≠ cur.modifiers.toNat.testBit bit then
      some _ else none : Option Change).map Change.bytes).getD [] = _
    split <;> rfl
  split
  · exact List.flatMap_congr fun bit _ => (hloop bit).symm
  · rename_i heq
    rw [not_not] at heq
    symm
    rw [List.flatMap_eq_nil_iff]
    intro bit _
    rw [hloop, heq]
    exact if_neg (fun h => h rfl)

theorem usageChanges_bytes (here there : Report) (press : Bool) :
    (usageChanges here there press).flatMap Change.bytes = here.usages.flatMap fun u =>
      if 1 < u ∧ u ∉ there.usages then scancodeOf (usageToSet1 u) press else [] := by
  unfold usageChanges
  rw [flatMap_filterMap]
  refine List.flatMap_congr fun u _ => ?_
  by_cases hu : 1 < u ∧ u ∉ there.usages
  · rw [if_pos hu]
    cases hcode : usageToSet1 u with
    | none => rw [if_neg (by simp)]; rfl
    | some code =>
      rw [if_pos ⟨hu.1, hu.2, rfl⟩]
      show scancodeOf (usageToSet1 u) press = _
      rw [hcode]
  · rw [if_neg hu, if_neg (fun h => hu ⟨h.1, h.2.1⟩)]
    rfl

/-- The driver writes the bytes of the changes, as far as they fit. -/
theorem decodeReport_eq (prev cur : Report) (room : Nat) :
    decodeReport prev cur room = ((changes prev cur).flatMap Change.bytes).take room := by
  unfold decodeReport changes
  rw [foldl_pushOut _ (Nat.zero_le _), List.nil_append, List.flatMap_append, List.flatMap_append,
    ← modifierBytes_eq, usageChanges_bytes, usageChanges_bytes]
  rfl

/-! ### The changes -/

theorem isSome_modifier (bit : Fin 8) : (modifierToSet1 bit).isSome = true := by
  revert bit
  decide

theorem mem_modifierChanges (c : Change) :
    c ∈ modifierChanges prev cur ↔ ∃ bit, c.key = .modifier bit ∧
      prev.holds c.key = !c.press ∧ cur.holds c.key = c.press := by
  unfold modifierChanges
  rw [List.mem_filterMap]
  constructor
  · rintro ⟨bit, -, h⟩
    split at h
    · rename_i hne
      cases h
      exact ⟨bit, rfl, Bool.eq_not_of_ne hne, rfl⟩
    · cases h
  · obtain ⟨key, press⟩ := c
    rintro ⟨bit, hkey, hprev, hcur⟩
    dsimp only at hkey hprev hcur
    subst hkey
    refine ⟨bit, List.mem_finRange bit, ?_⟩
    rw [hprev, hcur, if_pos (by cases press <;> decide)]

theorem mem_usageChanges {here there : Report} {press : Bool} (c : Change) :
    c ∈ usageChanges here there press ↔ ∃ u, c.key = .usage u ∧ c.press = press ∧
      (usageToSet1 u).isSome = true ∧ here.holds c.key = true ∧ there.holds c.key = false := by
  unfold usageChanges
  rw [List.mem_filterMap]
  constructor
  · rintro ⟨u, hmem, h⟩
    split at h
    · rename_i hu
      cases h
      exact ⟨u, rfl, rfl, hu.2.2, by simp [Report.holds, hu.1, hmem],
        by simp [Report.holds, hu.2.1]⟩
    · cases h
  · obtain ⟨key, press'⟩ := c
    rintro ⟨u, hkey, hpress, hcode, hhere, hthere⟩
    dsimp only at hkey hpress hhere hthere
    subst hkey hpress
    have hone : 1 < u ∧ u ∈ here.usages := by simpa [Report.holds] using hhere
    have hnot : u ∉ there.usages := by
      intro hmem
      simp [Report.holds, hone.1, hmem] at hthere
    exact ⟨u, hone.2, if_pos ⟨hone.1, hnot, hcode⟩⟩

theorem nodup_usageChanges {here : Report} (h : here.Valid) (there : Report) (press : Bool) :
    (usageChanges here there press).Nodup := by
  have heq : usageChanges here there press = (here.usages.filter fun u => 1 < u).filterMap fun u =>
      if 1 < u ∧ u ∉ there.usages ∧ (usageToSet1 u).isSome then
        some (⟨.usage u, press⟩ : Change) else none := by
    unfold usageChanges
    rw [List.filterMap_filter]
    refine List.filterMap_congr fun u _ => ?_
    by_cases hu : 1 < u
    · rw [if_pos (decide_eq_true hu)]
    · rw [if_neg (fun h => hu h.1), if_neg (by simpa using hu)]
  rw [heq]
  refine List.Nodup.filterMap (fun u v c hu hv => ?_) h
  rw [Option.mem_def] at hu hv
  split at hu
  · split at hv
    · cases hu
      cases hv
      rfl
    · cases hv
  · cases hu

theorem nodup_modifierChanges (prev cur : Report) : (modifierChanges prev cur).Nodup := by
  unfold modifierChanges
  refine List.Nodup.filterMap (fun a b c ha hb => ?_) (List.nodup_finRange 8)
  rw [Option.mem_def] at ha hb
  split at ha
  · split at hb
    · cases ha
      injection Option.some.inj hb with hkey _
      exact (KeyId.modifier.inj hkey).symm
    · cases hb
  · cases ha

/-- The changes are each key that came or went, once. -/
theorem changes_spec (hprev : prev.Valid) (hcur : cur.Valid) :
    Changes prev cur (changes prev cur) where
  once := by
    unfold changes
    rw [List.nodup_append, List.nodup_append]
    refine ⟨⟨nodup_modifierChanges prev cur, nodup_usageChanges hprev cur false, ?_⟩,
      nodup_usageChanges hcur prev true, ?_⟩
    · intro c hc d hd heq
      subst heq
      obtain ⟨bit, hbit, -⟩ := (mem_modifierChanges c).mp hc
      obtain ⟨u, hu, -⟩ := (mem_usageChanges c).mp hd
      rw [hbit] at hu
      cases hu
    · intro c hc d hd heq
      subst heq
      obtain ⟨u, hu, hpress, -⟩ := (mem_usageChanges c).mp hd
      rcases List.mem_append.mp hc with hc | hc
      · obtain ⟨bit, hbit, -⟩ := (mem_modifierChanges c).mp hc
        rw [hbit] at hu
        cases hu
      · obtain ⟨-, -, hrelease, -⟩ := (mem_usageChanges c).mp hc
        rw [hpress] at hrelease
        cases hrelease
  mem c := by
    unfold changes
    rw [List.mem_append, List.mem_append, mem_modifierChanges, mem_usageChanges, mem_usageChanges]
    constructor
    · rintro ((⟨bit, hkey, h⟩ | ⟨u, hkey, hpress, hcode, hheld, hgone⟩) |
        ⟨u, hkey, hpress, hcode, hheld, hgone⟩)
      · refine ⟨?_, h⟩
        rw [hkey]
        exact isSome_modifier bit
      · rw [hpress]
        exact ⟨by rw [hkey]; exact hcode, hheld, hgone⟩
      · rw [hpress]
        exact ⟨by rw [hkey]; exact hcode, hgone, hheld⟩
    · rintro ⟨hcode, hprev, hcur⟩
      cases hkey : c.key with
      | modifier bit => exact Or.inl (Or.inl ⟨bit, rfl, by rw [← hkey]; exact ⟨hprev, hcur⟩⟩)
      | usage u =>
        rw [hkey] at hcode hprev hcur
        cases hpress : c.press with
        | false =>
          rw [hpress] at hprev hcur
          exact Or.inl (Or.inr ⟨u, rfl, rfl, hcode, hprev, hcur⟩)
        | true =>
          rw [hpress] at hprev hcur
          exact Or.inr ⟨u, rfl, rfl, hcode, hcur, hprev⟩

/-- The bytes of the changes do not depend on their order. -/
theorem Changes.length_bytes {chunk chunk' : List Change} (h : Changes prev cur chunk)
    (h' : Changes prev cur chunk') :
    (chunk.flatMap Change.bytes).length = (chunk'.flatMap Change.bytes).length := by
  have hperm : chunk.Perm chunk' :=
    (List.perm_ext_iff_of_nodup h.once h'.once).mpr fun c => by rw [h.mem, h'.mem]
  exact (hperm.flatMap_right Change.bytes).length_eq

/-! ### Stories -/

theorem pressedAfter_of_settled {key : KeyId} {b d : Bool} {chunk : List Change}
    (h : ∀ c ∈ chunk, c.key = key → c.press = b) (hd : d = b ∨ ∃ c ∈ chunk, c.key = key) :
    pressedAfter key d chunk = b := by
  induction chunk generalizing d with
  | nil =>
    rcases hd with hd | ⟨c, hc, -⟩
    · exact hd
    · cases hc
  | cons c chunk ih =>
    have hrest : ∀ x ∈ chunk, x.key = key → x.press = b := fun x hx =>
      h x (List.mem_cons_of_mem c hx)
    show pressedAfter key (if c.key = key then c.press else d) chunk = b
    by_cases hkey : c.key = key
    · rw [if_pos hkey]
      exact ih hrest (Or.inl (h c List.mem_cons_self hkey))
    · rw [if_neg hkey]
      refine ih hrest (hd.imp_right ?_)
      rintro ⟨x, hx, hxkey⟩
      rcases List.mem_cons.mp hx with rfl | hx
      · exact absurd hxkey hkey
      · exact ⟨x, hx, hxkey⟩

/-- After the changes a key is recorded as pressed if the report holds it. -/
theorem Changes.pressedAfter {chunk : List Change} (h : Changes prev cur chunk) {key : KeyId}
    (hcode : key.code.isSome = true) :
    pressedAfter key (prev.holds key) chunk = cur.holds key := by
  refine pressedAfter_of_settled (fun c hc hkey => ?_) ?_
  · rw [← hkey]
    exact ((h.mem c).mp hc).2.2.symm
  · by_cases heq : prev.holds key = cur.holds key
    · exact Or.inl heq
    · refine Or.inr ⟨⟨key, cur.holds key⟩, (h.mem _).mpr ⟨hcode, ?_, rfl⟩, rfl⟩
      exact Bool.eq_not_of_ne heq

theorem Story.pressedAfter {reports : List Report} {story : List Change}
    (h : Story prev reports story) {key : KeyId} (hcode : key.code.isSome = true) :
    pressedAfter key (prev.holds key) story = (lastReport prev reports).holds key := by
  induction h with
  | nil => rfl
  | @cons prev cur rest chunk story hchanges _ ih =>
    unfold lastReport at ih ⊢
    rw [List.getLastD_cons, ← ih, ← hchanges.pressedAfter hcode]
    exact List.foldl_append

/-- A key without a scancode is never recorded. -/
theorem Story.key_code {reports : List Report} {story : List Change}
    (h : Story prev reports story) : ∀ c ∈ story, c.key.code.isSome = true := by
  induction h with
  | nil => exact fun _ h => nomatch h
  | cons hchanges _ ih =>
    intro c hc
    rcases List.mem_append.mp hc with hc | hc
    · exact ((hchanges.mem c).mp hc).1
    · exact ih c hc

/-- What the driver records of reports. -/
def stream : Report → List Report → List UInt8
  | _, [] => []
  | prev, cur :: rest => decodeReport prev cur scancodeRoom ++ stream cur rest

theorem stream_concat (prev : Report) (reports : List Report) (cur : Report) :
    stream prev (reports ++ [cur]) =
      stream prev reports ++ decodeReport (lastReport prev reports) cur scancodeRoom := by
  induction reports generalizing prev with
  | nil => exact List.append_nil _
  | cons r reports ih =>
    rw [List.cons_append, stream, stream, ih, List.append_assoc]
    unfold lastReport
    rw [List.getLastD_cons]

/-- If all changes fit, the stream is a story. -/
theorem story_of_fits {reports : List Report} (hprev : prev.Valid)
    (hvalid : ∀ r ∈ reports, r.Valid) (hfits : Fits prev reports) :
    ∃ story, Story prev reports story ∧ stream prev reports = story.flatMap Change.bytes := by
  induction reports generalizing prev with
  | nil => exact ⟨[], .nil prev, rfl⟩
  | cons cur rest ih =>
    obtain ⟨hroom, hrest⟩ := hfits
    have hcur := hvalid cur List.mem_cons_self
    obtain ⟨story, hstory, heq⟩ :=
      ih hcur (fun r hr => hvalid r (List.mem_cons_of_mem cur hr)) hrest
    refine ⟨_, .cons (changes_spec hprev hcur) hstory, ?_⟩
    rw [stream, heq, decodeReport_eq, List.take_of_length_le hroom, List.flatMap_append]

/-- The stream is never longer than the story, and as long only if all changes fit. -/
theorem Story.length_stream {reports : List Report} {story : List Change}
    (h : Story prev reports story) (hprev : prev.Valid) (hvalid : ∀ r ∈ reports, r.Valid) :
    (stream prev reports).length ≤ (story.flatMap Change.bytes).length ∧
      ((stream prev reports).length = (story.flatMap Change.bytes).length → Fits prev reports) := by
  induction h with
  | nil => exact ⟨Nat.le_refl _, fun _ => trivial⟩
  | @cons prev cur rest chunk story hchanges _ ih =>
    have hcur := hvalid cur List.mem_cons_self
    obtain ⟨hle, hfits⟩ := ih hcur fun r hr => hvalid r (List.mem_cons_of_mem cur hr)
    have hchunk := hchanges.length_bytes (changes_spec hprev hcur)
    rw [stream, List.flatMap_append, List.length_append, List.length_append, decodeReport_eq,
      List.length_take, hchunk]
    refine ⟨by omega, fun heq => ?_⟩
    constructor
    · unfold changeBytes
      omega
    · exact hfits (by omega)

theorem valid_zero : Report.zero.Valid := by decide

/-- The driver tells the story of the reports if and only if the changes fit. -/
theorem told_iff {reports : List Report} (hvalid : ∀ r ∈ reports, r.Valid) :
    Told reports ((stream Report.zero reports).map Event.key) ↔ Fits Report.zero reports := by
  constructor
  · rintro ⟨story, hstory, heq, -⟩
    have hlen := congrArg List.length heq
    rw [List.length_map, List.length_map] at hlen
    exact (hstory.length_stream valid_zero hvalid).2 hlen
  · intro hfits
    obtain ⟨story, hstory, heq⟩ := story_of_fits valid_zero hvalid hfits
    refine ⟨story, hstory, by rw [heq], fun hreleased key => ?_⟩
    by_cases hcode : key.code.isSome = true
    · have hzero : Report.zero.holds key = false := by
        cases key with
        | modifier bit => revert bit; decide
        | usage u =>
          by_cases hu : 1 < u
          · have hne : u ≠ 0 := by
              rintro rfl
              exact absurd hu (by decide)
            simp [Report.holds, Report.zero, hne]
          · simp [Report.holds, hu]
      have hlast := hstory.pressedAfter hcode
      rw [hzero, hreleased key] at hlast
      exact hlast
    · refine pressedAfter_of_settled (fun c hc hkey => ?_) (Or.inl rfl)
      exact absurd (hkey ▸ hstory.key_code c hc) hcode

/-! ### Runs -/

namespace Hid

variable {s t : Hid} {m : Move}

/-- The driver has the last report that it read, and a report that is not read stands in the
buffer. -/
structure Good (s : Hid) : Prop where
  valid : ∀ r ∈ s.sent, r.Valid
  sent : s.sent = s.read ++ s.unread
  prev : s.prevReport = lastReport Report.zero s.read
  recorded : s.recorded = (stream Report.zero s.read).map Event.key
  events : s.events.any s.isReport = !s.armed

theorem good_init (h : system.init s) : s.Good := by
  obtain ⟨harmed, hevents, hprev, hrecorded, hsent, hread⟩ := h
  exact {
    valid := by rw [hsent]; exact fun _ h => nomatch h
    sent := by rw [hsent, hread, unread, if_pos harmed]; rfl
    prev := by rw [hprev, hread]; rfl
    recorded := by rw [hrecorded, hread]; rfl
    events := by rw [hevents, harmed]; rfl }

/-- A poll reads the report if there is one. -/
theorem Good.poll (h : s.Good) : s.pollKeyboard.Good := by
  unfold pollKeyboard
  by_cases harmed : s.armed = true
  · have hnone : ¬ s.events.any s.isReport = true := by rw [h.events, harmed]; decide
    rw [if_neg hnone]
    exact { h with events := by show false = !s.armed; rw [harmed]; rfl }
  · have hunread : s.unread = [s.buffer] := if_neg harmed
    rw [Bool.not_eq_true] at harmed
    have hsome : s.events.any s.isReport = true := by rw [h.events, harmed]; rfl
    rw [if_pos hsome]
    exact {
      valid := h.valid
      sent := by
        show s.sent = (s.read ++ [s.buffer]) ++ []
        rw [h.sent, hunread, List.append_nil]
      prev := List.getLastD_concat.symm
      recorded := by
        show s.recorded ++ _ = _
        rw [stream_concat, List.map_append, h.recorded, h.prev]
      events := rfl }

theorem Good.next (h : s.Good) (hok : s.Wellformed m) (hnext : s.next m = some t) : t.Good := by
  cases m with
  | report r ev =>
    simp only [Hid.next] at hnext
    split at hnext
    · rename_i hready
      obtain ⟨harmed, hev⟩ := hready
      have hunread : s.unread = [] := if_pos harmed
      have hsent := h.sent
      rw [hunread, List.append_nil] at hsent
      cases hnext
      exact {
        valid := by
          intro x hx
          rcases List.mem_append.mp hx with hx | hx
          · exact h.valid x hx
          · rw [List.mem_singleton.mp hx]
            exact hok
        sent := congrArg (· ++ [r]) hsent
        prev := h.prev
        recorded := h.recorded
        events := by
          show (s.events ++ [ev]).any s.isReport = true
          rw [List.any_append, List.any_cons, hev, Bool.true_or, Bool.or_true] }
    · cases hnext
  | event ev =>
    simp only [Hid.next] at hnext
    split at hnext
    · cases hnext
    · rename_i hev
      rw [Bool.not_eq_true] at hev
      cases hnext
      exact { h with
        events := by
          show (s.events ++ [ev]).any s.isReport = _
          rw [List.any_append, List.any_cons, hev, List.any_nil, Bool.or_false, Bool.or_false]
          exact h.events }
  | poll =>
    have hnext : some s.pollKeyboard = some t := hnext
    cases hnext
    exact h.poll

/-- In every run the driver reads the reports in order, each once, and it records each key that came
and each key that went if and only if the changes to each report fit the buffer. -/
theorem reports_recorded (hs : Reachable system Wellformed s) :
    s.sent = s.read ++ s.unread ∧ (Told s.read s.recorded ↔ Fits Report.zero s.read) := by
  have h : s.Good := hs.invariant (I := Good) (fun _ hinit => good_init hinit)
    fun _ _ _ _ h hok hnext => h.next hok hnext
  refine ⟨h.sent, ?_⟩
  rw [h.recorded]
  exact told_iff fun r hr => h.valid r (by rw [h.sent]; exact List.mem_append_left _ hr)

/-- A keyboard in slot 1 with its reports on endpoint 1. -/
def fresh : Hid where
  slot := 1
  intDci := 3
  armed := true
  buffer := Report.zero
  events := []
  prevReport := Report.zero
  recorded := []
  sent := []
  read := []

/-- The event of a report. -/
def reportEvent : Trb := ⟨0, 0, 0x01038000⟩

/-- Reports, each with a poll after it. -/
def polled (reports : List Report) : List Move :=
  reports.flatMap fun r => [.report r reportEvent, .poll]

/-- A run of reports. -/
theorem reachable_polled {reports : List Report}
    (h : system.follows (fun s m => decide (s.Wellformed m)) fresh (polled reports) = true) :
    Reachable system Wellformed (system.runFrom fresh (polled reports)) := by
  have hfresh : Reachable system (fun s m => decide (s.Wellformed m) = true) fresh :=
    ⟨[], .start ⟨rfl, rfl, rfl, rfl, rfl, rfl⟩⟩
  exact (hfresh.runFrom h).mono fun _ _ h => of_decide_eq_true h

/-- Six letters are held, then they are released while all modifiers are pressed, then all keys are
up. -/
def manyKeys : List Report :=
  [⟨0, 0, [0x04, 0x05, 0x06, 0x07, 0x08, 0x09], rfl⟩, ⟨0xFF, 0, [0, 0, 0, 0, 0, 0], rfl⟩,
    Report.zero]

/-- The press of F is recorded and its release is not. -/
theorem manyKeys_stuck : ∃ s, Reachable system Wellformed s ∧ s.read = manyKeys ∧
    Event.key 0x21 ∈ s.recorded ∧ Event.key 0xA1 ∉ s.recorded ∧
      ¬ Told s.read s.recorded := by
  have hs : Reachable system Wellformed (system.runFrom fresh (polled manyKeys)) :=
    reachable_polled (by decide +kernel)
  have hread : (system.runFrom fresh (polled manyKeys)).read = manyKeys := by decide +kernel
  have hrecorded : (system.runFrom fresh (polled manyKeys)).recorded =
      (stream Report.zero manyKeys).map Event.key := by decide +kernel
  refine ⟨_, hs, hread, by decide +kernel, by decide +kernel, ?_⟩
  rw [hread, hrecorded, told_iff (by decide)]
  decide +kernel

/-- Shift and A are pressed, an arrow is pressed, and all keys are up again. -/
def fewKeys : List Report :=
  [⟨0x02, 0, [0x04, 0, 0, 0, 0, 0], rfl⟩, ⟨0, 0, [0x52, 0x04, 0, 0, 0, 0], rfl⟩, Report.zero]

theorem reports_recorded_fewKeys : ∃ s, Reachable system Wellformed s ∧ s.read = fewKeys ∧
    Told s.read s.recorded := by
  have hs : Reachable system Wellformed (system.runFrom fresh (polled fewKeys)) :=
    reachable_polled (by decide +kernel)
  refine ⟨_, hs, by decide +kernel, (reports_recorded hs).2.mpr ?_⟩
  decide +kernel

end Hid

end Usb

end Plinth
