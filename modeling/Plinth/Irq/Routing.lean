import Mathlib.Data.List.Nodup
import Plinth.Acpi.Walks

/-!
# `Plinth.Irq.Routing`: interrupt lines, redirection entries and vectors

The I/O APIC path of `kernel/src/irq.rs`, and `enable_completion_irqs` of `virtio_blk.rs`, over what
the firmware reports: the I/O APIC, the interrupt source overrides, and the interrupt line of each
disk. The fallback to the PIC, for a machine without a MADT, is left out.

A line goes to the redirection entry of its global system interrupt, and to the vector
`VECTOR_BASE + line`. A disk with MSI-X has a vector of its own and no line. The kernel is built
with overflow checks, so a sum that passes its word is a panic. Only an interrupt below the base of
the I/O APIC is refused. `wire_sound_iff` says for which firmware that is enough.
-/

set_option autoImplicit false

namespace Plinth

namespace Irq

open Acpi (Iso)

/-! ### Vectors and registers -/

/-- `VECTOR_BASE`. -/
def vectorBase : Nat := 0x20

/-- `SPURIOUS_VECTOR`. -/
def spuriousVector : Nat := 0xFF

/-- `RESCHEDULE_VECTOR`. -/
def rescheduleVector : Nat := 0xF0

/-- `MSIX_VECTOR_BASE`. -/
def msixVectorBase : Nat := 0x30

/-- `MAX_DEVICES`. -/
def maxDevices : Nat := 3

/-- The line of the keyboard. -/
def keyboardLine : Nat := 1

/-- The line of the mouse. -/
def mouseLine : Nat := 12

/-- A write to a register of the I/O APIC. `line` is the line that is routed, if any. -/
structure Write where
  line : Option Nat
  reg : Nat
  val : Nat
  deriving DecidableEq, Repr

/-- The redirection entry of a register. Two registers make an entry. -/
def Write.entry (w : Write) : Nat := (w.reg - 0x10) / 2

/-- Who is called at a vector. -/
inductive Handler where
  | timer
  | keyboard
  | mouse
  | spurious
  | reschedule
  | blk (dev : Nat)
  deriving DecidableEq, Repr

/-! ### What the firmware reports -/

/-- What `enable_completion_irqs` reads of a disk. -/
structure Blk where
  intrLine : Nat
  /-- `setup_msix` gave the disk a vector. -/
  msix : Bool
  deriving DecidableEq, Repr

/-- The hardware as it is reported. -/
structure Firmware where
  /-- The version register of the I/O APIC. -/
  version : Nat
  gsiBase : Nat
  bspId : Nat
  isos : List Iso
  /-- The keyboard and the mouse answer. -/
  keyboard : Bool
  mouse : Bool
  /-- The disks that are up, by index. -/
  devices : Nat → Option Blk

/-- The index of the last redirection entry. -/
def Firmware.maxEntry (fw : Firmware) : Nat := fw.version / 2 ^ 16 % 2 ^ 8

/-! ### Routing -/

/-- The vectors that are installed, the writes to the I/O APIC, and the lines that are unmasked. -/
structure Board where
  handlers : List (Handler × Nat)
  writes : List Write
  lines : List Nat
  deriving DecidableEq, Repr

/-- `set_irq_handler`. -/
def Board.install (b : Board) (h : Handler) (vector : Nat) : Board :=
  { b with handlers := b.handlers ++ [(h, vector)] }

/-- `resolve`: the global system interrupt of a line, and whether it is active low and level. -/
def resolve (fw : Firmware) (line : Nat) : Nat × Bool × Bool :=
  match fw.isos.find? (·.source = line) with
  | some iso => (iso.gsi, iso.activeLow, iso.level)
  | none => (line, false, false)

/-- The low word of an entry. -/
def lowWord (vector : Nat) (activeLow level masked : Bool) : Nat :=
  vector ||| (if activeLow then 1 <<< 13 else 0) ||| (if level then 1 <<< 15 else 0) |||
    (if masked then 1 <<< 16 else 0)

/-- `ioapic_route`: the writes, or a panic. -/
def ioapicRoute (fw : Firmware) (line : Nat) (masked : Bool) : Option (List Write) :=
  let (gsi, activeLow, level) := resolve fw line
  if gsi < fw.gsiBase then some []
  else
    let entry := gsi - fw.gsiBase
    if 2 ^ 32 ≤ 0x11 + 2 * entry then none
    else if 2 ^ 8 ≤ vectorBase + line then none
    else
      some [⟨some line, 0x11 + 2 * entry, fw.bspId <<< 24⟩,
        ⟨some line, 0x10 + 2 * entry, lowWord (vectorBase + line) activeLow level masked⟩]

/-- `unmask`. -/
def unmask (fw : Firmware) (line : Nat) (b : Board) : Option Board :=
  (ioapicRoute fw line false).map fun ws =>
    { b with writes := b.writes ++ ws, lines := b.lines ++ [line] }

/-- The loop of `init_ioapic`: each entry is masked. -/
def initIoapic (fw : Firmware) : List Write :=
  (List.range (fw.maxEntry + 1)).flatMap fun n =>
    [⟨none, 0x10 + 2 * n, 1 <<< 16⟩, ⟨none, 0x11 + 2 * n, 0⟩]

/-- The interrupt table after `interrupts::init` and `irq::init`. -/
def start (fw : Firmware) : Board where
  handlers := [(.timer, vectorBase), (.keyboard, vectorBase + keyboardLine),
    (.mouse, vectorBase + mouseLine), (.spurious, spuriousVector), (.reschedule, rescheduleVector)]
  writes := initIoapic fw
  lines := []

/-- One disk of `enable_completion_irqs`. -/
def enableDisk (fw : Firmware) (b : Board) (dev : Nat) : Option Board :=
  match fw.devices dev with
  | none => some b
  | some d =>
    if d.msix then some (b.install (.blk dev) (msixVectorBase + dev))
    else if 2 ^ 8 ≤ vectorBase + d.intrLine then none
    else
      let vector := vectorBase + d.intrLine
      unmask fw (vector - vectorBase) (b.install (.blk dev) vector)

/-- `enable_completion_irqs`. -/
def enableCompletionIrqs (fw : Firmware) (b : Board) : Option Board :=
  (List.range maxDevices).foldlM (enableDisk fw) b

/-- The end of `keyboard::init` and `mouse::init`: the line is unmasked if the device answers. -/
def unmaskIf (fw : Firmware) (answers : Bool) (line : Nat) (b : Board) : Option Board :=
  if answers then unmask fw line b else some b

/-- The part of the boot that routes interrupts. -/
def wire (fw : Firmware) : Option Board := do
  let b ← unmaskIf fw fw.keyboard keyboardLine (start fw)
  let b ← unmaskIf fw fw.mouse mouseLine b
  enableCompletionIrqs fw b

/-! ### What the boot does -/

variable {fw : Firmware} {b b' : Board} {line other dev : Nat}

/-- The global system interrupt of a line. -/
def gsi (fw : Firmware) (line : Nat) : Nat := (resolve fw line).1

/-- The line is not refused. -/
def Reaches (fw : Firmware) (line : Nat) : Prop := fw.gsiBase ≤ gsi fw line

instance (fw : Firmware) (line : Nat) : Decidable (Reaches fw line) :=
  inferInstanceAs (Decidable (_ ≤ _))

/-- The entry of a line. -/
def entryOf (fw : Firmware) (line : Nat) : Nat := gsi fw line - fw.gsiBase

/-- The low word of the entry of a line that is unmasked. -/
def lineWord (fw : Firmware) (line : Nat) : Nat :=
  lowWord (vectorBase + line) (resolve fw line).2.1 (resolve fw line).2.2 false

/-- The writes of a line that is unmasked. -/
def lineWrites (fw : Firmware) (line : Nat) : List Write :=
  if Reaches fw line then
    [⟨some line, 0x11 + 2 * entryOf fw line, fw.bspId <<< 24⟩,
      ⟨some line, 0x10 + 2 * entryOf fw line, lineWord fw line⟩]
  else []

/-- To unmask the line does not panic. -/
def Fits (fw : Firmware) (line : Nat) : Prop :=
  Reaches fw line → 0x11 + 2 * entryOf fw line < 2 ^ 32 ∧ vectorBase + line < 2 ^ 8

/-- The line of a disk without MSI-X. -/
def intx (fw : Firmware) (dev : Nat) : Option Nat :=
  (fw.devices dev).bind fun d => if d.msix then none else some d.intrLine

/-- The vector of a disk. -/
def diskVector (fw : Firmware) (dev : Nat) : Option Nat :=
  (fw.devices dev).map fun d => if d.msix then msixVectorBase + dev else vectorBase + d.intrLine

/-- The board after more lines and handlers. -/
def Board.add (fw : Firmware) (b : Board) (lines : List Nat) (hs : List (Handler × Nat)) :
    Board where
  handlers := b.handlers ++ hs
  writes := b.writes ++ lines.flatMap (lineWrites fw)
  lines := b.lines ++ lines

/-- What a part of the boot does: under a condition it unmasks lines and installs handlers, and
otherwise it panics. -/
def Stage (fw : Firmware) (run : Board → Option Board) (ok : Prop) (lines : List Nat)
    (hs : List (Handler × Nat)) : Prop :=
  ∀ b b', run b = some b' ↔ (ok ∧ ∀ line ∈ lines, Fits fw line) ∧ b' = b.add fw lines hs

namespace Stage

variable {run next : Board → Option Board} {ok ok' : Prop} {lines lines' : List Nat}
  {hs hs' : List (Handler × Nat)}

theorem skip : Stage fw some True [] [] := by
  intro b b'
  have hadd : b.add fw [] [] = b := by
    cases b
    simp [Board.add]
  rw [hadd, Option.some.injEq]
  constructor
  · rintro rfl
    exact ⟨⟨trivial, nofun⟩, rfl⟩
  · rintro ⟨-, rfl⟩
    rfl

/-- Two parts after each other. -/
theorem comp (h : Stage fw run ok lines hs) (hnext : Stage fw next ok' lines' hs') :
    Stage fw (fun b => run b >>= next) (ok ∧ ok') (lines ++ lines') (hs ++ hs') := by
  intro b b'
  have hadd : (b.add fw lines hs).add fw lines' hs' = b.add fw (lines ++ lines') (hs ++ hs') := by
    simp [Board.add, List.append_assoc]
  show (run b).bind next = some b' ↔ _
  rw [Option.bind_eq_some_iff, List.forall_mem_append, ← hadd]
  constructor
  · rintro ⟨mid, hmid, hend⟩
    obtain ⟨⟨hok, hfits⟩, rfl⟩ := (h b mid).mp hmid
    obtain ⟨⟨hok', hfits'⟩, hb'⟩ := (hnext _ b').mp hend
    exact ⟨⟨⟨hok, hok'⟩, hfits, hfits'⟩, hb'⟩
  · rintro ⟨⟨⟨hok, hok'⟩, hfits, hfits'⟩, hb'⟩
    exact ⟨_, (h b _).mpr ⟨⟨hok, hfits⟩, rfl⟩, (hnext _ b').mpr ⟨⟨hok', hfits'⟩, hb'⟩⟩

theorem congr (h : Stage fw run ok lines hs) (hok : ok ↔ ok') (hlines : lines = lines')
    (hhs : hs = hs') : Stage fw run ok' lines' hs' := by
  subst hlines hhs
  intro b b'
  rw [h b b', hok]

end Stage

theorem ioapicRoute_some {ws : List Write} :
    ioapicRoute fw line false = some ws ↔ Fits fw line ∧ ws = lineWrites fw line := by
  have hroute : ioapicRoute fw line false =
      if gsi fw line < fw.gsiBase then some []
      else if 2 ^ 32 ≤ 0x11 + 2 * entryOf fw line then none
      else if 2 ^ 8 ≤ vectorBase + line then none
      else some [⟨some line, 0x11 + 2 * entryOf fw line, fw.bspId <<< 24⟩,
        ⟨some line, 0x10 + 2 * entryOf fw line, lineWord fw line⟩] := rfl
  rw [hroute]
  unfold Fits lineWrites
  by_cases hreach : Reaches fw line
  · rw [if_neg (Nat.not_lt.mpr hreach), if_pos hreach]
    by_cases hreg : 2 ^ 32 ≤ 0x11 + 2 * entryOf fw line
    · rw [if_pos hreg]
      exact ⟨nofun, fun h => absurd (h.1 hreach).1 (Nat.not_lt.mpr hreg)⟩
    · rw [if_neg hreg]
      by_cases hvector : 2 ^ 8 ≤ vectorBase + line
      · rw [if_pos hvector]
        exact ⟨nofun, fun h => absurd (h.1 hreach).2 (Nat.not_lt.mpr hvector)⟩
      · rw [if_neg hvector, Option.some.injEq]
        exact ⟨fun h => ⟨fun _ => ⟨Nat.not_le.mp hreg, Nat.not_le.mp hvector⟩, h.symm⟩,
          fun h => h.2.symm⟩
  · rw [if_pos (Nat.not_le.mp hreach), if_neg hreach, Option.some.injEq]
    exact ⟨fun h => ⟨fun hno => absurd hno hreach, h.symm⟩, fun h => h.2.symm⟩

theorem stage_unmask (fw : Firmware) (line : Nat) : Stage fw (unmask fw line) True [line] [] := by
  intro b b'
  unfold unmask
  rw [Option.map_eq_some_iff]
  simp only [ioapicRoute_some, List.forall_mem_cons, List.not_mem_nil, false_implies, implies_true,
    and_true, true_and]
  have hadd : b.add fw [line] [] =
      { b with writes := b.writes ++ lineWrites fw line, lines := b.lines ++ [line] } := by
    simp [Board.add]
  rw [hadd]
  constructor
  · rintro ⟨ws, ⟨hfits, rfl⟩, rfl⟩
    exact ⟨hfits, rfl⟩
  · rintro ⟨hfits, rfl⟩
    exact ⟨_, ⟨hfits, rfl⟩, rfl⟩

/-- A part that runs only if a device answers. -/
theorem stage_if (fw : Firmware) (answers : Bool) (line : Nat) :
    Stage fw (unmaskIf fw answers line) True
      (if answers then [line] else []) [] := by
  cases answers with
  | true => exact stage_unmask fw line
  | false => exact Stage.skip

theorem stage_install (fw : Firmware) (h : Handler) (vector : Nat) :
    Stage fw (fun b => some (b.install h vector)) True [] [(h, vector)] := by
  intro b b'
  have hadd : b.add fw [] [(h, vector)] = b.install h vector := by
    simp [Board.add, Board.install]
  rw [hadd, Option.some.injEq]
  constructor
  · rintro rfl
    exact ⟨⟨trivial, nofun⟩, rfl⟩
  · rintro ⟨-, rfl⟩
    rfl

/-- A disk with MSI-X has a vector and no line. The vector of a line can pass a byte. -/
theorem stage_disk (fw : Firmware) (dev : Nat) :
    Stage fw (fun b => enableDisk fw b dev) (∀ line ∈ intx fw dev, vectorBase + line < 2 ^ 8)
      (intx fw dev).toList ((diskVector fw dev).toList.map fun v => (.blk dev, v)) := by
  unfold enableDisk intx diskVector
  cases fw.devices dev with
  | none => exact Stage.skip.congr (by simp) rfl rfl
  | some d =>
    cases hmsix : d.msix with
    | true =>
      simp only [hmsix, if_true, Option.bind_some, Option.map_some]
      exact (stage_install fw _ _).congr (by simp) rfl rfl
    | false =>
      simp only [hmsix, Option.bind_some, Option.map_some, Bool.false_eq_true, if_false]
      have hstage := (stage_install fw (.blk dev) (vectorBase + d.intrLine)).comp
        (stage_unmask fw (vectorBase + d.intrLine - vectorBase))
      rw [Nat.add_sub_cancel_left] at hstage
      intro b b'
      rw [Nat.add_sub_cancel_left]
      dsimp only
      by_cases hvector : 2 ^ 8 ≤ vectorBase + d.intrLine
      · rw [if_pos hvector]
        exact ⟨nofun, fun h => absurd (h.1.1 _ rfl) (Nat.not_lt.mpr hvector)⟩
      · rw [if_neg hvector]
        exact hstage.congr (by simpa using hvector) rfl rfl b b'

theorem stage_disks (fw : Firmware) (devs : List Nat) :
    Stage fw (fun b => devs.foldlM (enableDisk fw) b)
      (∀ dev ∈ devs, ∀ line ∈ intx fw dev, vectorBase + line < 2 ^ 8)
      (devs.flatMap fun dev => (intx fw dev).toList)
      (devs.flatMap fun dev => (diskVector fw dev).toList.map fun v => (.blk dev, v)) := by
  induction devs with
  | nil => exact Stage.skip.congr (by simp) rfl rfl
  | cons dev devs ih =>
    simp only [List.foldlM_cons, List.flatMap_cons]
    exact ((stage_disk fw dev).comp ih).congr (by rw [List.forall_mem_cons]) rfl rfl

/-- The lines that the boot unmasks. -/
def linesOf (fw : Firmware) : List Nat :=
  (if fw.keyboard then [keyboardLine] else []) ++ ((if fw.mouse then [mouseLine] else []) ++
    (List.range maxDevices).flatMap fun dev => (intx fw dev).toList)

/-- The vectors of the disks. -/
def diskHandlers (fw : Firmware) : List (Handler × Nat) :=
  (List.range maxDevices).flatMap fun dev => (diskVector fw dev).toList.map fun v => (.blk dev, v)

/-- The lines of the disks have vectors. -/
def LinesFit (fw : Firmware) : Prop :=
  ∀ dev < maxDevices, ∀ line ∈ intx fw dev, vectorBase + line < 2 ^ 8

/-- What the boot does, when it does not panic. -/
theorem wire_some (fw : Firmware) (b : Board) :
    wire fw = some b ↔ (LinesFit fw ∧ ∀ line ∈ linesOf fw, Fits fw line) ∧
      b = (start fw).add fw (linesOf fw) (diskHandlers fw) := by
  have hdisks := stage_disks fw (List.range maxDevices)
  have hall := (stage_if fw fw.keyboard keyboardLine).comp
    ((stage_if fw fw.mouse mouseLine).comp hdisks)
  have hok : (True ∧ True ∧ ∀ dev ∈ List.range maxDevices, ∀ line ∈ intx fw dev,
      vectorBase + line < 2 ^ 8) ↔ LinesFit fw := by
    simp only [true_and, List.mem_range]
    rfl
  exact hall.congr hok rfl rfl (start fw) b

/-! ### What routing should do -/

/-- The vector of a device that has a line, of a disk, or of a spurious interrupt. -/
def deviceVector : Handler × Nat → Option Nat
  | (.keyboard, v) => some v
  | (.mouse, v) => some v
  | (.spurious, v) => some v
  | (.blk _, v) => some v
  | _ => none

/-- An entry delivers the line to its vector. -/
def Programmed (fw : Firmware) (b : Board) (line : Nat) : Prop :=
  ∃ e ≤ fw.maxEntry, ∃ low, low % 2 ^ 8 = vectorBase + line ∧ low / 2 ^ 16 % 2 = 0 ∧
    ⟨some line, 0x11 + 2 * e, fw.bspId <<< 24⟩ ∈ b.writes ∧
    ⟨some line, 0x10 + 2 * e, low⟩ ∈ b.writes

/-- The lines have entries that exist and are their own, or no register is written for them. The
vectors of the devices are distinct. -/
structure Sound (fw : Firmware) (b : Board) : Prop where
  entries : ∀ w ∈ b.writes, 0x10 ≤ w.reg ∧ w.entry ≤ fw.maxEntry
  apart : ∀ w ∈ b.writes, ∀ w' ∈ b.writes, ∀ line other, w.line = some line →
    w'.line = some other → line ≠ other → w.entry ≠ w'.entry
  routed : ∀ line ∈ b.lines, Programmed fw b line ∨ ∀ w ∈ b.writes, w.line ≠ some line
  vectors : (b.handlers.filterMap deviceVector).Nodup

/-- The disk has a vector of its own. -/
def HasMsix (fw : Firmware) (dev : Nat) : Prop := ∃ d ∈ fw.devices dev, d.msix = true

/-- The firmware that the kernel can route. -/
structure Routable (fw : Firmware) : Prop where
  linesFit : LinesFit fw
  /-- A line that is not refused has an entry that exists. -/
  entries : ∀ line ∈ linesOf fw, Reaches fw line → entryOf fw line ≤ fw.maxEntry
  /-- Two lines that are not refused have different interrupts. -/
  apart : ∀ line ∈ linesOf fw, ∀ other ∈ linesOf fw, line ≠ other → Reaches fw line →
    Reaches fw other → gsi fw line ≠ gsi fw other
  /-- The line of a disk is not that of the keyboard or the mouse, and not at the spurious
  vector. -/
  fixed : ∀ dev < maxDevices, ∀ line ∈ intx fw dev,
    line ≠ keyboardLine ∧ line ≠ mouseLine ∧ vectorBase + line ≠ spuriousVector
  disks : ∀ dev < maxDevices, ∀ dev' < maxDevices, dev ≠ dev' →
    ∀ line ∈ intx fw dev, ∀ other ∈ intx fw dev', line ≠ other
  /-- The line of a disk is not at the vector of another disk. -/
  msix : ∀ dev < maxDevices, ∀ dev' < maxDevices, HasMsix fw dev' →
    ∀ line ∈ intx fw dev, vectorBase + line ≠ msixVectorBase + dev'

/-! ### Writes -/

theorem lineWrites_reaches (h : Reaches fw line) : lineWrites fw line =
    [⟨some line, 0x11 + 2 * entryOf fw line, fw.bspId <<< 24⟩,
      ⟨some line, 0x10 + 2 * entryOf fw line, lineWord fw line⟩] := if_pos h

theorem lineWrites_refused (h : ¬ Reaches fw line) : lineWrites fw line = [] := if_neg h

/-- A write of a line is to one of the two registers of its entry. -/
theorem mem_lineWrites {w : Write} (h : w ∈ lineWrites fw line) :
    Reaches fw line ∧ w.line = some line ∧ 0x10 ≤ w.reg ∧ w.entry = entryOf fw line := by
  by_cases hreach : Reaches fw line
  · rw [lineWrites_reaches hreach, List.mem_pair] at h
    rcases h with rfl | rfl
    · refine ⟨hreach, rfl, ?_, ?_⟩
      · show 0x10 ≤ 0x11 + 2 * entryOf fw line
        omega
      · show (0x11 + 2 * entryOf fw line - 0x10) / 2 = entryOf fw line
        omega
    · refine ⟨hreach, rfl, ?_, ?_⟩
      · show 0x10 ≤ 0x10 + 2 * entryOf fw line
        omega
      · show (0x10 + 2 * entryOf fw line - 0x10) / 2 = entryOf fw line
        omega
  · rw [lineWrites_refused hreach] at h
    cases h

theorem mem_initIoapic {w : Write} (h : w ∈ initIoapic fw) :
    w.line = none ∧ 0x10 ≤ w.reg ∧ w.entry ≤ fw.maxEntry := by
  obtain ⟨n, hn, hw⟩ := List.mem_flatMap.mp h
  rw [List.mem_range] at hn
  rw [List.mem_pair] at hw
  rcases hw with rfl | rfl
  · refine ⟨rfl, ?_, ?_⟩
    · show 0x10 ≤ 0x10 + 2 * n
      omega
    · show (0x10 + 2 * n - 0x10) / 2 ≤ fw.maxEntry
      omega
  · refine ⟨rfl, ?_, ?_⟩
    · show 0x10 ≤ 0x11 + 2 * n
      omega
    · show (0x11 + 2 * n - 0x10) / 2 ≤ fw.maxEntry
      omega

/-- The low word has the vector, and it is not masked. -/
theorem lowWord_fields {v : Nat} (h : v < 2 ^ 8) (activeLow level : Bool) :
    lowWord v activeLow level false % 2 ^ 8 = v ∧
      lowWord v activeLow level false / 2 ^ 16 % 2 = 0 := by
  have hall : ∀ v < 2 ^ 8, ∀ activeLow level, lowWord v activeLow level false % 2 ^ 8 = v ∧
      lowWord v activeLow level false / 2 ^ 16 % 2 = 0 := by
    decide +kernel
  exact hall v h activeLow level

/-- The board at the end of the boot. -/
def wired (fw : Firmware) : Board := (start fw).add fw (linesOf fw) (diskHandlers fw)

theorem mem_wired {w : Write} : w ∈ (wired fw).writes ↔
    w ∈ initIoapic fw ∨ ∃ line ∈ linesOf fw, w ∈ lineWrites fw line := by
  show w ∈ initIoapic fw ++ (linesOf fw).flatMap (lineWrites fw) ↔ _
  rw [List.mem_append, List.mem_flatMap]

/-- A write of a line comes from the routing of that line. -/
theorem mem_wired_line {w : Write} (h : w ∈ (wired fw).writes) (hline : w.line = some line) :
    line ∈ linesOf fw ∧ w ∈ lineWrites fw line := by
  rcases mem_wired.mp h with hinit | ⟨l, hl, hw⟩
  · rw [(mem_initIoapic hinit).1] at hline
    cases hline
  · rw [(mem_lineWrites hw).2.1, Option.some.injEq] at hline
    rw [← hline]
    exact ⟨hl, hw⟩

theorem lines_wired (fw : Firmware) : (wired fw).lines = linesOf fw := List.nil_append _

/-! ### Vectors -/

/-- The vectors of the devices: three that are fixed, and those of the disks. -/
theorem vectors_wired (fw : Firmware) : (wired fw).handlers.filterMap deviceVector =
    [vectorBase + keyboardLine, vectorBase + mouseLine, spuriousVector] ++
      (List.range maxDevices).flatMap fun dev => (diskVector fw dev).toList := by
  show ((start fw).handlers ++ diskHandlers fw).filterMap deviceVector = _
  rw [List.filterMap_append]
  congr 1
  unfold diskHandlers
  rw [List.filterMap_flatMap]
  refine List.flatMap_congr fun dev _ => ?_
  rw [List.filterMap_map]
  cases diskVector fw dev with
  | none => rfl
  | some v => rfl

theorem mem_diskVector {v : Nat} : v ∈ diskVector fw dev ↔
    (∃ line ∈ intx fw dev, v = vectorBase + line) ∨ HasMsix fw dev ∧ v = msixVectorBase + dev := by
  unfold diskVector intx HasMsix
  cases fw.devices dev with
  | none => simp
  | some d =>
    cases hmsix : d.msix with
    | true => simp [hmsix, @eq_comm Nat v]
    | false => simp [hmsix, @eq_comm Nat v]

/-- The vectors are distinct when those of each disk are apart from the fixed ones and from those of
the other disks. -/
theorem vectors_nodup (fw : Firmware) : ((wired fw).handlers.filterMap deviceVector).Nodup ↔
    (∀ dev < maxDevices, ∀ v ∈ diskVector fw dev,
      v ≠ vectorBase + keyboardLine ∧ v ≠ vectorBase + mouseLine ∧ v ≠ spuriousVector) ∧
    ∀ dev < maxDevices, ∀ dev' < maxDevices, dev ≠ dev' →
      ∀ v ∈ diskVector fw dev, ∀ v' ∈ diskVector fw dev', v ≠ v' := by
  have hfixed : [vectorBase + keyboardLine, vectorBase + mouseLine, spuriousVector].Nodup := by
    decide
  have hone : ∀ dev ∈ List.range maxDevices, (diskVector fw dev).toList.Nodup := by
    intro dev _
    cases diskVector fw dev with
    | none => exact List.nodup_nil
    | some v => exact List.nodup_singleton v
  rw [vectors_wired, List.nodup_append, List.nodup_flatMap]
  constructor
  · rintro ⟨-, ⟨-, hapart⟩, hout⟩
    constructor
    · intro dev hdev v hv
      have hmem : v ∈ (List.range maxDevices).flatMap fun dev => (diskVector fw dev).toList :=
        List.mem_flatMap.mpr ⟨dev, List.mem_range.mpr hdev, Option.mem_toList.mpr hv⟩
      exact ⟨(hout _ (by simp) v hmem).symm, (hout _ (by simp) v hmem).symm,
        (hout _ (by simp) v hmem).symm⟩
    · intro dev hdev dev' hdev' hne v hv v' hv' heq
      rw [← heq] at hv'
      have hsymm : Std.Symm (Function.onFun List.Disjoint fun dev =>
          (diskVector fw dev).toList) := ⟨fun _ _ h => h.symm⟩
      have hdisjoint := hapart.forall (List.mem_range.mpr hdev) (List.mem_range.mpr hdev') hne
      exact hdisjoint (Option.mem_toList.mpr hv) (Option.mem_toList.mpr hv')
  · rintro ⟨hout, hapart⟩
    refine ⟨hfixed, ⟨hone, List.nodup_range.pairwise_of_forall_ne ?_⟩, ?_⟩
    · intro dev hdev dev' hdev' hne v hv hv'
      exact hapart dev (List.mem_range.mp hdev) dev' (List.mem_range.mp hdev') hne v
        (Option.mem_toList.mp hv) v (Option.mem_toList.mp hv') rfl
    · intro f hf v hmem heq
      obtain ⟨dev, hdev, hv⟩ := List.mem_flatMap.mp hmem
      obtain ⟨hk, hm, hs⟩ := hout dev (List.mem_range.mp hdev) v (Option.mem_toList.mp hv)
      rw [← heq] at hk hm hs
      simp only [List.mem_cons, List.not_mem_nil, or_false] at hf
      rcases hf with h | h | h
      · exact hk h
      · exact hm h
      · exact hs h

/-! ### The firmware that is routed -/

/-- The lines of the board: that of the keyboard, that of the mouse, and those of the disks. -/
theorem mem_linesOf : line ∈ linesOf fw ↔ fw.keyboard = true ∧ line = keyboardLine ∨
    fw.mouse = true ∧ line = mouseLine ∨ ∃ dev < maxDevices, line ∈ intx fw dev := by
  unfold linesOf
  rw [List.mem_append, List.mem_append, List.mem_flatMap]
  simp only [List.mem_range, Option.mem_toList]
  cases fw.keyboard <;> cases fw.mouse <;> simp

/-- The vector of a line is a byte. -/
theorem vector_lt (hfit : LinesFit fw) (h : line ∈ linesOf fw) : vectorBase + line < 2 ^ 8 := by
  rcases mem_linesOf.mp h with ⟨-, rfl⟩ | ⟨-, rfl⟩ | ⟨dev, hdev, hline⟩
  · decide
  · decide
  · exact hfit dev hdev line hline

theorem entry_ne (hline : Reaches fw line) (hother : Reaches fw other) :
    entryOf fw line ≠ entryOf fw other ↔ gsi fw line ≠ gsi fw other := by
  unfold Reaches at hline hother
  unfold entryOf
  omega

theorem Routable.fits (h : Routable fw) (hline : line ∈ linesOf fw) : Fits fw line := by
  intro hreach
  have hentry := h.entries line hline hreach
  have hmax : fw.maxEntry < 2 ^ 8 := Nat.mod_lt _ (by decide)
  exact ⟨by omega, vector_lt h.linesFit hline⟩

theorem Routable.sound (h : Routable fw) : Sound fw (wired fw) where
  entries w hw := by
    rcases mem_wired.mp hw with hinit | ⟨line, hline, hlw⟩
    · exact (mem_initIoapic hinit).2
    · obtain ⟨hreach, -, hreg, hentry⟩ := mem_lineWrites hlw
      rw [hentry]
      exact ⟨hreg, h.entries line hline hreach⟩
  apart w hw w' hw' line other hline hother hne := by
    obtain ⟨hl, hlw⟩ := mem_wired_line hw hline
    obtain ⟨ho, how⟩ := mem_wired_line hw' hother
    obtain ⟨hreach, -, -, hentry⟩ := mem_lineWrites hlw
    obtain ⟨hreach', -, -, hentry'⟩ := mem_lineWrites how
    rw [hentry, hentry']
    exact (entry_ne hreach hreach').mpr (h.apart line hl other ho hne hreach hreach')
  routed line hline := by
    rw [lines_wired] at hline
    by_cases hreach : Reaches fw line
    · obtain ⟨hvector, hmasked⟩ := lowWord_fields (vector_lt h.linesFit hline)
        (resolve fw line).2.1 (resolve fw line).2.2
      refine Or.inl ⟨entryOf fw line, h.entries line hline hreach, lineWord fw line, hvector,
        hmasked, ?_, ?_⟩
      · refine mem_wired.mpr (Or.inr ⟨line, hline, ?_⟩)
        rw [lineWrites_reaches hreach]
        exact List.mem_cons_self ..
      · refine mem_wired.mpr (Or.inr ⟨line, hline, ?_⟩)
        rw [lineWrites_reaches hreach]
        exact List.mem_cons_of_mem _ (List.mem_cons_self ..)
    · refine Or.inr fun w hw hl => ?_
      exact hreach (mem_lineWrites (mem_wired_line hw hl).2).1
  vectors := by
    rw [vectors_nodup]
    constructor
    · intro dev hdev v hv
      rcases mem_diskVector.mp hv with ⟨line, hline, rfl⟩ | ⟨-, rfl⟩
      · obtain ⟨hk, hm, hs⟩ := h.fixed dev hdev line hline
        exact ⟨by omega, by omega, hs⟩
      · -- The vectors of the disks with MSI-X lie between that of the mouse and the spurious one.
        unfold maxDevices at hdev
        unfold msixVectorBase vectorBase keyboardLine mouseLine spuriousVector
        omega
    · intro dev hdev dev' hdev' hne v hv v' hv'
      rcases mem_diskVector.mp hv with ⟨line, hline, rfl⟩ | ⟨hmsix, rfl⟩
      · rcases mem_diskVector.mp hv' with ⟨other, hother, rfl⟩ | ⟨hmsix', rfl⟩
        · have hlines := h.disks dev hdev dev' hdev' hne line hline other hother
          omega
        · exact h.msix dev hdev dev' hdev' hmsix' line hline
      · rcases mem_diskVector.mp hv' with ⟨other, hother, rfl⟩ | ⟨-, rfl⟩
        · exact (h.msix dev' hdev' dev hdev hmsix other hother).symm
        · omega

theorem Sound.routable (hfit : LinesFit fw) (h : Sound fw (wired fw)) : Routable fw := by
  obtain ⟨hfixed, hapart⟩ := (vectors_nodup fw).mp h.vectors
  have hwrite : ∀ line ∈ linesOf fw, Reaches fw line →
      ∃ w ∈ (wired fw).writes, w.line = some line ∧ w.entry = entryOf fw line := by
    intro line hline hreach
    refine ⟨⟨some line, 0x10 + 2 * entryOf fw line, lineWord fw line⟩,
      mem_wired.mpr (Or.inr ⟨line, hline, ?_⟩), rfl, ?_⟩
    · rw [lineWrites_reaches hreach]
      exact List.mem_cons_of_mem _ (List.mem_cons_self ..)
    · show (0x10 + 2 * entryOf fw line - 0x10) / 2 = entryOf fw line
      omega
  refine ⟨hfit, ?_, ?_, ?_, ?_, ?_⟩
  · intro line hline hreach
    obtain ⟨w, hw, -, hentry⟩ := hwrite line hline hreach
    rw [← hentry]
    exact (h.entries w hw).2
  · intro line hline other hother hne hreach hreach'
    obtain ⟨w, hw, hwl, hentry⟩ := hwrite line hline hreach
    obtain ⟨w', hw', hwl', hentry'⟩ := hwrite other hother hreach'
    have hentries := h.apart w hw w' hw' line other hwl hwl' hne
    rw [hentry, hentry', entry_ne hreach hreach'] at hentries
    exact hentries
  · intro dev hdev line hline
    obtain ⟨hk, hm, hs⟩ := hfixed dev hdev _ (mem_diskVector.mpr (Or.inl ⟨line, hline, rfl⟩))
    exact ⟨by omega, by omega, hs⟩
  · intro dev hdev dev' hdev' hne line hline other hother heq
    refine hapart dev hdev dev' hdev' hne _ (mem_diskVector.mpr (Or.inl ⟨line, hline, rfl⟩)) _
      (mem_diskVector.mpr (Or.inl ⟨other, hother, rfl⟩)) (by rw [heq])
  · intro dev hdev dev' hdev' hmsix line hline
    -- A disk with MSI-X has no line, so it is another disk.
    have hne : dev ≠ dev' := by
      rintro rfl
      obtain ⟨d, hd, htrue⟩ := hmsix
      unfold intx at hline
      rw [Option.mem_def.mp hd, Option.bind_some, if_pos htrue] at hline
      cases hline
    exact hapart dev hdev dev' hdev' hne _ (mem_diskVector.mpr (Or.inl ⟨line, hline, rfl⟩)) _
      (mem_diskVector.mpr (Or.inr ⟨hmsix, rfl⟩))

/-- An I/O APIC with 24 entries, and a disk whose line register says that there is none. -/
def unconnected : Firmware where
  version := 23 <<< 16
  gsiBase := 0
  bspId := 0
  isos := []
  keyboard := true
  mouse := true
  devices dev := if dev = 0 then some ⟨0xFF, false⟩ else none

end Irq

end Plinth
