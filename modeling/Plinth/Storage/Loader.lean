import Plinth.BlockIo
import Plinth.Common.Procedure
import Plinth.Storage.Archive

/-!
# `Plinth.Storage.Loader`: a program out of the archive

`spawn_from_archive` of `libfs/src/load.rs`. The loader reads the superblock and the directory into
one scratch frame, looks the program up there, reads it into a run of frames, and hands that run to
the kernel. All numbers on the disk are untrusted.

Memory is a map from addresses to cells. A cell has the byte, and the byte of the disk that this
call has transferred there, if any; the machine has no such mark. A look is a part of memory that
the loader searches as the directory, or hands over as the image.

The loader checks the number of the directory's sectors, but not that the entries lie in them.
`looks_fetched_iff` says that every byte that it looks at was fetched by this call exactly if they
do.
-/

set_option autoImplicit false

namespace Plinth.Archive

open Bytes Procedure

/-! ### Memory -/

/-- `PAGE_SIZE`. -/
def pageSize : Nat := 4096

/-- `SYS_ERR`. -/
def sysErr : UInt64 := 0xFFFFFFFFFFFFFFFF

/-- `SECTORS_PER_FRAME`. -/
def sectorsPerFrame : Nat := 8

/-- `MAX_PROG_PAGES`. -/
def maxProgPages : Nat := 64

/-- `SCRATCH_VA`, which is `MAP_BASE`. -/
def scratchVa : Nat := 0x10000000

/-- `PROG_VA`. -/
def progVa : Nat := scratchVa + pageSize

/-- A byte of memory, and the byte of the disk that this call has transferred there. -/
structure Cell where
  byte : UInt8
  source : Option Nat
  deriving DecidableEq, Repr

/-- The mapped bytes. -/
abbrev Memory := Nat → Option Cell

/-- Map a frame at `va`. Its bytes are those of `fresh`. -/
def mapFrame (mem : Memory) (va : Nat) (fresh : Nat → UInt8) : Memory := fun a =>
  if va ≤ a ∧ a < va + pageSize then some ⟨fresh (a - va), none⟩ else mem a

/-- Transfer `count` sectors of the disk to `va`. -/
def transfer (mem : Memory) (disk : Nat → UInt8) (va first count : Nat) : Memory := fun a =>
  if va ≤ a ∧ a < va + count * sector then
    some ⟨disk (first * sector + (a - va)), some (first * sector + (a - va))⟩
  else mem a

/-- The bytes from `va`, if they are all mapped. -/
@[irreducible] def bytesAt (mem : Memory) (va len : Nat) : Option (List UInt8) :=
  if ∀ i < len, (mem (va + i)).isSome then
    some ((List.range len).map fun i => ((mem (va + i)).map Cell.byte).getD 0)
  else none

/-- A part of memory that the loader looks at, as memory is then. -/
structure Look where
  mem : Memory
  va : Nat
  len : Nat

/-- Every byte is mapped, and this call has transferred it from the disk. -/
def Look.Fetched (disk : Nat → UInt8) (l : Look) : Prop :=
  ∀ i < l.len, ∃ pos, l.mem (l.va + i) = some ⟨disk pos, some pos⟩

/-! ### The loader -/

/-- What the kernel answers: the results of `sys_frame_alloc` and `sys_frame_map`, the statuses of
the reads whose count is right, and the result of `sys_spawn_from_buffer`. The numbers count the
calls. `disk` is the range, and `fresh` what a new frame holds. -/
structure World where
  disk : Nat → UInt8
  fresh : Nat → UInt8
  frame : Nat → UInt64
  map : Nat → UInt64
  status : Nat → Nat
  spawn : List UInt8 → UInt64

/-- Why the loader stops: it returns a diagnostic, or it touches a page that is not mapped. -/
inductive Stop where
  | error (text : String)
  | fault
  deriving DecidableEq, Repr

/-- The loader: memory, the number of frames and of reads so far, what it looked at, and why it
stopped. -/
structure Session where
  mem : Memory
  frames : Nat
  reads : Nat
  looks : List Look
  stop : Option Stop

/-- `FsError::as_str`. -/
def FsError.text : FsError → String
  | truncated => "archive: superblock truncated"
  | badMagic => "archive: bad magic"
  | dirTruncated => "archive: directory truncated"
  | dirOverflow => "archive: directory size overflow"
  | notFound => "archive: program not found"

/-- Stop. -/
def halt {α : Type} (why : Stop) : Proc Session α :=
  act (fun s => { s with stop := some why }) >>= fun _ => giveUp

/-- Return the diagnostic unless the condition holds. -/
def check (c : Prop) [Decidable c] (text : String) : Proc Session Unit :=
  if c then pure () else halt (.error text)

/-- The value, or its error as the diagnostic. -/
def orText {α : Type} : Except FsError α → Proc Session α
  | .ok a => pure a
  | .error e => halt (.error e.text)

/-- `alloc_mapped`. -/
def allocMapped (w : World) (va : Nat) : Proc Session Unit := do
  let k ← ask Session.frames
  act fun s => { s with frames := k + 1 }
  check (w.frame k ≠ sysErr) "archive: frame_alloc failed"
  check (w.map k = 0) "archive: frame_map failed"
  act fun s => { s with mem := mapFrame s.mem va w.fresh }

/-- `sys_block_read` into the frame at `va`. The kernel refuses a count that is zero or more than a
frame. -/
def blockRead (w : World) (va first count : Nat) : Proc Session Nat := do
  let k ← ask Session.reads
  act fun s => { s with reads := k + 1 }
  let status := if badCount count then blkEBadArg else w.status k
  act fun s =>
    if status = blkOk then { s with mem := transfer s.mem w.disk va first count } else s
  pure status

/-- Read a part of memory. -/
def view (va len : Nat) : Proc Session (List UInt8) := do
  let bytes ← ask fun s => bytesAt s.mem va len
  match bytes with
  | some bytes => pure bytes
  | none => halt .fault

/-- The loop of `find` over the records in memory, with `n` of them left, the next one at `va`. The
result is `none` if a record is not mapped. -/
def findAt (mem : Memory) (name : List UInt8) : (n va : Nat) → Option (Option Entry)
  | 0, _ => some none
  | n + 1, va =>
    match bytesAt mem va entrySize with
    | none => none
    | some bytes =>
      match record bytes 0 with
      | some r => if nameEq r.1 name then some (some r.2) else findAt mem name n (va + entrySize)
      | none => findAt mem name n (va + entrySize)

/-- Look at a part of memory. -/
def look (va len : Nat) : Proc Session Memory := do
  act fun s => { s with looks := s.looks ++ [⟨s.mem, va, len⟩] }
  ask Session.mem

/-- The superblock and the sectors of the directory. -/
def openArchive (w : World) : Proc Session Superblock := do
  allocMapped w scratchVa
  let status ← blockRead w scratchVa 0 1
  check (status = blkOk) "archive: superblock read failed"
  let sec0 ← view scratchVa sector
  let sb ← orText (parseSuperblock sec0)
  check (sb.dirSectors ≤ sectorsPerFrame) "archive: directory too large for the boot loader"
  let status ← blockRead w scratchVa 1 sb.dirSectors
  check (status = blkOk) "archive: directory read failed"
  pure sb

/-- The entry of the program. -/
def lookUp (sb : Superblock) (name : List UInt8) : Proc Session Entry := do
  let len ← orText sb.dirBytesLen
  let mem ← look scratchVa len
  match findAt mem name sb.entryCount scratchVa with
  | none => halt .fault
  | some none => halt (.error FsError.notFound.text)
  | some (some entry) => pure entry

/-- The loop over the pages of the program, with `n` of them left. -/
def readPages (w : World) (entry : Entry) : (n i remaining : Nat) → Proc Session Unit
  | 0, _, _ => pure ()
  | n + 1, i, remaining => do
    allocMapped w (progVa + i * pageSize)
    let status ← blockRead w (progVa + i * pageSize) (entry.firstSector + i * sectorsPerFrame)
      (min remaining sectorsPerFrame)
    check (status = blkOk) "archive: program read failed"
    readPages w entry n (i + 1) (remaining - min remaining sectorsPerFrame)

/-- `byte_len.div_ceil(PAGE_SIZE)`. -/
def Entry.pages (e : Entry) : Nat := (e.byteLen + 4095) / 4096

/-- Read the program and hand it over. -/
def launch (w : World) (entry : Entry) : Proc Session UInt64 := do
  check (entry.pages ≠ 0 ∧ entry.pages ≤ maxProgPages) "archive: program size out of range"
  readPages w entry entry.pages 0 entry.sectorCount
  let mem ← look progVa entry.byteLen
  let handle := ((bytesAt mem progVa entry.byteLen).map w.spawn).getD sysErr
  check (handle ≠ sysErr) "archive: spawn_from_buffer failed"
  pure handle

/-- `spawn_from_archive`. -/
def spawnFromArchive (w : World) (name : List UInt8) : Proc Session UInt64 := do
  let sb ← openArchive w
  let entry ← lookUp sb name
  launch w entry

/-- The state before the call. -/
def Session.start (bytes : Nat → Option UInt8) : Session where
  mem := fun a => (bytes a).map fun b => ⟨b, none⟩
  frames := 0
  reads := 0
  looks := []
  stop := none

/-- The first sector of the disk. -/
def World.sector0 (w : World) : List UInt8 := (List.range sector).map w.disk

/-- The loader gets as far as the directory: the system calls before succeed, and the superblock is
one that it takes. -/
structure World.Opens (w : World) (sb : Superblock) : Prop where
  frame : w.frame 0 ≠ sysErr
  map : w.map 0 = 0
  superblock : w.status 0 = blkOk
  parsed : parseSuperblock w.sector0 = .ok sb
  sectors : 0 < sb.dirSectors ∧ sb.dirSectors ≤ sectorsPerFrame
  directory : w.status 1 = blkOk

/-! ### Rules -/

section
variable {α : Type} {P : Session → Prop} {E : Session → Prop}

theorem triple_halt {Q : α → Session → Prop} {why : Stop}
    (h : ∀ s, P s → E { s with stop := some why }) : Triple P (halt why) Q E :=
  Triple.bind (Q := fun _ => E) (Triple.act h) fun _ => Triple.giveUp fun _ hs => hs

theorem triple_check {c : Prop} [Decidable c] {text : String} {Q : Unit → Session → Prop}
    (h : ∀ s, c → P s → Q () s)
    (hnot : ∀ s, ¬ c → P s → E { s with stop := some (.error text) }) :
    Triple P (check c text) Q E := by
  unfold check
  exact Triple.ite (fun hc => Triple.pure fun s hs => h s hc hs) fun hc =>
    triple_halt fun s hs => hnot s hc hs

theorem triple_orText {r : Except FsError α} {Q : α → Session → Prop}
    (h : ∀ a s, r = .ok a → P s → Q a s)
    (hnot : ∀ e s, r = .error e → P s → E { s with stop := some (.error e.text) }) :
    Triple P (orText r) Q E := by
  cases r with
  | ok a => exact Triple.pure fun s hs => h a s rfl hs
  | error e => exact triple_halt fun s hs => hnot e s rfl hs

/-- A new frame at `va`. -/
theorem triple_allocMapped {w : World} {va : Nat} {Q : Unit → Session → Prop}
    (h : ∀ s, P s → w.frame s.frames ≠ sysErr → w.map s.frames = 0 →
      Q () { s with frames := s.frames + 1, mem := mapFrame s.mem va w.fresh })
    (hnot : ∀ s why, P s → w.frame s.frames = sysErr ∨ w.map s.frames ≠ 0 →
      E { s with frames := s.frames + 1, stop := some why }) :
    Triple P (allocMapped w va) Q E := by
  refine Triple.bind (Q := fun k s => P s ∧ k = s.frames)
    (Triple.ask fun s hs => ⟨hs, rfl⟩) fun k => ?_
  refine Triple.bind (Q := fun _ t => ∃ s, P s ∧ k = s.frames ∧ t = { s with frames := k + 1 })
    (Triple.act fun s hs => ⟨s, hs.1, hs.2, rfl⟩) fun _ => ?_
  refine Triple.bind (Q := fun _ t => w.frame k ≠ sysErr ∧
    ∃ s, P s ∧ k = s.frames ∧ t = { s with frames := k + 1 })
    (triple_check (fun t hc ht => ⟨hc, ht⟩) ?_) fun _ => ?_
  · rintro t hc ⟨s, hs, rfl, rfl⟩
    exact hnot s _ hs (Or.inl (Decidable.not_not.mp hc))
  refine Triple.bind (Q := fun _ t => w.map k = 0 ∧ w.frame k ≠ sysErr ∧
    ∃ s, P s ∧ k = s.frames ∧ t = { s with frames := k + 1 })
    (triple_check (fun t hc ht => ⟨hc, ht⟩) ?_) fun _ => ?_
  · rintro t hc ⟨-, s, hs, rfl, rfl⟩
    exact hnot s _ hs (Or.inr hc)
  refine Triple.act ?_
  rintro t ⟨hmap, hframe, s, hs, rfl, rfl⟩
  exact h s hs hframe hmap

/-- A read into the frame at `va`. -/
theorem triple_blockRead {w : World} {va first count : Nat} {Q : Nat → Session → Prop}
    (h : ∀ s, P s → badCount count = false → w.status s.reads = blkOk →
      Q blkOk { s with reads := s.reads + 1, mem := transfer s.mem w.disk va first count })
    (hnot : ∀ s status, P s → status ≠ blkOk →
      badCount count = true ∨ w.status s.reads ≠ blkOk →
      Q status { s with reads := s.reads + 1 }) :
    Triple P (blockRead w va first count) Q E := by
  refine Triple.bind (Q := fun k s => P s ∧ k = s.reads)
    (Triple.ask fun s hs => ⟨hs, rfl⟩) fun k => ?_
  refine Triple.bind (Q := fun _ t => ∃ s, P s ∧ k = s.reads ∧ t = { s with reads := k + 1 })
    (Triple.act fun s hs => ⟨s, hs.1, hs.2, rfl⟩) fun _ => ?_
  refine Triple.bind (Q := fun _ => Q (if badCount count then blkEBadArg else w.status k))
    (Triple.act ?_) fun _ => Triple.pure fun _ ht => ht
  rintro t ⟨s, hs, rfl, rfl⟩
  cases hcount : badCount count with
  | true => exact hnot s _ hs (show blkEBadArg ≠ blkOk by decide) (Or.inl hcount)
  | false =>
    by_cases hok : w.status s.reads = blkOk
    · simp only [Bool.false_eq_true, if_false, hok, if_true]
      exact h s hs hcount hok
    · simp only [Bool.false_eq_true, if_false, if_neg hok]
      exact hnot s _ hs hok (Or.inr hok)

/-- A part of memory that is mapped can be read. -/
theorem triple_view {va len : Nat} {Q : List UInt8 → Session → Prop}
    (h : ∀ s, P s → ∃ bytes, bytesAt s.mem va len = some bytes ∧ Q bytes s) :
    Triple P (view va len) Q E := by
  refine Triple.bind (Q := fun bytes s => ∃ b, bytes = some b ∧ Q b s)
    (Triple.ask fun s hs => h s hs) fun bytes => ?_
  cases bytes with
  | none => exact triple_halt fun s ⟨_, hb, _⟩ => nomatch hb
  | some b =>
    refine Triple.pure ?_
    rintro s ⟨b', hb, hq⟩
    cases hb
    exact hq

end

/-! ### Memory -/

variable {mem : Memory} {disk fresh : Nat → UInt8} {va len first count i : Nat} {w : World}
  {bytes : Nat → Option UInt8} {sb : Superblock} {name : List UInt8}

theorem mapFrame_in (h : i < pageSize) :
    mapFrame mem va fresh (va + i) = some ⟨fresh i, none⟩ := by
  unfold mapFrame
  rw [if_pos ⟨Nat.le_add_right _ _, Nat.add_lt_add_left h va⟩, Nat.add_sub_cancel_left]

theorem mapFrame_out {a : Nat} (h : a < va ∨ va + pageSize ≤ a) :
    mapFrame mem va fresh a = mem a := by
  unfold mapFrame
  rw [if_neg (by omega)]

theorem transfer_in (h : i < count * sector) : transfer mem disk va first count (va + i) =
    some ⟨disk (first * sector + i), some (first * sector + i)⟩ := by
  unfold transfer
  rw [if_pos ⟨Nat.le_add_right _ _, Nat.add_lt_add_left h va⟩, Nat.add_sub_cancel_left]

theorem transfer_out {a : Nat} (h : a < va ∨ va + count * sector ≤ a) :
    transfer mem disk va first count a = mem a := by
  unfold transfer
  rw [if_neg (by omega)]

/-- The bytes of a mapped part of memory. -/
theorem bytesAt_eq {f : Nat → UInt8} (h : ∀ i < len, ∃ source, mem (va + i) = some ⟨f i, source⟩) :
    bytesAt mem va len = some ((List.range len).map f) := by
  unfold bytesAt
  rw [if_pos (fun i hi => by
    obtain ⟨source, hcell⟩ := h i hi
    rw [hcell]
    rfl)]
  congr 1
  refine List.map_congr_left fun i hi => ?_
  obtain ⟨source, hcell⟩ := h i (List.mem_range.mp hi)
  rw [hcell]
  rfl

/-! ### The directory -/

/-- Memory when the directory is there. -/
def opened (w : World) (bytes : Nat → Option UInt8) (dirSectors : Nat) : Memory :=
  transfer (transfer (mapFrame (Session.start bytes).mem scratchVa w.fresh) w.disk scratchVa 0 1)
    w.disk scratchVa 1 dirSectors

/-- The sectors that were read hold the directory, and nothing behind them was fetched. -/
theorem opened_fetched (hpos : 0 < count) :
    (∃ pos, opened w bytes count (scratchVa + i) = some ⟨w.disk pos, some pos⟩) ↔
      i < count * sector := by
  constructor
  · rintro ⟨pos, hcell⟩
    by_contra hout
    have hsector : 1 * sector ≤ count * sector := Nat.mul_le_mul_right _ hpos
    unfold opened at hcell
    rw [transfer_out (Or.inr (by omega)), transfer_out (Or.inr (by omega))] at hcell
    by_cases hin : i < pageSize
    · rw [mapFrame_in hin] at hcell
      have hsource : none = some pos := congrArg Cell.source (Option.some.inj hcell)
      cases hsource
    · rw [mapFrame_out (Or.inr (by omega))] at hcell
      unfold Session.start at hcell
      dsimp only at hcell
      cases hb : bytes (scratchVa + i) with
      | none =>
        rw [hb] at hcell
        cases hcell
      | some b =>
        rw [hb] at hcell
        cases hcell
  · intro hi
    exact ⟨_, transfer_in hi⟩

/-- The superblock is in the scratch frame. -/
structure Began (w : World) (bytes : Nat → Option UInt8) (s : Session) : Prop where
  frame : w.frame 0 ≠ sysErr
  map : w.map 0 = 0
  superblock : w.status 0 = blkOk
  reads : s.reads = 1
  looks : s.looks = []
  mem : s.mem =
    transfer (mapFrame (Session.start bytes).mem scratchVa w.fresh) w.disk scratchVa 0 1

/-- The loader gets as far as the directory exactly in the worlds that open. -/
theorem openArchive_triple (w : World) (bytes : Nat → Option UInt8) :
    Triple (fun s => s = Session.start bytes) (openArchive w)
      (fun sb s => w.Opens sb ∧ s.mem = opened w bytes sb.dirSectors ∧ s.looks = [])
      (fun s => (∀ sb, ¬ w.Opens sb) ∧ s.looks = []) := by
  refine Triple.bind (Q := fun _ s => (w.frame 0 ≠ sysErr ∧ w.map 0 = 0) ∧ s.reads = 0 ∧
    s.mem = mapFrame (Session.start bytes).mem scratchVa w.fresh ∧ s.looks = [])
    (triple_allocMapped ?_ ?_) fun _ => ?_
  · rintro s rfl hframe hmap
    exact ⟨⟨hframe, hmap⟩, rfl, rfl, rfl⟩
  · rintro s why rfl hfail
    refine ⟨fun sb h => ?_, rfl⟩
    rcases hfail with hframe | hmap
    · exact h.frame hframe
    · exact hmap h.map
  refine Triple.bind (Q := fun status s => (status = blkOk ∧ Began w bytes s) ∨
    (status ≠ blkOk ∧ w.status 0 ≠ blkOk ∧ s.looks = [])) (triple_blockRead ?_ ?_) fun status => ?_
  · rintro s ⟨⟨hframe, hmap⟩, hreads, hmem, hlooks⟩ - hok
    rw [hreads] at hok
    refine Or.inl ⟨rfl, hframe, hmap, hok, ?_, hlooks, ?_⟩
    · show s.reads + 1 = 1
      rw [hreads]
    · show transfer s.mem w.disk scratchVa 0 1 = _
      rw [hmem]
  · rintro s status ⟨-, hreads, -, hlooks⟩ hne hfail
    rw [hreads] at hfail
    exact Or.inr ⟨hne, hfail.resolve_left (by decide), hlooks⟩
  refine Triple.bind (Q := fun _ => Began w bytes) (triple_check ?_ ?_) fun _ => ?_
  · rintro s hok (⟨-, h⟩ | ⟨hne, -⟩)
    · exact h
    · exact absurd hok hne
  · rintro s hne (⟨hok, -⟩ | ⟨-, hfail, hlooks⟩)
    · exact absurd hok hne
    · exact ⟨fun sb h => hfail h.superblock, hlooks⟩
  refine Triple.bind (Q := fun sec0 s => Began w bytes s ∧ sec0 = w.sector0) (triple_view ?_)
    fun sec0 => Triple.given fun hsec0 => ?_
  · intro s h
    refine ⟨w.sector0, bytesAt_eq fun i hi => ?_, h, rfl⟩
    rw [h.mem, transfer_in (by omega), Nat.zero_mul, Nat.zero_add]
    exact ⟨_, rfl⟩
  rw [hsec0]
  refine Triple.bind (Q := fun sb s => Began w bytes s ∧ parseSuperblock w.sector0 = .ok sb)
    (triple_orText ?_ ?_) fun sb => Triple.given fun hparse => ?_
  · intro sb s hparse h
    exact ⟨h, hparse⟩
  · intro e s herror h
    refine ⟨fun sb hopens => ?_, h.looks⟩
    rw [hopens.parsed] at herror
    cases herror
  -- Only this superblock can open the archive.
  have hother : ∀ {sb'}, w.Opens sb' → sb' = sb := fun hopens =>
    Except.ok.inj (hopens.parsed.symm.trans hparse)
  refine Triple.bind (Q := fun _ s => Began w bytes s ∧ sb.dirSectors ≤ sectorsPerFrame)
    (triple_check (fun s hle h => ⟨h, hle⟩) ?_) fun _ => Triple.given fun hle => ?_
  · intro s hgt h
    refine ⟨fun sb' hopens => hgt ?_, h.looks⟩
    rw [← hother hopens]
    exact hopens.sectors.2
  refine Triple.bind (Q := fun status s =>
    (status = blkOk ∧ w.Opens sb ∧ s.mem = opened w bytes sb.dirSectors ∧ s.looks = []) ∨
      (status ≠ blkOk ∧ (∀ sb, ¬ w.Opens sb) ∧ s.looks = []))
    (triple_blockRead ?_ ?_) fun status => ?_
  · intro s h hcount hok
    rw [h.reads] at hok
    have hpos : 0 < sb.dirSectors := by
      refine Nat.pos_of_ne_zero fun hzero => ?_
      rw [hzero] at hcount
      cases hcount
    refine Or.inl ⟨rfl, ⟨h.frame, h.map, h.superblock, hparse, ⟨hpos, hle⟩, hok⟩, ?_, h.looks⟩
    show transfer s.mem w.disk scratchVa 1 sb.dirSectors = _
    rw [h.mem]
    rfl
  · intro s status h hne hfail
    refine Or.inr ⟨hne, fun sb' hopens => ?_, h.looks⟩
    rw [h.reads] at hfail
    rcases hfail with hcount | hfail
    · obtain ⟨hpos, hle⟩ := hopens.sectors
      rw [hother hopens] at hpos
      unfold badCount frameSize sectorSize at hcount
      unfold sectorsPerFrame at hle
      rw [hother hopens] at hle
      simp only [Bool.or_eq_true, beq_iff_eq, decide_eq_true_eq] at hcount
      omega
    · exact hfail hopens.directory
  refine Triple.bind (Q := fun _ s => w.Opens sb ∧ s.mem = opened w bytes sb.dirSectors ∧
    s.looks = []) (triple_check ?_ ?_) fun _ => Triple.pure fun _ hs => hs
  · rintro s hok (⟨-, h⟩ | ⟨hne, -⟩)
    · exact h
    · exact absurd hok hne
  · rintro s hne (⟨hok, -⟩ | ⟨-, h⟩)
    · exact absurd hok hne
    · exact h

/-- The look at the directory. -/
def dirLook (w : World) (bytes : Nat → Option UInt8) (sb : Superblock) : Look :=
  ⟨opened w bytes sb.dirSectors, scratchVa, sb.entryCount * entrySize⟩

/-- The directory that is searched was fetched exactly if its entries lie in the sectors that the
superblock names. -/
theorem dirLook_fetched (hpos : 0 < sb.dirSectors) :
    (dirLook w bytes sb).Fetched w.disk ↔ sb.entryCount * entrySize ≤ sb.dirSectors * sector := by
  constructor
  · intro h
    by_contra hlong
    exact absurd ((opened_fetched hpos).mp (h (sb.dirSectors * sector) (Nat.lt_of_not_le hlong)))
      (Nat.lt_irrefl _)
  · intro hle i hi
    exact (opened_fetched hpos).mpr (Nat.lt_of_lt_of_le hi hle)

/-- The entry count is a word of 32 bits. -/
theorem entryCount_lt {b : List UInt8} (h : parseSuperblock b = .ok sb) :
    sb.entryCount < 2 ^ 32 := by
  unfold parseSuperblock at h
  split at h
  · cases h
  · split at h
    · cases h
    · split at h
      · rename_i entryCount _ _ hcount _ _
        cases h
        unfold rdU32 at hcount
        split at hcount
        · rename_i hle
          cases hcount
          have hlt := leValue_lt (slice b 8 4)
          rw [length_slice hle] at hlt
          exact hlt
        · cases hcount
      · cases h

/-- A part of a mapped part. -/
theorem bytesAt_slice {dir : List UInt8} (h : bytesAt mem va len = some dir) {off n : Nat}
    (hle : off + n ≤ len) : bytesAt mem (va + off) n = some (slice dir off n) := by
  unfold bytesAt at h
  split at h
  · rename_i hall
    cases h
    unfold bytesAt
    rw [if_pos fun i hi => by
      rw [Nat.add_assoc]
      exact hall (off + i) (by omega)]
    congr 1
    refine List.ext_getElem? fun i => ?_
    rw [slice_getElem?, List.getElem?_map, List.getElem?_map]
    by_cases hi : i < n
    · rw [if_pos hi, List.getElem?_range hi, List.getElem?_range (by omega), Option.map_some,
        Option.map_some, Nat.add_assoc]
    · rw [if_neg hi, List.getElem?_eq_none (by rw [List.length_range]; omega)]
      rfl
  · cases h

/-- A record is the same in its own bytes. -/
theorem record_slice {dir : List UInt8} (h : i * entrySize + entrySize ≤ dir.length) :
    record (slice dir (i * entrySize) entrySize) 0 = record dir i := by
  have hlen : (slice dir (i * entrySize) entrySize).length = entrySize := length_slice h
  unfold record
  rw [if_pos h, if_pos (by rw [hlen, Nat.zero_mul, Nat.zero_add]), Nat.zero_mul,
    slice_start (Nat.le_refl _)]

/-- On a directory that is mapped, the search is that of `find`. -/
theorem findAt_eq {dir : List UInt8}
    (h : bytesAt mem va (sb.entryCount * entrySize) = some dir) :
    findAt mem name sb.entryCount va =
      some (((entries dir sb).find? fun r => nameEq r.1 name).map Prod.snd) := by
  have hlen : dir.length = sb.entryCount * entrySize := by
    unfold bytesAt at h
    split at h
    · cases h
      rw [List.length_map, List.length_range]
    · cases h
  have key : ∀ n i, i + n = sb.entryCount →
      findAt mem name n (va + i * entrySize) =
      some ((((List.range' i n).filterMap (record dir)).find? fun r =>
        nameEq r.1 name).map Prod.snd) := by
    intro n
    induction n with
    | zero =>
      intro i _
      rfl
    | succ n ih =>
      intro i hi
      have hend : i * entrySize + entrySize ≤ sb.entryCount * entrySize := by
        unfold entrySize
        omega
      rw [findAt, bytesAt_slice h hend]
      dsimp only
      rw [record_slice (by rw [hlen]; exact hend), List.range'_succ, List.filterMap_cons,
        Nat.add_assoc, ← Nat.succ_mul, ih (i + 1) (by omega)]
      cases record dir i with
      | none => rfl
      | some r =>
        dsimp only
        rw [List.find?_cons]
        cases hname : nameEq r.1 name with
        | true => rfl
        | false => rfl
  have hall := key sb.entryCount 0 (Nat.zero_add _)
  rw [Nat.zero_mul, Nat.add_zero, ← List.range_eq_range'] at hall
  exact hall

/-- The search looks at the directory first. -/
theorem lookUp_triple (hopens : w.Opens sb) {S : List Look → Prop} (h : S [dirLook w bytes sb]) :
    Triple (fun s => s.mem = opened w bytes sb.dirSectors ∧ s.looks = []) (lookUp sb name)
      (fun _ s => S s.looks) (fun s => S s.looks) := by
  have hlen : sb.dirBytesLen = .ok (sb.entryCount * entrySize) := by
    have hlt := entryCount_lt hopens.parsed
    unfold Superblock.dirBytesLen
    rw [if_pos (by unfold entrySize; omega)]
  unfold lookUp
  rw [hlen]
  refine Triple.bind (Q := fun len s => (s.mem = opened w bytes sb.dirSectors ∧ s.looks = []) ∧
    len = sb.entryCount * entrySize) (Triple.pure fun s hs => ⟨hs, rfl⟩)
    fun len => Triple.given fun hlen => ?_
  subst hlen
  refine Triple.bind (Q := fun _ s => S s.looks) ?_ fun mem => ?_
  · refine Triple.bind (Q := fun _ s => S s.looks) (Triple.act ?_) fun _ => Triple.ask fun _ hs =>
      hs
    rintro s ⟨hmem, hlooks⟩
    show S (s.looks ++ [⟨s.mem, scratchVa, sb.entryCount * entrySize⟩])
    rw [hlooks, hmem]
    exact h
  · split
    · exact triple_halt fun _ hs => hs
    · exact triple_halt fun _ hs => hs
    · exact Triple.pure fun _ hs => hs

/-! ### The program -/

/-- Every look of the loader was fetched. -/
def Session.Sound (w : World) (s : Session) : Prop := ∀ l ∈ s.looks, l.Fetched w.disk

/-- The first `n` bytes of the image are those of the disk from the first sector of the program. -/
def Loaded (w : World) (entry : Entry) (mem : Memory) (n : Nat) : Prop :=
  ∀ j < n, mem (progVa + j) =
    some ⟨w.disk (entry.firstSector * sector + j), some (entry.firstSector * sector + j)⟩

variable {entry : Entry}

/-- One page of the image. -/
theorem Loaded.page {mem : Memory} {i : Nat} (h : Loaded w entry mem (i * pageSize)) :
    Loaded w entry (transfer (mapFrame mem (progVa + i * pageSize) w.fresh) w.disk
      (progVa + i * pageSize) (entry.firstSector + i * sectorsPerFrame)
      (min (entry.sectorCount - i * sectorsPerFrame) sectorsPerFrame))
      (min ((i + 1) * pageSize) (entry.sectorCount * sector)) := by
  intro j hj
  unfold pageSize sector sectorsPerFrame at *
  by_cases hbefore : j < i * 4096
  · rw [transfer_out (Or.inl (by omega)), mapFrame_out (Or.inl (by omega))]
    exact h j hbefore
  · obtain ⟨k, rfl⟩ : ∃ k, j = i * 4096 + k := ⟨j - i * 4096, by omega⟩
    have hin : k < min (entry.sectorCount - i * 8) 8 * sector := by
      unfold sector
      omega
    have hpos : (entry.firstSector + i * 8) * sector + k =
        entry.firstSector * 512 + (i * 4096 + k) := by
      unfold sector
      omega
    rw [← Nat.add_assoc, transfer_in hin, hpos]

theorem readPages_triple (n i : Nat) :
    Triple (fun s => s.Sound w ∧ Loaded w entry s.mem (min (i * pageSize)
        (entry.sectorCount * sector)))
      (readPages w entry n i (entry.sectorCount - i * sectorsPerFrame))
      (fun _ s => s.Sound w ∧ Loaded w entry s.mem (min ((i + n) * pageSize)
        (entry.sectorCount * sector)))
      (Session.Sound w) := by
  induction n generalizing i with
  | zero => exact Triple.pure fun _ hs => hs
  | succ n ih =>
    have hnext : i + 1 + n = i + (n + 1) := by omega
    have hrest : entry.sectorCount - i * sectorsPerFrame -
        min (entry.sectorCount - i * sectorsPerFrame) sectorsPerFrame =
          entry.sectorCount - (i + 1) * sectorsPerFrame := by
      unfold sectorsPerFrame
      omega
    refine Triple.bind (Q := fun _ s => s.Sound w ∧ ∃ mem, s.mem =
        mapFrame mem (progVa + i * pageSize) w.fresh ∧
          Loaded w entry mem (min (i * pageSize) (entry.sectorCount * sector)))
      (triple_allocMapped (fun s hs _ _ => ⟨hs.1, s.mem, rfl, hs.2⟩) fun s _ hs _ => hs.1)
      fun _ => ?_
    refine Triple.bind (Q := fun status s => s.Sound w ∧ (status = blkOk →
        Loaded w entry s.mem (min ((i + 1) * pageSize) (entry.sectorCount * sector))))
      (triple_blockRead ?_ fun s status hs hne _ => ⟨hs.1, fun hok => absurd hok hne⟩)
      fun status => ?_
    · rintro s ⟨hsound, mem, hmem, hloaded⟩ hcount -
      refine ⟨hsound, fun _ => ?_⟩
      -- A page that is read has a sector of the program.
      have hpage : i * pageSize ≤ entry.sectorCount * sector := by
        unfold badCount at hcount
        simp only [Bool.or_eq_false_iff, beq_eq_false_iff_ne] at hcount
        have hpos := hcount.1
        unfold pageSize sector
        unfold sectorsPerFrame at hpos
        omega
      rw [Nat.min_eq_left hpage] at hloaded
      have hread := hloaded.page
      rw [← hmem] at hread
      exact hread
    refine Triple.bind (Q := fun _ s => s.Sound w ∧ Loaded w entry s.mem (min ((i + 1) * pageSize)
        (entry.sectorCount * sector)))
      (triple_check (fun s hok hs => ⟨hs.1, hs.2 hok⟩) fun s _ hs => hs.1) fun _ => ?_
    rw [hrest, ← hnext]
    exact ih (i + 1)

/-- The image that is handed over was fetched. -/
theorem launch_triple : Triple (Session.Sound w) (launch w entry) (fun _ => Session.Sound w)
    (Session.Sound w) := by
  refine Triple.bind (Q := fun _ => Session.Sound w)
    (triple_check (fun _ _ hs => hs) fun _ _ hs => hs) fun _ => ?_
  have hall : min ((0 + entry.pages) * pageSize) (entry.sectorCount * sector) ≥ entry.byteLen := by
    unfold Entry.pages Entry.sectorCount sectors pageSize sector
    omega
  refine Triple.bind ((readPages_triple entry.pages 0).pre fun s hs => ⟨hs, fun j hj => ?_⟩)
    fun _ => ?_
  · rw [Nat.zero_mul, Nat.zero_min] at hj
    exact absurd hj (Nat.not_lt_zero j)
  refine Triple.bind (Q := fun _ => Session.Sound w) ?_ fun mem => ?_
  · refine Triple.bind (Q := fun _ => Session.Sound w) (Triple.act ?_) fun _ =>
      Triple.ask fun _ hs => hs
    rintro s ⟨hsound, hloaded⟩ l hl
    rcases List.mem_append.mp hl with hl | hl
    · exact hsound l hl
    · rw [List.mem_singleton.mp hl]
      exact fun j hj => ⟨_, hloaded j (Nat.lt_of_lt_of_le hj hall)⟩
  · exact Triple.bind (Q := fun _ => Session.Sound w)
      (triple_check (fun _ _ hs => hs) fun _ _ hs => hs) fun _ => Triple.pure fun _ hs => hs

/-! ### What stays -/

/-- A look stays in the list. -/
def Kept (s t : Session) : Prop := ∀ l ∈ s.looks, l ∈ t.looks

theorem preorder_kept : Preorder Kept := ⟨fun _ _ hl => hl, fun _ _ _ h h' l hl => h' l (h l hl)⟩

theorem kept_act {f : Session → Session} (h : ∀ s, (f s).looks = s.looks) : Keeps Kept (act f) :=
  fun s l hl => by
    show l ∈ (f s).looks
    rw [h]
    exact hl

theorem kept_check {c : Prop} [Decidable c] {text : String} : Keeps Kept (check c text) :=
  Keeps.ite (Keeps.pure preorder_kept ()) (Keeps.bind preorder_kept (kept_act fun _ => rfl)
    fun _ => Keeps.giveUp preorder_kept)

theorem kept_allocMapped {va : Nat} : Keeps Kept (allocMapped w va) :=
  Keeps.bind preorder_kept (Keeps.ask preorder_kept _) fun _ =>
    Keeps.bind preorder_kept (kept_act fun _ => rfl) fun _ =>
      Keeps.bind preorder_kept kept_check fun _ =>
        Keeps.bind preorder_kept kept_check fun _ => kept_act fun _ => rfl

theorem kept_blockRead {va first count : Nat} : Keeps Kept (blockRead w va first count) :=
  Keeps.bind preorder_kept (Keeps.ask preorder_kept _) fun _ =>
    Keeps.bind preorder_kept (kept_act fun _ => rfl) fun _ =>
      Keeps.bind preorder_kept (kept_act fun s => by rw [apply_ite Session.looks, ite_self])
        fun _ =>
        Keeps.pure preorder_kept _

theorem kept_readPages (n i remaining : Nat) : Keeps Kept (readPages w entry n i remaining) := by
  induction n generalizing i remaining with
  | zero => exact Keeps.pure preorder_kept ()
  | succ n ih =>
    exact Keeps.bind preorder_kept kept_allocMapped fun _ =>
      Keeps.bind preorder_kept kept_blockRead fun _ =>
        Keeps.bind preorder_kept kept_check fun _ => ih _ _

theorem kept_launch : Keeps Kept (launch w entry) :=
  Keeps.bind preorder_kept kept_check fun _ =>
    Keeps.bind preorder_kept (kept_readPages _ _ _) fun _ =>
      Keeps.bind preorder_kept
        (Keeps.bind preorder_kept (fun _ _ hl => List.mem_append_left _ hl)
          fun _ => Keeps.ask preorder_kept _)
        fun _ => Keeps.bind preorder_kept kept_check fun _ => Keeps.pure preorder_kept _

/-! ### Every disk -/

/-- A loader that gets to the directory searches it. -/
theorem dirLook_mem (hopens : w.Opens sb) (name : List UInt8) :
    dirLook w bytes sb ∈ (spawnFromArchive w name (Session.start bytes)).2.looks := by
  have hlook : Triple (fun s => s = Session.start bytes) (spawnFromArchive w name)
      (fun _ s => dirLook w bytes sb ∈ s.looks) (fun s => dirLook w bytes sb ∈ s.looks) := by
    refine Triple.bind ((openArchive_triple w bytes).conseq (fun _ hs => hs) (fun _ _ hs => hs)
      fun s hs => absurd hopens (hs.1 sb)) fun sb' => ?_
    refine Triple.pre (Triple.given fun hopens' => ?_) fun s hs => ⟨hs.2, hs.1⟩
    obtain rfl : sb' = sb := Except.ok.inj (hopens'.parsed.symm.trans hopens.parsed)
    exact Triple.bind (lookUp_triple (S := fun looks => dirLook w bytes sb' ∈ looks) hopens'
      (List.mem_singleton_self _)) fun entry => kept_launch.triple fun s t hst hs => hst _ hs
  exact hlook.final rfl

/-- Every byte that the loader searches as the directory or hands over as the image is mapped, and
this call has transferred it from the disk, exactly if the loader does not get to a directory whose
entries go past the sectors that the superblock names. -/
theorem looks_fetched_iff (w : World) (bytes : Nat → Option UInt8) (name : List UInt8) :
    (∀ l ∈ (spawnFromArchive w name (Session.start bytes)).2.looks, l.Fetched w.disk) ↔
      ∀ sb, w.Opens sb → sb.entryCount * entrySize ≤ sb.dirSectors * sector := by
  constructor
  · intro h sb hopens
    exact (dirLook_fetched hopens.sectors.1).mp (h _ (dirLook_mem hopens name))
  · intro h
    have hsound : Triple (fun s => s = Session.start bytes) (spawnFromArchive w name)
        (fun _ => Session.Sound w) (Session.Sound w) := by
      refine Triple.bind ((openArchive_triple w bytes).conseq (fun _ hs => hs) (fun _ _ hs => hs)
        fun s hs l hl => ?_) fun sb => ?_
      · rw [hs.2] at hl
        cases hl
      refine Triple.pre (Triple.given fun hopens => ?_) fun s hs => ⟨hs.2, hs.1⟩
      refine Triple.bind (lookUp_triple (S := fun looks => ∀ l ∈ looks, l.Fetched w.disk) hopens
        fun l hl => ?_) fun entry => launch_triple
      rw [List.mem_singleton.mp hl]
      exact (dirLook_fetched hopens.sectors.1).mpr (h sb hopens)
    exact hsound.final rfl

/-- A disk whose superblock has 13 entries in one sector. -/
def longDirectory : World where
  disk := fun i => (superblock 13 1 2).getD i 0
  fresh := fun _ => 0
  frame := fun k => UInt64.ofNat k
  map := fun _ => 0
  status := fun _ => blkOk
  spawn := fun _ => 0

/-- The last entry is not in the sector. The loader searches it in what the frame held before. -/
theorem looks_stray : ∃ l ∈ (spawnFromArchive longDirectory [0x61]
    (Session.start fun _ => none)).2.looks, l.len = 520 ∧ ¬ l.Fetched longDirectory.disk := by
  have hopens : longDirectory.Opens ⟨13, 1, 2⟩ :=
    ⟨by decide, rfl, rfl, by decide +kernel, by decide, rfl⟩
  refine ⟨_, dirLook_mem hopens [0x61], rfl, fun h => ?_⟩
  exact absurd ((dirLook_fetched hopens.sectors.1).mp h) (by decide)

end Plinth.Archive
