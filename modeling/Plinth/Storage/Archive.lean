import Plinth.Common.Bytes

/-!
# `Plinth.Storage.Archive`: the boot archive

The read-only archive of programs. `archiveImage` is the assembler of `xtask`, which lays the image
out: a superblock, a directory with a record for each program, and the programs, each from a sector
of its own. `parseSuperblock`, `entries` and `find` are the reader of `libfs`. The two sides share
no code.

`archive_agrees` says that the reader finds what the assembler laid out.
-/

set_option autoImplicit false

namespace Plinth.Archive

open Bytes

/-! ### The format -/

/-- `SECTOR`, and `ARC_SECTOR`. -/
def sector : Nat := 512

/-- `MAGIC`, and `ARC_MAGIC`: "PLNTHAR1". -/
def magic : List UInt8 := [0x50, 0x4C, 0x4E, 0x54, 0x48, 0x41, 0x52, 0x31]

/-- `ENTRY_SIZE`, and `ARC_ENTRY_SIZE`. -/
def entrySize : Nat := 40

/-- `NAME_LEN`, and `ARC_NAME_LEN`. -/
def nameLen : Nat := 32

/-- `SB_USED`, the bytes of the superblock that the parser reads. -/
def sbUsed : Nat := 20

/-- `FsError`. -/
inductive FsError where
  | truncated
  | badMagic
  | dirTruncated
  | dirOverflow
  | notFound
  deriving DecidableEq, Repr

/-- `n.div_ceil(SECTOR)`. -/
def sectors (n : Nat) : Nat := (n + 511) / 512

/-! ### The reader -/

/-- `Superblock`. -/
structure Superblock where
  entryCount : Nat
  dirSectors : Nat
  totalSectors : Nat
  deriving DecidableEq, Repr

/-- `Entry`: a program that was found. -/
structure Entry where
  firstSector : Nat
  byteLen : Nat
  deriving DecidableEq, Repr

/-- `Entry::sector_count`. -/
def Entry.sectorCount (e : Entry) : Nat := sectors e.byteLen

/-- `rd_u32`. -/
def rdU32 (b : List UInt8) (off : Nat) : Option Nat :=
  if off + 4 ≤ b.length then some (leValue (slice b off 4)) else none

/-- `parse_superblock`. -/
def parseSuperblock (sector0 : List UInt8) : Except FsError Superblock :=
  if sector0.length < sbUsed then .error .truncated
  else if slice sector0 0 magic.length ≠ magic then .error .badMagic
  else
    match rdU32 sector0 8, rdU32 sector0 12, rdU32 sector0 16 with
    | some entryCount, some dirSectors, some totalSectors =>
      .ok ⟨entryCount, dirSectors, totalSectors⟩
    | _, _, _ => .error .truncated

/-- `Superblock::dir_bytes_len`. -/
def Superblock.dirBytesLen (sb : Superblock) : Except FsError Nat :=
  if sb.entryCount * entrySize < 2 ^ 64 then .ok (sb.entryCount * entrySize)
  else .error .dirOverflow

/-- `name_eq`. -/
def nameEq (field name : List UInt8) : Bool := untilNul field == name

/-- The record `i` of a directory: its name field and its entry. -/
def record (dir : List UInt8) (i : Nat) : Option (List UInt8 × Entry) :=
  if i * entrySize + entrySize ≤ dir.length then
    let r := slice dir (i * entrySize) entrySize
    match rdU32 r 32, rdU32 r 36 with
    | some firstSector, some byteLen => some (slice r 0 nameLen, ⟨firstSector, byteLen⟩)
    | _, _ => none
  else none

/-- `entries`. -/
def entries (dir : List UInt8) (sb : Superblock) : List (List UInt8 × Entry) :=
  (List.range sb.entryCount).filterMap (record dir)

/-- `find`. -/
def find (dir : List UInt8) (sb : Superblock) (name : List UInt8) : Except FsError Entry :=
  match sb.dirBytesLen with
  | .error e => .error e
  | .ok need =>
    if dir.length < need then .error .dirTruncated
    else
      match (entries dir sb).find? fun r => nameEq r.1 name with
      | some r => .ok r.2
      | none => .error .notFound

/-! ### The assembler -/

/-- A program with its ELF bytes. -/
structure Program where
  name : List UInt8
  bytes : List UInt8
  deriving DecidableEq, Repr

/-- The directory and the blobs as they are built. `cursor` is the sector of the next blob. -/
structure Layout where
  directory : List UInt8
  blobs : List UInt8
  cursor : Nat

/-- A blob, padded to a whole number of sectors. -/
def padded (bytes : List UInt8) : List UInt8 :=
  bytes ++ zeros (sectors bytes.length * sector - bytes.length)

/-- One round of the assembler: program `p` gets the record `i`. The words are cut to 32 bits. -/
def place (l : Layout) (i : Nat) (p : Program) : Layout where
  directory :=
    overwrite (overwrite (overwrite l.directory (i * entrySize) p.name) (i * entrySize + 32)
      (leBytes 4 l.cursor)) (i * entrySize + 36) (leBytes 4 p.bytes.length)
  blobs := l.blobs ++ padded p.bytes
  cursor := l.cursor + sectors p.bytes.length

/-- The loop of the assembler. -/
def placeAll : List Program → Nat → Layout → Layout
  | [], _, l => l
  | p :: ps, i, l => placeAll ps (i + 1) (place l i p)

/-- The self-check of the assembler: every blob is where its record says. -/
def selfCheck (image directory : List UInt8) : List Program → Nat → Bool
  | [], _ => true
  | p :: ps, i =>
    let r := slice directory (i * entrySize) entrySize
    let firstSector := leValue (slice r 32 4)
    let byteLen := leValue (slice r 36 4)
    byteLen == p.bytes.length && slice image (firstSector * sector) byteLen == p.bytes &&
      selfCheck image directory ps (i + 1)

/-- The sectors of the directory. -/
def dirSectors (progs : List Program) : Nat := sectors (progs.length * entrySize)

/-- The superblock that the assembler writes. -/
def superblock (count dirs total : Nat) : List UInt8 :=
  overwrite (overwrite (overwrite (overwrite (zeros sector) 0 magic) 8 (leBytes 4 count)) 12
    (leBytes 4 dirs)) 16 (leBytes 4 total)

/-- `archive_image`. `none` means that an assertion fails. -/
def archiveImage (progs : List Program) : Option (List UInt8) :=
  if progs.any fun p => nameLen < p.name.length then none
  else
    let l := placeAll progs 0
      ⟨zeros (dirSectors progs * sector), [], 1 + dirSectors progs⟩
    let total := l.cursor % 2 ^ 32
    let image := superblock progs.length (dirSectors progs) total ++ l.directory ++ l.blobs
    if image.length ≠ total * sector then none
    else if selfCheck image l.directory progs 0 then some image
    else none

/-! ### What the assembler lays out -/

/-- The record of a program whose blob starts at `cursor`. -/
def recordBytes (p : Program) (cursor : Nat) : List UInt8 :=
  p.name ++ zeros (nameLen - p.name.length) ++ leBytes 4 cursor ++ leBytes 4 p.bytes.length

/-- The records of the programs, if the first blob starts at `cursor`. -/
def records : List Program → Nat → List UInt8
  | [], _ => []
  | p :: ps, cursor => recordBytes p cursor ++ records ps (cursor + sectors p.bytes.length)

/-- The blobs of the programs. -/
def blobs (ps : List Program) : List UInt8 := ps.flatMap fun p => padded p.bytes

/-- The sector behind the blobs, if the first one starts at `cursor`. -/
def cursorAfter (ps : List Program) (cursor : Nat) : Nat :=
  cursor + (ps.map fun p => sectors p.bytes.length).sum

variable {p q : Program} {ps progs : List Program} {cursor i : Nat} {image : List UInt8}

theorem records_cons : records (p :: ps) cursor =
    recordBytes p cursor ++ records ps (cursor + sectors p.bytes.length) := rfl

theorem blobs_cons : blobs (p :: ps) = padded p.bytes ++ blobs ps := rfl

theorem length_recordBytes (h : p.name.length ≤ nameLen) :
    (recordBytes p cursor).length = entrySize := by
  unfold nameLen at h
  unfold recordBytes nameLen entrySize
  simp only [List.length_append, length_zeros, length_leBytes]
  omega

theorem length_records (h : ∀ p ∈ ps, p.name.length ≤ nameLen) :
    (records ps cursor).length = ps.length * entrySize := by
  induction ps generalizing cursor with
  | nil => exact (Nat.zero_mul _).symm
  | cons p ps ih =>
    rw [records_cons, List.length_append, length_recordBytes (h p List.mem_cons_self),
      ih fun q hq => h q (List.mem_cons_of_mem _ hq), List.length_cons, Nat.add_mul, Nat.one_mul,
      Nat.add_comm]

theorem length_padded (bytes : List UInt8) :
    (padded bytes).length = sectors bytes.length * sector := by
  unfold padded
  rw [List.length_append, length_zeros]
  unfold sectors sector
  omega

theorem cursorAfter_cons : cursorAfter (p :: ps) cursor =
    cursorAfter ps (cursor + sectors p.bytes.length) := by
  unfold cursorAfter
  rw [List.map_cons, List.sum_cons, Nat.add_assoc]

theorem cursorAfter_append (ps qs : List Program) (cursor : Nat) :
    cursorAfter (ps ++ qs) cursor = cursorAfter qs (cursorAfter ps cursor) := by
  unfold cursorAfter
  rw [List.map_append, List.sum_append, Nat.add_assoc]

theorem le_cursorAfter (ps : List Program) (cursor : Nat) : cursor ≤ cursorAfter ps cursor :=
  Nat.le_add_right _ _

theorem length_blobs (ps : List Program) (cursor : Nat) :
    cursor * sector + (blobs ps).length = cursorAfter ps cursor * sector := by
  induction ps generalizing cursor with
  | nil =>
    show cursor * sector + 0 = (cursor + 0) * sector
    rw [Nat.add_zero, Nat.add_zero]
  | cons p ps ih =>
    rw [cursorAfter_cons, ← ih, blobs_cons, List.length_append, length_padded, Nat.add_mul]
    omega

/-- A round writes one record behind those that were written. -/
theorem place_directory {l : Layout} {before : List UInt8} {m : Nat}
    (hname : p.name.length ≤ nameLen) (hdir : l.directory = before ++ zeros m)
    (hbefore : before.length = i * entrySize) (hm : entrySize ≤ m) :
    (place l i p).directory = before ++ recordBytes p l.cursor ++ zeros (m - entrySize) := by
  unfold nameLen at hname
  unfold entrySize at hm
  -- The zeros are split at the fields of the record.
  have hsplit : zeros m = zeros p.name.length ++ zeros (32 - p.name.length) ++ zeros 4 ++ zeros 4 ++
      zeros (m - 40) := by
    rw [← zeros_add, ← zeros_add, ← zeros_add, ← zeros_add]
    congr 1
    omega
  have hword : ∀ n, (zeros 4).length = (leBytes 4 n).length := fun n =>
    (length_zeros 4).trans (length_leBytes 4 n).symm
  have hfirst : overwrite l.directory (i * entrySize) p.name =
      (before ++ p.name ++ zeros (32 - p.name.length)) ++ zeros 4 ++
        (zeros 4 ++ zeros (m - 40)) := by
    have hstate : l.directory = before ++ zeros p.name.length ++
        (zeros (32 - p.name.length) ++ zeros 4 ++ zeros 4 ++ zeros (m - 40)) := by
      rw [hdir, hsplit]
      simp only [List.append_assoc]
    rw [hstate, ← hbefore, overwrite_middle before _ (length_zeros p.name.length)]
    simp only [List.append_assoc]
  have hsecond : overwrite (overwrite l.directory (i * entrySize) p.name) (i * entrySize + 32)
      (leBytes 4 l.cursor) =
      (before ++ p.name ++ zeros (32 - p.name.length) ++ leBytes 4 l.cursor) ++ zeros 4 ++
        zeros (m - 40) := by
    have hlen : (before ++ p.name ++ zeros (32 - p.name.length)).length = i * entrySize + 32 := by
      rw [List.length_append, List.length_append, length_zeros, hbefore]
      omega
    rw [hfirst, ← hlen, overwrite_middle _ _ (hword l.cursor)]
    simp only [List.append_assoc]
  have hthird : (place l i p).directory =
      (before ++ p.name ++ zeros (32 - p.name.length) ++ leBytes 4 l.cursor) ++
        leBytes 4 p.bytes.length ++ zeros (m - 40) := by
    have hlen : (before ++ p.name ++ zeros (32 - p.name.length) ++ leBytes 4 l.cursor).length =
        i * entrySize + 36 := by
      rw [List.length_append, List.length_append, List.length_append, length_zeros, length_leBytes,
        hbefore]
      omega
    unfold place
    dsimp only
    rw [hsecond, ← hlen, overwrite_middle _ _ (hword p.bytes.length)]
  rw [hthird]
  unfold recordBytes nameLen entrySize
  simp only [List.append_assoc]

/-- The loop writes the records and the blobs in order. -/
theorem placeAll_eq {l : Layout} {before : List UInt8} {m : Nat}
    (hnames : ∀ p ∈ ps, p.name.length ≤ nameLen) (hdir : l.directory = before ++ zeros m)
    (hbefore : before.length = i * entrySize) (hm : ps.length * entrySize ≤ m) :
    placeAll ps i l = ⟨before ++ records ps l.cursor ++ zeros (m - ps.length * entrySize),
      l.blobs ++ blobs ps, cursorAfter ps l.cursor⟩ := by
  induction ps generalizing i l before m with
  | nil =>
    unfold records blobs
    rw [List.length_nil, Nat.zero_mul, Nat.sub_zero, List.append_nil, List.flatMap_nil,
      List.append_nil, ← hdir]
    rfl
  | cons p ps ih =>
    rw [List.length_cons, Nat.add_mul, Nat.one_mul] at hm
    have hname := hnames p List.mem_cons_self
    have hlen : (before ++ recordBytes p l.cursor).length = (i + 1) * entrySize := by
      rw [List.length_append, length_recordBytes hname, hbefore, Nat.add_mul, Nat.one_mul]
    show placeAll ps (i + 1) (place l i p) = _
    rw [ih (fun q hq => hnames q (List.mem_cons_of_mem _ hq))
      (place_directory hname hdir hbefore (by omega)) hlen (by omega), cursorAfter_cons]
    have hcursor : (place l i p).cursor = l.cursor + sectors p.bytes.length := rfl
    have hblobs : (place l i p).blobs = l.blobs ++ padded p.bytes := rfl
    rw [hcursor, hblobs]
    rw [records_cons, blobs_cons, List.length_cons, Nat.add_mul, Nat.one_mul, Nat.sub_sub,
      Nat.add_comm entrySize]
    simp only [List.append_assoc]

/-! ### What the reader finds -/

/-- What the reader sees of the programs: the name fields and the entries, with words of 32 bits. -/
def placements : List Program → Nat → List (List UInt8 × Entry)
  | [], _ => []
  | p :: ps, cursor =>
    (p.name ++ zeros (nameLen - p.name.length),
      ⟨cursor % 2 ^ 32, p.bytes.length % 2 ^ 32⟩) ::
      placements ps (cursor + sectors p.bytes.length)

theorem rdU32_of_le {b : List UInt8} {off : Nat} (h : off + 4 ≤ b.length) :
    rdU32 b off = some (leValue (slice b off 4)) := if_pos h

/-- The fields of a record. -/
theorem slices_recordBytes (h : p.name.length ≤ nameLen) :
    slice (recordBytes p cursor) 0 nameLen = p.name ++ zeros (nameLen - p.name.length) ∧
      slice (recordBytes p cursor) 32 4 = leBytes 4 cursor ∧
      slice (recordBytes p cursor) 36 4 = leBytes 4 p.bytes.length := by
  have hfield : (p.name ++ zeros (nameLen - p.name.length)).length = nameLen := by
    rw [List.length_append, length_zeros]
    omega
  unfold recordBytes
  generalize p.name ++ zeros (nameLen - p.name.length) = field at hfield ⊢
  refine ⟨?_, ?_, ?_⟩
  · rw [List.append_assoc, ← hfield, slice_left]
  · have hmiddle := slice_middle field (leBytes 4 cursor) (leBytes 4 p.bytes.length)
    rw [hfield, length_leBytes] at hmiddle
    exact hmiddle
  · have hright := slice_append_right (field ++ leBytes 4 cursor) (leBytes 4 p.bytes.length) 0 4
    rw [List.length_append, hfield, length_leBytes] at hright
    have hall := slice_all (leBytes 4 p.bytes.length)
    rw [length_leBytes] at hall
    exact hright.trans hall

/-- The first record. -/
theorem record_zero (h : p.name.length ≤ nameLen) (rest : List UInt8) :
    record (recordBytes p cursor ++ rest) 0 =
      some (p.name ++ zeros (nameLen - p.name.length),
        ⟨cursor % 2 ^ 32, p.bytes.length % 2 ^ 32⟩) := by
  have hlen : (recordBytes p cursor).length = entrySize := length_recordBytes h
  obtain ⟨hname, hfirst, hbytes⟩ : slice (recordBytes p cursor) 0 nameLen = _ ∧
    slice (recordBytes p cursor) 32 4 = _ ∧ _ := slices_recordBytes h
  have hslice : slice (recordBytes p cursor ++ rest) (0 * entrySize) entrySize =
      recordBytes p cursor := by
    rw [Nat.zero_mul, ← hlen, slice_left]
  unfold record
  rw [if_pos (by rw [List.length_append, hlen]; omega)]
  dsimp only
  rw [hslice, rdU32_of_le (by rw [hlen]; decide), rdU32_of_le (by rw [hlen]; decide), hname, hfirst,
    hbytes]
  have hword : 256 ^ 4 = 2 ^ 32 := rfl
  simp only [leValue_leBytes, hword]

/-- The records behind the first one. -/
theorem record_succ (h : p.name.length ≤ nameLen) (rest : List UInt8) (i : Nat) :
    record (recordBytes p cursor ++ rest) (i + 1) = record rest i := by
  have hlen : (recordBytes p cursor).length = entrySize := length_recordBytes h
  have hslice : slice (recordBytes p cursor ++ rest) ((i + 1) * entrySize) entrySize =
      slice rest (i * entrySize) entrySize := by
    rw [Nat.add_mul, Nat.one_mul, Nat.add_comm, ← hlen, slice_append_right]
  unfold record
  rw [hslice, List.length_append, hlen, Nat.add_mul, Nat.one_mul]
  by_cases hin : i * entrySize + entrySize ≤ rest.length
  · rw [if_pos hin, if_pos (by omega)]
  · rw [if_neg hin, if_neg (by omega)]

theorem records_entries (h : ∀ p ∈ ps, p.name.length ≤ nameLen) (cursor : Nat) :
    (List.range ps.length).filterMap (record (records ps cursor)) = placements ps cursor := by
  induction ps generalizing cursor with
  | nil => rfl
  | cons p ps ih =>
    have hname := h p List.mem_cons_self
    rw [List.length_cons, List.range_succ_eq_map, records_cons, List.filterMap_cons,
      record_zero hname, List.filterMap_map]
    dsimp only
    unfold placements
    congr 1
    rw [← ih (fun q hq => h q (List.mem_cons_of_mem _ hq))]
    congr 1
    funext i
    exact record_succ hname _ i

theorem nameEq_pad {name name' : List UInt8} (h : 0 ∉ name) (k : Nat) :
    nameEq (name ++ zeros k) name' = (name == name') := by
  unfold nameEq
  rw [untilNul_pad h]

/-- A name that no program has is not found. -/
theorem placements_none (h : ∀ p ∈ ps, 0 ∉ p.name) {name : List UInt8}
    (hnot : ∀ p ∈ ps, p.name ≠ name) (cursor : Nat) :
    (placements ps cursor).find? (fun r => nameEq r.1 name) = none := by
  induction ps generalizing cursor with
  | nil => rfl
  | cons p ps ih =>
    unfold placements
    rw [List.find?_cons, nameEq_pad (h p List.mem_cons_self),
      beq_false_of_ne (hnot p List.mem_cons_self)]
    exact ih (fun q hq => h q (List.mem_cons_of_mem _ hq))
      (fun q hq => hnot q (List.mem_cons_of_mem _ hq)) _

/-- The first program with a name is found. -/
theorem placements_find {before : List Program} (after : List Program)
    (h : ∀ q ∈ before, 0 ∉ q.name)
    (hp : 0 ∉ p.name) (hnot : ∀ q ∈ before, q.name ≠ p.name) (cursor : Nat) :
    (placements (before ++ p :: after) cursor).find? (fun r => nameEq r.1 p.name) =
      some (p.name ++ zeros (nameLen - p.name.length),
        ⟨cursorAfter before cursor % 2 ^ 32, p.bytes.length % 2 ^ 32⟩) := by
  induction before generalizing cursor with
  | nil =>
    rw [List.nil_append]
    unfold placements
    rw [List.find?_cons, nameEq_pad hp, beq_self_eq_true]
    rfl
  | cons q before ih =>
    rw [List.cons_append]
    unfold placements
    rw [List.find?_cons, nameEq_pad (h q List.mem_cons_self),
      beq_false_of_ne (hnot q List.mem_cons_self), cursorAfter_cons]
    exact ih (fun q' hq => h q' (List.mem_cons_of_mem _ hq))
      (fun q' hq => hnot q' (List.mem_cons_of_mem _ hq)) _

/-! ### The image -/

theorem superblock_parts (count dirs total : Nat) :
    (superblock count dirs total).length = sector ∧
      slice (superblock count dirs total) 0 magic.length = magic ∧
      slice (superblock count dirs total) 8 4 = leBytes 4 count ∧
      slice (superblock count dirs total) 12 4 = leBytes 4 dirs ∧
      slice (superblock count dirs total) 16 4 = leBytes 4 total := by
  -- The four writes are one after the other.
  have hmagic : magic.length = 8 := rfl
  have hword : ∀ n, (leBytes 4 n).length = 4 := length_leBytes 4
  have hsector : sector = 512 := rfl
  have h₀ : (zeros sector).length = sector := length_zeros sector
  have h₁ : (overwrite (zeros sector) 0 magic).length = sector := by
    rw [length_overwrite (by rw [h₀]; decide), h₀]
  have h₂ : (overwrite (overwrite (zeros sector) 0 magic) 8 (leBytes 4 count)).length = sector := by
    rw [length_overwrite (by rw [h₁, hword]; decide), h₁]
  have h₃ : (overwrite (overwrite (overwrite (zeros sector) 0 magic) 8 (leBytes 4 count)) 12
      (leBytes 4 dirs)).length = sector := by
    rw [length_overwrite (by rw [h₂, hword]; decide), h₂]
  have hself : ∀ {b : List UInt8} {off n : Nat}, b.length = sector → off + 4 ≤ sector →
      slice (overwrite b off (leBytes 4 n)) off 4 = leBytes 4 n := by
    intro b off n hb hoff
    have h : slice (overwrite b off (leBytes 4 n)) off (leBytes 4 n).length = leBytes 4 n :=
      slice_overwrite_self (by rw [hb, hword]; exact hoff)
    rwa [hword] at h
  have hapart : ∀ {b : List UInt8} {off off' len n : Nat}, b.length = sector → off + 4 ≤ sector →
      off' + len ≤ off → slice (overwrite b off (leBytes 4 n)) off' len = slice b off' len := by
    intro b off off' len n hb hoff hle
    exact slice_overwrite_of_apart (by rw [hb, hword]; exact hoff) (Or.inl hle)
  unfold superblock
  refine ⟨?_, ?_, ?_, ?_, ?_⟩
  · rw [length_overwrite (by rw [h₃, hword]; decide), h₃]
  · rw [hapart h₃ (by decide) (by decide), hapart h₂ (by decide) (by decide),
      hapart h₁ (by decide) (by decide)]
    exact slice_overwrite_self (by rw [h₀]; decide)
  · rw [hapart h₃ (by decide) (by decide), hapart h₂ (by decide) (by decide),
      hself h₁ (by decide)]
  · rw [hapart h₃ (by decide) (by decide), hself h₂ (by decide)]
  · rw [hself h₃ (by decide)]

theorem parse_superblock_eq (count dirs total : Nat) :
    parseSuperblock (superblock count dirs total) =
      .ok ⟨count % 2 ^ 32, dirs % 2 ^ 32, total % 2 ^ 32⟩ := by
  obtain ⟨hlen, hmagic, hcount, hdirs, htotal⟩ := superblock_parts count dirs total
  unfold parseSuperblock
  rw [if_neg (by rw [hlen]; decide), if_neg (not_not.mpr hmagic),
    rdU32_of_le (by rw [hlen]; decide), rdU32_of_le (by rw [hlen]; decide),
    rdU32_of_le (by rw [hlen]; decide), hcount, hdirs, htotal]
  have hword : 256 ^ 4 = 2 ^ 32 := rfl
  simp only [leValue_leBytes, hword]

/-- The first sector of the blobs. -/
def firstBlob (progs : List Program) : Nat := 1 + dirSectors progs

/-- The size of the whole archive in sectors. -/
def totalSectors (progs : List Program) : Nat := cursorAfter progs (firstBlob progs)

/-- The directory that the assembler writes. -/
def directory (progs : List Program) : List UInt8 :=
  records progs (firstBlob progs) ++
    zeros (dirSectors progs * sector - progs.length * entrySize)

/-- The image that the assembler lays out, before its checks. -/
def imageBytes (progs : List Program) : List UInt8 :=
  superblock progs.length (dirSectors progs) (totalSectors progs % 2 ^ 32) ++ directory progs ++
    blobs progs

theorem records_fit (progs : List Program) :
    progs.length * entrySize ≤ dirSectors progs * sector := by
  unfold dirSectors sectors sector
  omega

theorem length_directory (hnames : ∀ p ∈ progs, p.name.length ≤ nameLen) :
    (directory progs).length = dirSectors progs * sector := by
  have hfit := records_fit progs
  unfold directory
  rw [List.length_append, length_records hnames, length_zeros]
  omega

theorem length_front (hnames : ∀ p ∈ progs, p.name.length ≤ nameLen) (total : Nat) :
    (superblock progs.length (dirSectors progs) total ++ directory progs).length =
      firstBlob progs * sector := by
  rw [List.length_append, length_directory hnames, (superblock_parts _ _ _).1]
  unfold firstBlob
  rw [Nat.add_mul, Nat.one_mul]

theorem length_imageBytes (hnames : ∀ p ∈ progs, p.name.length ≤ nameLen) :
    (imageBytes progs).length = totalSectors progs * sector := by
  unfold imageBytes
  rw [List.length_append, length_front hnames, length_blobs]
  rfl

/-- The self-check succeeds if and only if the lengths fit the records. -/
theorem selfCheck_iff {dir before rest front : List UInt8}
    (hnames : ∀ p ∈ ps, p.name.length ≤ nameLen)
    (hdir : dir = before ++ (records ps cursor ++ rest)) (hbefore : before.length = i * entrySize)
    (himage : image = front ++ blobs ps) (hfront : front.length = cursor * sector)
    (htotal : cursorAfter ps cursor < 2 ^ 32) :
    selfCheck image dir ps i = true ↔ ∀ p ∈ ps, p.bytes.length < 2 ^ 32 := by
  induction ps generalizing i before cursor front with
  | nil => exact ⟨fun _ p hp => (nomatch hp), fun _ => rfl⟩
  | cons p ps ih =>
    have hname := hnames p List.mem_cons_self
    have hlen : (recordBytes p cursor).length = entrySize := length_recordBytes hname
    obtain ⟨-, hfirst, hbytes⟩ : slice (recordBytes p cursor) 0 nameLen = _ ∧
      slice (recordBytes p cursor) 32 4 = _ ∧ _ := slices_recordBytes hname
    rw [records_cons, List.append_assoc] at hdir
    have hrecord : slice dir (i * entrySize) entrySize = recordBytes p cursor := by
      have hmiddle := slice_middle before (recordBytes p cursor)
        (records ps (cursor + sectors p.bytes.length) ++ rest)
      rw [hbefore, hlen, List.append_assoc] at hmiddle
      rw [hdir]
      exact hmiddle
    have hcursor : cursor < 2 ^ 32 := Nat.lt_of_le_of_lt (le_cursorAfter _ _) htotal
    rw [blobs_cons, ← List.append_assoc] at himage
    rw [cursorAfter_cons] at htotal
    have hrest := ih (i := i + 1) (fun q hq => hnames q (List.mem_cons_of_mem _ hq))
      (hdir.trans (List.append_assoc _ _ _).symm)
      (by rw [List.length_append, hbefore, hlen, Nat.add_mul, Nat.one_mul]) himage
      (by rw [List.length_append, hfront, length_padded, Nat.add_mul]) htotal
    unfold selfCheck
    dsimp only
    rw [hrecord, hfirst, hbytes, leValue_leBytes, leValue_leBytes, Bool.and_eq_true,
      Bool.and_eq_true, hrest, beq_iff_eq, beq_iff_eq, List.forall_mem_cons,
      Nat.mod_eq_of_lt (show cursor < 256 ^ 4 from hcursor)]
    constructor
    · rintro ⟨⟨heq, -⟩, hall⟩
      have hlt := Nat.mod_lt p.bytes.length (show 0 < 256 ^ 4 by decide)
      rw [heq] at hlt
      exact ⟨hlt, hall⟩
    · rintro ⟨hlt, hall⟩
      rw [Nat.mod_eq_of_lt (show p.bytes.length < 256 ^ 4 from hlt)]
      refine ⟨⟨rfl, ?_⟩, hall⟩
      have hslice : slice image (cursor * sector) p.bytes.length = p.bytes := by
        rw [himage, ← hfront, List.append_assoc]
        have hright := slice_append_right front (padded p.bytes ++ blobs ps) 0 p.bytes.length
        rw [Nat.add_zero] at hright
        rw [hright]
        unfold padded
        rw [List.append_assoc, slice_left]
      exact hslice

/-- When the assembler writes an image, and which one. -/
theorem archiveImage_eq (hnames : ∀ p ∈ progs, p.name.length ≤ nameLen) :
    archiveImage progs = if totalSectors progs < 2 ^ 32 ∧ ∀ p ∈ progs, p.bytes.length < 2 ^ 32 then
      some (imageBytes progs) else none := by
  have hany : (progs.any fun p => nameLen < p.name.length) = false := by
    rw [List.any_eq_false]
    intro p hp
    have hle := hnames p hp
    simpa using hle
  have hlayout : placeAll progs 0 ⟨zeros (dirSectors progs * sector), [], 1 + dirSectors progs⟩ =
      ⟨directory progs, blobs progs, totalSectors progs⟩ := by
    exact placeAll_eq (l := ⟨zeros (dirSectors progs * sector), [], 1 + dirSectors progs⟩)
      (i := 0) hnames (show _ = [] ++ zeros (dirSectors progs * sector) from rfl)
      (Nat.zero_mul _).symm (records_fit progs)
  have hlen := length_imageBytes hnames
  unfold archiveImage
  rw [hany, if_neg Bool.false_ne_true, hlayout]
  dsimp only
  change (if (imageBytes progs).length ≠ _ then none
    else if selfCheck (imageBytes progs) _ _ _ = true then some (imageBytes progs) else none) = _
  rw [hlen]
  by_cases htotal : totalSectors progs < 2 ^ 32
  · have hcheck : selfCheck (imageBytes progs) (directory progs) progs 0 = true ↔ _ :=
      selfCheck_iff hnames (show directory progs = [] ++ (records progs (firstBlob progs) ++
        zeros (dirSectors progs * sector - progs.length * entrySize)) from rfl)
        (Nat.zero_mul _).symm rfl (length_front hnames _) htotal
    rw [if_neg (not_not.mpr (by rw [Nat.mod_eq_of_lt htotal]))]
    exact if_congr (hcheck.trans (and_iff_right htotal).symm) rfl rfl
  · have hlt := Nat.mod_lt (totalSectors progs) (show 0 < 2 ^ 32 by decide)
    have hne : totalSectors progs * sector ≠ totalSectors progs % 2 ^ 32 * sector := by
      unfold sector
      omega
    rw [if_pos hne, if_neg fun h => htotal h.1]

/-! ### Writer and reader -/

/-- The directory that a loader hands to `find`: the records behind the superblock. -/
def directoryOf (image : List UInt8) (sb : Superblock) : List UInt8 :=
  slice image sector (sb.entryCount * entrySize)

/-- The reader finds the programs in the image, and nothing else. -/
structure Agrees (progs : List Program) (image : List UInt8) (sb : Superblock) : Prop where
  parsed : parseSuperblock (slice image 0 sector) = .ok sb
  sized : sb.entryCount = progs.length ∧ image.length = sb.totalSectors * sector
  /-- The sectors of a program hold its bytes and then zeros. They are behind the directory. -/
  located : ∀ p ∈ progs, ∃ e, find (directoryOf image sb) sb p.name = .ok e ∧
    e.byteLen = p.bytes.length ∧
    slice image (e.firstSector * sector) (e.sectorCount * sector) =
      p.bytes ++ zeros (e.sectorCount * sector - p.bytes.length) ∧
    1 + sb.dirSectors ≤ e.firstSector ∧ e.firstSector + e.sectorCount ≤ sb.totalSectors
  /-- Two programs have no sector in common. -/
  apart : ∀ p ∈ progs, ∀ q ∈ progs, p.name ≠ q.name → ∀ e f,
    find (directoryOf image sb) sb p.name = .ok e → find (directoryOf image sb) sb q.name = .ok f →
    e.firstSector + e.sectorCount ≤ f.firstSector ∨ f.firstSector + f.sectorCount ≤ e.firstSector
  others : ∀ name, (∀ p ∈ progs, p.name ≠ name) →
    find (directoryOf image sb) sb name = .error .notFound

/-- The conditions on the names: 1 to 32 bytes without a zero byte, and no name twice. -/
structure GoodNames (progs : List Program) : Prop where
  length : ∀ p ∈ progs, 1 ≤ p.name.length ∧ p.name.length ≤ nameLen
  nonzero : ∀ p ∈ progs, 0 ∉ p.name
  nodup : (progs.map Program.name).Nodup

/-- Blobs that are not empty take a sector each. -/
theorem length_le_cursorAfter (h : ∀ p ∈ ps, p.bytes ≠ []) (cursor : Nat) :
    cursor + ps.length ≤ cursorAfter ps cursor := by
  induction ps generalizing cursor with
  | nil => exact Nat.le_refl _
  | cons p ps ih =>
    have hrest := ih (fun q hq => h q (List.mem_cons_of_mem _ hq))
      (cursor + sectors p.bytes.length)
    have hpos := List.length_pos_iff.mpr (h p List.mem_cons_self)
    have hone : 1 ≤ sectors p.bytes.length := by
      unfold sectors
      omega
    rw [cursorAfter_cons, List.length_cons]
    omega

section

variable (hnames : GoodNames progs) (hcount : progs.length < 2 ^ 32)
  (htotal : totalSectors progs < 2 ^ 32) (hbytes : ∀ p ∈ progs, p.bytes.length < 2 ^ 32)

/-- The superblock of the image. -/
def superblockOf (progs : List Program) : Superblock :=
  ⟨progs.length, dirSectors progs, totalSectors progs⟩

include hcount htotal in
theorem image_superblock :
    parseSuperblock (slice (imageBytes progs) 0 sector) = .ok (superblockOf progs) := by
  have hdirs : dirSectors progs < 2 ^ 32 := by
    have hle := le_cursorAfter progs (firstBlob progs)
    unfold totalSectors at htotal
    unfold firstBlob at hle htotal
    omega
  have hlen := (superblock_parts progs.length (dirSectors progs) (totalSectors progs % 2 ^ 32)).1
  have hslice : slice (imageBytes progs) 0 sector =
      superblock progs.length (dirSectors progs) (totalSectors progs % 2 ^ 32) := by
    unfold imageBytes
    rw [List.append_assoc, ← hlen, slice_left]
  rw [hslice, parse_superblock_eq, Nat.mod_mod, Nat.mod_eq_of_lt hcount, Nat.mod_eq_of_lt hdirs,
    Nat.mod_eq_of_lt htotal]
  rfl

include hnames in
theorem image_directory :
    directoryOf (imageBytes progs) (superblockOf progs) = records progs (firstBlob progs) := by
  have hlen := (superblock_parts progs.length (dirSectors progs) (totalSectors progs % 2 ^ 32)).1
  have hrecords : (records progs (firstBlob progs)).length = progs.length * entrySize :=
    length_records fun p hp => (hnames.length p hp).2
  unfold directoryOf imageBytes directory superblockOf
  dsimp only
  rw [List.append_assoc, List.append_assoc]
  have hright := slice_append_right
    (superblock progs.length (dirSectors progs) (totalSectors progs % 2 ^ 32))
    (records progs (firstBlob progs) ++
      (zeros (dirSectors progs * sector - progs.length * entrySize) ++ blobs progs)) 0
    (progs.length * entrySize)
  rw [hlen, Nat.add_zero] at hright
  rw [hright, ← hrecords, slice_left]

include hnames hcount in
theorem image_find (name : List UInt8) :
    find (directoryOf (imageBytes progs) (superblockOf progs)) (superblockOf progs) name =
      match (placements progs (firstBlob progs)).find? fun r => nameEq r.1 name with
      | some r => .ok r.2
      | none => .error .notFound := by
  have hlengths : ∀ p ∈ progs, p.name.length ≤ nameLen := fun p hp => (hnames.length p hp).2
  have hneed : (superblockOf progs).dirBytesLen = .ok (progs.length * entrySize) := by
    refine if_pos ?_
    unfold superblockOf entrySize
    dsimp only
    omega
  unfold find
  rw [hneed, image_directory hnames]
  dsimp only
  rw [if_neg (by rw [length_records hlengths]; omega)]
  show (match ((List.range progs.length).filterMap (record _)).find? _ with
    | some r => Except.ok r.2
    | none => Except.error FsError.notFound) = _
  rw [records_entries hlengths]

include hnames hcount htotal hbytes in
/-- The entry of the program behind the programs `before`. -/
theorem image_find_at {before after : List Program} (hsplit : progs = before ++ p :: after) :
    find (directoryOf (imageBytes progs) (superblockOf progs)) (superblockOf progs) p.name =
        .ok ⟨cursorAfter before (firstBlob progs), p.bytes.length⟩ ∧
      cursorAfter before (firstBlob progs) + sectors p.bytes.length ≤ totalSectors progs := by
  have hmem : p ∈ progs := by
    rw [hsplit]
    exact List.mem_append_right _ List.mem_cons_self
  have hbefore : ∀ q ∈ before, q ∈ progs := fun q hq => by
    rw [hsplit]
    exact List.mem_append_left _ hq
  have hnot : ∀ q ∈ before, q.name ≠ p.name := by
    have hnodup := hnames.nodup
    rw [hsplit, List.map_append, List.map_cons, List.nodup_append] at hnodup
    exact fun q hq => hnodup.2.2 _ (List.mem_map_of_mem hq) _ List.mem_cons_self
  have hle : cursorAfter before (firstBlob progs) + sectors p.bytes.length ≤
      totalSectors progs := by
    have hafter := le_cursorAfter after
      (cursorAfter before (firstBlob progs) + sectors p.bytes.length)
    rw [← cursorAfter_cons, ← cursorAfter_append, ← hsplit] at hafter
    exact hafter
  have hfound := placements_find after (fun q hq => hnames.nonzero q (hbefore q hq))
    (hnames.nonzero p hmem) hnot (firstBlob progs)
  rw [← hsplit] at hfound
  refine ⟨?_, hle⟩
  rw [image_find hnames hcount, hfound, Nat.mod_eq_of_lt (hbytes p hmem), Nat.mod_eq_of_lt]
  omega

include hnames in
/-- The sectors of the program behind the programs `before`. -/
theorem image_blob {before after : List Program} (hsplit : progs = before ++ p :: after) :
    slice (imageBytes progs) (cursorAfter before (firstBlob progs) * sector)
      (sectors p.bytes.length * sector) = padded p.bytes := by
  have hfront := length_front (fun p hp => (hnames.length p hp).2) (totalSectors progs % 2 ^ 32)
  have hblobs : blobs progs = blobs before ++ (padded p.bytes ++ blobs after) := by
    rw [hsplit]
    unfold blobs
    rw [List.flatMap_append, List.flatMap_cons]
  have hlen := length_blobs before (firstBlob progs)
  unfold imageBytes
  rw [hblobs, ← List.append_assoc, ← List.append_assoc]
  have hmiddle := slice_middle (superblock progs.length (dirSectors progs)
    (totalSectors progs % 2 ^ 32) ++ directory progs ++ blobs before) (padded p.bytes)
    (blobs after)
  rw [List.length_append, hfront, hlen, length_padded] at hmiddle
  exact hmiddle

include hnames hcount htotal hbytes in
theorem image_agrees : Agrees progs (imageBytes progs) (superblockOf progs) := by
  refine ⟨image_superblock hcount htotal, ⟨rfl, ?_⟩, fun p hp => ?_,
    fun p hp q hq hne e f he hf => ?_, fun name hnot => ?_⟩
  · exact length_imageBytes fun p hp => (hnames.length p hp).2
  · obtain ⟨before, after, hsplit⟩ := List.append_of_mem hp
    obtain ⟨hfind, hle⟩ := image_find_at hnames hcount htotal hbytes hsplit
    exact ⟨_, hfind, rfl, image_blob hnames hsplit, le_cursorAfter before (firstBlob progs), hle⟩
  · obtain ⟨before, after, hsplit⟩ := List.append_of_mem hp
    obtain ⟨hfind, -⟩ := image_find_at hnames hcount htotal hbytes hsplit
    rw [hfind] at he
    obtain rfl := Except.ok.inj he
    have hmem := hq
    rw [hsplit] at hmem
    rcases List.mem_append.mp hmem with hbefore | hafter
    · -- The other program comes first.
      obtain ⟨b₁, b₂, rfl⟩ := List.append_of_mem hbefore
      have hsplit' : progs = b₁ ++ q :: (b₂ ++ p :: after) := by
        rw [hsplit, List.append_assoc, List.cons_append]
      obtain ⟨hfind', -⟩ := image_find_at hnames hcount htotal hbytes hsplit'
      rw [hfind'] at hf
      obtain rfl := Except.ok.inj hf
      refine Or.inr ?_
      dsimp only
      rw [cursorAfter_append, cursorAfter_cons]
      exact le_cursorAfter b₂ _
    · rcases List.mem_cons.mp hafter with rfl | hrest
      · exact absurd rfl hne
      · obtain ⟨a₁, a₂, rfl⟩ := List.append_of_mem hrest
        have hsplit' : progs = (before ++ p :: a₁) ++ q :: a₂ := by
          rw [hsplit, List.append_assoc, List.cons_append]
        obtain ⟨hfind', -⟩ := image_find_at hnames hcount htotal hbytes hsplit'
        rw [hfind'] at hf
        obtain rfl := Except.ok.inj hf
        refine Or.inl ?_
        dsimp only
        rw [cursorAfter_append, cursorAfter_cons]
        exact le_cursorAfter a₁ _
  · rw [image_find hnames hcount, placements_none hnames.nonzero hnot]

end

/-- For every list of programs with good names, the assembler writes an image if and only if the
sizes fit 32 bits, and the reader finds the programs in it. The count of the programs fits 32 bits
too, unless there are 2^32 of them or more, some of them empty. -/
theorem archive_agrees (progs : List Program) (hnames : GoodNames progs)
    (hcount : progs.length < 2 ^ 32 ∨ ∀ p ∈ progs, p.bytes ≠ []) :
    ((archiveImage progs).isSome = true ↔
      totalSectors progs < 2 ^ 32 ∧ ∀ p ∈ progs, p.bytes.length < 2 ^ 32) ∧
    ∀ image, archiveImage progs = some image → ∃ sb, Agrees progs image sb := by
  rw [archiveImage_eq fun p hp => (hnames.length p hp).2]
  by_cases hsizes : totalSectors progs < 2 ^ 32 ∧ ∀ p ∈ progs, p.bytes.length < 2 ^ 32
  · rw [if_pos hsizes]
    refine ⟨⟨fun _ => hsizes, fun _ => rfl⟩, fun image himage => ?_⟩
    obtain rfl := Option.some.inj himage
    have hcount : progs.length < 2 ^ 32 := by
      refine hcount.elim id fun hfull => ?_
      have hle := length_le_cursorAfter hfull (firstBlob progs)
      have htotal := hsizes.1
      unfold totalSectors at htotal
      omega
    exact ⟨_, image_agrees hnames hcount hsizes.1 hsizes.2⟩
  · rw [if_neg hsizes]
    exact ⟨⟨(fun h => nomatch h), fun h => absurd h hsizes⟩, fun image himage => nomatch himage⟩

/-- Two programs, the first of them with a name of full length. -/
def twoPrograms : List Program :=
  [⟨List.replicate 32 0x61, [1, 2, 3]⟩, ⟨[0x62], [4]⟩]

theorem archive_agrees_twoPrograms : ∃ image sb, archiveImage twoPrograms = some image ∧
    Agrees twoPrograms image sb := by
  have hnames : GoodNames twoPrograms := ⟨by decide, by decide, by decide⟩
  obtain ⟨hwritten, hagrees⟩ := archive_agrees twoPrograms hnames (Or.inl (by decide))
  obtain ⟨image, himage⟩ := Option.isSome_iff_exists.mp (hwritten.mpr ⟨by decide, by decide⟩)
  obtain ⟨sb, h⟩ := hagrees image himage
  exact ⟨image, sb, himage, h⟩

end Plinth.Archive
