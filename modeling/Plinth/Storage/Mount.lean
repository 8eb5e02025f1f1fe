import Plinth.Storage.Bitmap
import Plinth.Storage.Directory
import Plinth.VirtioBlk

/-!
# `Plinth.Storage.Mount`: the read-write filesystem

The model of `librwfs`. A mount keeps a copy of the metadata in memory: a superblock, the bitmap and
the directory, in the first four sectors of its range. Every change of the metadata goes to the disk
as a whole, and the data of a file goes through the same DMA frame.

A `Device` is the range with the frame. A request moves whole sectors between the two, if its
status says so, and a read returns the bytes last written.
-/

set_option autoImplicit false

namespace Plinth.Rwfs

open Bytes Bitmap Directory

/-! ### The layout -/

/-- `SECTOR`. -/
def sector : Nat := 512

/-- `MAGIC`: "PLNTHRW1". -/
def magic : List UInt8 := [0x50, 0x4C, 0x4E, 0x54, 0x48, 0x52, 0x57, 0x31]

/-- `DIR_BYTES`, for 16 entries. -/
def dirBytes : Nat := 640

/-- `BITMAP_BYTES`. -/
def bitmapBytes : Nat := 512

/-- `DATA_START`: the superblock, the bitmap and two sectors of the directory. -/
def dataStart : Nat := 4

/-- `BITMAP_OFF`. -/
def bitmapOff : Nat := 512

/-- `DIR_OFF`. -/
def dirOff : Nat := 1024

/-- `META_BYTES`. -/
def metaBytes : Nat := 2048

/-- `MAX_FILE_BYTES`, the size of the frame. -/
def maxFileBytes : Nat := 4096

/-- `n.div_ceil(SECTOR)`. -/
def sectors (n : Nat) : Nat := (n + 511) / 512

/-- `RwfsError`. -/
inductive RwfsError where
  | io
  | badMagic
  | truncated
  | invalidLen
  | bitmap (e : BitmapError)
  | dir (e : DirError)
  deriving DecidableEq, Repr

/-! ### The device -/

/-- The bytes of the range and of the DMA frame, with the statuses of the requests to come. When
they run out, every request succeeds. -/
structure Device where
  disk : List UInt8
  frame : List UInt8
  statuses : List Nat

/-- The status of the next request. -/
def Device.status (d : Device) : Nat := d.statuses.headD blkOk

/-- The device after a request has taken its status. -/
def Device.next (d : Device) : Device := { d with statuses := d.statuses.tail }

/-- A read of `count` sectors from `first` into the frame. -/
def Device.read (d : Device) (first count : Nat) : Nat × Device :=
  (d.status,
    if d.status = blkOk then
      { d.next with
        frame := overwrite d.frame 0 (slice d.disk (first * sector) (count * sector)) }
    else d.next)

/-- A write of `count` sectors from the frame to `first`. -/
def Device.write (d : Device) (first count : Nat) : Nat × Device :=
  (d.status,
    if d.status = blkOk then
      { d.next with
        disk := overwrite d.disk (first * sector) (slice d.frame 0 (count * sector)) }
    else d.next)

/-- Put bytes at the start of the frame. -/
def Device.put (d : Device) (bytes : List UInt8) : Device :=
  { d with frame := overwrite d.frame 0 bytes }

/-! ### The mount -/

/-- `Mount`: the number of data sectors and `meta`. -/
structure Mount where
  dataSectors : Nat
  metadata : List UInt8
  deriving DecidableEq

/-- `bitmap_slice`. -/
def Mount.bitmap (m : Mount) : List UInt8 := slice m.metadata bitmapOff bitmapBytes

/-- `dir_slice`. -/
def Mount.dir (m : Mount) : List UInt8 := slice m.metadata dirOff dirBytes

/-- Write the bitmap through `bitmap_slice`. -/
def Mount.setBitmap (m : Mount) (bitmap : List UInt8) : Mount :=
  { m with metadata := overwrite m.metadata bitmapOff bitmap }

/-- Write the directory through `dir_slice`. -/
def Mount.setDir (m : Mount) (dir : List UInt8) : Mount :=
  { m with metadata := overwrite m.metadata dirOff dir }

/-- `persist_meta`. -/
def Mount.persistMeta (m : Mount) (d : Device) : Except RwfsError Unit × Device :=
  match (d.put m.metadata).write 0 dataStart with
  | (status, d') => (if status ≠ blkOk then .error .io else .ok (), d')

/-- `let _ = bitmap::free(..)`. -/
def Mount.tryFree (m : Mount) (rel n : Nat) : Mount :=
  match Bitmap.free m.bitmap m.dataSectors rel n with
  | .ok bitmap => m.setBitmap bitmap
  | .error _ => m

/-- `let _ = directory::remove(..)`. -/
def Mount.tryRemove (m : Mount) (name : List UInt8) : Mount :=
  match Directory.remove m.dir name with
  | .ok (_, dir) => m.setDir dir
  | .error _ => m

/-- The metadata of an empty filesystem. -/
def emptyMeta (dataSectors : Nat) : List UInt8 :=
  overwrite (overwrite (zeros metaBytes) 0 magic) 8 (leBytes 4 dataSectors)

/-- `Mount::format`. -/
def Mount.format (totalSectors : Nat) (d : Device) : Except RwfsError Mount × Device :=
  if totalSectors ≤ dataStart then (.error .truncated, d)
  else
    let mount : Mount := ⟨totalSectors - dataStart, emptyMeta (totalSectors - dataStart)⟩
    match mount.persistMeta d with
    | (.error e, d1) => (.error e, d1)
    | (.ok _, d1) =>
      match d1.read 0 dataStart with
      | (status, d2) =>
        let back := slice d2.frame 0 metaBytes
        if status ≠ blkOk then (.error .io, d2)
        else if slice back 0 magic.length ≠ magic then (.error .badMagic, d2)
        else if back ≠ mount.metadata then (.error .io, d2)
        else (.ok mount, d2)

/-- `Mount::create`. The sector of the file is a word of 32 bits. -/
def Mount.create (m : Mount) (d : Device) (name data : List UInt8) :
    Except RwfsError Unit × Mount × Device :=
  if data = [] ∨ data.length > maxFileBytes then (.error .invalidLen, m, d)
  else
    let n := sectors data.length
    match Bitmap.alloc m.bitmap m.dataSectors n with
    | .error e => (.error (.bitmap e), m, d)
    | .ok (rel, bitmap) =>
      let m1 := m.setBitmap bitmap
      let absSector := (dataStart + rel) % 2 ^ 32
      match Directory.create m1.dir name absSector data.length with
      | .error e => (.error (.dir e), m1.tryFree rel n, d)
      | .ok dir =>
        let m2 := m1.setDir dir
        match ((d.put (zeros (n * sector))).put data).write absSector n with
        | (status, d1) =>
          if status ≠ blkOk then (.error .io, (m2.tryRemove name).tryFree rel n, d1)
          else
            match m2.persistMeta d1 with
            | (r, d2) => (r, m2, d2)

/-- `Mount::stat`. -/
def Mount.stat (m : Mount) (name : List UInt8) : Except RwfsError (Nat × Nat) :=
  match Directory.find m.dir name with
  | .error e => .error (.dir e)
  | .ok e => .ok (e.firstSector, e.byteLen)

/-- `Mount::read`: the result, the buffer and the device afterwards. -/
def Mount.read (m : Mount) (d : Device) (name out : List UInt8) :
    Except RwfsError Nat × List UInt8 × Device :=
  match Directory.find m.dir name with
  | .error e => (.error (.dir e), out, d)
  | .ok e =>
    if out.length < e.byteLen then (.error .invalidLen, out, d)
    else
      match d.read e.firstSector e.sectorCount with
      | (status, d1) =>
        if status ≠ blkOk then (.error .io, out, d1)
        else (.ok e.byteLen, overwrite out 0 (slice d1.frame 0 e.byteLen), d1)

/-- `Mount::delete`. The difference of the sectors is a word of 32 bits. -/
def Mount.delete (m : Mount) (d : Device) (name : List UInt8) :
    Except RwfsError Unit × Mount × Device :=
  match Directory.remove m.dir name with
  | .error e => (.error (.dir e), m, d)
  | .ok (entry, dir) =>
    let m1 := m.setDir dir
    let rel := (entry.firstSector + 2 ^ 32 - dataStart) % 2 ^ 32
    match Bitmap.free m1.bitmap m1.dataSectors rel entry.sectorCount with
    | .error e => (.error (.bitmap e), m1, d)
    | .ok bitmap =>
      let m2 := m1.setBitmap bitmap
      match m2.persistMeta d with
      | (r, d1) => (r, m2, d1)

/-! ### The parts of the metadata -/

section
variable {m : Mount} {bitmap dir : List UInt8} (hmeta : m.metadata.length = metaBytes)
include hmeta

theorem length_bitmap : m.bitmap.length = bitmapBytes :=
  length_slice (by rw [hmeta]; decide)

theorem length_dir : m.dir.length = dirBytes :=
  length_slice (by rw [hmeta]; decide)

section
variable (hlen : bitmap.length = bitmapBytes)
include hlen

theorem length_setBitmap : (m.setBitmap bitmap).metadata.length = metaBytes := by
  show (overwrite m.metadata bitmapOff bitmap).length = _
  rw [length_overwrite (by rw [hmeta, hlen]; decide), hmeta]

theorem bitmap_setBitmap : (m.setBitmap bitmap).bitmap = bitmap := by
  show slice (overwrite m.metadata bitmapOff bitmap) bitmapOff bitmapBytes = _
  rw [← hlen]
  exact slice_overwrite_self (by rw [hmeta, hlen]; decide)

theorem dir_setBitmap : (m.setBitmap bitmap).dir = m.dir :=
  slice_overwrite_of_apart (by rw [hmeta, hlen]; decide) (Or.inr (by rw [hlen]; decide))

/-- To write the bitmap back restores the metadata. -/
theorem setBitmap_setBitmap : (m.setBitmap bitmap).setBitmap m.bitmap = m := by
  have hold := length_bitmap hmeta
  have hbytes : overwrite (overwrite m.metadata bitmapOff bitmap) bitmapOff m.bitmap =
      m.metadata := by
    refine List.ext_getElem? fun i => ?_
    rw [overwrite_getElem? (by rw [length_overwrite (by rw [hmeta, hlen]; decide), hmeta, hold]
                               decide),
      overwrite_getElem? (by rw [hmeta, hlen]; decide), hold, hlen]
    by_cases hin : bitmapOff ≤ i ∧ i < bitmapOff + bitmapBytes
    · rw [if_pos hin]
      have hoff : i - bitmapOff < bitmapBytes := by omega
      have hback : bitmapOff + (i - bitmapOff) = i := by omega
      unfold Mount.bitmap
      rw [slice_getElem?, if_pos hoff, hback]
    · rw [if_neg hin, if_neg hin]
  show (⟨m.dataSectors, overwrite (overwrite m.metadata bitmapOff bitmap) bitmapOff m.bitmap⟩ :
    Mount) = m
  rw [hbytes]

end

section
variable (hlen : dir.length = dirBytes)
include hlen

theorem length_setDir : (m.setDir dir).metadata.length = metaBytes := by
  show (overwrite m.metadata dirOff dir).length = _
  rw [length_overwrite (by rw [hmeta, hlen]; decide), hmeta]

theorem dir_setDir : (m.setDir dir).dir = dir := by
  show slice (overwrite m.metadata dirOff dir) dirOff dirBytes = _
  rw [← hlen]
  exact slice_overwrite_self (by rw [hmeta, hlen]; decide)

theorem bitmap_setDir : (m.setDir dir).bitmap = m.bitmap :=
  slice_overwrite_of_apart (by rw [hmeta, hlen]; decide) (Or.inl (by decide))

end

end

end Plinth.Rwfs
