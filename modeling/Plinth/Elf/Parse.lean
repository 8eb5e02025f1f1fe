import Plinth.Common.Bytes
import Plinth.Common.Checked
import Plinth.Process

/-!
# `Plinth.Elf.Parse`: the parser of binaries

`kernel/src/elf.rs`: `parse` reads a binary as a static ELF64 executable and returns its load plan,
or the first reason to refuse it. All of it is untrusted input.

Words are numbers below 2^64. Where the source adds without a check, the model crashes when the sum
is no such number. A segment keeps the two bits of its flags that the loader looks at.
-/

set_option autoImplicit false

namespace Plinth

namespace Elf

open Bytes Checked

/-! ### Constants -/

/-- `ELF_MAGIC`. -/
def elfMagic : List UInt8 := [0x7f, 0x45, 0x4c, 0x46]

/-- `ELFCLASS64`. -/
def elfClass64 : UInt8 := 2

/-- `ELFDATA2LSB`. -/
def elfData2Lsb : UInt8 := 1

/-- `EV_CURRENT`. -/
def evCurrent : UInt8 := 1

/-- `ET_EXEC`. -/
def etExec : Nat := 2

/-- `EM_X86_64`. -/
def emX8664 : Nat := 62

/-- `PT_LOAD`. -/
def ptLoad : Nat := 1

/-- `PT_INTERP`. -/
def ptInterp : Nat := 3

/-- `EHDR_SIZE`. -/
def ehdrSize : Nat := 64

/-- `PHDR_SIZE`. -/
def phdrSize : Nat := 56

/-- `PF_X`. -/
def pfX : UInt32 := 1

/-- `PF_W`. -/
def pfW : UInt32 := 2

/-- `PF_R`. -/
def pfR : UInt32 := 4

/-- `MAX_PHDRS`. -/
def maxPhdrs : Nat := 16

/-- `MAX_LOAD_SEGS`. -/
def maxLoadSegs : Nat := 16

/-- `ElfError`. -/
inductive ElfError where
  | tooSmall
  | badMagic
  | badClass
  | badData
  | badVersion
  | notExec
  | badMachine
  | badPhEntSize
  | tooManyPhdrs
  | phdrsOutOfBounds
  | noLoadable
  | dynamicInterp
  | segmentFileRange
  | segmentSizes
  | segmentUnaligned
  | segmentOverflow
  | segmentOutOfWindow
  | segmentOverlap
  | badFlags
  | wxViolation
  | tooLarge
  | badEntry
  deriving DecidableEq, Repr

/-- `as_str`. -/
def ElfError.asStr : ElfError → String
  | .tooSmall => "elf: file too small"
  | .badMagic => "elf: bad magic"
  | .badClass => "elf: not 64-bit"
  | .badData => "elf: not little-endian"
  | .badVersion => "elf: bad version"
  | .notExec => "elf: not ET_EXEC (link with -no-pie)"
  | .badMachine => "elf: not x86-64"
  | .badPhEntSize => "elf: bad phentsize"
  | .tooManyPhdrs => "elf: too many program headers"
  | .phdrsOutOfBounds => "elf: phdr table out of bounds"
  | .noLoadable => "elf: no loadable segment"
  | .dynamicInterp => "elf: dynamic linking unsupported"
  | .segmentFileRange => "elf: segment file range out of bounds"
  | .segmentSizes => "elf: p_filesz exceeds p_memsz"
  | .segmentUnaligned => "elf: segment vaddr not page-aligned"
  | .segmentOverflow => "elf: segment address overflow"
  | .segmentOutOfWindow => "elf: segment outside image window"
  | .segmentOverlap => "elf: segments overlap"
  | .badFlags => "elf: bad segment flags"
  | .wxViolation => "elf: write+execute segment"
  | .tooLarge => "elf: image too large"
  | .badEntry => "elf: entry not in an executable segment"

/-- The `Image` that `parse` returns: the entry point and the segments in the order of the file. -/
structure Image where
  entry : Nat
  segs : List LoadSeg
  deriving DecidableEq, Repr

/-! ### Fields -/

/-- `rd_u16`, `rd_u32` and `rd_u64`: a word of `n` bytes. -/
def rd (n : Nat) (b : List UInt8) (off : Nat) : Call ElfError (Option Nat) := do
  let stop ← add off n
  return if stop ≤ b.length then some (leValue (slice b off n)) else none

/-- A field that must be in the file. -/
def field (n : Nat) (b : List UInt8) (off : Nat) (e : ElfError) : Call ElfError Nat := do
  let x ← rd n b off
  okOr x e

/-! ### The file header -/

/-- What the rest of `parse` needs of the file header. -/
structure Header where
  entry : Nat
  phoff : Nat
  phnum : Nat
  deriving DecidableEq, Repr

/-- The part of `parse` that checks the file header and the extent of the program headers. -/
def header (bytes : List UInt8) : Call ElfError Header := do
  reject (bytes.length < ehdrSize) .tooSmall
  let magic ← range bytes 0 4
  reject (magic ≠ elfMagic) .badMagic
  let cls ← index bytes 4
  reject (cls ≠ elfClass64) .badClass
  let data ← index bytes 5
  reject (data ≠ elfData2Lsb) .badData
  let version ← index bytes 6
  reject (version ≠ evCurrent) .badVersion
  let eType ← field 2 bytes 16 .tooSmall
  reject (eType ≠ etExec) .notExec
  let eMachine ← field 2 bytes 18 .tooSmall
  reject (eMachine ≠ emX8664) .badMachine
  let eVersion ← field 4 bytes 20 .tooSmall
  reject (eVersion ≠ evCurrent.toNat) .badVersion
  let entry ← field 8 bytes 24 .tooSmall
  let phoff ← field 8 bytes 32 .tooSmall
  let phentsize ← field 2 bytes 54 .tooSmall
  let phnum ← field 2 bytes 56 .tooSmall
  reject (phentsize ≠ phdrSize) .badPhEntSize
  reject (maxPhdrs < phnum) .tooManyPhdrs
  let phTable ← okOr ((checkedMul phnum phdrSize).bind fun sz => checkedAdd phoff sz)
    .phdrsOutOfBounds
  reject (bytes.length < phTable) .phdrsOutOfBounds
  return ⟨entry, phoff, phnum⟩

/-! ### The program headers -/

/-- What the loop over the program headers has so far. `nsegs` is the length of `segs`. -/
structure Scan where
  segs : List LoadSeg
  totalPages : Nat
  deriving DecidableEq, Repr

/-- The loop that compares a segment with the accepted ones. -/
def overlaps (vaddr segEnd : Nat) : List LoadSeg → Call ElfError Unit
  | [] => pure ()
  | prior :: rest => do
    let priorEnd ← add prior.vaddr prior.memsz
    reject (vaddr < priorEnd ∧ prior.vaddr < segEnd) .segmentOverlap
    overlaps vaddr segEnd rest

/-- The fields of a program header of type `PT_LOAD`. -/
structure Phdr where
  flags : UInt32
  offset : Nat
  vaddr : Nat
  filesz : Nat
  memsz : Nat
  deriving DecidableEq, Repr

/-- The segment of a program header. -/
def Phdr.seg (p : Phdr) : LoadSeg where
  vaddr := p.vaddr
  offset := p.offset
  filesz := p.filesz
  memsz := p.memsz
  writable := p.flags &&& pfW ≠ 0
  executable := p.flags &&& pfX ≠ 0

/-- Read the fields of the program header at `base`. -/
def readPhdr (bytes : List UInt8) (base : Nat) : Call ElfError Phdr := do
  let flags ← field 4 bytes (← add base 4) .phdrsOutOfBounds
  let offset ← field 8 bytes (← add base 8) .phdrsOutOfBounds
  let vaddr ← field 8 bytes (← add base 16) .phdrsOutOfBounds
  let filesz ← field 8 bytes (← add base 32) .phdrsOutOfBounds
  let memsz ← field 8 bytes (← add base 40) .phdrsOutOfBounds
  return ⟨UInt32.ofNat flags, offset, vaddr, filesz, memsz⟩

/-- The checks of one segment, and its place in the plan. -/
def accept (bytes : List UInt8) (imageBase imageEnd maxImagePages : Nat) (p : Phdr) (st : Scan) :
    Call ElfError Scan := do
  reject (p.memsz < p.filesz) .segmentSizes
  let fileEnd ← okOr (checkedAdd p.offset p.filesz) .segmentFileRange
  reject (bytes.length < fileEnd) .segmentFileRange
  reject (p.vaddr % frameSize ≠ 0) .segmentUnaligned
  let segEnd ← okOr (checkedAdd p.vaddr p.memsz) .segmentOverflow
  reject (p.vaddr < imageBase ∨ imageEnd < segEnd) .segmentOutOfWindow
  reject (p.flags &&& pfR = 0 ∨ p.flags &&& ~~~(pfR ||| pfW ||| pfX) ≠ 0) .badFlags
  reject (p.flags &&& pfW ≠ 0 ∧ p.flags &&& pfX ≠ 0) .wxViolation
  overlaps p.vaddr segEnd st.segs
  let totalPages ← okOr (checkedAdd st.totalPages p.seg.pages) .tooLarge
  reject (maxImagePages < totalPages) .tooLarge
  -- `segs` is an array of this length.
  if st.segs.length < maxLoadSegs then
    return ⟨st.segs ++ [p.seg], totalPages⟩
  else .error .crash

/-- One round of the loop over the program headers. -/
def phdr (bytes : List UInt8) (imageBase imageEnd maxImagePages phoff i : Nat) (st : Scan) :
    Call ElfError Scan := do
  let base ← add phoff (← mul i phdrSize)
  let pType ← field 4 bytes base .phdrsOutOfBounds
  reject (pType = ptInterp) .dynamicInterp
  if pType ≠ ptLoad then return st
  else
    let p ← readPhdr bytes base
    if p.memsz = 0 then return st
    else accept bytes imageBase imageEnd maxImagePages p st

/-- The loop over the program headers from the `i`-th on. -/
def phdrs (bytes : List UInt8) (imageBase imageEnd maxImagePages phoff : Nat) :
    Nat → Nat → Scan → Call ElfError Scan
  | 0, _, st => pure st
  | n + 1, i, st => do
    let st ← phdr bytes imageBase imageEnd maxImagePages phoff i st
    phdrs bytes imageBase imageEnd maxImagePages phoff n (i + 1) st

/-- Is the entry point in an executable segment? -/
def entryOk (entry : Nat) : List LoadSeg → Call ElfError Bool
  | [] => pure false
  | s :: rest =>
    if s.executable then do
      let stop ← add s.vaddr s.memsz
      if s.vaddr ≤ entry ∧ entry < stop then pure true else entryOk entry rest
    else entryOk entry rest

/-- `parse`. -/
def parse (bytes : List UInt8) (imageBase imageEnd maxImagePages : Nat) :
    Call ElfError Image := do
  let hd ← header bytes
  let st ← phdrs bytes imageBase imageEnd maxImagePages hd.phoff hd.phnum 0 ⟨[], 0⟩
  reject (st.segs = []) .noLoadable
  let ok ← entryOk hd.entry st.segs
  reject (ok = false) .badEntry
  return ⟨hd.entry, st.segs⟩

end Elf

end Plinth
