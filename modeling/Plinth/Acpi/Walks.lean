import Plinth.Common.Records
import Plinth.Rings

/-!
# `Plinth.Acpi.Walks`: the walks over the ACPI tables

The parsers of `kernel/src/acpi.rs`. A table is found through the RSDP and an RSDT or XSDT. The MADT
and the DMAR are lists of records, the power-off values are in the FADT and the DSDT.

A walk is kept with its reads. Each read has the table and the offset where it begins, its size, and
the record that is decoded, if any. The window over physical memory is left out: a read at a
physical address gives the byte there.
-/

set_option autoImplicit false

namespace Plinth

namespace Acpi

/-! ### Reads -/

/-- What a read is made from. -/
inductive Base where
  | rsdp (phys : Nat)
  | table (phys : Nat)
  deriving DecidableEq, Repr

/-- The physical address. -/
def Base.phys : Base → Nat
  | .rsdp phys => phys
  | .table phys => phys

/-- A record in a table: its offset, and the length that it states. -/
structure Entry where
  off : Nat
  len : Nat
  deriving DecidableEq, Repr

/-- A read of `size` bytes. -/
structure Access where
  base : Base
  off : Nat
  size : Nat
  /-- The record that is decoded. -/
  entry : Option Entry
  deriving DecidableEq, Repr

/-- A computation with its result and its reads. -/
structure Walk (α : Type) where
  value : α
  reads : List Access

instance : Monad Walk where
  pure a := ⟨a, []⟩
  bind x f := ⟨(f x.value).value, x.reads ++ (f x.value).reads⟩

namespace Walk

variable {α β : Type}

/-- The reads decode the record `e`. -/
def decoding (e : Entry) (w : Walk α) : Walk α :=
  ⟨w.value, w.reads.map fun a => { a with entry := some e }⟩

@[simp] theorem value_pure (a : α) : (pure a : Walk α).value = a := rfl

@[simp] theorem reads_pure (a : α) : (pure a : Walk α).reads = [] := rfl

@[simp] theorem value_bind (x : Walk α) (f : α → Walk β) :
    (x >>= f).value = (f x.value).value := rfl

@[simp] theorem reads_bind (x : Walk α) (f : α → Walk β) :
    (x >>= f).reads = x.reads ++ (f x.value).reads := rfl

@[simp] theorem value_decoding (e : Entry) (w : Walk α) : (w.decoding e).value = w.value := rfl

@[simp] theorem reads_decoding (e : Entry) (w : Walk α) :
    (w.decoding e).reads = w.reads.map fun a => { a with entry := some e } := rfl

end Walk

/-- A little-endian word of `size` bytes. -/
def rd (ram : Ram) (p : Base) (off size : Nat) : Walk Nat :=
  ⟨ram.read (p.phys + off) size, [⟨p, off, size, none⟩]⟩

/-- `rd_u8`. -/
def rdU8 (ram : Ram) (p : Base) (off : Nat) : Walk Nat := rd ram p off 1

/-- `rd_u16`. -/
def rdU16 (ram : Ram) (p : Base) (off : Nat) : Walk Nat := rd ram p off 2

/-- `rd_u32`. -/
def rdU32 (ram : Ram) (p : Base) (off : Nat) : Walk Nat := rd ram p off 4

/-- `rd_u64`. -/
def rdU64 (ram : Ram) (p : Base) (off : Nat) : Walk Nat := rd ram p off 8

/-- `sig4`. -/
def sig4 (ram : Ram) (p : Base) : Walk (List Nat) := do
  let a ← rdU8 ram p 0
  let b ← rdU8 ram p 1
  let c ← rdU8 ram p 2
  let d ← rdU8 ram p 3
  pure [a, b, c, d]

/-! ### Limits and constants -/

/-- `MAX_TABLES`. -/
def maxTables : Nat := 256

/-- `MAX_MADT_ENTRIES`. -/
def maxMadtEntries : Nat := 1024

/-- `MAX_ISOS`. -/
def maxIsos : Nat := 16

/-- `MAX_CPUS`. -/
def maxCpus : Nat := 16

/-- `MAX_DRHD`. -/
def maxDrhd : Nat := 8

/-- `MAX_DMAR_STRUCTS`. -/
def maxDmarStructs : Nat := 256

/-- `MAX_DSDT_SCAN`. -/
def maxDsdtScan : Nat := 2 ^ 20

/-- `DMAR_STRUCTS_OFFSET`. -/
def dmarStructsOffset : Nat := 48

/-- `DMAR_TYPE_DRHD`. -/
def dmarTypeDrhd : Nat := 0

/-- `IVRS_HEADER`. -/
def ivrsHeader : Nat := 48

/-- `AML_PACKAGE_OP`. -/
def amlPackageOp : Nat := 0x12

/-- `AML_ZERO_OP`. -/
def amlZeroOp : Nat := 0x00

/-- `AML_ONE_OP`. -/
def amlOneOp : Nat := 0x01

/-- `AML_BYTE_PREFIX`. -/
def amlBytePrefix : Nat := 0x0A

/-- The bytes of `RSD PTR `. -/
def rsdPtr : List Nat := [0x52, 0x53, 0x44, 0x20, 0x50, 0x54, 0x52, 0x20]

/-- The bytes of `APIC`. -/
def sigApic : List Nat := [0x41, 0x50, 0x49, 0x43]

/-- The bytes of `FACP`. -/
def sigFacp : List Nat := [0x46, 0x41, 0x43, 0x50]

/-- The bytes of `DMAR`. -/
def sigDmar : List Nat := [0x44, 0x4D, 0x41, 0x52]

/-- The bytes of `IVRS`. -/
def sigIvrs : List Nat := [0x49, 0x56, 0x52, 0x53]

/-! ### Tables -/

/-- The bytes at the offsets of a list. -/
def rdBytes (ram : Ram) (p : Base) : List Nat → Walk (List Nat)
  | [] => pure []
  | off :: offs => do
    let b ← rdU8 ram p off
    let bs ← rdBytes ram p offs
    pure (b :: bs)

/-- `sdt_from_rsdp`: the address of the RSDT or XSDT, and the size of its entries. -/
def sdtFromRsdp (ram : Ram) (rsdpPhys : Nat) : Walk (Option (Nat × Nat)) := do
  let sig ← rdBytes ram (.rsdp rsdpPhys) (List.range 8)
  if sig ≠ rsdPtr then pure none
  else
    let revision ← rdU8 ram (.rsdp rsdpPhys) 15
    if revision ≥ 2 then
      let sdt ← rdU64 ram (.rsdp rsdpPhys) 24
      pure (some (sdt, 8))
    else
      let sdt ← rdU32 ram (.rsdp rsdpPhys) 16
      pure (some (sdt, 4))

/-- The physical address in entry `i`. -/
def rdEntry (ram : Ram) (sdtPhys entrySize i : Nat) : Walk Nat :=
  if entrySize = 8 then rdU64 ram (.table sdtPhys) (36 + i * entrySize)
  else rdU32 ram (.table sdtPhys) (36 + i * entrySize)

/-- The loop of `find_table` from entry `i`, with `n` entries left. -/
def findTableFrom (ram : Ram) (sdtPhys entrySize : Nat) (sig : List Nat) :
    Nat → Nat → Walk (Option Nat)
  | 0, _ => pure none
  | n + 1, i => do
    let entryPhys ← rdEntry ram sdtPhys entrySize i
    let s ← sig4 ram (.table entryPhys)
    if s = sig then pure (some entryPhys)
    else findTableFrom ram sdtPhys entrySize sig n (i + 1)

/-- `find_table`. -/
def findTable (ram : Ram) (sdtPhys entrySize : Nat) (sig : List Nat) : Walk (Option Nat) := do
  let length ← rdU32 ram (.table sdtPhys) 4
  if length < 36 then pure none
  else findTableFrom ram sdtPhys entrySize sig (min ((length - 36) / entrySize) maxTables) 0

/-- `find_madt`. -/
def findMadt (ram : Ram) (sdtPhys entrySize : Nat) : Walk (Option Nat) :=
  findTable ram sdtPhys entrySize sigApic

/-! ### The power-off values -/

/-- `PowerOff`. -/
structure PowerOff where
  pm1aCnt : Nat
  pm1bCnt : Nat
  slpTypA : Nat
  slpTypB : Nat
  deriving DecidableEq, Repr

/-- `read_aml_byte_const`. -/
def readAmlByteConst (ram : Ram) (d : Base) (off len : Nat) : Walk (Option (Nat × Nat)) := do
  if off ≥ len then pure none
  else
    let op ← rdU8 ram d off
    if op = amlZeroOp then pure (some (0, off + 1))
    else if op = amlOneOp then pure (some (1, off + 1))
    else if op = amlBytePrefix ∧ off + 1 < len then
      let b ← rdU8 ram d (off + 1)
      pure (some (b, off + 2))
    else pure none

/-- The bytes at the offsets are the given ones. The first that differs ends the comparison. -/
def bytesAre (ram : Ram) (d : Base) : List (Nat × Nat) → Walk Bool
  | [] => pure true
  | (off, b) :: rest => do
    let x ← rdU8 ram d off
    if x = b then bytesAre ram d rest else pure false

/-- The two elements of the package at `i`. -/
def decodeS5 (ram : Ram) (d : Base) (dlen i pm1aCnt pm1bCnt : Nat) : Walk (Option PowerOff) := do
  let lead ← rdU8 ram d (i + 5)
  let pkgLenBytes := 1 + lead / 2 ^ 6
  let elemsAt := i + 5 + pkgLenBytes + 1
  match ← readAmlByteConst ram d elemsAt dlen with
  | none => pure none
  | some a =>
    let b ← readAmlByteConst ram d a.2 dlen
    pure (some ⟨pm1aCnt, pm1bCnt, a.1, (b.map Prod.fst).getD 0⟩)

/-- The scan for `_S5_` from `i`. It ends because `i` grows up to the length. -/
def scanS5 (ram : Ram) (d : Base) (dlen pm1aCnt pm1bCnt i : Nat) : Walk (Option PowerOff) :=
  if i + 8 < dlen then do
    let here ← bytesAre ram d
      [(i, 0x5F), (i + 1, 0x53), (i + 2, 0x35), (i + 3, 0x5F), (i + 4, amlPackageOp)]
    if here then decodeS5 ram d dlen i pm1aCnt pm1bCnt
    else scanS5 ram d dlen pm1aCnt pm1bCnt (i + 1)
  else pure none
termination_by dlen - i

/-- The part of `find_poweroff` after the FADT. -/
def scanDsdt (ram : Ram) (dsdt pm1aCnt pm1bCnt : Nat) : Walk (Option PowerOff) := do
  if dsdt = 0 then pure none
  else
    let length ← rdU32 ram (.table dsdt) 4
    let dlen := min length maxDsdtScan
    if dlen < 36 then pure none
    else scanS5 ram (.table dsdt) dlen pm1aCnt pm1bCnt 36

/-- `X_Dsdt`, if the FADT has it. -/
def rdXDsdt (ram : Ram) (f : Base) (flen : Nat) : Walk Nat :=
  if flen ≥ 148 then rdU64 ram f 140 else pure 0

/-- `find_poweroff`. -/
def findPoweroff (ram : Ram) (sdtPhys entrySize : Nat) : Walk (Option PowerOff) := do
  match ← findTable ram sdtPhys entrySize sigFacp with
  | none => pure none
  | some fadt =>
    let f := Base.table fadt
    let flen ← rdU32 ram f 4
    if flen < 116 then pure none
    else
      let pm1a ← rdU32 ram f 64
      let pm1b ← rdU32 ram f 68
      if pm1a % 2 ^ 16 = 0 then pure none
      else
        let wide ← rdXDsdt ram f flen
        if wide ≠ 0 then
          let dsdt ← rdU64 ram f 140
          scanDsdt ram dsdt (pm1a % 2 ^ 16) (pm1b % 2 ^ 16)
        else
          let dsdt ← rdU32 ram f 40
          scanDsdt ram dsdt (pm1a % 2 ^ 16) (pm1b % 2 ^ 16)

/-! ### The IVRS -/

/-- `Ivrs`. -/
structure Ivrs where
  mmioBase : Nat
  segment : Nat
  iommuBdf : Nat
  hostAddrWidth : Nat
  deriving DecidableEq, Repr

/-- The length that the first IVHD states. The parser does not look at it. -/
def ivhdLen (ram : Ram) (p : Nat) : Nat := ram.read (p + ivrsHeader + 2) 2

/-- The fields of the first IVHD. -/
def readIvhd (ram : Ram) (p : Base) : Walk (Option Ivrs) := do
  let iommuBdf ← rdU16 ram p (ivrsHeader + 4)
  let mmioBase ← rdU64 ram p (ivrsHeader + 8)
  let segment ← rdU16 ram p (ivrsHeader + 16)
  if mmioBase = 0 then pure none else pure (some ⟨mmioBase, segment, iommuBdf, 48⟩)

/-- The part of `find_ivrs` after the table is found. -/
def parseIvrs (ram : Ram) (ivrsPhys : Nat) : Walk (Option Ivrs) := do
  let p := Base.table ivrsPhys
  let length ← rdU32 ram p 4
  if length < ivrsHeader + 24 then pure none
  else (readIvhd ram p).decoding ⟨ivrsHeader, ivhdLen ram ivrsPhys⟩

/-- `find_ivrs`. -/
def findIvrs (ram : Ram) (rsdp : Option Nat) : Walk (Option Ivrs) := do
  match rsdp with
  | none => pure none
  | some rsdpPhys =>
    match ← sdtFromRsdp ram rsdpPhys with
    | none => pure none
    | some (sdt, entrySize) =>
      match ← findTable ram sdt entrySize sigIvrs with
      | none => pure none
      | some ivrsPhys => parseIvrs ram ivrsPhys

/-! ### The DMAR -/

/-- `Drhd`. -/
structure Drhd where
  registerBase : Nat
  segment : Nat
  includePciAll : Bool
  deriving DecidableEq, Repr

/-- `Dmar`. The list of the units is `drhds` up to `drhd_count`. -/
structure Dmar where
  hostAddrWidth : Nat
  drhds : List Drhd
  deriving DecidableEq, Repr

/-- The unit of a structure. -/
def readDrhd (ram : Ram) (p : Base) (off : Nat) : Walk Drhd := do
  let registerBase ← rdU64 ram p (off + 8)
  let segment ← rdU16 ram p (off + 6)
  let flags ← rdU8 ram p (off + 4)
  pure ⟨registerBase, segment, flags % 2 ≠ 0⟩

/-- The loop of `find_dmar`, with `n` structures left to walk. -/
def dmarLoop (ram : Ram) (p : Base) (length : Nat) : Nat → Nat → List Drhd → Walk (List Drhd)
  | 0, _, drhds => pure drhds
  | n + 1, off, drhds => do
    if off + 4 ≤ length then
      let stype ← rdU16 ram p off
      let slen ← rdU16 ram p (off + 2)
      if slen < 4 ∨ off + slen > length then pure drhds
      else if stype = dmarTypeDrhd ∧ drhds.length < maxDrhd then
        let drhd ← (readDrhd ram p off).decoding ⟨off, slen⟩
        dmarLoop ram p length n (off + slen) (drhds ++ [drhd])
      else dmarLoop ram p length n (off + slen) drhds
    else pure drhds

/-- The part of `find_dmar` after the table is found. -/
def parseDmar (ram : Ram) (dmarPhys : Nat) : Walk (Option Dmar) := do
  let p := Base.table dmarPhys
  let length ← rdU32 ram p 4
  if length < dmarStructsOffset then pure none
  else
    let width ← rdU8 ram p 36
    let drhds ← dmarLoop ram p length maxDmarStructs dmarStructsOffset []
    pure (some ⟨min (width + 1) 255, drhds⟩)

/-- `find_dmar`. -/
def findDmar (ram : Ram) (rsdp : Option Nat) : Walk (Option Dmar) := do
  match rsdp with
  | none => pure none
  | some rsdpPhys =>
    match ← sdtFromRsdp ram rsdpPhys with
    | none => pure none
    | some (sdt, entrySize) =>
      match ← findTable ram sdt entrySize sigDmar with
      | none => pure none
      | some dmarPhys => parseDmar ram dmarPhys

/-! ### The MADT -/

/-- `Iso`. -/
structure Iso where
  source : Nat
  gsi : Nat
  activeLow : Bool
  level : Bool
  deriving DecidableEq, Repr

/-- `Topology`. The lists are the arrays up to their counts. -/
structure Topology where
  lapicBase : Nat
  ioapicBase : Nat
  ioapicGsiBase : Nat
  isos : List Iso
  cpuApicIds : List Nat
  deriving DecidableEq, Repr

/-- The locals of `parse_madt`: the topology so far, and the counts of CPUs and I/O APICs. -/
structure Scan where
  top : Topology
  cpus : Nat
  ioapics : Nat
  deriving DecidableEq, Repr

/-- The decoding of an entry at `off`. -/
def madtEntry (ram : Ram) (p : Base) (off etype : Nat) (st : Scan) : Walk Scan := do
  match etype with
  | 0 =>
    let apicId ← rdU8 ram p (off + 3)
    let flags ← rdU32 ram p (off + 4)
    if flags % 2 ≠ 0 then
      let ids := st.top.cpuApicIds
      let top := if ids.length < maxCpus then { st.top with cpuApicIds := ids ++ [apicId] }
        else st.top
      pure { st with top, cpus := st.cpus + 1 }
    else pure st
  | 1 =>
    let _ ← rdU8 ram p (off + 2)
    let addr ← rdU32 ram p (off + 4)
    let gsiBase ← rdU32 ram p (off + 8)
    let top := if st.ioapics = 0 then { st.top with ioapicBase := addr, ioapicGsiBase := gsiBase }
      else st.top
    pure { st with top, ioapics := st.ioapics + 1 }
  | 2 =>
    let source ← rdU8 ram p (off + 3)
    let gsi ← rdU32 ram p (off + 4)
    let flags ← rdU16 ram p (off + 8)
    let isos := st.top.isos
    let iso : Iso := ⟨source, gsi, flags % 4 = 3, flags / 4 % 4 = 3⟩
    let top := if isos.length < maxIsos then { st.top with isos := isos ++ [iso] } else st.top
    pure { st with top }
  | 5 =>
    let lapicBase ← rdU64 ram p (off + 4)
    pure { st with top := { st.top with lapicBase } }
  | 9 =>
    let _ ← rdU32 ram p (off + 4)
    let flags ← rdU32 ram p (off + 8)
    pure (if flags % 2 ≠ 0 then { st with cpus := st.cpus + 1 } else st)
  | _ => pure st

/-- The loop of `parse_madt`, with `n` entries left to walk. -/
def madtLoop (ram : Ram) (p : Base) (length : Nat) : Nat → Nat → Scan → Walk Scan
  | 0, _, st => pure st
  | n + 1, off, st => do
    if off + 2 ≤ length then
      let etype ← rdU8 ram p off
      let elen ← rdU8 ram p (off + 1)
      if elen < 2 ∨ off + elen > length then pure st
      else
        let st ← (madtEntry ram p off etype st).decoding ⟨off, elen⟩
        madtLoop ram p length n (off + elen) st
    else pure st

/-- `parse_madt`. -/
def parseMadt (ram : Ram) (madtPhys : Nat) : Walk Topology := do
  let p := Base.table madtPhys
  let length ← rdU32 ram p 4
  let lapicBase ← rdU32 ram p 36
  let st ← madtLoop ram p length maxMadtEntries 44 ⟨⟨lapicBase, 0, 0, [], []⟩, 0, 0⟩
  pure st.top

/-- `init`: the topology, and the power-off values that it stores. -/
def init (ram : Ram) (rsdp : Option Nat) : Walk (Option Topology × Option PowerOff) := do
  match rsdp with
  | none => pure (none, none)
  | some rsdpPhys =>
    match ← sdtFromRsdp ram rsdpPhys with
    | none => pure (none, none)
    | some (sdt, entrySize) =>
      let madt ← findMadt ram sdt entrySize
      let po ← findPoweroff ram sdt entrySize
      match madt with
      | none => pure (none, po)
      | some madtPhys =>
        let top ← parseMadt ram madtPhys
        pure (some top, po)

end Acpi

end Plinth
