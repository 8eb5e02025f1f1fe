import Mathlib.Logic.Function.Basic
import Plinth.FrameAlloc
import Plinth.Iommu.Entries

/-!
# `Plinth.Iommu.Tables`: the DMA tables of a domain

The model of `Domain` and of `IovaAllocator` in `kernel/src/iommu.rs`. The tables are a tree of
frames with 512 entries each, and the memory of all frames is one function. The walk loops of the
source go from the root to the leaf level: `below` is `levels - 1 - depth`, the number of levels
below the table that the walk has reached.

`hwWalk` is the walk of the AMD hardware. It does not know the number of levels below a table, and
goes by the Next Level fields.

A `System` is a domain in use, with the map that its calls should have made.
-/

set_option autoImplicit false

namespace Plinth.Iommu

/-- `PAGE_SHIFT`. -/
def pageShift : Nat := 12

/-- `INDEX_BITS`. -/
def indexBits : Nat := 9

/-- `ENTRIES`. -/
def entries : Nat := 512

/-- `DomainError`. -/
inductive DomainError where
  | exhausted
  | misaligned
  | alreadyMapped
  | notMapped
  | unsupportedWidth
  | iovaExhausted
  deriving DecidableEq, Repr

/-- `Domain`. -/
structure Domain where
  root : Nat
  levels : Nat
  fmt : PteFmt
  deriving DecidableEq

/-- The memory behind `table_at`: the entries of the table at each physical address. -/
abbrev Tables := Nat → Nat → Nat

/-- Write an entry. -/
def Tables.set (mem : Tables) (table idx entry : Nat) : Tables := fun t i =>
  if t = table ∧ i = idx then entry else mem t i

/-- Fill a table with zeros. -/
def Tables.clear (mem : Tables) (table : Nat) : Tables := fun t i =>
  if t = table then 0 else mem t i

/-- `alloc_table`. -/
def allocTable (fa : FrameAlloc) (mem : Tables) :
    Except DomainError (Nat × FrameAlloc × Tables) :=
  match fa.alloc with
  | .ok (phys, fa') => .ok (phys, fa', mem.clear phys)
  | .error _ => .error .exhausted

/-- `Domain::new`. -/
def Domain.new (fa : FrameAlloc) (mem : Tables) (addrWidthBits : Nat) (fmt : PteFmt) :
    Except DomainError (Domain × FrameAlloc × Tables) :=
  if addrWidthBits < pageShift then .error .unsupportedWidth
  else
    let span := addrWidthBits - pageShift
    if span = 0 ∨ span % indexBits ≠ 0 then .error .unsupportedWidth
    else
      let levels := span / indexBits
      if ¬ (3 ≤ levels ∧ levels ≤ 5) then .error .unsupportedWidth
      else
        match allocTable fa mem with
        | .error e => .error e
        | .ok (root, fa', mem') => .ok (⟨root, levels, fmt⟩, fa', mem')

/-- `Domain::index`. -/
def index (iova below : Nat) : Nat := (iova >>> (pageShift + below * indexBits)) &&& (entries - 1)

/-- The loop of `Domain::map` from a table on. A link carries the number of levels below it. -/
def mapFrom (fmt : PteFmt) (iova phys perms : Nat) :
    (below table : Nat) → FrameAlloc → Tables → Except DomainError Unit × FrameAlloc × Tables
  | 0, table, fa, mem =>
    let idx := index iova 0
    if (fmt.decode (mem table idx)).1 then (.error .alreadyMapped, fa, mem)
    else (.ok (), fa, mem.set table idx (fmt.encodeLeaf phys perms))
  | below + 1, table, fa, mem =>
    let idx := index iova (below + 1)
    match fmt.decode (mem table idx) with
    | (true, next) => mapFrom fmt iova phys perms below next fa mem
    | (false, _) =>
      match allocTable fa mem with
      | .error e => (.error e, fa, mem)
      | .ok (child, fa', mem') =>
        mapFrom fmt iova phys perms below child fa'
          (mem'.set table idx (fmt.encodeLink child (below + 1)))

/-- `Domain::map`. -/
def Domain.map (d : Domain) (fa : FrameAlloc) (mem : Tables) (iova phys perms : Nat) :
    Except DomainError Unit × FrameAlloc × Tables :=
  if iova % 2 ^ pageShift ≠ 0 ∨ phys % 2 ^ pageShift ≠ 0 then (.error .misaligned, fa, mem)
  else mapFrom d.fmt iova phys perms (d.levels - 1) d.root fa mem

/-- The loop of `Domain::unmap`. -/
def unmapFrom (fmt : PteFmt) (mem : Tables) (iova : Nat) :
    (below table : Nat) → Except DomainError Unit × Tables
  | 0, table =>
    let idx := index iova 0
    match fmt.decode (mem table idx) with
    | (false, _) => (.error .notMapped, mem)
    | (true, _) => (.ok (), mem.set table idx 0)
  | below + 1, table =>
    match fmt.decode (mem table (index iova (below + 1))) with
    | (false, _) => (.error .notMapped, mem)
    | (true, next) => unmapFrom fmt mem iova below next

/-- `Domain::unmap`. -/
def Domain.unmap (d : Domain) (mem : Tables) (iova : Nat) : Except DomainError Unit × Tables :=
  if iova % 2 ^ pageShift ≠ 0 then (.error .misaligned, mem)
  else unmapFrom d.fmt mem iova (d.levels - 1) d.root

/-- The loop of `Domain::translate`. -/
def translateFrom (fmt : PteFmt) (mem : Tables) (iova : Nat) : (below table : Nat) → Option Nat
  | 0, table =>
    match fmt.decode (mem table (index iova 0)) with
    | (false, _) => none
    | (true, next) => some (next ||| (iova &&& (2 ^ pageShift - 1)))
  | below + 1, table =>
    match fmt.decode (mem table (index iova (below + 1))) with
    | (false, _) => none
    | (true, next) => translateFrom fmt mem iova below next

/-- `Domain::translate`. -/
def Domain.translate (d : Domain) (mem : Tables) (iova : Nat) : Option Nat :=
  translateFrom d.fmt mem iova (d.levels - 1) d.root

/-! ### IOVAs -/

/-- `IOVA_FREELIST`. -/
def iovaFreelist : Nat := 64

/-- `IovaAllocator`. `limit` is the field `end`, and `free` the free stack from its top. -/
structure IovaAllocator where
  next : Nat
  limit : Nat
  free : List Nat
  deriving DecidableEq

/-- `IovaAllocator::new`. -/
def IovaAllocator.new (base pages : Nat) : IovaAllocator :=
  ⟨base, base + pages * 2 ^ pageShift, []⟩

/-- `IovaAllocator::alloc`. -/
def IovaAllocator.alloc (a : IovaAllocator) : Option Nat × IovaAllocator :=
  match a.free with
  | iova :: rest => (some iova, { a with free := rest })
  | [] =>
    if a.next < a.limit then (some a.next, { a with next := a.next + 2 ^ pageShift })
    else (none, a)

/-- `IovaAllocator::free`. -/
def IovaAllocator.release (a : IovaAllocator) (iova : Nat) : IovaAllocator :=
  if a.free.length < iovaFreelist then { a with free := iova :: a.free } else a

/-! ### The walk of the hardware -/

/-- The walk of the AMD hardware from a table at `level`. An entry that is not present is a fault.
Next Level 0 is a page of the size of the level. Any other Next Level has to be below the level,
and the address bits of the levels that are skipped have to be zero. The permissions are those that
every entry on the way grants. `fuel` is at least `level`. -/
def hwWalk (mem : Tables) (iova : Nat) :
    (fuel level table : Nat) → (read write : Bool) → Option (Nat × Bool × Bool)
  | 0, _, _, _, _ => none
  | fuel + 1, level, table, read, write =>
    let entry := mem table (index iova (level - 1))
    let read' := read && (entry &&& amdIr != 0)
    let write' := write && (entry &&& amdIw != 0)
    if (entry &&& amdPr != 0) = false then none
    else if nextLevel entry = 0 then
      some ((entry &&& slAddrMask) ||| (iova &&& (2 ^ (pageShift + (level - 1) * indexBits) - 1)),
        read', write')
    else if level ≤ nextLevel entry then none
    else if iova / 2 ^ (pageShift + nextLevel entry * indexBits) %
        2 ^ ((level - 1 - nextLevel entry) * indexBits) ≠ 0 then none
    else hwWalk mem iova fuel (nextLevel entry) (entry &&& slAddrMask) read' write'

/-! ### A domain in use -/

/-- The purpose of a domain: a partial map from page numbers to pages with permissions. -/
abbrev PageMap := Nat → Option (Nat × Nat)

/-- The answer of the map at an address. -/
def PageMap.lookup (pages : PageMap) (iova : Nat) : Option Nat :=
  (pages (iova / 2 ^ pageShift)).map fun page => page.1 + iova % 2 ^ pageShift

/-- A domain with its memory and allocators, and the map that the calls have built. -/
structure System where
  domain : Domain
  mem : Tables
  fa : FrameAlloc
  iovas : IovaAllocator
  pages : PageMap

/-- A call. -/
inductive Call where
  | map (iova phys perms : Nat)
  | unmap (iova : Nat)
  | mapBuffer (phys perms : Nat)
  | unmapBuffer (iova : Nat)
  deriving DecidableEq, Repr

/-- `Domain::map` on the system. The map gets the page if the call succeeds. -/
def System.map (s : System) (iova phys perms : Nat) : Except DomainError Unit × System :=
  match s.domain.map s.fa s.mem iova phys perms with
  | (.ok (), fa, mem) =>
    (.ok (), { s with
      fa, mem, pages := Function.update s.pages (iova / 2 ^ pageShift) (some (phys, perms)) })
  | (.error e, fa, mem) => (.error e, { s with fa, mem })

/-- `Domain::unmap` on the system. -/
def System.unmap (s : System) (iova : Nat) : Except DomainError Unit × System :=
  match s.domain.unmap s.mem iova with
  | (.ok (), mem) =>
    (.ok (), { s with mem, pages := Function.update s.pages (iova / 2 ^ pageShift) none })
  | (.error e, mem) => (.error e, { s with mem })

/-- `Domain::map_buffer`: the IOVA. -/
def System.mapBuffer (s : System) (phys perms : Nat) : Except DomainError Nat × System :=
  match s.iovas.alloc with
  | (none, iovas) => (.error .iovaExhausted, { s with iovas })
  | (some iova, iovas) =>
    match { s with iovas }.map iova phys perms with
    | (.ok (), s') => (.ok iova, s')
    | (.error e, s') => (.error e, { s' with iovas := s'.iovas.release iova })

/-- `Domain::unmap_buffer`. -/
def System.unmapBuffer (s : System) (iova : Nat) : Except DomainError Unit × System :=
  match s.unmap iova with
  | (.ok (), s') => (.ok (), { s' with iovas := s'.iovas.release iova })
  | (.error e, s') => (.error e, s')

/-- One call: whether it failed, and the system. -/
def System.step (s : System) : Call → Except DomainError Unit × System
  | .map iova phys perms => s.map iova phys perms
  | .unmap iova => s.unmap iova
  | .mapBuffer phys perms =>
    match s.mapBuffer phys perms with
    | (.ok _, s') => (.ok (), s')
    | (.error e, s') => (.error e, s')
  | .unmapBuffer iova => s.unmapBuffer iova

/-- A sequence of calls. -/
def System.run (s : System) (calls : List Call) : System :=
  calls.foldl (fun s call => (s.step call).2) s

/-- The address width of a domain. -/
def Domain.width (d : Domain) : Nat := pageShift + d.levels * indexBits

/-- The call names an IOVA below the width, a physical address below 2^52 and a permission. -/
def Call.Legal (width : Nat) : Call → Prop
  | .map iova phys perms => iova < 2 ^ width ∧ phys < 2 ^ 52 ∧ perms &&& slPresent ≠ 0
  | .unmap iova => iova < 2 ^ width
  | .mapBuffer phys perms => phys < 2 ^ 52 ∧ perms &&& slPresent ≠ 0
  | .unmapBuffer iova => iova < 2 ^ width

instance (width : Nat) (call : Call) : Decidable (call.Legal width) :=
  match call with
  | .map iova phys perms =>
    inferInstanceAs (Decidable (iova < 2 ^ width ∧ phys < 2 ^ 52 ∧ perms &&& slPresent ≠ 0))
  | .unmap iova => inferInstanceAs (Decidable (iova < 2 ^ width))
  | .mapBuffer phys perms =>
    inferInstanceAs (Decidable (phys < 2 ^ 52 ∧ perms &&& slPresent ≠ 0))
  | .unmapBuffer iova => inferInstanceAs (Decidable (iova < 2 ^ width))

end Plinth.Iommu
