import Mathlib.Algebra.GroupWithZero.Nat
import Mathlib.Logic.Function.Basic
import Plinth.FrameAlloc

/-!
# `Plinth.Memory`: address spaces

The model of `kernel/src/memory.rs`. An address space is named by the frame of its level-4
table. It consists of the page tables that hang below that table, each in a frame of its own,
and of the leaf entries that map a page to a frame.

The kernel reaches the tables through physical memory. Here `Mem.spaces` gives the tree that
the level-4 frame at an address roots, and a table is named by its level and by the index
bits above it. `linkTables` is the walk of the mapper: it follows the tables that exist and
allocates the missing ones, from the top. A table it allocated stays linked when a later
allocation fails.
-/

set_option autoImplicit false

namespace Plinth

/-- The flags of a leaf entry. Every leaf entry is present. -/
structure PageFlags where
  writable : Bool
  userAccessible : Bool
  noExecute : Bool
  noCache : Bool
  deriving DecidableEq, Repr

/-- A leaf entry: the frame a page is mapped to, and its flags. -/
structure Leaf where
  phys : Nat
  flags : PageFlags
  deriving DecidableEq, Repr

/-- A page table is named by its level (3, 2 or 1) and by the part of the virtual address that
selects it. -/
abbrev TableKey := Nat × Nat

/-- An address space below its level-4 table. -/
structure AddressSpace where
  /-- The frames of the level-3, level-2 and level-1 tables. -/
  tables : List (TableKey × Nat)
  /-- The leaf entries, by page number. -/
  leaves : List (Nat × Leaf)
  deriving DecidableEq

/-- The address space with no mappings. -/
def AddressSpace.empty : AddressSpace := ⟨[], []⟩

/-- The tables that a walk for the virtual address `va` passes, from the top. -/
def tableKeys (va : Nat) : List TableKey :=
  [(3, va / 2 ^ 39), (2, va / 2 ^ 30), (1, va / 2 ^ 21)]

/-- Follow the tables `keys` and allocate the missing ones. `false` means that the allocator
ran out. -/
def linkTables :
    List TableKey → FrameAlloc → List (TableKey × Nat) →
      Bool × FrameAlloc × List (TableKey × Nat)
  | [], fa, tables => (true, fa, tables)
  | key :: keys, fa, tables =>
    match tables.lookup key with
    | some _ => linkTables keys fa tables
    | none =>
      match fa.alloc with
      | .error _ => (false, fa, tables)
      | .ok (frame, fa') => linkTables keys fa' (tables ++ [(key, frame)])

/-- A table that hangs below entry 0 of the level-4 table, the user half. -/
def underUserHalf (key : TableKey) : Bool :=
  key.2 / 512 ^ (3 - key.1) == 0

namespace AddressSpace

/-- The leaf entry of the page that contains `va`. -/
def leaf (sp : AddressSpace) (va : Nat) : Option Leaf :=
  sp.leaves.lookup (va / frameSize)

/-- Remove the leaf entry of the page that contains `va`. -/
def unmap (sp : AddressSpace) (va : Nat) : AddressSpace :=
  { sp with leaves := sp.leaves.filter fun e => e.1 != va / frameSize }

/-- Add a leaf entry for the page that contains `va`. -/
def addLeaf (sp : AddressSpace) (va : Nat) (l : Leaf) : AddressSpace :=
  { sp with leaves := (va / frameSize, l) :: sp.leaves }

/-- The frames of the page tables of the user half. -/
def userTables (sp : AddressSpace) : List Nat :=
  (sp.tables.filter fun t => underUserHalf t.1).map Prod.snd

end AddressSpace

/-- Physical memory management: the frame allocator, and the address space that the level-4
table at each frame address roots. -/
structure Mem where
  fa : FrameAlloc
  spaces : Nat → AddressSpace

namespace Mem

/-- Replace the address space rooted at `l4`. -/
def setSpace (m : Mem) (l4 : Nat) (sp : AddressSpace) : Mem :=
  { m with spaces := Function.update m.spaces l4 sp }

/-- `create_address_space`: a new level-4 table with an empty user half. -/
def createAddressSpace (m : Mem) : Option (Nat × Mem) :=
  match m.fa.alloc with
  | .ok (l4, fa) => some (l4, ({ m with fa } : Mem).setSpace l4 AddressSpace.empty)
  | .error _ => none

/-- `destroy_address_space`: free the page tables of the user half and the level-4 table. The
source frees them in the order of a walk, and the model in the order in which they were
linked. -/
def destroyAddressSpace (m : Mem) (l4 : Nat) : Mem :=
  { m with fa := m.fa.giveBackAll ((m.spaces l4).userTables ++ [l4]) }

/-- `map_user_page`: map the page of `va` to `phys`. The result is `false` if a table cannot be
allocated or if the page is already mapped. -/
def mapUserPage (m : Mem) (l4 va phys : Nat) (flags : PageFlags) : Bool × Mem :=
  let sp := m.spaces l4
  let r := linkTables (tableKeys va) m.fa sp.tables
  let linked : AddressSpace := { sp with tables := r.2.2 }
  let m' := ({ m with fa := r.2.1 } : Mem)
  if r.1 then
    match linked.leaf va with
    | some _ => (false, m'.setSpace l4 linked)
    | none => (true, m'.setSpace l4 (linked.addLeaf va ⟨phys, flags⟩))
  else (false, m'.setSpace l4 linked)

/-- `unmap_user_page`: a page that is not mapped is left alone. -/
def unmapUserPage (m : Mem) (l4 va : Nat) : Mem :=
  m.setSpace l4 ((m.spaces l4).unmap va)

/-- Unmap every page of a list. -/
def unmapAll (m : Mem) (l4 : Nat) (vas : List Nat) : Mem :=
  vas.foldl (fun m va => m.unmapUserPage l4 va) m

/-- `user_accessible`: the page of `va` is mapped for user code. -/
def userAccessible (m : Mem) (l4 va : Nat) : Bool :=
  match (m.spaces l4).leaf va with
  | some l => l.flags.userAccessible
  | none => false

/-- `is_mapped`: the page of `va` is mapped. -/
def isMapped (m : Mem) (l4 va : Nat) : Bool :=
  ((m.spaces l4).leaf va).isSome

/-- The loop of a user pointer check: every page from the page of `va` on, `pages` of them, is
mapped for user code. -/
def pagesAccessible (m : Mem) (l4 va pages : Nat) : Bool :=
  (List.range pages).all fun i => m.userAccessible l4 ((va / frameSize + i) * frameSize)

end Mem

end Plinth
