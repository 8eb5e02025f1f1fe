import Mathlib.Algebra.GroupWithZero.Nat
import Mathlib.Data.List.Basic

/-!
# `Plinth.Libos.Allocators`: the two memory policies

The model of the allocators of `libos`. Both carve fresh bytes from a region that grows one kernel
frame at a time. `BumpAlloc` never gives memory back, and `FreeListAlloc` keeps up to 32 freed spans
and takes the first that is long enough.

User crates are built without overflow checks, so the sums wrap at 64 bits.

The kernel is a list of answers, one for each round of the growth loop. When the list is used up the
kernel refuses. A page is mapped only inside the window and on a page boundary, and `pages` are the
addresses of the pages that are mapped.
-/

set_option autoImplicit false

namespace Plinth.Alloc

/-- `MAP_BASE`. -/
def mapBase : Nat := 0x10000000

/-- `MAP_END`. -/
def mapEnd : Nat := 0x20000000

/-- `PAGE_SIZE`. -/
def pageSize : Nat := 4096

/-- `ALIGN`. -/
def align : Nat := 8

/-- `MAX_FREE_SPANS`. -/
def maxFreeSpans : Nat := 32

/-- `round_up`. The product wraps. -/
def roundUp (size : Nat) : Nat := (size + 7) / 8 * 8 % 2 ^ 64

/-! ### The region -/

/-- What the kernel does in a round of the growth loop: no frame, no mapping, or neither refused. -/
inductive Answer where
  | noFrame
  | noMap
  | granted
  deriving DecidableEq, Repr

/-- `Region`. -/
structure Region where
  next : Nat
  mappedEnd : Nat
  frames : Nat
  deriving DecidableEq, Repr

/-- `Region::new`. -/
def Region.new : Region := ⟨mapBase, mapBase, 0⟩

/-- `frame_map` accepts this address. -/
def acceptsVa (va : Nat) : Bool := va % pageSize = 0 && mapBase ≤ va && va < mapEnd

/-- The growth loop of `carve`: whether the region reaches `limit` now, the region, and the mapped
pages. -/
def Region.grow (limit : Nat) : List Answer → Region → List Nat → Bool × Region × List Nat
  | [], r, pages => (!decide (r.mappedEnd < limit), r, pages)
  | a :: rest, r, pages =>
    if r.mappedEnd < limit then
      match a with
      | .noFrame => (false, r, pages)
      | .noMap => (false, r, pages)
      | .granted =>
        if acceptsVa r.mappedEnd then
          Region.grow limit rest
            { r with mappedEnd := (r.mappedEnd + pageSize) % 2 ^ 64, frames := r.frames + 1 }
            (r.mappedEnd :: pages)
        else (false, r, pages)
    else (true, r, pages)

/-- `Region::carve`: the address, which is 0 on a failure. -/
def Region.carve (r : Region) (pages : List Nat) (size : Nat) (answers : List Answer) :
    Nat × Region × List Nat :=
  let limit := (r.next + size) % 2 ^ 64
  match Region.grow limit answers r pages with
  | (false, r', pages') => (0, r', pages')
  | (true, r', pages') => (r.next, { r' with next := limit }, pages')

/-! ### The policies -/

/-- A run of bytes. -/
structure Span where
  addr : Nat
  len : Nat
  deriving DecidableEq, Repr

/-- The free list of `FreeListAlloc::alloc`: the first span that is long enough is split, and its
rest stays in its place. -/
def takeSpan (size : Nat) : List (Option Span) → Option (Nat × List (Option Span))
  | [] => none
  | none :: rest => (takeSpan size rest).map fun r => (r.1, none :: r.2)
  | some s :: rest =>
    if size ≤ s.len then
      some (s.addr,
        (if align ≤ s.len - size then some ⟨(s.addr + size) % 2 ^ 64, s.len - size⟩ else none)
          :: rest)
    else (takeSpan size rest).map fun r => (r.1, some s :: r.2)

/-- The free list of `FreeListAlloc::free`: the first empty place gets the span. Without one it is
dropped. -/
def putSpan (s : Span) : List (Option Span) → List (Option Span)
  | [] => []
  | none :: rest => some s :: rest
  | some x :: rest => some x :: putSpan s rest

/-- `BumpAlloc` and `FreeListAlloc`. -/
inductive Allocator where
  | bump (region : Region)
  | freeList (region : Region) (spans : List (Option Span))
  deriving DecidableEq, Repr

/-- `BumpAlloc::new`. -/
def Allocator.newBump : Allocator := .bump Region.new

/-- `FreeListAlloc::new`. -/
def Allocator.newFreeList : Allocator :=
  .freeList Region.new (List.replicate maxFreeSpans none)

/-- The region of an allocator. -/
def Allocator.region : Allocator → Region
  | bump r => r
  | freeList r _ => r

/-- The spans on the free list. -/
def Allocator.spans : Allocator → List Span
  | bump _ => []
  | freeList _ spans => spans.filterMap id

/-- `alloc`: the address, the allocator and the mapped pages. -/
def Allocator.alloc (a : Allocator) (pages : List Nat) (size : Nat) (answers : List Answer) :
    Nat × Allocator × List Nat :=
  match a with
  | bump r =>
    match r.carve pages (roundUp size) answers with
    | (addr, r', pages') => (addr, bump r', pages')
  | freeList r spans =>
    match takeSpan (roundUp size) spans with
    | some (addr, spans') => (addr, freeList r spans', pages)
    | none =>
      match r.carve pages (roundUp size) answers with
      | (addr, r', pages') => (addr, freeList r' spans, pages')

/-- `free`. -/
def Allocator.free (a : Allocator) (addr size : Nat) : Allocator :=
  match a with
  | bump r => bump r
  | freeList r spans => freeList r (putSpan ⟨addr, roundUp size⟩ spans)

/-! ### Runs -/

/-- An allocator with the pages that the kernel has mapped for it and the blocks that are live. A
block keeps the size of its request. -/
structure Heap where
  allocator : Allocator
  pages : List Nat
  live : List Span
  deriving DecidableEq, Repr

/-- A new allocator. -/
def Heap.new (a : Allocator) : Heap := ⟨a, [], []⟩

/-- A call of the program: a request of any `usize`, with the kernel's answers, or a `free` of a
live block, with its size. -/
inductive Action where
  | alloc (size : UInt64) (answers : List Answer)
  | free (i : Nat)
  deriving DecidableEq, Repr

/-- One call. -/
def Heap.step (h : Heap) : Action → Heap
  | .alloc size answers =>
    match h.allocator.alloc h.pages size.toNat answers with
    | (addr, a, pages) =>
      ⟨a, pages, if addr = 0 then h.live else ⟨addr, size.toNat⟩ :: h.live⟩
  | .free i =>
    match h.live[i]? with
    | some b => ⟨h.allocator.free b.addr b.len, h.pages, h.live.eraseIdx i⟩
    | none => h

/-- A sequence of calls. -/
def Heap.run (h : Heap) (actions : List Action) : Heap := actions.foldl Heap.step h

end Plinth.Alloc
