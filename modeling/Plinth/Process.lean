import Plinth.Capability
import Plinth.Memory

/-!
# `Plinth.Process`: the process and its loader

The model of `kernel/src/process.rs`, and of the load plan of `kernel/src/elf.rs`. A process
has a capability table, the records of its mappings, and an address space.

`Image` is what `elf::parse` returns for a binary that it accepts. Its proof fields are the
checks of `parse` that the loader relies on: the segments lie in the image window, they are
page aligned, and they fit the page budget.

The loader copies the bytes of the segments into the frames. The model keeps the frames and
the mappings and leaves the bytes out.

A process can give a capability away (`revokeAndUnmap`). The mappings that were made through
the slot go with it.
-/

set_option autoImplicit false

namespace Plinth

/-! ### The user half of the address space -/

/-- `USER_IMAGE_BASE`. -/
def userImageBase : Nat := 0x400000

/-- `USER_IMAGE_END`. -/
def userImageEnd : Nat := 0x0F000000

/-- `USER_STACK_TOP`. -/
def userStackTop : Nat := 0x0FF00000

/-- `USER_STACK_PAGES`. -/
def userStackPages : Nat := 4

/-- `USER_MAP_BASE`, the start of the window for user-chosen mappings. -/
def userMapBase : Nat := 0x10000000

/-- `USER_MAP_END`. -/
def userMapEnd : Nat := 0x20000000

/-- `MAX_USER_MAPS`, the number of `frame_map` records of a process. -/
def maxUserMaps : Nat := 16

/-- `MAX_FB_MAPS`, the number of `fb_map` records of a process. -/
def maxFbMaps : Nat := 4

/-- `MAX_BOOT_FRAMES`, the number of image and stack pages of a process. -/
def maxBootFrames : Nat := 64

/-- `INITIAL_CPU_BUDGET`. -/
def initialCpuBudget : Nat := 1024

/-! ### The load plan -/

/-- A loadable segment: where it goes, where it lies in the file, and its access flags. -/
structure LoadSeg where
  vaddr : Nat
  offset : Nat
  filesz : Nat
  memsz : Nat
  writable : Bool
  executable : Bool
  deriving DecidableEq, Repr

/-- The number of pages of a segment. -/
def LoadSeg.pages (seg : LoadSeg) : Nat := (seg.memsz + (frameSize - 1)) / frameSize

/-- The page flags of a segment. -/
def LoadSeg.pageFlags (seg : LoadSeg) : PageFlags where
  writable := seg.writable
  userAccessible := true
  noExecute := !seg.executable
  noCache := false

/-- A validated image: the entry point and the segments. -/
structure Image where
  entry : Nat
  segments : List LoadSeg
  /-- Every segment lies in the image window. -/
  window : ∀ seg ∈ segments, userImageBase ≤ seg.vaddr ∧ seg.vaddr + seg.memsz ≤ userImageEnd
  /-- Every segment starts at a page boundary. -/
  aligned : ∀ seg ∈ segments, seg.vaddr % frameSize = 0
  /-- The image leaves room for the stack in the record of boot frames. -/
  budget : (segments.map LoadSeg.pages).sum ≤ maxBootFrames - userStackPages

/-- The flags of the stack pages, and of the pages of the mapping calls. -/
def userDataFlags : PageFlags where
  writable := true
  userAccessible := true
  noExecute := true
  noCache := false

/-- The pages that the loader maps, with their flags: the pages of each segment, and then the
stack pages from the top down. -/
def Image.plan (image : Image) : List (Nat × PageFlags) :=
  (image.segments.flatMap fun seg =>
    (List.range seg.pages).map fun i => (seg.vaddr + i * frameSize, seg.pageFlags)) ++
  (List.range userStackPages).map fun i => (userStackTop - (i + 1) * frameSize, userDataFlags)

/-- The loop of `load_and_map`: allocate a frame for each page and map it. `boot` collects the
pages that are mapped. A frame whose mapping fails is not recorded. -/
def loadPages (l4 : Nat) :
    List (Nat × PageFlags) → Mem → List (Nat × Nat) → Bool × Mem × List (Nat × Nat)
  | [], m, boot => (true, m, boot)
  | (va, flags) :: rest, m, boot =>
    match m.fa.alloc with
    | .error _ => (false, m, boot)
    | .ok (phys, fa) =>
      let r := ({ m with fa } : Mem).mapUserPage l4 va phys flags
      if r.1 then loadPages l4 rest r.2 (boot ++ [(va, phys)]) else (false, r.2, boot)

/-- Unmap and free the pages of the record of boot frames. -/
def unloadPages (l4 : Nat) (boot : List (Nat × Nat)) (m : Mem) : Mem :=
  boot.foldl (fun m e =>
    let m' := m.unmapUserPage l4 e.1
    { m' with fa := m'.fa.giveBack e.2 }) m

/-- `load_and_map`: load an image into the address space `l4`. `none` is a binary that
`elf::parse` refuses. On an error the pages that were mapped are unmapped and freed. -/
def loadAndMap (m : Mem) (image : Option Image) (l4 : Nat) :
    Option Nat × Mem × List (Nat × Nat) :=
  match image with
  | none => (none, m, [])
  | some image =>
    let r := loadPages l4 image.plan m []
    if r.1 then (some image.entry, r.2.1, r.2.2)
    else (none, unloadPages l4 r.2.2 r.2.1, r.2.2)

/-! ### The process -/

/-- A framebuffer mapping: `pages` pages from `vaBase`, made through `slot`. -/
structure FbMap where
  vaBase : Nat
  pages : Nat
  slot : Nat
  deriving DecidableEq, Repr

/-- A process. -/
structure Process where
  caps : CapTable
  /-- The `frame_map` records: the address and the capability slot. -/
  maps : List (Option (Nat × Nat))
  /-- The `fb_map` records. -/
  fbMaps : List (Option FbMap)
  /-- The frame of the level-4 table. -/
  l4 : Nat
  deriving DecidableEq

namespace Process

/-- The process before its address space is set. -/
def new : Process where
  caps := CapTable.new
  maps := List.replicate maxUserMaps none
  fbMaps := List.replicate maxFbMaps none
  l4 := 0

/-- Replace the capability table. -/
def setCaps (proc : Process) (t : CapTable) : Process := { proc with caps := t }

@[simp] theorem setCaps_caps (proc : Process) (t : CapTable) : (proc.setCaps t).caps = t := rfl
@[simp] theorem setCaps_maps (proc : Process) (t : CapTable) :
    (proc.setCaps t).maps = proc.maps := rfl
@[simp] theorem setCaps_fbMaps (proc : Process) (t : CapTable) :
    (proc.setCaps t).fbMaps = proc.fbMaps := rfl
@[simp] theorem setCaps_l4 (proc : Process) (t : CapTable) : (proc.setCaps t).l4 = proc.l4 := rfl

end Process

/-- `spawn_process(None)`: a fresh process with its CPU budget in slot 0. -/
def spawnProcess : Process :=
  match CapTable.new.mint (.cpuTime initialCpuBudget) rightConsume with
  | .ok (_, t) => Process.new.setCaps t
  | .error _ => Process.new

/-- Put a value into the first empty record. `none` if every record is taken. -/
def recordFirst {α : Type} (x : α) : List (Option α) → Option (List (Option α))
  | [] => none
  | none :: es => some (some x :: es)
  | some e :: es => (recordFirst x es).map (some e :: ·)

/-- The addresses that the process mapped through `slot` with `frame_map`. -/
def Process.mapsOf (proc : Process) (slot : Nat) : List Nat :=
  proc.maps.filterMap fun e =>
    match e with
    | some (va, s) => if s = slot then some va else none
    | none => none

/-- Unmap and forget every `frame_map` mapping made through `slot`. -/
def unmapFramesForSlot (m : Mem) (proc : Process) (slot : Nat) : Process × Mem :=
  ({ proc with maps := proc.maps.map fun e =>
      match e with
      | some (va, s) => if s = slot then none else some (va, s)
      | none => none },
    m.unmapAll proc.l4 (proc.mapsOf slot))

/-- The pages of a framebuffer mapping. -/
def FbMap.vas (f : FbMap) : List Nat :=
  (List.range f.pages).map fun i => f.vaBase + i * frameSize

/-- The addresses that the process mapped through `slot` with `fb_map`. -/
def Process.fbOf (proc : Process) (slot : Nat) : List Nat :=
  proc.fbMaps.flatMap fun e =>
    match e with
    | some f => if f.slot = slot then f.vas else []
    | none => []

/-- `unmap_fb_for_slot`: unmap and forget every `fb_map` mapping made through `slot`. -/
def unmapFbForSlot (m : Mem) (proc : Process) (slot : Nat) : Process × Mem :=
  ({ proc with fbMaps := proc.fbMaps.map fun e =>
      match e with
      | some f => if f.slot = slot then none else some f
      | none => none },
    m.unmapAll proc.l4 (proc.fbOf slot))

/-- The mappings that go with a capability that leaves `slot`: those of `frame_map` for a
frame, those of `fb_map` for a framebuffer. -/
def unmapForSlot (m : Mem) (proc : Process) (cap : Capability) (slot : Nat) : Process × Mem :=
  match cap.object with
  | .frame _ => unmapFramesForSlot m proc slot
  | .framebuffer .. => unmapFbForSlot m proc slot
  | _ => (proc, m)

/-- `revoke_and_unmap`: take the capability at `slot` away from the process, with the mappings
made through it. -/
def revokeAndUnmap (m : Mem) (proc : Process) (slot : Nat) :
    Option (Capability × Process × Mem) :=
  match proc.caps.revoke slot with
  | .error _ => none
  | .ok (cap, t) => some (cap, unmapForSlot m (proc.setCaps t) cap slot)

/-- `revoke_and_unmap_for_lend`: the same, and hold the slot for the return if this starts a
loan. -/
def revokeAndUnmapForLend (m : Mem) (proc : Process) (slot : Nat) :
    Option (Capability × Process × Mem) :=
  let reserves := ((proc.caps.peek slot).map lendReservesHome).getD false
  match revokeAndUnmap m proc slot with
  | none => none
  | some (cap, proc', m') =>
    if reserves then some (cap, proc'.setCaps (proc'.caps.reserve slot), m')
    else some (cap, proc', m')

end Plinth
