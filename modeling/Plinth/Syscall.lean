import Plinth.Ipc

/-!
# `Plinth.Syscall`: the fast system calls

The model of `kernel/src/syscall.rs`: frames, mappings, release of a capability, the CPU
budget, and spawn. Every function runs for the process on one core and returns the value of
`rax`. The arguments are 64-bit words, so the model compares a sum of them with 2^64 where the
source uses `checked_add`.

`fb_map` and `bind_device` write their geometry to a user pointer. The model checks the pointer
as the source does and leaves the written words out.
-/

set_option autoImplicit false

namespace Plinth

/-- The flags of the doorbell page. -/
def doorbellFlags : PageFlags where
  writable := true
  userAccessible := true
  noExecute := true
  noCache := true

/-- The map window holds the `span` bytes from the page-aligned address `va`. -/
def inMapWindow (va span : Nat) : Bool :=
  va % frameSize == 0 && decide (userMapBase ≤ va) && decide (va + span < 2 ^ 64) &&
    decide (va + span ≤ userMapEnd)

/-- The number of pages that the bytes `[ptr, ptr + len)` touch. -/
def pagesTouched (ptr len : Nat) : Nat := (ptr + len - 1) / frameSize - ptr / frameSize + 1

/-- Map a list of pages in order. On a failure the pages that were mapped are unmapped. The
page tables stay. -/
def mapPages (l4 : Nat) : List (Nat × Nat × PageFlags) → List Nat → Mem → Bool × Mem
  | [], _, m => (true, m)
  | (va, phys, flags) :: rest, mapped, m =>
    let r := m.mapUserPage l4 va phys flags
    if r.1 then mapPages l4 rest (mapped ++ [va]) r.2
    else (false, r.2.unmapAll l4 mapped)

/-- The pages of a framebuffer of `pages` pages at `physBase`, mapped from `va`. -/
def fbPages (va physBase pages : Nat) : List (Nat × Nat × PageFlags) :=
  (List.range pages).map fun i =>
    (va + i * frameSize, physBase + i * frameSize, userDataFlags)

/-- The pages of a bound device, mapped from `va`. -/
def bindPages (va : Nat) (b : Bound) : List (Nat × Nat × PageFlags) :=
  [(va, b.notifyPagePhys, doorbellFlags),
    (va + frameSize, b.descPhys, userDataFlags),
    (va + 2 * frameSize, b.availPhys, userDataFlags),
    (va + 3 * frameSize, b.usedPhys, userDataFlags),
    (va + 4 * frameSize, b.bufPhys, userDataFlags),
    (va + 5 * frameSize, b.dataPhys, userDataFlags)]

namespace Kernel

/-- `sys_frame_alloc`: allocate a frame and mint a capability for it. -/
def sysFrameAlloc (s : Kernel) (core : Core) : Nat × Kernel :=
  match s.procs.current core with
  | none => (errCode, s)
  | some proc =>
    match s.mem.fa.alloc with
    | .error _ => (errCode, s)
    | .ok (addr, fa) =>
      match proc.caps.mint (.frame addr) (rightRead ||| rightWrite ||| rightMap) with
      | .ok (slot, t) =>
        (slot, { s.setFa fa with procs := s.procs.setCurrent core (some (proc.setCaps t)) })
      | .error _ => (errCode, s.setFa (fa.giveBack addr))

/-- `sys_frame_map`: map the frame at `slot` at the address `va`. -/
def sysFrameMap (s : Kernel) (core : Core) (slot va : Nat) : Nat × Kernel :=
  if va % frameSize ≠ 0 ∨ ¬ (userMapBase ≤ va ∧ va < userMapEnd) then (errCode, s)
  else
    match s.procs.current core with
    | none => (errCode, s)
    | some proc =>
      match proc.caps.lookup slot rightMap with
      | .ok ⟨.frame addr, _, _⟩ =>
        match recordFirst (va, slot) proc.maps with
        | none => (errCode, s)
        | some maps =>
          if s.mem.isMapped proc.l4 va then (errCode, s)
          else
            match s.mem.mapUserPage proc.l4 va addr userDataFlags with
            | (false, mem) => (errCode, { s with mem })
            | (true, mem) =>
              (0, { s with
                mem, procs := s.procs.setCurrent core (some { proc with maps }) })
      | _ => (errCode, s)

/-- `sys_fb_map`: map the framebuffer at `slot` from the address `va`. -/
def sysFbMap (s : Kernel) (core : Core) (slot va infoPtr : Nat) : Nat × Kernel :=
  match s.procs.current core with
  | none => (errCode, s)
  | some proc =>
    match proc.caps.lookup slot rightMap with
    | .ok ⟨.framebuffer physBase _ height stride bpp _, _, _⟩ =>
      let pages := (height * stride * bpp + (frameSize - 1)) / frameSize
      match recordFirst ⟨va, pages, slot⟩ proc.fbMaps with
      | none => (errCode, s)
      | some fbMaps =>
        if pages = 0 ∨ ¬ inMapWindow va (pages * frameSize) ∨ 2 ^ 64 ≤ infoPtr + 19 ∨
            ¬ s.mem.pagesAccessible proc.l4 infoPtr (pagesTouched infoPtr 20) then (errCode, s)
        else
          match mapPages proc.l4 (fbPages va physBase pages) [] s.mem with
          | (false, mem) => (errCode, { s with mem })
          | (true, mem) =>
            (0, { s with
              mem, procs := s.procs.setCurrent core (some { proc with fbMaps }) })
    | _ => (errCode, s)

/-- `sys_bind_device`: map the pages of the bound device at `slot` from the address `va`.
Nothing records the mapping. -/
def sysBindDevice (s : Kernel) (core : Core) (slot va infoPtr : Nat) : Nat × Kernel :=
  match s.procs.current core with
  | none => (errCode, s)
  | some proc =>
    match proc.caps.lookup slot rightMap with
    | .ok ⟨.boundDevice dev, _, _⟩ =>
      if ¬ inMapWindow va (6 * frameSize) ∨ 2 ^ 64 ≤ infoPtr + 23 ∨ infoPtr % 8 ≠ 0 ∨
          ¬ s.mem.userAccessible proc.l4 infoPtr ∨
          ¬ s.mem.userAccessible proc.l4 (infoPtr + 23) then (errCode, s)
      else
        match (s.devs.devices dev).bind VirtioBlk.bound with
        | none => (errCode, s)
        | some b =>
          match mapPages proc.l4 (bindPages va b) [] s.mem with
          | (false, mem) => (errCode, { s with mem })
          | (true, mem) => (0, { s with mem })
    | _ => (errCode, s)

/-- Replace the running process and the memory, for a release that unmaps. -/
def setCurrentMem (s : Kernel) (core : Core) (r : Process × Mem) : Kernel :=
  { s with procs := s.procs.setCurrent core (some r.1), mem := r.2 }

/-- The arms of `sys_cap_release` after the revoke. `proc` is the process without the
capability. -/
def releaseCap (s : Kernel) (core : Core) (proc : Process) (cap : Capability) (slot : Nat) :
    Kernel :=
  match releaseAction cap with
  | .freeFrame addr =>
    let s := s.setCurrentMem core (unmapFramesForSlot s.mem proc slot)
    s.setFa (s.mem.fa.giveBack addr)
  | .releaseRing id => { s with rings := s.rings.release id }
  | .dropEndpoint => { s with ipc := s.ipc.noteCapRemoved cap true }
  | .unmapFramebuffer => s.setCurrentMem core (unmapFbForSlot s.mem proc slot)
  | .reclaimTo origin =>
    let s := s.setCurrentMem core (unmapFbForSlot s.mem proc slot)
    let home := match reclaimTarget cap (s.procs.currentSlot core) with
      | some (_, home) => home
      | none => cap
    (s.reclaimCapHome cap origin home).2
  | .unbindDevice dev =>
    let r := s.devs.unbind s.mem.fa dev
    { s with devs := r.1 }.setFa r.2
  | .dropSlot => s
  | .refuse => s

/-- `sys_cap_release`: give the capability at `slot` back. A reply capability is refused. -/
def sysCapRelease (s : Kernel) (core : Core) (slot : Nat) : Nat × Kernel :=
  match s.procs.current core with
  | none => (errCode, s)
  | some proc =>
    match proc.caps.lookup slot 0 with
    | .error _ => (errCode, s)
    | .ok cap =>
      if releaseAction cap = .refuse then (errCode, s)
      else
        match proc.caps.revoke slot with
        | .error _ => (errCode, s)
        | .ok (_, t) =>
          let proc := proc.setCaps t
          let s := { s with procs := s.procs.setCurrent core (some proc) }
          (0, s.releaseCap core proc cap slot)

/-- `sys_cpu_charge`: debit the CPU budget at `slot`. A process that overdraws it exits. -/
def sysCpuCharge (s : Kernel) (core : Core) (slot amount : Nat) : Ret × Kernel :=
  match s.procs.current core with
  | none => (.value errCode, s)
  | some proc =>
    match proc.caps.charge slot amount rightConsume with
    | .ok (remaining, t) =>
      (.value remaining, { s with procs := s.procs.setCurrent core (some (proc.setCaps t)) })
    | .error .insufficient =>
      match s.onExit core with
      | some s' => (.exited, s')
      | none => (.value errCode, s)
    | .error _ => (.value errCode, s)

/-! ### Spawn -/

/-- The transfer half of a spawn: take the capability at `transferSlot` from the caller, unless
the slot is the "none" sentinel. -/
def takeForSpawn (s : Kernel) (core : Core) (transferSlot : Nat) : Option Capability × Kernel :=
  if transferSlot = errCode then (none, s)
  else
    match s.giveFromCurrent core transferSlot with
    | none => (none, s)
    | some (cap, s') => (some cap, s')

/-- The rollback of a spawn that failed: the capability goes back into its own slot if the slot
is reserved for it, and else into the first free slot. -/
def undoTransfer (s : Kernel) (core : Core) (transferSlot : Nat) (cap : Capability) : Kernel :=
  let procs :=
    match s.procs.onCurrent core fun t =>
        match t.reclaimTo transferSlot cap with
        | some r => some r
        | none => some (0, (t.clearReservation transferSlot)) with
    | some (_, P) => P
    | none => s.procs
  let restored := (s.procs.current core).bind fun proc => proc.caps.reclaimTo transferSlot cap
  let procs := if restored.isSome then procs else restoreToCurrent procs core cap
  { s with procs, ipc := s.ipc.noteCapAdded cap }

/-- The capability as the child gets it: a loan by the caller, unless it is on loan already. -/
def spawnLoan (cap : Capability) (caller : ProcSlot) (transferSlot : Nat) : Capability :=
  { cap with origin := cap.origin.or (some (Origin.new caller transferSlot)) }

/-- `spawn_scheduled`: launch `image` with a fresh result endpoint and an optional capability of
the caller. The result is the slot of the caller's handle on the endpoint. -/
def spawnScheduled (s : Kernel) (core : Core) (image : Option Image) (transferSlot : Nat) :
    Nat × Kernel :=
  match s.ipc.createEndpoint with
  | none => (errCode, s)
  | some (ep, ipc) =>
    let r := ({ s with ipc } : Kernel).takeForSpawn core transferSlot
    let transferred := r.1
    let s := r.2
    let sendCap : Capability := ⟨.endpoint ep, rightSend, none⟩
    let lent := transferred.map fun cap =>
      spawnLoan cap (s.procs.currentSlot core) transferSlot
    match s.schedSpawn image ([some sendCap, lent].reduceOption) with
    | (none, s) =>
      let s := { s with ipc := s.ipc.releaseEndpoint ep }
      match transferred with
      | some cap => (errCode, s.undoTransfer core transferSlot cap)
      | none => (errCode, s)
    | (some _, s) =>
      match s.procs.onCurrent core fun t => (t.mint (.endpoint ep) rightRecv).toOption with
      | some (h, procs) =>
        (h, { s with procs, ipc := s.ipc.noteCapAdded ⟨.endpoint ep, rightRecv, none⟩ })
      | none => (errCode, s)

/-- `sys_spawn`: `binary` is the entry of the table of embedded binaries, if the id names
one, with the verdict of the parser on it. -/
def sysSpawn (s : Kernel) (core : Core) (binary : Option (Option Image)) (transferSlot : Nat) :
    Nat × Kernel :=
  match binary with
  | none => (errCode, s)
  | some image => s.spawnScheduled core image transferSlot

/-- `MAX_SPAWN_ELF`. -/
def maxSpawnElf : Nat := 256 * 1024

/-- `sys_spawn_from_buffer`: the image comes from `len` bytes at `bufVa`, which must lie in the
map window and be mapped. `image` is the verdict of the parser on these bytes. -/
def sysSpawnFromBuffer (s : Kernel) (core : Core) (bufVa len : Nat) (image : Option Image)
    (transferSlot : Nat) : Nat × Kernel :=
  if len = 0 ∨ maxSpawnElf < len ∨ bufVa % frameSize ≠ 0 ∨
      ¬ (userMapBase ≤ bufVa ∧ bufVa + len - 1 < userMapEnd) then (errCode, s)
  else
    match s.procs.current core with
    | none => (errCode, s)
    | some proc =>
      if s.mem.pagesAccessible proc.l4 bufVa (pagesTouched bufVa len) then
        s.spawnScheduled core image transferSlot
      else (errCode, s)

end Kernel

end Plinth
