import Mathlib.Logic.Function.Basic
import Plinth.Process

/-!
# `Plinth.ProcTable`: the process table and the running processes

The state of `kernel/src/scheduler.rs` and the per-core `CURRENT` of `kernel/src/process.rs`.
A suspended process lies in its slot of the process table. A running process lies in the
`CURRENT` of its core, and `CURRENT_SLOT` gives the slot it belongs to. `CURRENT_SLOT` of an
idle core is stale.

So code that needs the table of a given process must look in both places. `withLenderCaps`
is the function of the source that does. `proc` is the same search as a plain read, and
`put` as a plain write.
-/

set_option autoImplicit false

namespace Plinth

/-- `IPC_OK`. -/
def ipcOk : Nat := 0

/-- `IPC_ERR`. -/
def ipcErr : Nat := 1

/-- `IPC_PEER_DIED`. -/
def ipcPeerDied : Nat := 2

/-- The scheduler state of a slot. -/
inductive ProcState where
  | empty
  | ready
  | running
  | blocked
  deriving DecidableEq, Repr

/-- The result registers of the saved trap frame that `wake_with` writes: `rax`, `rsi` and
`rdx`. -/
structure Result where
  status : Nat
  payload : Nat
  landing : Nat
  deriving DecidableEq, Repr

/-- A slot of the process table. The kernel stack is modelled by the result registers. -/
structure Slot where
  state : ProcState
  process : Option Process
  /-- The image and stack pages: address and frame. -/
  bootFrames : List (Nat × Nat)
  pendingMsg : Nat
  pendingCap : Nat
  pendingCall : Bool
  pendingLanding : Nat
  result : Result
  deriving DecidableEq

/-- What a process in a slot has to say and was told: its pending message, and the result
registers of its last wake. -/
structure Mail where
  msg : Nat
  cap : Nat
  call : Bool
  result : Result
  deriving DecidableEq, Repr

/-- The message fields of a slot. -/
def Slot.mail (s : Slot) : Mail := ⟨s.pendingMsg, s.pendingCap, s.pendingCall, s.result⟩

/-- The free slot. -/
def Slot.empty : Slot where
  state := .empty
  process := none
  bootFrames := []
  pendingMsg := 0
  pendingCap := noCap
  pendingCall := false
  pendingLanding := noCap
  result := ⟨0, 0, 0⟩

/-- The process table with the running processes. -/
structure Procs where
  table : ProcSlot → Slot
  current : Core → Option Process
  currentSlot : Core → ProcSlot
  /-- Ghost: the number of wakes of a slot that was not Blocked. -/
  strayWakes : Nat

namespace Procs

/-- Replace one slot of the table. -/
def setSlot (P : Procs) (p : ProcSlot) (s : Slot) : Procs :=
  { P with table := Function.update P.table p s }

/-- Replace the running process of a core. -/
def setCurrent (P : Procs) (core : Core) (proc : Option Process) : Procs :=
  { P with current := Function.update P.current core proc }

/-- Replace the process in a slot of the table. -/
def setTableProc (P : Procs) (p : ProcSlot) (proc : Option Process) : Procs :=
  P.setSlot p { P.table p with process := proc }

/-- The state of a slot. -/
def state (P : Procs) (p : ProcSlot) : ProcState := (P.table p).state

/-- `is_blocked`. -/
def isBlocked (P : Procs) (p : ProcSlot) : Bool := P.state p == .blocked

/-! ### Where a process is -/

/-- The core that runs the process of slot `p`. -/
def coreOf (P : Procs) (p : ProcSlot) : Option Core :=
  (List.finRange maxCores).find? fun core =>
    P.currentSlot core == p && (P.current core).isSome

/-- The live process of slot `p`, wherever it is. -/
def proc (P : Procs) (p : ProcSlot) : Option Process :=
  match (P.table p).process with
  | some proc => some proc
  | none => (P.coreOf p).bind P.current

/-- Write back the process of slot `p`, wherever it is. -/
def put (P : Procs) (p : ProcSlot) (proc : Process) : Procs :=
  match (P.table p).process with
  | some _ => P.setTableProc p (some proc)
  | none =>
    match P.coreOf p with
    | some core => P.setCurrent core (some proc)
    | none => P

/-- The capability table of the live process of slot `p`. -/
def caps (P : Procs) (p : ProcSlot) : Option CapTable := (P.proc p).map Process.caps

variable {α : Type}

/-- Run `f` on the table of the process that runs on `core`. -/
def onCurrent (P : Procs) (core : Core) (f : CapTable → Option (α × CapTable)) :
    Option (α × Procs) :=
  match P.current core with
  | none => none
  | some proc =>
    match f proc.caps with
    | none => none
    | some (a, t) => some (a, P.setCurrent core (some (proc.setCaps t)))

/-- Run `f` on the table of the process in slot `p` of the table. -/
def onTable (P : Procs) (p : ProcSlot) (f : CapTable → Option (α × CapTable)) :
    Option (α × Procs) :=
  match (P.table p).process with
  | none => none
  | some proc =>
    match f proc.caps with
    | none => none
    | some (a, t) => some (a, P.setTableProc p (some (proc.setCaps t)))

/-- `with_lender_caps`: the lender is suspended in the table, or it runs on some core. The
outer `none` means that no process is there, the inner one that `f` gave nothing. -/
def withLenderCaps (P : Procs) (lender : ProcSlot) (f : CapTable → Option (α × CapTable)) :
    Option (Option (α × Procs)) :=
  match (P.table lender).process with
  | some _ => some (P.onTable lender f)
  | none =>
    match P.coreOf lender with
    | some core => some (P.onCurrent core f)
    | none => none

/-- `install_into_blocked`. -/
def installIntoBlocked (P : Procs) (p : ProcSlot) (cap : Capability) :
    Option (CapSlot × Procs) :=
  P.onTable p fun t => t.reclaim cap

/-- `install_into_blocked_home`. -/
def installIntoBlockedHome (P : Procs) (p : ProcSlot) (cap : Capability)
    (prior : Option Origin) : Option (CapSlot × Procs) :=
  P.onTable p fun t => t.installHome cap prior p

/-! ### Pending messages and wakes -/

/-- `set_pending`. -/
def setPending (P : Procs) (p : ProcSlot) (msg cap : Nat) (isCall : Bool) : Procs :=
  P.setSlot p { P.table p with pendingMsg := msg, pendingCap := cap, pendingCall := isCall }

/-- `set_reclaim_landing`: the first write wins. -/
def setReclaimLanding (P : Procs) (p : ProcSlot) (landing : Nat) : Procs :=
  if (P.table p).pendingLanding = noCap then
    P.setSlot p { P.table p with pendingLanding := landing }
  else P

/-- `take_reclaim_landing`: read and clear. -/
def takeReclaimLanding (P : Procs) (p : ProcSlot) : Nat × Procs :=
  ((P.table p).pendingLanding, P.setSlot p { P.table p with pendingLanding := noCap })

/-- `wake_with`: write the result registers and make the slot Ready. -/
def wakeWith (P : Procs) (p : ProcSlot) (status payload landing : Nat) : Procs :=
  { P.setSlot p { P.table p with state := .ready, result := ⟨status, payload, landing⟩ } with
    strayWakes := P.strayWakes + if P.isBlocked p then 0 else 1 }

/-- `block_current`: park the process of `core` in its slot as Blocked. -/
def blockCurrent (P : Procs) (core : Core) : Procs :=
  match P.current core with
  | none => P
  | some proc =>
    (P.setSlot (P.currentSlot core)
      { P.table (P.currentSlot core) with state := .blocked, process := some proc }).setCurrent
      core none

/-- The suspend half of `timer_tick`: park the process of `core` in its slot as Ready. -/
def preempt (P : Procs) (core : Core) : Option Procs :=
  match P.current core with
  | none => none
  | some proc =>
    some ((P.setSlot (P.currentSlot core)
      { P.table (P.currentSlot core) with state := .ready, process := some proc }).setCurrent
      core none)

/-- `resume_process`: an idle core takes a Ready process. -/
def resume (P : Procs) (core : Core) (p : ProcSlot) : Option Procs :=
  if P.state p = .ready ∧ P.current core = none then
    match (P.table p).process with
    | none => none
    | some proc =>
      some { P.setSlot p { P.table p with state := .running, process := none } with
        current := Function.update P.current core (some proc)
        currentSlot := Function.update P.currentSlot core p }
  else none

/-- `clear_origins_naming`: clear the origins that name `p`, in every suspended and every
running process. -/
def clearOriginsNaming (P : Procs) (p : ProcSlot) : Procs :=
  { P with
    table := fun q => { P.table q with
      process := (P.table q).process.map fun proc => proc.setCaps (proc.caps.clearOrigin p) }
    current := fun core =>
      (P.current core).map fun proc => proc.setCaps (proc.caps.clearOrigin p) }

/-- `find_free_slot`. -/
def findFreeSlot (P : Procs) : Option ProcSlot :=
  (List.finRange maxProcesses).find? fun p => P.state p == .empty

end Procs

end Plinth
