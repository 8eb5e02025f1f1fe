import Mathlib.Algebra.GroupWithZero.Nat
import Mathlib.Logic.Function.Basic
import Plinth.Common.Transition

/-!
# `Plinth.Upcalls.System`: fault upcalls

The model of `kernel/src/fault.rs` with `fault_reg` and `fault_return` of `syscall.rs`. A process
that registers a handler gets its own page faults back: `page_fault_dispatch` saves the context of
the fault and enters the handler, and `fault_return` loads the context again.

The kernel runs under one lock, so a kernel entry is one step here. Only `resume` gives the lock
back before `resume_user_trap` loads the saved words, so these loads are steps of their own.

How the scheduler picks the next process is left open: a core can leave its process and take any
process that no core runs.
-/

set_option autoImplicit false

namespace Plinth

open Transition

namespace Upcalls

/-! ### Contexts -/

/-- `USER_LAZY_BASE`. -/
def userLazyBase : Nat := 0x18000000

/-- `USER_LAZY_END`. -/
def userLazyEnd : Nat := 0x19000000

/-- The number of words of a `ResumeFrame`. -/
def frameWords : Nat := 20

instance : NeZero frameWords := ⟨by decide⟩

/-- The context that a `ResumeFrame` holds: the words 0 to 14 are the general registers in the
order of the stub (rax, rbx, rcx, rdx, rsi, rdi, rbp, r8 to r15), then rip, cs, rflags, rsp and
ss. -/
abbrev Context := Fin frameWords → UInt64

/-- `FaultReg`. -/
structure FaultReg where
  entry : UInt64
  stackTop : UInt64
  deriving DecidableEq

/-- The registers that `deliver_fault_handler` sets. The other ones keep what the kernel left in
them. -/
def handlerContext (left : Context) (reg : FaultReg) (cr2 : UInt64) : Context :=
  let c := Function.update left 0 0x23
  let c := Function.update c 5 cr2
  let c := Function.update c 15 reg.entry
  let c := Function.update c 16 0x23
  let c := Function.update c 17 0x2
  let c := Function.update c 18 reg.stackTop
  Function.update c 19 0x1b

/-! ### States -/

/-- What the upcalls use of a process. `context` is what it computes with, or what it will be
resumed with. `running` says that a core has it. -/
structure Proc where
  fault : Option FaultReg
  inFault : Bool
  context : Context
  running : Bool

/-- What a core does. It is idle or in the scheduler, it runs a process in ring 3, or it is in
`resume_user_trap` and has loaded the first `n` words. -/
inductive CoreState where
  | idle
  | user (p : Nat)
  | resuming (p : Nat) (n : Nat) (loaded : Context)

/-- The process of a core. -/
def CoreState.proc? : CoreState → Option Nat
  | .idle => none
  | .user p => some p
  | .resuming p _ _ => some p

/-- The one saved context `SAVED_TRAP`, the processes and the cores. -/
structure State where
  savedTrap : Context
  procs : Nat → Option Proc
  cores : Nat → CoreState

namespace State

def setProc (s : State) (p : Nat) (proc : Option Proc) : State :=
  { s with procs := Function.update s.procs p proc }

def setCore (s : State) (core : Nat) (c : CoreState) : State :=
  { s with cores := Function.update s.cores core c }

/-- The process that runs in ring 3 on a core. -/
def current (s : State) (core : Nat) : Option (Nat × Proc) :=
  match s.cores core with
  | .user p => (s.procs p).map fun proc => (p, proc)
  | _ => none

end State

/-! ### Steps -/

/-- What happens. -/
inductive Label where
  /-- A process slot is filled. -/
  | spawn (p : Nat) (context : Context)
  /-- The process of a core computes in ring 3. -/
  | run (core : Nat) (context : Context)
  /-- A call of a parked process ends, and its results are put into its registers. -/
  | wake (p : Nat) (context : Context)
  /-- `fault_reg`. -/
  | faultReg (core : Nat) (entry stackTop : UInt64)
  /-- A page fault in ring 3 at the address `cr2`. -/
  | pageFault (core : Nat) (notPresent : Bool) (cr2 : UInt64) (left : Context)
  /-- `fault_return`, up to the release of the lock. -/
  | faultReturn (core : Nat)
  /-- `resume_user_trap` loads one word. After the last one the process runs. -/
  | load (core : Nat)
  /-- The process of a core blocks or is preempted. -/
  | leave (core : Nat)
  /-- An idle core takes a process. -/
  | dispatch (core : Nat) (p : Nat)
  /-- The process of a core exits. -/
  | exit (core : Nat)

/-- Does `page_fault_dispatch` enter the handler of the process? -/
def handler (proc : Proc) (notPresent : Bool) (cr2 : UInt64) : Option FaultReg :=
  match proc.fault with
  | some reg =>
    if notPresent && !proc.inFault && decide (userLazyBase ≤ cr2.toNat) &&
      decide (cr2.toNat < userLazyEnd) then some reg else none
  | none => none

/-- One step. -/
def next (s : State) : Label → Option State
  | .spawn p context =>
    match s.procs p with
    | some _ => none
    | none => some (s.setProc p (some ⟨none, false, context, false⟩))
  | .run core context =>
    match s.current core with
    | none => none
    | some (p, proc) => some (s.setProc p (some { proc with context }))
  | .wake p context =>
    match s.procs p with
    | none => none
    | some proc => if proc.running then none else some (s.setProc p (some { proc with context }))
  | .faultReg core entry stackTop =>
    match s.current core with
    | none => none
    | some (p, proc) =>
      if entry = 0 || stackTop = 0 then some s
      else some (s.setProc p (some { proc with fault := some ⟨entry, stackTop⟩ }))
  | .pageFault core notPresent cr2 left =>
    match s.current core with
    | none => none
    | some (p, proc) =>
      match handler proc notPresent cr2 with
      | some reg =>
        let s := s.setProc p (some { proc with
          inFault := true, context := handlerContext left reg cr2 })
        some { s with savedTrap := proc.context }
      | none => some ((s.setProc p none).setCore core .idle)
  | .faultReturn core =>
    match s.current core with
    | none => none
    | some (p, proc) =>
      if proc.inFault then
        some ((s.setProc p (some { proc with inFault := false })).setCore core
          (.resuming p 0 proc.context))
      else some s
  | .load core =>
    match s.cores core with
    | .resuming p n loaded =>
      if h : n < frameWords then
        let loaded := Function.update loaded ⟨n, h⟩ (s.savedTrap ⟨n, h⟩)
        if n + 1 < frameWords then some (s.setCore core (.resuming p (n + 1) loaded))
        else
          match s.procs p with
          | none => none
          | some proc =>
            some ((s.setProc p (some { proc with context := loaded })).setCore core (.user p))
      else none
    | _ => none
  | .leave core =>
    match s.current core with
    | none => none
    | some (p, proc) =>
      some ((s.setProc p (some { proc with running := false })).setCore core .idle)
  | .dispatch core p =>
    match s.cores core, s.procs p with
    | .idle, some proc =>
      if proc.running then none
      else some ((s.setProc p (some { proc with running := true })).setCore core (.user p))
    | _, _ => none
  | .exit core =>
    match s.current core with
    | none => none
    | some (p, _) => some ((s.setProc p none).setCore core .idle)

/-- At first there is no process, and every core is idle. -/
def system : System State Label where
  init s := (∀ p, s.procs p = none) ∧ ∀ core, s.cores core = .idle
  next := next

/-! ### What a run tells -/

/-- The fault that a step delivers: the process and its context at the fault. -/
def delivers (s : State) : Label → Option (Nat × Context)
  | .pageFault core notPresent cr2 _ =>
    match s.current core with
    | none => none
    | some (p, proc) =>
      match handler proc notPresent cr2 with
      | some _ => some (p, proc.context)
      | none => none
  | _ => none

/-- The context of the process at its last fault that was delivered. -/
def lastFault (p : Nat) : List (State × Label) → Option Context
  | [] => none
  | (s, ℓ) :: hist =>
    match delivers s ℓ with
    | some (p', context) => if p' = p then some context else lastFault p hist
    | none => lastFault p hist

/-- No fault of another process was delivered since the last one of this process. -/
def undisturbed (p : Nat) : List (State × Label) → Bool
  | [] => true
  | (s, ℓ) :: hist =>
    match delivers s ℓ with
    | some (p', _) => decide (p' = p)
    | none => undisturbed p hist

/-- The process that a step resumes: the load of its last word. -/
def resumes (s : State) : Label → Option Nat
  | .load core =>
    match s.cores core with
    | .resuming p n _ => if n + 1 = frameWords then some p else none
    | _ => none
  | _ => none

end Upcalls

end Plinth
