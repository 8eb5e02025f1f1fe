import Plinth.Common.LockDiscipline

/-!
# `Plinth.Smp.KernelLock`: the big kernel lock

`bkl.rs` has one lock for the whole kernel. Every entry point takes it first and gives it back
before control leaves the kernel, by hand: several of the functions in between never return
(`sched_resume`, `sched_return_to_kernel`, `kernel_resume`), so a guard that gives the lock back at
its drop would not run. `release` is `force_unlock`: it frees the lock whoever holds it.

Each function on a path between `acquire` and `release` is written here as the library's `Code`.
Work under the lock (the process table, the endpoints, the rings) is `work`, and a branch on data is
a `choice`, so the machine has every path of the source and a few more. What stays as it is in the
source is the order of the calls and of the two operations on the lock, and where a function leaves
the kernel.

`kernel_lock` is the result about any number of cores and every interleaving. The other models of
the kernel take one entry at a time for this reason.
-/

set_option autoImplicit false

open Transition LockDiscipline

namespace Plinth.Smp

/-- The functions on the paths between `acquire` and `release`. `fromUser` is the test of the saved
code segment that the fault handlers make. -/
inductive Fn
  | timerTick
  | syscallDispatch
  | sysExit
  | sysCpuCharge
  | sysFaultReturn
  | ipcDispatch
  | pageFaultDispatch (fromUser : Bool)
  | handleFault (fromUser : Bool)
  | doubleFaultHandler
  | panicHandler
  | keyboardInterrupt
  | mouseInterrupt
  | blkInterrupt (dev : Fin 3)
  | spuriousInterrupt
  | rescheduleInterrupt
  | exitCurrent
  | onExit
  | blockCurrent
  | switchToNext
  | resumeProcess
  | idleUntilRunnable
  | apIdleLoop
  | apEntry64
  | faultResume
  | schedulerRun
  | processRun
  | kernelMain

/-- The places that the kernel can come back to: the anchor that `sched_start` saves, and the stack
that `enter_user` saves. -/
inductive Place
  | schedAnchor
  | kernelSavedRsp
  deriving DecidableEq

/-- A body of kernel code. -/
abbrev Body := Code Fn Place

/-- One code after the other. -/
def inOrder : List Body → Body
  | [] => .skip
  | [a] => a
  | a :: b :: rest => .seq a (inOrder (b :: rest))

/-- `if … { a }` on data. -/
def whenever (a : Body) : Body := .choice a .skip

/-- An interrupt handler that does its work under the lock. -/
def underLock : Body := inOrder [.acquire, .work, .release]

/-- `timer_tick`. The quantum may not be up, or nobody else can run; otherwise the running process
is put back and the next one is resumed by the return of the stub. -/
def timerTick : Body :=
  inOrder [.acquire, .work,
    .choice .release
      (.seq .work (.choice .release (inOrder [.work, .release])))]

/-- The arms of `syscall_dispatch`: most of them return, and three may leave the kernel by
themselves. -/
def syscallDispatch : Body :=
  inOrder [.acquire,
    .choice .work
      (.choice (.call .sysExit) (.choice (.call .sysCpuCharge) (.call .sysFaultReturn))),
    .release]

/-- `sys_cpu_charge`: a process that overdraws its budget dies. -/
def sysCpuCharge : Body := .seq .work (whenever (.call .exitCurrent))

/-- `sys_fault_return`: only a process in its fault handler goes back to the faulting
instruction. -/
def sysFaultReturn : Body := .seq .work (whenever (.call .faultResume))

/-- The arms of `ipc_dispatch`: each returns or blocks. -/
def ipcDispatch : Body :=
  inOrder [.acquire, .work, whenever (.call .blockCurrent), .work, .release]

/-- `page_fault_dispatch`. A fault of user code goes to the handler that the process has registered,
or ends the process. A fault of the kernel is reported without the lock. -/
def pageFaultDispatch : Bool → Body
  | true =>
    inOrder [.acquire, .work, whenever (inOrder [.work, .release, .toUser]), .skip,
      .call .exitCurrent]
  | false => .seq .skip .panic

/-- `handle_fault`. The report comes first, without the lock. -/
def handleFault : Bool → Body
  | true => inOrder [.skip, .acquire, .call .exitCurrent]
  | false => .seq .skip .panic

/-- `exit_current`: by the scheduler if it is active, or back into `process::run`. -/
def exitCurrent : Body :=
  .choice (.call .onExit) (.seq .release (.escape .kernelSavedRsp))

/-- `switch_to_next`. The first two branches are a Ready process of this core. Then a core whose own
process has exited steals: if it is no launcher it goes to its idle loop, which steals by itself.
`IS_LAUNCHER` says whether the anchor has been saved. The rest of the round waits for input, returns
to the launcher, or waits for any interrupt. -/
def switchToNext : Body :=
  .forever (inOrder [.work,
    whenever (.call .resumeProcess),
    whenever (.call .resumeProcess),
    whenever (.seq
      (.ifSaved .schedAnchor .skip (.seq .release (.call .apIdleLoop)))
      (.seq .work (whenever (.call .resumeProcess)))),
    .work,
    .choice (.seq .work (.call .idleUntilRunnable))
      (.choice
        (.ifSaved .schedAnchor
          (.seq .release (.escape .schedAnchor))
          (.seq .release (.call .apIdleLoop)))
        (inOrder [.release, .wait, .acquire]))])

/-- One look of `idle_until_runnable`: a Ready process of this core, or a stolen one. -/
def idleLook : Body :=
  inOrder [.work, whenever (.call .resumeProcess), .work, whenever (.call .resumeProcess), .work]

/-- `idle_until_runnable` looks, returns if nobody waits for input or the disk any more, and
otherwise waits with the lock free and looks again. -/
def idleUntilRunnable : Body :=
  .seq idleLook (.loop (inOrder [.release, .wait, .acquire, .work, idleLook]))

/-- `ap_idle_loop`. -/
def apIdleLoop : Body :=
  .forever (inOrder [.acquire, .work, whenever (.call .resumeProcess), .work,
    whenever (.call .resumeProcess), .release, .wait])

/-- `scheduler::run`: the processes are set up under the lock, and a setup that fails gives it back.
`sched_start` comes back when the last process has exited. -/
def schedulerRun : Body :=
  inOrder [.acquire, .loop .work,
    .choice (inOrder [.work, .release])
      (inOrder [.work, .release, .enter .schedAnchor, .skip])]

/-- `process::run`: the demos that run one at a time. -/
def processRun : Body := inOrder [.skip, .enter .kernelSavedRsp, .skip]

/-- The bodies. -/
def bodyOf : Fn → Body
  | .timerTick => timerTick
  | .syscallDispatch => syscallDispatch
  | .sysExit => .call .exitCurrent
  | .sysCpuCharge => sysCpuCharge
  | .sysFaultReturn => sysFaultReturn
  | .ipcDispatch => ipcDispatch
  | .pageFaultDispatch fromUser => pageFaultDispatch fromUser
  | .handleFault fromUser => handleFault fromUser
  | .doubleFaultHandler => .seq .skip .panic
  | .panicHandler => .seq .skip .panic
  | .keyboardInterrupt => underLock
  | .mouseInterrupt => underLock
  | .blkInterrupt _ => underLock
  | .spuriousInterrupt => .skip
  | .rescheduleInterrupt => .skip
  | .exitCurrent => exitCurrent
  | .onExit => .seq .work (.call .switchToNext)
  | .blockCurrent => .seq .work (.call .switchToNext)
  | .switchToNext => switchToNext
  | .resumeProcess => inOrder [.work, .release, .toUser]
  | .idleUntilRunnable => idleUntilRunnable
  | .apIdleLoop => apIdleLoop
  | .apEntry64 => .seq .skip (.call .apIdleLoop)
  | .faultResume => .seq .release .toUser
  | .schedulerRun => schedulerRun
  | .processRun => processRun
  | .kernelMain => .loop (.choice (.call .processRun) (.choice (.call .schedulerRun) .skip))

/-- What each function says about the lock in its comments: held at the call or not, and held at the
return, if it returns. -/
def promiseOf : Fn → Promise
  | .sysExit | .exitCurrent | .onExit | .blockCurrent | .switchToNext | .resumeProcess
  | .faultResume => { before := true, after := none }
  | .sysCpuCharge | .sysFaultReturn | .idleUntilRunnable => { before := true, after := some true }
  | .pageFaultDispatch _ | .handleFault _ | .doubleFaultHandler | .panicHandler | .apIdleLoop
  | .apEntry64 => { before := false, after := none }
  | _ => { before := false, after := some false }

/-- A device or the timer may interrupt user code and a core that waits. -/
def isInterrupt : Fn → Bool
  | .timerTick | .keyboardInterrupt | .mouseInterrupt | .blkInterrupt _ | .spuriousInterrupt
  | .rescheduleInterrupt => true
  | _ => false

/-- What user code can enter: the interrupts, the two gates, and its own faults. -/
def isEntry : Fn → Bool
  | .syscallDispatch | .ipcDispatch | .pageFaultDispatch true | .handleFault true
  | .doubleFaultHandler => true
  | f => isInterrupt f

/-- What kernel code can run into at any point, with the lock held or not. -/
def isKernelFault : Fn → Bool
  | .pageFaultDispatch false | .handleFault false | .doubleFaultHandler | .panicHandler => true
  | _ => false

/-- The kernel, as far as its lock is concerned. Only the launcher may go back through the anchor of
`sched_start`. -/
def kernelCode : Program Fn Place where
  body := bodyOf
  promise := promiseOf
  entries := isEntry
  interrupts := isInterrupt
  faults := isKernelFault
  careful p := decide (p = .schedAnchor)

/-- The boot processor runs the boot sequence, the other ones come up in `ap_entry64`. -/
def firstCode {ι : Type} [DecidableEq ι] (bsp i : ι) : Body :=
  if i = bsp then .call .kernelMain else .call .apEntry64

/-! ### The kernel keeps the discipline -/

theorem kernel_promises (f : Fn) :
    kernelCode.check [] (bodyOf f) (promiseOf f).before = some (promiseOf f).after := by
  cases f with
  | pageFaultDispatch fromUser => cases fromUser <;> decide
  | handleFault fromUser => cases fromUser <;> decide
  | blkInterrupt _ => rfl
  | _ => decide

/-- An interrupt handler takes the lock free and gives it back free. -/
theorem interrupt_returns (f : Fn) (h : isInterrupt f = true) : kernelCode.Returns (bodyOf f) := by
  have hpromise := kernel_promises f
  cases f with
  | timerTick | keyboardInterrupt | mouseInterrupt | blkInterrupt | spuriousInterrupt
  | rescheduleInterrupt => exact Or.inl hpromise
  | _ => cases h

theorem entry_returns (f : Fn) (h : isEntry f = true) : kernelCode.Returns (bodyOf f) := by
  have hpromise := kernel_promises f
  cases f with
  | syscallDispatch | ipcDispatch => exact Or.inl hpromise
  | doubleFaultHandler => exact Or.inr hpromise
  | pageFaultDispatch fromUser =>
    cases fromUser with
    | true => exact Or.inr hpromise
    | false => cases h
  | handleFault fromUser =>
    cases fromUser with
    | true => exact Or.inr hpromise
    | false => cases h
  | _ => exact interrupt_returns _ h

/-- A fault of the kernel is reported the same way whether the lock is held or not. -/
theorem fault_reports (f : Fn) (held : Bool) (h : isKernelFault f = true) :
    kernelCode.check [] (bodyOf f) held = some none := by
  cases f with
  | pageFaultDispatch fromUser =>
    cases fromUser with
    | true => cases h
    | false => rfl
  | handleFault fromUser =>
    cases fromUser with
    | true => cases h
    | false => rfl
  | doubleFaultHandler | panicHandler => rfl
  | _ => cases h

theorem kernel_wellLocked : kernelCode.WellLocked where
  promises := kernel_promises
  entries := entry_returns
  interrupts := interrupt_returns
  faults := fault_reports

section
variable {ι : Type} [DecidableEq ι]

theorem firstCode_returns (bsp i : ι) : kernelCode.Returns (firstCode bsp i) := by
  unfold firstCode
  split
  · exact Or.inl (by decide)
  · exact Or.inr (by decide)

/-- The kernel on any set of cores. -/
def kernelCores (bsp : ι) : System (State ι Fn Place) (ι × Move Fn) :=
  kernelCode.machine (firstCode bsp)

/-- In every interleaving of any cores: each core keeps to the lock, two cores are never both at
work under it, and the lock alone never stops the machine. -/
theorem kernel_lock (bsp : ι) {s : State ι Fn Place}
    (hs : Reachable (kernelCores bsp) always s) :
    (∀ i, kernelCode.Guarded s.owner i (s.core i)) ∧
    (∀ i j restᵢ restⱼ, (s.core i).stack = .work :: restᵢ → (s.core j).stack = .work :: restⱼ →
      i = j) ∧
    (∀ i rest, (s.core i).stack = .acquire :: rest →
      (∃ j, (kernelCode.next s (j, .go)).isSome = true) ∨
        ∃ j rest, s.owner = some j ∧ (s.core j).stack = .panic :: rest) := by
  have hguard := kernel_wellLocked.safe (firstCode_returns bsp) hs
  refine ⟨hguard, ?_, ?_⟩
  · intro i j restᵢ restⱼ hi hj
    -- Both own the lock, and it has one owner.
    have howner := (hguard i).work restᵢ hi
    rw [(hguard j).work restⱼ hj] at howner
    exact (Option.some.inj howner).symm
  · intro i rest hi
    exact kernel_wellLocked.no_deadlock (firstCode_returns bsp) hs hi

end

/-- Two cores: core 0 has taken the lock in `scheduler::run`, and core 1 wants it in its idle
loop. -/
def contended : State (Fin 2) Fn Place :=
  (kernelCores (0 : Fin 2)).runFrom (started (firstCode 0))
    [(0, .go), (0, .go), (0, .other), (0, .go), (0, .go), (0, .go), (0, .go),
     (1, .go), (1, .go), (1, .go), (1, .go), (1, .go), (1, .go)]

theorem kernel_lock_contended :
    contended.owner = some 0 ∧ (∃ rest, (contended.core 1).stack = .acquire :: rest) ∧
    (∀ i, kernelCode.Guarded contended.owner i (contended.core i)) :=
  ⟨rfl, ⟨_, rfl⟩,
    (kernel_lock (0 : Fin 2) ((kernelCores (0 : Fin 2)).run rfl _).reachable).1⟩

end Plinth.Smp
