import Plinth.Common.Transition
import Plinth.ProcTable

/-!
# `Plinth.Scheduler.Queues`: the queues of the cores

The scheduler of `kernel/src/scheduler.rs` with everything that decides who runs next: the queue of
each core, `timer_tick`, `block_current`, `on_exit`, `switch_to_next`, `idle_until_runnable`,
`ap_idle_loop`, `try_steal`, `spawn` and `run`. The rest of the model has a core take any Ready
process.

Everything happens under the big lock, so a step is what a core does between two releases of it.
A core without a process waits in one of three loops, and its place says in which one. What the
scheduler cannot know, namely whether a process waits for input or for a disk, and who is woken by
the events that `switch_to_next` delivers, is part of a step (`Env`).

The `expect` calls of the source are errors with its texts. `resumed` records for each core the
processes that it has resumed, and it is no data of the program.
-/

set_option autoImplicit false

namespace Plinth

open Transition

/-- A position in the queue of a core. -/
abbrev QueuePos := Fin maxProcesses

/-- `QUANTUM`. -/
def quantum : Nat := 1

/-- `NoWorkAction`: why a core looks for work. -/
inductive Sched.NoWorkAction where
  /-- Its process has exited. -/
  | exitedReturnIfDone
  /-- Its process is blocked. -/
  | blockedDeadlockIfNoOtherWork
  deriving DecidableEq, Repr

/-- Where a core is. -/
inductive Sched.Place where
  /-- It was not brought up. -/
  | off
  /-- The boot code, outside of `run`. -/
  | boot
  /-- `run`, as long as it sets processes up. -/
  | launch
  /-- It runs a process. -/
  | user
  /-- The loop of `switch_to_next`. -/
  | switching (curPos : QueuePos) (onIdle : Sched.NoWorkAction)
  /-- The loop of `idle_until_runnable`, for the call of `switch_to_next` with these arguments. -/
  | waiting (curPos : QueuePos) (onIdle : Sched.NoWorkAction)
  /-- The loop of `ap_idle_loop`. -/
  | idle
  deriving DecidableEq, Repr

/-- The state of the scheduler. `online` are the cores that were brought up. -/
structure Sched where
  procs : Procs
  coreQueue : Core → QueuePos → Option ProcSlot
  nextHomeCore : Nat
  ticksInQuantum : Core → Nat
  isLauncher : Core → Bool
  online : Core → Bool
  place : Core → Sched.Place
  /-- Ghost: the processes that each core has resumed, in order. -/
  resumed : Core → List ProcSlot

/-- What a core that looks for work finds elsewhere in the kernel: whether a process waits for input
or for a disk, who is woken by the events that it delivers then, and whether a process waits after
that. -/
structure Sched.Env where
  waiter : Bool
  delivered : List (ProcSlot × Result)
  stillWaiting : Bool

namespace Sched

/-- The place of a core. -/
def setPlace (s : Sched) (me : Core) (place : Place) : Sched :=
  { s with place := Function.update s.place me place }

/-- Replace one position of a queue. -/
def setQueue (s : Sched) (core : Core) (pos : QueuePos) (t : Option ProcSlot) : Sched :=
  { s with coreQueue :=
      Function.update s.coreQueue core (Function.update (s.coreQueue core) pos t) }

/-! ### The queue of a core -/

/-- `core_states`. -/
def coreStates (s : Sched) (me : Core) (pos : QueuePos) : ProcState :=
  match s.coreQueue me pos with
  | some t => s.procs.state t
  | none => .empty

/-- `core_position`. -/
def corePosition (s : Sched) (me : Core) (t : ProcSlot) : Option QueuePos :=
  (List.finRange maxProcesses).find? fun pos => s.coreQueue me pos = some t

/-- `push_to_core_queue`. -/
def pushToCoreQueue (s : Sched) (core : Core) (t : ProcSlot) : Except String Sched :=
  match (List.finRange maxProcesses).find? fun pos => (s.coreQueue core pos).isNone with
  | none => .error "push_to_core_queue: core queue full (cannot exceed MAX_PROCESSES total)"
  | some free => .ok (s.setQueue core free (some t))

/-- `remove_from_core_queue`. -/
def removeFromCoreQueue (s : Sched) (core : Core) (t : ProcSlot) : Except String Sched :=
  match s.corePosition core t with
  | none =>
    .error "remove_from_core_queue: table_slot not found in its home core's queue"
  | some pos => .ok (s.setQueue core pos none)

/-- `next_home_core`, with the counter after it. Core 0 is always online. -/
def nextHome (s : Sched) : Core × Nat :=
  match ((List.range maxCores).map fun i => Fin.ofNat maxCores (s.nextHomeCore + i)).find?
    s.online with
  | some candidate => (candidate, candidate + 1)
  | none => (0, 1)

/-- `pick_next`: the next Ready position strictly after `current`, wrapping. -/
def pickNext (slots : QueuePos → ProcState) (current : QueuePos) : Option QueuePos :=
  ((List.range' 1 (maxProcesses - 1)).map fun offset =>
    Fin.ofNat maxProcesses (current + offset)).find? fun i => slots i = .ready

/-- `first_claimable_slot`, as a position. -/
def firstClaimable (s : Sched) (me : Core) : Option QueuePos :=
  (List.finRange maxProcesses).find? fun pos => s.coreStates me pos = .ready

/-- The first process in the queue of a donor that `try_steal` may take. -/
def stealable (s : Sched) (donor : Core) : Option ProcSlot :=
  (List.finRange maxProcesses).findSome? fun pos =>
    (s.coreQueue donor pos).filter fun t =>
      t ≠ s.procs.currentSlot donor ∧ s.procs.state t = .ready

/-- `try_steal`. -/
def trySteal (s : Sched) (me : Core) : Except String (Option ProcSlot × Sched) :=
  match ((List.range' 1 (maxCores - 1)).map fun offset =>
    Fin.ofNat maxCores (me + offset)).findSome? fun donor =>
      (s.stealable donor).map fun t => (donor, t) with
  | none => .ok (none, s)
  | some (donor, t) =>
    match s.removeFromCoreQueue donor t with
    | .error e => .error e
    | .ok s' =>
      match s'.pushToCoreQueue me t with
      | .error e => .error e
      | .ok s' => .ok (some t, s')

/-! ### Processes -/

/-- A core takes the process of a slot. -/
def take (s : Sched) (me : Core) (t : ProcSlot) (proc : Process) : Sched :=
  { s with
    procs := { s.procs.setSlot t { s.procs.table t with state := .running, process := none } with
      current := Function.update s.procs.current me (some proc)
      currentSlot := Function.update s.procs.currentSlot me t }
    place := Function.update s.place me .user
    resumed := Function.update s.resumed me (s.resumed me ++ [t]) }

/-- `resume_process`. -/
def resumeProcess (s : Sched) (me : Core) (t : ProcSlot) : Except String Sched :=
  match (s.procs.table t).process with
  | none => .error "Ready slot has no process"
  | some proc => .ok (s.take me t proc)

/-- Resume the process at a position, which `core_table_slot` finds. -/
def resumeAt (s : Sched) (me : Core) (pos : QueuePos) : Except String Sched :=
  match s.coreQueue me pos with
  | none => .error "core_table_slot: position reported Ready but queue slot is empty"
  | some t => s.resumeProcess me t

/-- `wake_with`. Its callers pass Blocked slots only. -/
def wake (s : Sched) (p : ProcSlot) (r : Result) : Sched :=
  if s.procs.isBlocked p then
    { s with procs := s.procs.wakeWith p r.status r.payload r.landing }
  else s

/-- The wakes of the events that are delivered. -/
def deliver (s : Sched) (delivered : List (ProcSlot × Result)) : Sched :=
  delivered.foldl (fun s d => s.wake d.1 d.2) s

/-- The slot of a new process. -/
def newSlot (s : Sched) (id : ProcSlot) (proc : Process) (bootFrames : List (Nat × Nat)) : Slot :=
  { s.procs.table id with state := .ready, process := some proc, bootFrames }

/-- The part of `setup_process` that the scheduler sees: the new process is Ready and has a home. -/
def setupProcess (s : Sched) (id : ProcSlot) (proc : Process) (bootFrames : List (Nat × Nat))
    (home : Core) : Except String Sched :=
  { s with procs := s.procs.setSlot id (s.newSlot id proc bootFrames) }.pushToCoreQueue home id

/-! ### Looking for work -/

/-- `table_entirely_empty`. -/
def tableEntirelyEmpty (s : Sched) : Bool :=
  (List.finRange maxProcesses).all fun p => s.procs.state p == .empty

/-- Steal and resume, or go on. -/
def stealOr (s : Sched) (me : Core) (rest : Sched → Except String Sched) : Except String Sched :=
  match s.trySteal me with
  | .error e => .error e
  | .ok (some t, s') => s'.resumeProcess me t
  | .ok (none, s') => rest s'

/-- The loop of `switch_to_next` up to the steal. -/
def switchTop (s : Sched) (me : Core) (curPos : QueuePos) (onIdle : NoWorkAction)
    (rest : Sched → Except String Sched) : Except String Sched :=
  match pickNext (s.coreStates me) curPos with
  | some next => s.resumeAt me next
  | none =>
    if s.coreStates me curPos = .ready then s.resumeAt me curPos
    else
      match onIdle with
      | .exitedReturnIfDone =>
        if s.isLauncher me then s.stealOr me rest else .ok (s.setPlace me .idle)
      | .blockedDeadlockIfNoOtherWork => rest s

/-- The end of the loop of `switch_to_next`: nothing to run and nothing to wait for. If other cores
have work, the core stays in the loop. -/
def switchEnd (s : Sched) (me : Core) : Sched :=
  if s.tableEntirelyEmpty then
    if s.isLauncher me then s.setPlace me .boot else s.setPlace me .idle
  else s

/-- `idle_until_runnable`, up to its return or its wait. -/
def idleUntilRunnable (s : Sched) (me : Core) (curPos : QueuePos) (onIdle : NoWorkAction)
    (stillWaiting : Bool) : Except String Sched :=
  match s.firstClaimable me with
  | some pos => s.resumeAt me pos
  | none =>
    s.stealOr me fun s =>
      if stillWaiting then .ok s
      else
        -- It returns, and `switch_to_next` starts again, now without a waiter.
        (s.setPlace me (.switching curPos onIdle)).switchTop me curPos onIdle fun s =>
          .ok (s.switchEnd me)

/-- `switch_to_next`, up to the next release of the lock. -/
def switchToNext (s : Sched) (me : Core) (curPos : QueuePos) (onIdle : NoWorkAction)
    (env : Env) : Except String Sched :=
  s.switchTop me curPos onIdle fun s =>
    if env.waiter then
      ((s.setPlace me (.waiting curPos onIdle)).deliver env.delivered).idleUntilRunnable me curPos
        onIdle env.stillWaiting
    else .ok (s.switchEnd me)

/-- `ap_idle_loop`, up to the next release of the lock. -/
def apIdleLoop (s : Sched) (me : Core) : Except String Sched :=
  match s.firstClaimable me with
  | some pos => s.resumeAt me pos
  | none => s.stealOr me fun s => .ok s

/-! ### Kernel entries -/

/-- The switch of `timer_tick`, when the quantum is up. -/
def timerSwitch (s : Sched) (me : Core) : Except String Sched :=
  match s.corePosition me (s.procs.currentSlot me) with
  | none => .error "timer_tick: running process missing from its own core queue"
  | some curPos =>
    match pickNext (s.coreStates me) curPos with
    | none => .ok s
    | some nextPos =>
      match s.coreQueue me nextPos with
      | none => .error "core_table_slot: position reported Ready but queue slot is empty"
      | some next =>
        match s.procs.preempt me with
        | none => .error "CURRENT vanished under the scheduler"
        | some procs => { s with procs }.resumeProcess me next

/-- `timer_tick` in ring 3. -/
def timerTick (s : Sched) (me : Core) : Except String Sched :=
  let ticks := s.ticksInQuantum me + 1
  if ticks < quantum then
    .ok { s with ticksInQuantum := Function.update s.ticksInQuantum me ticks }
  else
    { s with ticksInQuantum := Function.update s.ticksInQuantum me 0 }.timerSwitch me

/-- `block_current`. -/
def blockCurrent (s : Sched) (me : Core) (env : Env) : Except String Sched :=
  match s.corePosition me (s.procs.currentSlot me) with
  | none => .error "block_current: blocking process missing from its own core queue"
  | some curPos =>
    match s.procs.current me with
    | none => .error "no CURRENT process to block"
    | some _ =>
      ({ s with procs := s.procs.blockCurrent me }.setPlace me
        (.switching curPos .blockedDeadlockIfNoOtherWork)).switchToNext me curPos
          .blockedDeadlockIfNoOtherWork env

/-- `on_exit`. What the death does to the capabilities and the frames is in `Kernel.onExit`, and
the peers that it wakes are woken before this step. -/
def onExit (s : Sched) (me : Core) (env : Env) : Except String Sched :=
  let cur := s.procs.currentSlot me
  match s.corePosition me cur with
  | none => .error "on_exit: exiting process missing from its own core queue"
  | some curPos =>
    match s.procs.current me with
    | none => .error "no CURRENT process at exit"
    | some _ =>
      let s := { s with procs := (s.procs.setCurrent me none).setSlot cur Slot.empty }
      match s.removeFromCoreQueue me cur with
      | .error e => .error e
      | .ok s =>
        (s.setPlace me (.switching curPos .exitedReturnIfDone)).switchToNext me curPos
          .exitedReturnIfDone env

/-- `spawn`, with a set-up that succeeds. -/
def spawn (s : Sched) (me : Core) (proc : Process) (bootFrames : List (Nat × Nat)) :
    Except String Sched :=
  match s.procs.findFreeSlot with
  | none => .ok s
  | some id => s.setupProcess id proc bootFrames me

/-- The set-up loop of `run` from process `id` on. -/
def setupAll (s : Sched) (me : Core) :
    List (ProcSlot × Process × List (Nat × Nat)) → Except String Sched
  | [] => .ok s
  | (id, proc, bootFrames) :: rest =>
    let home := if id = 0 then (me, s.nextHomeCore) else s.nextHome
    match { s with nextHomeCore := home.2 }.setupProcess id proc bootFrames home.1 with
    | .error e => .error e
    | .ok s => s.setupAll me rest

/-- `run`, up to the entry into the first process. -/
def run (s : Sched) (me : Core) (procs : List (Process × List (Nat × Nat))) :
    Except String Sched :=
  match (s.setPlace me .launch).setupAll me ((List.finRange maxProcesses).zip procs) with
  | .error e => .error e
  | .ok s =>
    match (s.procs.table 0).process with
    | none => .error "first slot has no process"
    | some proc =>
      .ok { s.take me 0 proc with isLauncher := Function.update s.isLauncher me true }

/-- `run` when a set-up fails after those of `procs`: `teardown_all`. -/
def runFails (s : Sched) (me : Core) (procs : List (Process × List (Nat × Nat))) :
    Except String Sched :=
  match (s.setPlace me .launch).setupAll me ((List.finRange maxProcesses).zip procs) with
  | .error e => .error e
  | .ok s =>
    .ok ({ s with
      procs := { s.procs with table := fun _ => Slot.empty }
      coreQueue := fun _ _ => none }.setPlace me .boot)

/-! ### The system -/

/-- What happens. -/
inductive Label where
  /-- A timer interrupt in ring 3. -/
  | tick (core : Core)
  /-- A kernel entry ends in `block_current`. -/
  | block (core : Core) (env : Env)
  /-- A process, or a device interrupt, wakes a Blocked process. -/
  | wake (p : ProcSlot) (r : Result)
  /-- The process of a core exits, or a fault kills it. -/
  | exit (core : Core) (env : Env)
  /-- The process of a core spawns another one. -/
  | spawn (core : Core) (proc : Process) (bootFrames : List (Nat × Nat))
  /-- A core that waits looks for work. -/
  | pass (core : Core) (env : Env)
  /-- The boot code launches processes. -/
  | run (procs : List (Process × List (Nat × Nat)))
  /-- A launch fails after these set-ups. -/
  | runFails (procs : List (Process × List (Nat × Nat)))

/-- What a core does that waits. -/
def passOf (s : Sched) (me : Core) (env : Env) : Option (Except String Sched) :=
  match s.place me with
  | .switching curPos onIdle => some (s.switchToNext me curPos onIdle env)
  | .waiting curPos onIdle => some (s.idleUntilRunnable me curPos onIdle env.stillWaiting)
  | .idle => some (s.apIdleLoop me)
  | _ => none

/-- One step: `none` if it is not enabled, an error if an `expect` fails. -/
def act (s : Sched) : Label → Option (Except String Sched)
  | .tick core => if s.place core = .user then some (s.timerTick core) else none
  | .block core env => if s.place core = .user then some (s.blockCurrent core env) else none
  | .wake p r => if s.procs.state p = .blocked then some (.ok (s.wake p r)) else none
  | .exit core env => if s.place core = .user then some (s.onExit core env) else none
  | .spawn core proc bootFrames =>
    if s.place core = .user then some (s.spawn core proc bootFrames) else none
  | .pass core env => s.passOf core env
  | .run procs =>
    if s.place 0 = .boot ∧ procs ≠ [] ∧ procs.length ≤ maxProcesses then
      some (s.run 0 procs)
    else none
  | .runFails procs =>
    if s.place 0 = .boot ∧ procs.length ≤ maxProcesses then some (s.runFails 0 procs) else none

/-- The state after a step in which no `expect` fails. -/
def next (s : Sched) (ℓ : Label) : Option Sched :=
  match s.act ℓ with
  | some (.ok t) => some t
  | _ => none

/-- Before the first launch there are no processes, and the boot core is the launcher to be. Core 0
is online, and the other cores that are online wait in `ap_idle_loop`. -/
structure Booted (s : Sched) : Prop where
  table : ∀ p, s.procs.state p = .empty ∧ (s.procs.table p).process = none
  current : ∀ c, s.procs.current c = none
  queues : ∀ c pos, s.coreQueue c pos = none
  launcher : ∀ c, s.isLauncher c = false
  online : s.online 0 = true
  boot : s.place 0 = .boot
  others : ∀ c, c ≠ 0 → s.place c = if s.online c then .idle else .off

def system : System Sched Label := ⟨Booted, next⟩

end Sched

end Plinth
