import Mathlib.Logic.Function.Basic
import Plinth.Capability
import Plinth.Common.Transition

/-!
# `Plinth.Smp.Bringup`: how the application processors come up

`smp::start_aps` runs on the boot processor. It wakes the other processors one at a time, and all of
them start from the same page: the trampoline, with one block of parameters (the stack and the core
id) and one status word. The boot processor fills the block, wakes one processor, and polls the
status word. The processor loads its stack from the block, reads its core id and then writes the
status word. Only after that, or after 200 polls, does the boot processor fill the block for the
next one.

The steps of the processors interleave in any way. `bringup_in_order` is the main result: if no
processor goes on after the boot processor has given up on it, then in every interleaving the
processors that run have distinct core ids, stacks and per-CPU slots, none of them has the core id
of the boot processor, and the table of online cores says which processor has which core id. The
invariant is `Orderly`, and `Placed` is its part about one processor.

The condition is needed. `late_core` is the other half: on every machine with two processors to
start, a processor that wakes up late takes the core id, the stack and the per-CPU slot of the one
after it, so that both run with them.

`bsp_finishes` says that no processor can hold up the boot: the steps of the boot processor are
bounded by the number of processors, whatever the others do.
-/

set_option autoImplicit false

open Transition

namespace Plinth.Smp

/-- The size of a boot stack (`AP_STACK_SIZE`), and of a system call stack (`STACK_SIZE`). -/
def apStackSize : Nat := 16 * 4096

/-- What a processor writes when it is up (`STATUS_ALIVE`). -/
def statusAlive : Nat := 0xCAFEBABE

/-- How often the boot processor looks for one processor (`AP_WAIT_POLLS`). -/
def apWaitPolls : Nat := 200

/-- Where the linker has put the stacks. -/
structure Image where
  apBootStacks : Nat
  syscallStacks : Nat

/-- `alloc_ap_stack`. -/
def Image.allocApStack (img : Image) (coreId : Nat) : Nat :=
  img.apBootStacks + coreId * apStackSize + apStackSize

/-- `syscall::stack_top`. -/
def Image.stackTop (img : Image) (coreId : Nat) : Nat :=
  img.syscallStacks + coreId * apStackSize + apStackSize

/-- The fields of `PerCpu` that `percpu::init` writes. -/
structure PerCpu where
  coreId : Nat
  syscallStackTop : Nat
  deriving DecidableEq, Repr

/-- Where an application processor is. -/
inductive Ap
  /-- It waits for a start-up interrupt. -/
  | off
  /-- It runs the trampoline and has no stack yet. -/
  | started
  /-- It has loaded its stack from the parameter block. -/
  | stacked (stackTop : Nat)
  /-- It has read its core id. -/
  | named (stackTop coreId : Nat)
  /-- It has written the status word. -/
  | alive (stackTop coreId : Nat)
  /-- It has its per-CPU slot and is in its idle loop. -/
  | up (stackTop : Nat) (gsBase : Core)
  /-- It has faulted: the trampoline page is not mapped any more, or its core id has no slot. -/
  | dead
  deriving DecidableEq, Repr

/-- What the boot processor does next for one processor. -/
inductive Doing
  | writeStackTop
  | writeCoreId
  | clearStatus
  | sendInitSipi
  | poll (polls : Nat)
  | judge
  deriving DecidableEq, Repr

/-- One round of the loop: the processor, its core id, and what is left after it. -/
structure Turn where
  apicId : Nat
  coreId : Core
  rest : List Nat
  deriving DecidableEq, Repr

/-- Where the boot processor is in `start_aps`. -/
inductive Bsp
  /-- At the head of the loop, with the next core id. -/
  | next (rest : List Nat) (nextCoreId : Nat)
  | turn (t : Turn) (doing : Doing)
  | finished
  deriving DecidableEq, Repr

/-- The processors and what they share. -/
structure Machine where
  /-- The parameter block of the trampoline page. -/
  stackTop : Nat
  coreId : Nat
  /-- The status word. -/
  status : Nat
  /-- The identity mapping of the trampoline page. -/
  mapped : Bool
  /-- `ONLINE_APIC_IDS`. -/
  online : Core → Option Nat
  /-- The processors that are reported with "did not respond". -/
  didNotRespond : List Nat
  /-- `PERCPU`. -/
  slots : Core → PerCpu
  bsp : Bsp
  ap : Nat → Ap

/-- The boot: where the stacks are, the boot processor, and the processors of the MADT. -/
structure Boot where
  img : Image
  bspId : Nat
  cpuApicIds : List Nat

variable (cfg : Boot)

/-- The machine after `irq::init` and `install_trampoline`: core 0 is online and has its slot. -/
def Boot.machine (block : Nat × Nat) : Machine where
  stackTop := block.1
  coreId := block.2
  status := 0
  mapped := true
  online core := if core = 0 then some cfg.bspId else none
  didNotRespond := []
  slots core := if core = 0 then ⟨0, cfg.img.stackTop 0⟩ else ⟨0, 0⟩
  bsp := .next cfg.cpuApicIds 1
  ap _ := .off

/-- One round of `start_aps`. -/
def Boot.turnStep (m : Machine) (t : Turn) : Doing → Machine
  | .writeStackTop =>
    { m with stackTop := cfg.img.allocApStack t.coreId, bsp := .turn t .writeCoreId }
  | .writeCoreId => { m with coreId := t.coreId, bsp := .turn t .clearStatus }
  | .clearStatus => { m with status := 0, bsp := .turn t .sendInitSipi }
  | .sendInitSipi =>
    { m with ap := Function.update m.ap t.apicId .started, bsp := .turn t (.poll 0) }
  | .poll polls =>
    if m.status ≠ statusAlive ∧ polls < apWaitPolls then
      { m with bsp := .turn t (.poll (polls + 1)) }
    else { m with bsp := .turn t .judge }
  | .judge =>
    if m.status = statusAlive then
      -- `mark_core_online`
      { m with
        online := Function.update m.online t.coreId (some t.apicId)
        bsp := .next t.rest (t.coreId + 1) }
    else
      { m with didNotRespond := t.apicId :: m.didNotRespond, bsp := .next t.rest (t.coreId + 1) }

/-- One step of the boot processor in `start_aps`. -/
def Boot.bspStep (m : Machine) : Option Machine :=
  match m.bsp with
  | .next [] _ => some { m with mapped := false, bsp := .finished }
  | .next (apicId :: rest) nextCoreId =>
    if apicId = cfg.bspId then some { m with bsp := .next rest nextCoreId }
    else if h : nextCoreId < maxCores then
      some { m with bsp := .turn ⟨apicId, ⟨nextCoreId, h⟩, rest⟩ .writeStackTop }
    else some { m with bsp := .next rest (nextCoreId + 1) }
  | .turn t doing => some (cfg.turnStep m t doing)
  | .finished => none

/-- One step of an application processor: the trampoline and `ap_entry64`. The three steps that
touch the trampoline page fault if it is not mapped. -/
def Boot.apStep (m : Machine) (a : Nat) : Option Machine :=
  match m.ap a with
  | .off => none
  | .started =>
    some { m with ap := Function.update m.ap a (if m.mapped then .stacked m.stackTop else .dead) }
  | .stacked top =>
    some { m with ap := Function.update m.ap a (if m.mapped then .named top m.coreId else .dead) }
  | .named top coreId =>
    if m.mapped then
      some { m with status := statusAlive, ap := Function.update m.ap a (.alive top coreId) }
    else some { m with ap := Function.update m.ap a .dead }
  | .alive top coreId =>
    if h : coreId < maxCores then
      -- `percpu::init`
      some { m with
        slots := Function.update m.slots ⟨coreId, h⟩ ⟨coreId, cfg.img.stackTop coreId⟩
        ap := Function.update m.ap a (.up top ⟨coreId, h⟩) }
    else some { m with ap := Function.update m.ap a .dead }
  | .up _ _ => none
  | .dead => none

/-- Which processor takes the next step. -/
inductive Label
  | bsp
  | ap (apicId : Nat)
  deriving DecidableEq, Repr

def Boot.step (m : Machine) : Label → Option Machine
  | .bsp => cfg.bspStep m
  | .ap a => cfg.apStep m a

/-- The bring-up. The parameter block may hold anything at first. -/
def Boot.bringup : System Machine Label where
  init m := ∃ block, m = cfg.machine block
  next := cfg.step

/-- No step of a processor that the boot processor has given up on. -/
def punctual (m : Machine) : Label → Bool
  | .bsp => true
  | .ap a => decide (a ∉ m.didNotRespond)

/-- The stack and the core id that a processor runs with, once it has told the boot processor. -/
def Ap.running : Ap → Option (Nat × Nat)
  | .alive top coreId => some (top, coreId)
  | .up top gsBase => some (top, gsBase)
  | _ => none

/-- The processor has been woken and has not told the boot processor yet. -/
def Ap.midway : Ap → Bool
  | .started | .stacked _ | .named _ _ => true
  | _ => false

/-- What the processor has read so far is what was meant for this core. -/
def Image.Given (img : Image) (core : Core) : Ap → Prop
  | .stacked top => top = img.allocApStack core
  | .named top coreId => top = img.allocApStack core ∧ coreId = core
  | _ => True

/-! ### What the boot processor has yet to do -/

/-- The processors that have not been woken yet. -/
def Bsp.pending : Bsp → List Nat
  | .next rest _ => rest
  | .turn t (.poll _) => t.rest
  | .turn t .judge => t.rest
  | .turn t _ => t.apicId :: t.rest
  | .finished => []

/-- The processor that has been woken and not judged, and its core. -/
def Bsp.awaited : Bsp → Option (Nat × Core)
  | .turn t (.poll _) => some (t.apicId, t.coreId)
  | .turn t .judge => some (t.apicId, t.coreId)
  | _ => none

/-- The core ids that no processor has been given for good. -/
def Bsp.unassigned : Bsp → Nat → Prop
  | .next _ nextCoreId, i => nextCoreId ≤ i
  | .turn t _, i => t.coreId ≤ i
  | .finished, _ => False

/-- How far the parameter block is filled. -/
def Boot.Block (m : Machine) : Bsp → Prop
  | .turn t .writeStackTop => t.apicId ≠ cfg.bspId
  | .turn t .writeCoreId => t.apicId ≠ cfg.bspId ∧ m.stackTop = cfg.img.allocApStack t.coreId
  | .turn t .clearStatus => t.apicId ≠ cfg.bspId ∧ m.stackTop = cfg.img.allocApStack t.coreId ∧
      m.coreId = t.coreId
  | .turn t .sendInitSipi => t.apicId ≠ cfg.bspId ∧ m.stackTop = cfg.img.allocApStack t.coreId ∧
      m.coreId = t.coreId ∧ m.status = 0
  | .turn t _ => m.stackTop = cfg.img.allocApStack t.coreId ∧ m.coreId = t.coreId
  | _ => True

/-! ### The invariant -/

/-- What holds in every state of a bring-up in which nobody is late. `bsp` is where the boot
processor is. -/
structure Orderly (m : Machine) (bsp : Bsp) : Prop where
  nodup : bsp.pending.Nodup
  untouched : ∀ a ∈ bsp.pending, m.ap a = .off
  bspOff : m.ap cfg.bspId = .off
  block : cfg.Block m bsp
  free : ∀ core : Core, bsp.unassigned core → m.online core = none
  first : m.online 0 = some cfg.bspId
  /-- The table of online cores names processors that run with that core id. -/
  online : ∀ core a, m.online core = some a →
    core = 0 ∧ a = cfg.bspId ∨ ∃ top, (m.ap a).running = some (top, core.val)
  mapped : bsp = .finished ∨ m.mapped = true
  /-- A processor on its way is one that was given up, or the one that is awaited now. -/
  midway : ∀ a, (m.ap a).midway = true → a ∈ m.didNotRespond ∨
    ∃ core, bsp.awaited = some (a, core) ∧ cfg.img.Given core (m.ap a)
  /-- A processor that runs has the stack of its core, and the core is its own. -/
  running : ∀ a top i, (m.ap a).running = some (top, i) → a ∉ m.didNotRespond ∧
    top = cfg.img.allocApStack i ∧ ∃ core : Core, core.val = i ∧ core ≠ 0 ∧
      (m.online core = some a ∨ bsp.awaited = some (a, core))
  /-- The processor that is awaited is not in the table yet. -/
  fresh : ∀ a core, bsp.awaited = some (a, core) → ∀ core', m.online core' ≠ some a
  alive : ∀ a, m.ap a ≠ .dead
  slot : ∀ a top core, m.ap a = .up top core → m.slots core = ⟨core, cfg.img.stackTop core⟩
  slotBsp : m.slots 0 = ⟨0, cfg.img.stackTop 0⟩
  /-- The status word is about the processor that is awaited. -/
  status : ∀ a core, bsp.awaited = some (a, core) →
    (m.status = statusAlive ↔ (m.ap a).running.isSome = true)

variable {cfg}

theorem running_eq_none_of_midway {x : Ap} (h : x.midway = true) : x.running = none := by
  cases x <;> first | rfl | cases h

/-- A core that is still to be given out is not core 0. -/
theorem Orderly.ne_zero {m : Machine} {bsp : Bsp} (h : Orderly cfg m bsp) {core : Core}
    (hcore : bsp.unassigned core) : core ≠ 0 := by
  intro hzero
  have hfree := h.free core hcore
  rw [hzero, h.first] at hfree
  cases hfree

/-- A processor changes its place, and what it runs with stays. -/
theorem Orderly.move {m : Machine} {bsp : Bsp} (h : Orderly cfg m bsp) {a : Nat} {x : Ap}
    (hoff : m.ap a ≠ .off) (hrun : x.running = (m.ap a).running)
    (hmid : x.midway = true → a ∈ m.didNotRespond ∨
      ∃ core, bsp.awaited = some (a, core) ∧ cfg.img.Given core x)
    (hdead : x ≠ .dead)
    (hslot : ∀ top core, x = .up top core → m.slots core = ⟨core, cfg.img.stackTop core⟩) :
    Orderly cfg { m with ap := Function.update m.ap a x } bsp := by
  -- What the processors run with has not changed.
  have hall : ∀ b, (Function.update m.ap a x b).running = (m.ap b).running := by
    intro b
    by_cases hb : b = a
    · rw [hb, Function.update_self, hrun]
    · rw [Function.update_of_ne hb]
  have hother : ∀ b, m.ap b = .off → Function.update m.ap a x b = .off := by
    intro b hb
    have hne : b ≠ a := by
      intro e
      exact hoff (e ▸ hb)
    rw [Function.update_of_ne hne]
    exact hb
  refine { h with
    untouched := ?_, bspOff := ?_, online := ?_, midway := ?_, running := ?_, alive := ?_,
    slot := ?_, status := ?_ }
  · intro b hb
    exact hother b (h.untouched b hb)
  · exact hother _ h.bspOff
  · intro core b hb
    dsimp only
    rw [hall]
    exact h.online core b hb
  · intro b hb
    by_cases hba : b = a
    · rw [hba] at hb ⊢
      dsimp only at hb ⊢
      rw [Function.update_self] at hb ⊢
      exact hmid hb
    · dsimp only at hb ⊢
      rw [Function.update_of_ne hba] at hb ⊢
      exact h.midway b hb
  · intro b top i hb
    dsimp only at hb
    rw [hall] at hb
    exact h.running b top i hb
  · intro b
    by_cases hba : b = a
    · rw [hba]
      dsimp only
      rw [Function.update_self]
      exact hdead
    · dsimp only
      rw [Function.update_of_ne hba]
      exact h.alive b
  · intro b top core hb
    by_cases hba : b = a
    · rw [hba] at hb
      dsimp only at hb
      rw [Function.update_self] at hb
      exact hslot top core hb
    · dsimp only at hb
      rw [Function.update_of_ne hba] at hb
      exact h.slot b top core hb
  · intro b core hb
    dsimp only
    rw [hall]
    exact h.status b core hb

/-- While a processor is awaited, the parameter block is the one for its core, and the trampoline
page is mapped. -/
theorem Orderly.block_of_awaited {m : Machine} {bsp : Bsp} (h : Orderly cfg m bsp) {a : Nat}
    {core : Core} (ha : bsp.awaited = some (a, core)) :
    m.stackTop = cfg.img.allocApStack core ∧ m.coreId = core ∧ m.mapped = true := by
  have hblock := h.block
  have hmapped := h.mapped
  cases bsp with
  | next rest next => cases ha
  | finished => cases ha
  | turn t doing =>
    rcases hmapped with hmapped | hmapped
    · cases hmapped
    · cases doing with
      | poll polls =>
        cases ha
        exact ⟨hblock.1, hblock.2, hmapped⟩
      | judge =>
        cases ha
        exact ⟨hblock.1, hblock.2, hmapped⟩
      | _ => cases ha

/-- The core of the processor that is awaited has not been given out. -/
theorem Bsp.unassigned_of_awaited {bsp : Bsp} {a : Nat} {core : Core}
    (ha : bsp.awaited = some (a, core)) : bsp.unassigned core := by
  cases bsp with
  | next rest next => cases ha
  | finished => cases ha
  | turn t doing =>
    cases doing with
    | poll polls =>
      cases ha
      exact Nat.le_refl _
    | judge =>
      cases ha
      exact Nat.le_refl _
    | _ => cases ha

/-- A processor tells the boot processor that it is up. It is the one that is awaited. -/
theorem Orderly.report {m : Machine} {bsp : Bsp} (h : Orderly cfg m bsp) {a : Nat} {top i : Nat}
    (ha : m.ap a = .named top i) (hsilent : a ∉ m.didNotRespond) :
    Orderly cfg
      { m with status := statusAlive, ap := Function.update m.ap a (.alive top i) } bsp := by
  have hmid := h.midway a (by rw [ha]; rfl)
  rcases hmid.resolve_left hsilent with ⟨core, hawaited, hgiven⟩
  rw [ha] at hgiven
  rcases hgiven with ⟨htop, hi⟩
  have hother : ∀ b, b ≠ a → Function.update m.ap a (.alive top i) b = m.ap b :=
    fun b hb => Function.update_of_ne hb _ _
  have hself : Function.update m.ap a (.alive top i) a = .alive top i := Function.update_self _ _ _
  have hoff : ∀ b, m.ap b = .off → Function.update m.ap a (.alive top i) b = .off := by
    intro b hb
    have hne : b ≠ a := by
      intro e
      rw [e, ha] at hb
      cases hb
    rw [hother b hne]
    exact hb
  refine { h with
    untouched := ?_, bspOff := ?_, block := ?_, online := ?_, midway := ?_, running := ?_,
    alive := ?_, slot := ?_, status := ?_ }
  · intro b hb
    exact hoff b (h.untouched b hb)
  · exact hoff _ h.bspOff
  · -- The status word is only fixed before the processor is woken.
    have hblock := h.block
    cases bsp with
    | next rest next => trivial
    | finished => trivial
    | turn t doing =>
      cases doing with
      | poll polls => exact hblock
      | judge => exact hblock
      | _ => cases hawaited
  · intro c b hb
    rcases h.online c b hb with hzero | ⟨top', hrun⟩
    · exact Or.inl hzero
    · have hne : b ≠ a := by
        intro e
        rw [e, ha] at hrun
        cases hrun
      dsimp only
      rw [hother b hne]
      exact Or.inr ⟨top', hrun⟩
  · intro b hb
    by_cases hba : b = a
    · rw [hba] at hb
      dsimp only at hb
      rw [hself] at hb
      cases hb
    · dsimp only at hb ⊢
      rw [hother b hba] at hb ⊢
      exact h.midway b hb
  · intro b top' i' hb
    by_cases hba : b = a
    · rw [hba] at hb ⊢
      dsimp only at hb
      rw [hself] at hb
      cases hb
      refine ⟨hsilent, ?_, core, hi.symm, h.ne_zero (Bsp.unassigned_of_awaited hawaited),
        Or.inr hawaited⟩
      rw [htop, hi]
    · dsimp only at hb
      rw [hother b hba] at hb
      exact h.running b top' i' hb
  · intro b
    by_cases hba : b = a
    · rw [hba]
      dsimp only
      rw [hself]
      intro e
      cases e
    · dsimp only
      rw [hother b hba]
      exact h.alive b
  · intro b top' c hb
    by_cases hba : b = a
    · rw [hba] at hb
      dsimp only at hb
      rw [hself] at hb
      cases hb
    · dsimp only at hb
      rw [hother b hba] at hb
      exact h.slot b top' c hb
  · intro b c hb
    rw [hawaited] at hb
    cases hb
    dsimp only
    rw [hself]
    exact ⟨fun _ => rfl, fun _ => rfl⟩

/-- A processor fills the slot of its core. Whoever fills it, the slot is the same. -/
theorem Orderly.fill {m : Machine} {bsp : Bsp} (h : Orderly cfg m bsp) (core : Core) :
    Orderly cfg { m with slots := Function.update m.slots core ⟨core, cfg.img.stackTop core⟩ }
      bsp := by
  refine { h with block := ?_, slot := ?_, slotBsp := ?_ }
  · exact h.block
  · intro a top c ha
    by_cases hc : c = core
    · rw [hc]
      dsimp only
      rw [Function.update_self]
    · dsimp only
      rw [Function.update_of_ne hc]
      exact h.slot a top c ha
  · by_cases hc : (0 : Core) = core
    · rw [← hc]
      dsimp only
      rw [Function.update_self]
      rfl
    · dsimp only
      rw [Function.update_of_ne hc]
      exact h.slotBsp

/-- A step of a processor that has not been given up. -/
theorem Orderly.apStep {m m' : Machine} {bsp : Bsp} (h : Orderly cfg m bsp) {a : Nat}
    (hsilent : a ∉ m.didNotRespond) (hstep : cfg.apStep m a = some m') : Orderly cfg m' bsp := by
  unfold Boot.apStep at hstep
  -- A processor on its way is the one that is awaited.
  have hawaited : (m.ap a).midway = true → ∃ core, bsp.awaited = some (a, core) ∧
      cfg.img.Given core (m.ap a) := fun hmid => (h.midway a hmid).resolve_left hsilent
  cases ha : m.ap a with
  | off =>
    rw [ha] at hstep
    cases hstep
  | started =>
    rw [ha] at hstep hawaited
    rcases hawaited rfl with ⟨core, hcore, -⟩
    rcases h.block_of_awaited hcore with ⟨htop, -, hmapped⟩
    dsimp only at hstep
    rw [if_pos hmapped] at hstep
    cases hstep
    have hgiven : cfg.img.Given core (.stacked m.stackTop) := htop
    exact h.move (by rw [ha]; simp) (by rw [ha]; rfl) (fun _ => Or.inr ⟨core, hcore, hgiven⟩)
      (by simp) (by simp)
  | stacked top =>
    rw [ha] at hstep hawaited
    rcases hawaited rfl with ⟨core, hcore, htop⟩
    rcases h.block_of_awaited hcore with ⟨-, hid, hmapped⟩
    dsimp only at hstep
    rw [if_pos hmapped] at hstep
    cases hstep
    have hgiven : cfg.img.Given core (.named top m.coreId) := ⟨htop, hid⟩
    exact h.move (by rw [ha]; simp) (by rw [ha]; rfl) (fun _ => Or.inr ⟨core, hcore, hgiven⟩)
      (by simp) (by simp)
  | named top i =>
    rw [ha] at hstep hawaited
    rcases hawaited rfl with ⟨core, hcore, -⟩
    rcases h.block_of_awaited hcore with ⟨-, -, hmapped⟩
    dsimp only at hstep
    rw [if_pos hmapped] at hstep
    cases hstep
    exact h.report ha hsilent
  | alive top i =>
    rw [ha] at hstep
    dsimp only at hstep
    -- Its core id has a slot, because it is the one of a core.
    have hrun := h.running a top i (by rw [ha]; rfl)
    rcases hrun with ⟨-, -, core, hcore, -⟩
    have hlt : i < maxCores := hcore ▸ core.isLt
    rw [dif_pos hlt] at hstep
    cases hstep
    have hfill := h.fill ⟨i, hlt⟩
    refine hfill.move (by dsimp only; rw [ha]; simp) (by dsimp only; rw [ha]; rfl)
      (fun hmid => by cases hmid) (by simp) ?_
    intro top' core' e
    cases e
    dsimp only
    rw [Function.update_self]
  | up top core =>
    rw [ha] at hstep
    cases hstep
  | dead => exact absurd ha (h.alive a)

/-- The other processors do not move the boot processor. -/
theorem apStep_bsp {m m' : Machine} {a : Nat} (hstep : cfg.apStep m a = some m') :
    m'.bsp = m.bsp := by
  unfold Boot.apStep at hstep
  split at hstep
  · cases hstep
  · cases hstep
    rfl
  · cases hstep
    rfl
  · split at hstep <;> cases hstep <;> rfl
  · split at hstep <;> cases hstep <;> rfl
  · cases hstep
  · cases hstep

/-- The boot processor moves on while it awaits nobody. The processors do not see it. -/
theorem Orderly.quiet {m m' : Machine} {bsp bsp' : Bsp} (h : Orderly cfg m bsp)
    (hap : m'.ap = m.ap) (honline : m'.online = m.online)
    (hsilent : m'.didNotRespond = m.didNotRespond) (hslots : m'.slots = m.slots)
    (hnone : bsp.awaited = none) (hnone' : bsp'.awaited = none)
    (hpending : bsp'.pending.Sublist bsp.pending)
    (hfree : ∀ i, bsp'.unassigned i → bsp.unassigned i) (hblock : cfg.Block m' bsp')
    (hmapped : bsp' = .finished ∨ m'.mapped = true) : Orderly cfg m' bsp' where
  nodup := h.nodup.sublist hpending
  untouched a ha := by
    rw [hap]
    exact h.untouched a (hpending.subset ha)
  bspOff := by
    rw [hap]
    exact h.bspOff
  block := hblock
  free core hcore := by
    rw [honline]
    exact h.free core (hfree _ hcore)
  first := by
    rw [honline]
    exact h.first
  online core a ha := by
    rw [honline] at ha
    rw [hap]
    exact h.online core a ha
  mapped := hmapped
  midway a ha := by
    rw [hap] at ha
    rw [hsilent]
    rcases h.midway a ha with hgiven | ⟨core, hcore, -⟩
    · exact Or.inl hgiven
    · rw [hnone] at hcore
      cases hcore
  running a top i ha := by
    rw [hap] at ha
    rw [hsilent, honline]
    rcases h.running a top i ha with ⟨hnot, htop, core, hi, hzero, hcore⟩
    refine ⟨hnot, htop, core, hi, hzero, Or.inl ?_⟩
    rcases hcore with hcore | hcore
    · exact hcore
    · rw [hnone] at hcore
      cases hcore
  fresh a core ha := by
    rw [hnone'] at ha
    cases ha
  alive a := by
    rw [hap]
    exact h.alive a
  slot a top core ha := by
    rw [hap] at ha
    rw [hslots]
    exact h.slot a top core ha
  slotBsp := by
    rw [hslots]
    exact h.slotBsp
  status a core ha := by
    rw [hnone'] at ha
    cases ha

/-- The boot processor wakes the processor of this round. -/
theorem Orderly.wake {m : Machine} {t : Turn} (h : Orderly cfg m (.turn t .sendInitSipi)) :
    Orderly cfg (cfg.turnStep m t .sendInitSipi) (.turn t (.poll 0)) := by
  have hblock := h.block
  have hoffA : m.ap t.apicId = .off := h.untouched t.apicId (by simp [Bsp.pending])
  have hself : Function.update m.ap t.apicId .started t.apicId = .started :=
    Function.update_self _ _ _
  have hother : ∀ b, b ≠ t.apicId → Function.update m.ap t.apicId .started b = m.ap b :=
    fun b hb => Function.update_of_ne hb _ _
  have hnodup : t.apicId ∉ t.rest ∧ t.rest.Nodup := List.nodup_cons.mp h.nodup
  -- The processor was off, so it ran with nothing, and it still does.
  have hrunning : ∀ b, (Function.update m.ap t.apicId .started b).running = (m.ap b).running := by
    intro b
    by_cases hb : b = t.apicId
    · rw [hb, hself, hoffA]
      rfl
    · rw [hother b hb]
  refine { h with
    nodup := hnodup.2, untouched := ?_, bspOff := ?_, block := ?_, online := ?_, mapped := ?_,
    midway := ?_, running := ?_, fresh := ?_, alive := ?_, slot := ?_, status := ?_ }
  · intro b hb
    have hne : b ≠ t.apicId := by
      intro e
      exact hnodup.1 (e ▸ hb)
    have hoff := h.untouched b (List.mem_cons_of_mem _ hb)
    change Function.update m.ap t.apicId .started b = .off
    rw [hother b hne]
    exact hoff
  · change Function.update m.ap t.apicId .started cfg.bspId = .off
    rw [hother _ (Ne.symm hblock.1)]
    exact h.bspOff
  · exact ⟨hblock.2.1, hblock.2.2.1⟩
  · intro core b hb
    change _ ∨ ∃ top, (Function.update m.ap t.apicId .started b).running = some (top, core.val)
    rw [hrunning]
    exact h.online core b hb
  · exact Or.inr (h.mapped.resolve_left (by simp))
  · intro b hb
    change (Function.update m.ap t.apicId .started b).midway = true at hb
    change b ∈ m.didNotRespond ∨ ∃ core, Bsp.awaited (.turn t (.poll 0)) = some (b, core) ∧
      cfg.img.Given core (Function.update m.ap t.apicId .started b)
    by_cases hbt : b = t.apicId
    · rw [hbt, hself]
      exact Or.inr ⟨t.coreId, rfl, trivial⟩
    · rw [hother b hbt] at hb ⊢
      rcases h.midway b hb with hgiven | ⟨core, hcore, -⟩
      · exact Or.inl hgiven
      · cases hcore
  · intro b top i hb
    change (Function.update m.ap t.apicId .started b).running = some (top, i) at hb
    rw [hrunning] at hb
    rcases h.running b top i hb with ⟨hnot, htop, core, hi, hzero, hcore⟩
    refine ⟨hnot, htop, core, hi, hzero, Or.inl ?_⟩
    rcases hcore with hcore | hcore
    · exact hcore
    · cases hcore
  · intro b core hb core' honline
    cases hb
    rcases h.online core' t.apicId honline with hbsp | ⟨top, hrun⟩
    · exact hblock.1 hbsp.2
    · rw [hoffA] at hrun
      cases hrun
  · intro b
    change Function.update m.ap t.apicId .started b ≠ .dead
    by_cases hbt : b = t.apicId
    · rw [hbt, hself]
      simp
    · rw [hother b hbt]
      exact h.alive b
  · intro b top core hb
    change Function.update m.ap t.apicId .started b = .up top core at hb
    by_cases hbt : b = t.apicId
    · rw [hbt, hself] at hb
      cases hb
    · rw [hother b hbt] at hb
      exact h.slot b top core hb
  · intro b core hb
    cases hb
    change m.status = statusAlive ↔ (Function.update m.ap t.apicId .started t.apicId).running.isSome
    rw [hself, hblock.2.2.2]
    decide

/-- The boot processor has seen the status word: the processor of this round goes into the table. -/
theorem Orderly.accept {m m' : Machine} {t : Turn} (h : Orderly cfg m (.turn t .judge))
    (hstatus : m.status = statusAlive)
    (hm : m' = { m with
      online := Function.update m.online t.coreId (some t.apicId)
      bsp := .next t.rest (t.coreId + 1) }) :
    Orderly cfg m' (.next t.rest (t.coreId + 1)) := by
  subst hm
  have hfree : m.online t.coreId = none := h.free t.coreId (Nat.le_refl _)
  have hzero : t.coreId ≠ 0 := h.ne_zero (Nat.le_refl _)
  have hrun := (h.status t.apicId t.coreId rfl).mp hstatus
  rcases Option.isSome_iff_exists.mp hrun with ⟨⟨top, i⟩, hrun⟩
  -- The core that it runs with is the one of this round.
  have hcore : i = t.coreId.val := by
    rcases h.running t.apicId top i hrun with ⟨-, -, core, hi, -, hcore⟩
    rcases hcore with hcore | hcore
    · exact absurd hcore (h.fresh t.apicId t.coreId rfl core)
    · cases hcore
      exact hi.symm
  rw [hcore] at hrun
  have hself : Function.update m.online t.coreId (some t.apicId) t.coreId = some t.apicId :=
    Function.update_self _ _ _
  have hother : ∀ core, core ≠ t.coreId →
      Function.update m.online t.coreId (some t.apicId) core = m.online core :=
    fun core hne => Function.update_of_ne hne _ _
  -- What was in the table stays: the place of this round was free.
  have hkeep : ∀ core b, m.online core = some b →
      Function.update m.online t.coreId (some t.apicId) core = some b := by
    intro core b hb
    have hne : core ≠ t.coreId := by
      intro e
      rw [e, hfree] at hb
      cases hb
    rw [hother core hne]
    exact hb
  refine { h with
    block := trivial, free := ?_, first := ?_, online := ?_, mapped := ?_, midway := ?_,
    running := ?_, fresh := ?_, status := ?_ }
  · intro core hle
    have hle' : t.coreId.val + 1 ≤ core.val := hle
    have hne : core ≠ t.coreId := by
      intro e
      rw [e] at hle'
      omega
    change Function.update m.online t.coreId (some t.apicId) core = none
    rw [hother core hne]
    exact h.free core (Nat.le_of_succ_le hle')
  · exact hkeep 0 cfg.bspId h.first
  · intro core b hb
    change Function.update m.online t.coreId (some t.apicId) core = some b at hb
    by_cases hne : core = t.coreId
    · rw [hne, hself] at hb
      cases hb
      rw [hne]
      exact Or.inr ⟨top, hrun⟩
    · rw [hother core hne] at hb
      exact h.online core b hb
  · exact Or.inr (h.mapped.resolve_left (by simp))
  · intro b hb
    rcases h.midway b hb with hgiven | ⟨core, hawaited, -⟩
    · exact Or.inl hgiven
    · -- The one that was awaited runs already.
      cases hawaited
      change (m.ap t.apicId).midway = true at hb
      rw [running_eq_none_of_midway hb] at hrun
      cases hrun
  · intro b top' i' hb
    rcases h.running b top' i' hb with ⟨hnot, htop, core, hi, hne, hplace⟩
    refine ⟨hnot, htop, core, hi, hne, Or.inl ?_⟩
    rcases hplace with hplace | hplace
    · exact hkeep core b hplace
    · cases hplace
      exact hself
  · intro b core hb
    cases hb
  · intro b core hb
    cases hb

/-- The boot processor gives the processor of this round up. -/
theorem Orderly.giveUp {m m' : Machine} {t : Turn} (h : Orderly cfg m (.turn t .judge))
    (hstatus : m.status ≠ statusAlive)
    (hm : m' = { m with
      didNotRespond := t.apicId :: m.didNotRespond
      bsp := .next t.rest (t.coreId + 1) }) :
    Orderly cfg m' (.next t.rest (t.coreId + 1)) := by
  subst hm
  have hnorun : (m.ap t.apicId).running = none := by
    have hiff := h.status t.apicId t.coreId rfl
    cases hrun : (m.ap t.apicId).running with
    | none => rfl
    | some r =>
      rw [hrun] at hiff
      exact absurd (hiff.mpr rfl) hstatus
  refine { h with
    block := trivial, free := ?_, mapped := ?_, midway := ?_, running := ?_, fresh := ?_,
    status := ?_ }
  · intro core hle
    exact h.free core (Nat.le_of_succ_le hle)
  · exact Or.inr (h.mapped.resolve_left (by simp))
  · intro b hb
    rcases h.midway b hb with hgiven | ⟨core, hawaited, -⟩
    · exact Or.inl (List.mem_cons_of_mem _ hgiven)
    · cases hawaited
      exact Or.inl List.mem_cons_self
  · intro b top i hb
    rcases h.running b top i hb with ⟨hnot, htop, core, hi, hne, hplace⟩
    -- It is not the one that is given up, because that one does not run.
    have hbt : b ≠ t.apicId := by
      intro e
      rw [e] at hb
      change (m.ap t.apicId).running = some (top, i) at hb
      rw [hnorun] at hb
      cases hb
    refine ⟨?_, htop, core, hi, hne, Or.inl ?_⟩
    · intro hmem
      rcases List.mem_cons.mp hmem with hmem | hmem
      · exact hbt hmem
      · exact hnot hmem
    · rcases hplace with hplace | hplace
      · exact hplace
      · cases hplace
        exact absurd rfl hbt
  · intro b core hb
    cases hb
  · intro b core hb
    cases hb

/-- A look at the status word changes nothing but the count. -/
theorem Orderly.look {m m' : Machine} {t : Turn} {polls : Nat} {doing : Doing}
    (h : Orderly cfg m (.turn t (.poll polls)))
    (hdoing : doing = .poll (polls + 1) ∨ doing = .judge)
    (hm : m' = { m with bsp := .turn t doing }) : Orderly cfg m' (.turn t doing) := by
  subst hm
  rcases hdoing with rfl | rfl
  · refine { h with mapped := ?_ }
    exact Or.inr (h.mapped.resolve_left (by simp))
  · refine { h with mapped := ?_ }
    exact Or.inr (h.mapped.resolve_left (by simp))

/-- A step of the boot processor. -/
theorem Orderly.bspStep {m m' : Machine} (h : Orderly cfg m m.bsp)
    (hstep : cfg.bspStep m = some m') : Orderly cfg m' m'.bsp := by
  unfold Boot.bspStep at hstep
  cases hbsp : m.bsp with
  | finished =>
    rw [hbsp] at hstep
    cases hstep
  | next rest nextCoreId =>
    rw [hbsp] at hstep h
    have hmapped : m.mapped = true := h.mapped.resolve_left (by simp)
    cases rest with
    | nil =>
      cases hstep
      exact h.quiet rfl rfl rfl rfl rfl rfl (List.Sublist.refl _) (fun _ hi => hi.elim) trivial
        (Or.inl rfl)
    | cons apicId rest =>
      dsimp only at hstep
      split at hstep
      · -- The boot processor passes itself over.
        cases hstep
        exact h.quiet rfl rfl rfl rfl rfl rfl (List.sublist_cons_self _ _) (fun _ hi => hi)
          trivial (Or.inr hmapped)
      · rename_i hne
        split at hstep
        · cases hstep
          exact h.quiet rfl rfl rfl rfl rfl rfl (List.Sublist.refl _) (fun _ hi => hi) hne
            (Or.inr hmapped)
        · -- There is no core left for this processor.
          cases hstep
          exact h.quiet rfl rfl rfl rfl rfl rfl (List.sublist_cons_self _ _)
            (fun _ hi => Nat.le_of_succ_le hi) trivial (Or.inr hmapped)
  | turn t doing =>
    rw [hbsp] at hstep h
    have hmapped : m.mapped = true := h.mapped.resolve_left (by simp)
    have hblock := h.block
    cases doing with
    | writeStackTop =>
      cases hstep
      exact h.quiet rfl rfl rfl rfl rfl rfl (List.Sublist.refl _) (fun _ hi => hi)
        ⟨hblock, rfl⟩ (Or.inr hmapped)
    | writeCoreId =>
      cases hstep
      exact h.quiet rfl rfl rfl rfl rfl rfl (List.Sublist.refl _) (fun _ hi => hi)
        ⟨hblock.1, hblock.2, rfl⟩ (Or.inr hmapped)
    | clearStatus =>
      cases hstep
      exact h.quiet rfl rfl rfl rfl rfl rfl (List.Sublist.refl _) (fun _ hi => hi)
        ⟨hblock.1, hblock.2.1, hblock.2.2, rfl⟩ (Or.inr hmapped)
    | sendInitSipi =>
      cases hstep
      exact h.wake
    | poll polls =>
      dsimp only [Boot.turnStep] at hstep
      split at hstep
      · cases hstep
        exact h.look (Or.inl rfl) rfl
      · cases hstep
        exact h.look (Or.inr rfl) rfl
    | judge =>
      dsimp only [Boot.turnStep] at hstep
      split at hstep
      · rename_i hstatus
        cases hstep
        exact h.accept hstatus rfl
      · rename_i hstatus
        cases hstep
        exact h.giveUp hstatus rfl

/-! ### Every interleaving -/

theorem orderly_machine (hids : cfg.cpuApicIds.Nodup) (block : Nat × Nat) :
    Orderly cfg (cfg.machine block) (cfg.machine block).bsp where
  nodup := hids
  untouched _ _ := rfl
  bspOff := rfl
  block := trivial
  free core hcore := by
    have hne : core ≠ 0 := by
      intro e
      rw [e] at hcore
      change 1 ≤ 0 at hcore
      omega
    exact if_neg hne
  first := rfl
  online core a ha := by
    change (if core = 0 then some cfg.bspId else none) = some a at ha
    split at ha
    · rename_i hzero
      cases ha
      exact Or.inl ⟨hzero, rfl⟩
    · cases ha
  mapped := Or.inr rfl
  midway a ha := by cases ha
  running a top i ha := by cases ha
  fresh a core ha := by cases ha
  alive a ha := by cases ha
  slot a top core ha := by cases ha
  slotBsp := rfl
  status a core ha := by cases ha

/-- The states of a bring-up in which nobody is late. -/
abbrev Boot.Punctual (cfg : Boot) (m : Machine) : Prop :=
  Reachable cfg.bringup (fun m l => punctual m l = true) m

theorem orderly_of_punctual (hids : cfg.cpuApicIds.Nodup) {m : Machine} (hm : cfg.Punctual m) :
    Orderly cfg m m.bsp := by
  refine Reachable.invariant (I := fun m => Orderly cfg m m.bsp) ?_ ?_ hm
  · intro m hinit
    rcases hinit with ⟨block, rfl⟩
    exact orderly_machine hids block
  · intro m l m' _ h hok hstep
    cases l with
    | bsp => exact h.bspStep hstep
    | ap a =>
      rw [apStep_bsp hstep]
      exact h.apStep (of_decide_eq_true hok) hstep

/-- `send_reschedule_ipi`: the processors that core `me` sends an interrupt to. -/
def Machine.ipiTargets (m : Machine) (me : Core) : List Nat :=
  (List.finRange maxCores).filterMap fun core => if core = me then none else m.online core

/-- What is right about the processors that run. -/
structure InOrder (cfg : Boot) (m : Machine) : Prop where
  /-- Two processors have different core ids, and stacks that do not overlap. -/
  apart : ∀ a b top top' i j, (m.ap a).running = some (top, i) →
    (m.ap b).running = some (top', j) → a ≠ b →
      i ≠ j ∧ (top + apStackSize ≤ top' ∨ top' + apStackSize ≤ top)
  /-- A processor has a core id of its own and the stack of that core; core 0 is the boot
  processor. -/
  own : ∀ a top i, (m.ap a).running = some (top, i) →
    a ≠ cfg.bspId ∧ 0 < i ∧ i < maxCores ∧ top = cfg.img.allocApStack i
  /-- `percpu::core_id` gives each processor its own id. -/
  coreId : ∀ a top core, m.ap a = .up top core → (m.slots core).coreId = core
  coreIdBsp : (m.slots 0).coreId = 0
  /-- No processor has faulted. -/
  alive : ∀ a, m.ap a ≠ .dead
  /-- The table of online cores names the boot processor and processors that run. -/
  online : ∀ core a, m.online core = some a →
    core = 0 ∧ a = cfg.bspId ∨ ∃ top, (m.ap a).running = some (top, core.val)
  /-- Once the boot processor is through, an interrupt to the other cores reaches each of them, and
  each of them once. -/
  ipi : m.bsp = .finished → ∀ me, (m.ipiTargets me).Nodup ∧ ∀ a, a ∈ m.ipiTargets me ↔
    a = cfg.bspId ∧ me ≠ 0 ∨ ∃ top i, (m.ap a).running = some (top, i) ∧ i ≠ me.val

/-- Two processors that run with the same core id are the same one. -/
theorem Orderly.core_unique {m : Machine} {bsp : Bsp} (h : Orderly cfg m bsp) {a b i : Nat}
    {top top' : Nat} (ha : (m.ap a).running = some (top, i))
    (hb : (m.ap b).running = some (top', i)) : a = b := by
  rcases h.running a top i ha with ⟨-, -, core, hcore, -, hplace⟩
  rcases h.running b top' i hb with ⟨-, -, core', hcore', -, hplace'⟩
  have hsame : core' = core := Fin.ext (hcore'.trans hcore.symm)
  rw [hsame] at hplace'
  -- The place of the core in the table is for one processor, and free while one is awaited.
  rcases hplace with hplace | hplace <;> rcases hplace' with hplace' | hplace'
  · rw [hplace] at hplace'
    exact Option.some.inj hplace'
  · rw [h.free core (Bsp.unassigned_of_awaited hplace')] at hplace
    cases hplace
  · rw [h.free core (Bsp.unassigned_of_awaited hplace)] at hplace'
    cases hplace'
  · rw [hplace] at hplace'
    exact (Prod.mk.inj (Option.some.inj hplace')).1

/-- A processor is in the table at one core only. -/
theorem Orderly.online_unique {m : Machine} {bsp : Bsp} (h : Orderly cfg m bsp) {a : Nat}
    {core core' : Core} (hcore : m.online core = some a) (hcore' : m.online core' = some a) :
    core = core' := by
  have hbsp : ∀ top i, (m.ap cfg.bspId).running ≠ some (top, i) := by
    intro top i e
    rw [h.bspOff] at e
    cases e
  rcases h.online core a hcore with ⟨hzero, rfl⟩ | ⟨top, hrun⟩
  · rcases h.online core' _ hcore' with ⟨hzero', -⟩ | ⟨top', hrun'⟩
    · rw [hzero, hzero']
    · exact absurd hrun' (hbsp _ _)
  · rcases h.online core' a hcore' with ⟨-, rfl⟩ | ⟨top', hrun'⟩
    · exact absurd hrun (hbsp _ _)
    · rw [hrun] at hrun'
      exact Fin.ext (Prod.mk.inj (Option.some.inj hrun')).2

theorem mem_ipiTargets {m : Machine} {me : Core} {a : Nat} :
    a ∈ m.ipiTargets me ↔ ∃ core, core ≠ me ∧ m.online core = some a := by
  unfold Machine.ipiTargets
  simp only [List.mem_filterMap, List.mem_finRange, true_and]
  constructor
  · intro h
    rcases h with ⟨core, hcore⟩
    split at hcore
    · cases hcore
    · rename_i hne
      exact ⟨core, hne, hcore⟩
  · intro h
    rcases h with ⟨core, hne, hcore⟩
    exact ⟨core, by rw [if_neg hne]; exact hcore⟩

theorem Orderly.ipi {m : Machine} (h : Orderly cfg m .finished) (me : Core) :
    (m.ipiTargets me).Nodup ∧ ∀ a, a ∈ m.ipiTargets me ↔
      a = cfg.bspId ∧ me ≠ 0 ∨ ∃ top i, (m.ap a).running = some (top, i) ∧ i ≠ me.val := by
  constructor
  · refine List.Nodup.filterMap ?_ (List.nodup_finRange maxCores)
    intro core core' a ha ha'
    split at ha
    · cases ha
    · split at ha'
      · cases ha'
      · exact h.online_unique ha ha'
  · intro a
    rw [mem_ipiTargets]
    constructor
    · intro hmem
      rcases hmem with ⟨core, hne, hcore⟩
      rcases h.online core a hcore with ⟨hzero, ha⟩ | ⟨top, hrun⟩
      · rw [hzero] at hne
        exact Or.inl ⟨ha, Ne.symm hne⟩
      · exact Or.inr ⟨top, core.val, hrun, fun e => hne (Fin.ext e)⟩
    · intro hmem
      rcases hmem with ⟨ha, hne⟩ | ⟨top, i, hrun, hne⟩
      · rw [ha]
        exact ⟨0, Ne.symm hne, h.first⟩
      · -- Nobody is awaited any more, so the processor is in the table.
        rcases h.running a top i hrun with ⟨-, -, core, hcore, -, hplace⟩
        rcases hplace with hplace | hplace
        · refine ⟨core, ?_, hplace⟩
          intro e
          rw [← hcore, e] at hne
          exact hne rfl
        · cases hplace

/-- A bound on the steps that are left to the boot processor. -/
def Bsp.left : Bsp → Nat
  | .next rest _ => 208 * rest.length + 1
  | .turn t doing => 208 * t.rest.length + 1 +
      match doing with
      | .writeStackTop => 207
      | .writeCoreId => 206
      | .clearStatus => 205
      | .sendInitSipi => 204
      | .poll polls => 2 + (apWaitPolls - polls)
      | .judge => 1
  | .finished => 0

/-- Each step of the boot processor brings it closer to the end, and it always has one before
that. -/
theorem bspStep_left {m m' : Machine} (hstep : cfg.bspStep m = some m') :
    m'.bsp.left < m.bsp.left := by
  unfold Boot.bspStep at hstep
  cases hbsp : m.bsp with
  | finished =>
    rw [hbsp] at hstep
    cases hstep
  | next rest nextCoreId =>
    rw [hbsp] at hstep
    cases rest with
    | nil =>
      cases hstep
      simp [Bsp.left]
    | cons apicId rest =>
      dsimp only at hstep
      split at hstep
      · cases hstep
        simp [Bsp.left]
      · split at hstep
        · cases hstep
          simp only [Bsp.left, List.length_cons]
          omega
        · cases hstep
          simp [Bsp.left]
  | turn t doing =>
    rw [hbsp] at hstep
    cases doing with
    | poll polls =>
      dsimp only [Boot.turnStep] at hstep
      split at hstep
      · rename_i hgo
        cases hstep
        have hpolls := hgo.2
        simp only [Bsp.left]
        omega
      · cases hstep
        simp only [Bsp.left]
        omega
    | judge =>
      dsimp only [Boot.turnStep] at hstep
      split at hstep <;> cases hstep <;> simp only [Bsp.left] <;> omega
    | sendInitSipi =>
      cases hstep
      simp [Bsp.left, Boot.turnStep, apWaitPolls]
    | _ =>
      cases hstep
      simp [Bsp.left, Boot.turnStep]

/-- The steps of the boot processor in a run. -/
def bspSteps (hist : List (Machine × Label)) : Nat :=
  (hist.filter fun e => decide (e.2 = .bsp)).length

/-- The boot processor takes at most 208 steps for each processor of the MADT and one more, whatever
the others do. It can always take its next step, and it is through when it has taken them all. -/
theorem bsp_finishes (cfg : Boot) {hist : List (Machine × Label)} {m : Machine}
    (run : Run cfg.bringup always hist m) :
    bspSteps hist + m.bsp.left ≤ 208 * cfg.cpuApicIds.length + 1 ∧
    (m.bsp = .finished ∨ (cfg.step m .bsp).isSome = true) ∧
    (bspSteps hist = 208 * cfg.cpuApicIds.length + 1 → m.bsp = .finished) := by
  have hbound : bspSteps hist + m.bsp.left ≤ 208 * cfg.cpuApicIds.length + 1 := by
    induction run with
    | start hinit =>
      rcases hinit with ⟨block, rfl⟩
      simp [bspSteps, Boot.machine, Bsp.left]
    | @step hist m m' l run _ hnext ih =>
      cases l with
      | bsp =>
        have hless := bspStep_left hnext
        simp only [bspSteps, List.filter_cons, decide_true, if_true, List.length_cons] at ih ⊢
        omega
      | ap a =>
        have hsame := apStep_bsp hnext
        rw [hsame]
        simpa [bspSteps] using ih
  refine ⟨hbound, ?_, ?_⟩
  · cases hbsp : m.bsp with
    | finished => exact Or.inl rfl
    | next rest nextCoreId =>
      refine Or.inr ?_
      simp only [Boot.step, Boot.bspStep, hbsp]
      cases rest with
      | nil => rfl
      | cons apicId rest =>
        dsimp only
        split
        · rfl
        · split <;> rfl
    | turn t doing =>
      refine Or.inr ?_
      simp [Boot.step, Boot.bspStep, hbsp]
  · intro hall
    -- Nothing is left, and only the end leaves nothing.
    have hleft : m.bsp.left = 0 := by omega
    cases hbsp : m.bsp with
    | finished => rfl
    | next rest nextCoreId =>
      rw [hbsp] at hleft
      simp [Bsp.left] at hleft
    | turn t doing =>
      rw [hbsp] at hleft
      simp only [Bsp.left] at hleft
      omega

/-! ### A processor that is late -/

/-- The boot processor passes over itself to the next processor that it can start. -/
theorem reach_turn {m : Machine} (hm : Reachable cfg.bringup always m) {ids : List Nat}
    {a : Nat} {later : List Nat} {core : Core} (hbsp : m.bsp = .next ids core)
    (hids : ids.filter (fun x => decide (x ≠ cfg.bspId)) = a :: later) :
    ∃ rest, rest.filter (fun x => decide (x ≠ cfg.bspId)) = later ∧
      Reachable cfg.bringup always { m with bsp := .turn ⟨a, core, rest⟩ .writeStackTop } := by
  induction ids generalizing m with
  | nil => cases hids
  | cons x ids ih =>
    by_cases hx : x = cfg.bspId
    · -- The step over the boot processor.
      have hnext : cfg.step m .bsp = some { m with bsp := .next ids core } := by
        simp [Boot.step, Boot.bspStep, hbsp, hx]
      have hrest : ids.filter (fun x => decide (x ≠ cfg.bspId)) = a :: later := by
        simpa [hx] using hids
      have hskip : Reachable cfg.bringup always { m with bsp := .next ids core } :=
        hm.next (a := .bsp) trivial hnext
      exact ih (m := { m with bsp := .next ids core }) hskip rfl hrest
    · have hcons : x = a ∧ ids.filter (fun x => decide (x ≠ cfg.bspId)) = later := by
        simpa [hx] using hids
      rcases hcons with ⟨rfl, hlater⟩
      refine ⟨ids, hlater, hm.next (a := .bsp) trivial ?_⟩
      change cfg.bspStep m = _
      simp [Boot.bspStep, hbsp, hx]

/-- The boot processor prepares the block and wakes the processor of this round. -/
theorem reach_wake {m : Machine} {t : Turn}
    (hm : Reachable cfg.bringup always { m with bsp := .turn t .writeStackTop }) :
    Reachable cfg.bringup always
      { m with
        stackTop := cfg.img.allocApStack t.coreId
        coreId := t.coreId
        status := 0
        ap := Function.update m.ap t.apicId .started
        bsp := .turn t (.poll 0) } := by
  have h₁ := hm.next (a := .bsp) trivial rfl
  have h₂ := h₁.next (a := .bsp) trivial rfl
  have h₃ := h₂.next (a := .bsp) trivial rfl
  exact h₃.next (a := .bsp) trivial rfl

/-- The boot processor gives up after its last look. -/
theorem reach_giveUp {m : Machine} {t : Turn} {polls : Nat} (hm : Reachable cfg.bringup always m)
    (hbsp : m.bsp = .turn t (.poll polls)) (hstatus : m.status = 0) :
    Reachable cfg.bringup always
      { m with
        didNotRespond := t.apicId :: m.didNotRespond
        bsp := .next t.rest (t.coreId + 1) } := by
  have hdead : m.status ≠ statusAlive := by
    rw [hstatus]
    decide
  induction hleft : apWaitPolls - polls generalizing m polls with
  | zero =>
    -- The polls are used up.
    have hno : ¬ (m.status ≠ statusAlive ∧ polls < apWaitPolls) := by omega
    have hjudge : Reachable cfg.bringup always { m with bsp := .turn t .judge } := by
      refine hm.next (a := .bsp) trivial ?_
      change cfg.bspStep m = _
      simp only [Boot.bspStep, hbsp, Boot.turnStep, if_neg hno]
    refine hjudge.next (a := .bsp) trivial ?_
    change some (cfg.turnStep _ t .judge) = _
    simp only [Boot.turnStep, if_neg hdead]
  | succ n ih =>
    have hgo : m.status ≠ statusAlive ∧ polls < apWaitPolls := ⟨hdead, by omega⟩
    have hlook : Reachable cfg.bringup always { m with bsp := .turn t (.poll (polls + 1)) } := by
      refine hm.next (a := .bsp) trivial ?_
      change cfg.bspStep m = _
      simp only [Boot.bspStep, hbsp, Boot.turnStep, if_pos hgo]
    have hfewer : apWaitPolls - (polls + 1) = n := by omega
    exact ih (m := { m with bsp := .turn t (.poll (polls + 1)) }) hlook rfl hstatus hdead hfewer

/-- A processor that has been woken late comes up with what is in the block now. -/
theorem reach_up {m : Machine} {a : Nat} {core : Core} (hm : Reachable cfg.bringup always m)
    (ha : m.ap a = .started) (hmapped : m.mapped = true) (hid : m.coreId = core) :
    Reachable cfg.bringup always
      { m with
        status := statusAlive
        slots := Function.update m.slots core ⟨core, cfg.img.stackTop core⟩
        ap := Function.update m.ap a (.up m.stackTop core) } := by
  have hself : ∀ (f : Nat → Ap) (x : Ap), Function.update f a x a = x :=
    fun f x => Function.update_self _ _ _
  have h₁ : Reachable cfg.bringup always
      { m with ap := Function.update m.ap a (.stacked m.stackTop) } := by
    refine hm.next (a := .ap a) trivial ?_
    change cfg.apStep m a = _
    simp only [Boot.apStep, ha, if_pos hmapped]
  have h₂ : Reachable cfg.bringup always
      { m with ap := Function.update m.ap a (.named m.stackTop m.coreId) } := by
    refine h₁.next (a := .ap a) trivial ?_
    change cfg.apStep _ a = _
    simp only [Boot.apStep, hself, if_pos hmapped, Function.update_idem]
  have h₃ : Reachable cfg.bringup always
      { m with
        status := statusAlive
        ap := Function.update m.ap a (.alive m.stackTop m.coreId) } := by
    refine h₂.next (a := .ap a) trivial ?_
    change cfg.apStep _ a = _
    simp only [Boot.apStep, hself, if_pos hmapped, Function.update_idem]
  refine h₃.next (a := .ap a) trivial ?_
  change cfg.apStep _ a = _
  simp only [Boot.apStep, hself, hid, Fin.is_lt, dif_pos, Function.update_idem]

/-- On every machine with two processors to start: a processor that wakes up after the boot
processor has given up on it, while the next one is started, runs with the core id, the stack and
the slot of that one. -/
theorem late_core (cfg : Boot) {a b : Nat} {later : List Nat} (hab : a ≠ b)
    (hids : cfg.cpuApicIds.filter (fun x => decide (x ≠ cfg.bspId)) = a :: b :: later) :
    ∃ m, Reachable cfg.bringup always m ∧ ∃ top core, m.ap a = .up top core ∧
      m.ap b = .up top core := by
  have hinit : Reachable cfg.bringup always (cfg.machine (0, 0)) := ⟨[], .start ⟨(0, 0), rfl⟩⟩
  -- The first processor is woken, does not answer in time, and is given up.
  have hfirst : (cfg.machine (0, 0)).bsp = .next cfg.cpuApicIds (1 : Core) := rfl
  rcases reach_turn hinit hfirst hids with ⟨rest, hrest, hturn⟩
  have hgave := reach_giveUp (reach_wake hturn) rfl rfl
  -- The second one is woken. Now the first one wakes up too.
  rcases reach_turn hgave (show _ = Bsp.next _ (2 : Core) from rfl) hrest with ⟨rest', -, hturn'⟩
  have hwoken := reach_wake hturn'
  have hupA := reach_up (a := a) hwoken (by simp [hab, Boot.machine]) rfl rfl
  have hupB := reach_up (a := b) hupA (by simp [Ne.symm hab]) rfl rfl
  refine ⟨_, hupB, cfg.img.allocApStack 2, 2, ?_, ?_⟩
  · simp [hab, maxCores]
  · simp [maxCores]

/-! ### A small machine -/

/-- Three processors. The boot processor is the first one. -/
def threeCores : Boot where
  img := ⟨0x100000, 0x200000⟩
  bspId := 0
  cpuApicIds := [0, 1, 4]

/-- Both of the other processors answer in time. -/
def promptRun : List Label :=
  [.bsp, .bsp, .bsp, .bsp, .bsp, .bsp, .ap 1, .ap 1, .bsp, .ap 1, .bsp, .ap 1, .bsp,
   .bsp, .bsp, .bsp, .bsp, .bsp, .ap 4, .ap 4, .ap 4, .bsp, .bsp, .ap 4, .bsp]

/-- The end of that run. -/
def promptEnd : Machine := threeCores.bringup.runFrom (threeCores.machine (0, 0)) promptRun

theorem bsp_finishes_three :
    promptEnd.bsp = .finished ∨ (threeCores.step promptEnd .bsp).isSome = true :=
  (bsp_finishes threeCores (threeCores.bringup.run ⟨(0, 0), rfl⟩ promptRun)).2.1

theorem late_core_three : ∃ m, Reachable threeCores.bringup always m ∧ ∃ top core,
    m.ap 1 = .up top core ∧ m.ap 4 = .up top core :=
  late_core threeCores (by decide) (show _ = 1 :: 4 :: [] by decide)

end Plinth.Smp
