import Plinth.Proofs.CapTable
import Plinth.Proofs.Inflights
import Plinth.Step

/-!
# `Plinth.Ledger.State`: the ledger, an abstract view of the kernel

The ledger says who holds which capability, who waits where, and which frame is in use. It
leaves out where a process is kept (in the table or on a core), the links of the wait queues
and the reference counts.

A kernel entry takes several actions one after the other. In between, some things belong to
nobody: a capability that was taken from the giver and not yet installed, the capabilities of a
process that is being reclaimed, a process that left a queue and is not awake yet, a frame that
was just allocated. The ledger has fields for these, and they are empty between two entries.

`total w` sums a weight over every capability, those in motion included.
-/

set_option autoImplicit false

namespace Plinth

/-- How the transfer of a capability ends. -/
inductive Fate where
  /-- The receiver of a message takes it. -/
  | land (q : ProcSlot)
  /-- A new process takes it. -/
  | child (q : ProcSlot)
  /-- The receiver has no room, and the giver takes it back. -/
  | back
  /-- The spawn failed, and the giver takes it back. -/
  | undo
  /-- The receiver has no room, and neither has the giver. -/
  | lost
  deriving DecidableEq, Repr

/-- A capability on its way: where it was taken from, and how the transfer ends. -/
structure Transit where
  cap : Capability
  giver : ProcSlot
  slot : CapSlot
  fate : Fate

/-- The processes with their capabilities, and the capabilities in motion. -/
structure Holdings where
  proc : ProcSlot → Option Process
  mem : Mem
  /-- The capability of a transfer that is not finished. -/
  transit : Option Transit
  /-- The capabilities that a release or an exit has taken and not yet settled. -/
  held : List Capability
  /-- The process that is being reclaimed, until the origins that name it are cleared. -/
  dying : Option ProcSlot
  /-- The entry has taken a capability from a live process. -/
  spent : Bool

/-- The abstract state of the kernel. -/
structure Ledger extends Holdings where
  state : ProcSlot → ProcState
  /-- The image and stack pages of a process: address and frame. -/
  boot : ProcSlot → List (Nat × Nat)
  /-- The pending message of a queued sender, and the result of the last wake. -/
  mail : ProcSlot → Mail
  /-- The waiters of an endpoint, in order. -/
  queue : EndpointId → List ProcSlot
  /-- The waiters of an endpoint are senders. -/
  sendersWait : EndpointId → Bool
  inUse : EndpointId → Bool
  rings : RingId → Ring
  devs : Devices
  /-- Processes that left what they waited for and are not awake yet. -/
  awake : List ProcSlot
  /-- Frames that are allocated and have no owner. -/
  frames : List Nat
  /-- The level-4 frames of address spaces without a process. -/
  spaces : List Nat
  /-- The endpoint capabilities of the process that is being reclaimed do not count as peers
  any more. -/
  doomed : Bool

/-- Nothing is in motion. -/
structure Ledger.Idle (v : Ledger) : Prop where
  transit : v.transit = none
  held : v.held = []
  dying : v.dying = none
  awake : v.awake = []
  frames : v.frames = []
  spaces : v.spaces = []
  doomed : v.doomed = false

/-- The ledger of a kernel state between two entries. -/
def Kernel.ledger (s : Kernel) : Ledger where
  proc := s.procs.proc
  mem := s.mem
  transit := none
  held := []
  dying := none
  spent := false
  state := s.procs.state
  boot := fun p => (s.procs.table p).bootFrames
  mail := fun p => (s.procs.table p).mail
  queue := s.ipc.waiting
  sendersWait := fun id => (s.ipc.endpoints id).queue.areSenders
  inUse := fun id => (s.ipc.endpoints id).inUse
  rings := s.rings.rings
  devs := s.devs
  awake := []
  frames := []
  spaces := []
  doomed := false

theorem Kernel.ledger_idle (s : Kernel) : s.ledger.Idle :=
  ⟨rfl, rfl, rfl, rfl, rfl, rfl, rfl⟩

/-! ### Totals -/

/-- The weight of the capabilities of a process. -/
def procWeight (w : Capability → Nat) (proc : Process) : Nat :=
  Tally.tally w proc.caps.slots

/-- The weight of the capabilities of all live processes. -/
def liveTotal (w : Capability → Nat) (P : ProcSlot → Option Process) : Nat :=
  Tally.tally (procWeight w) P

/-- The weight of a list of capabilities. -/
def listTotal (w : Capability → Nat) (caps : List Capability) : Nat := (caps.map w).sum

@[simp] theorem listTotal_nil (w : Capability → Nat) : listTotal w [] = 0 := rfl

@[simp] theorem listTotal_cons (w : Capability → Nat) (cap : Capability)
    (caps : List Capability) : listTotal w (cap :: caps) = w cap + listTotal w caps := by
  simp [listTotal]

theorem listTotal_perm (w : Capability → Nat) {l l' : List Capability} (h : l'.Perm l) :
    listTotal w l' = listTotal w l :=
  (h.map w).sum_eq

theorem listTotal_iter (w : Capability → Nat) (proc : Process) :
    listTotal w proc.caps.iter = procWeight w proc :=
  CapTable.iter_sum w proc.caps

/-- The weight of the capability in transit. -/
def transitTotal (w : Capability → Nat) (tr : Option Transit) : Nat :=
  Tally.entry (fun x : Transit => w x.cap) tr

@[simp] theorem transitTotal_none (w : Capability → Nat) : transitTotal w none = 0 := rfl

@[simp] theorem transitTotal_some (w : Capability → Nat) (tr : Transit) :
    transitTotal w (some tr) = w tr.cap := rfl

/-- The weight of all capabilities, those in motion included. -/
def Holdings.total (w : Capability → Nat) (h : Holdings) : Nat :=
  liveTotal w h.proc + listTotal w h.held + transitTotal w h.transit

variable {w : Capability → Nat} {P : ProcSlot → Option Process} {p : ProcSlot}
  {proc : Process}

/-- A write to one live process changes the total by the difference of the two weights. -/
theorem liveTotal_put (w : Capability → Nat) (h : P p = some proc) (proc' : Process) :
    liveTotal w (Function.update P p (some proc')) + procWeight w proc
      = liveTotal w P + procWeight w proc' := by
  have hup := Tally.tally_update (procWeight w) P p (some proc')
  rw [h] at hup
  exact hup

/-- A write that keeps the weight of the process keeps the total. -/
theorem liveTotal_put_same {x : Process} (h : P p = some proc)
    (hw : procWeight w x = procWeight w proc) :
    liveTotal w (Function.update P p (some x)) = liveTotal w P := by
  have hput := liveTotal_put w h x
  omega

theorem liveTotal_remove (w : Capability → Nat) (h : P p = some proc) :
    liveTotal w (Function.update P p none) + procWeight w proc = liveTotal w P :=
  Tally.tally_erase (procWeight w) h

theorem liveTotal_add (w : Capability → Nat) (h : P p = none) (proc : Process) :
    liveTotal w (Function.update P p (some proc)) = liveTotal w P + procWeight w proc :=
  Tally.tally_insert (procWeight w) proc h

theorem le_procWeight (w : Capability → Nat) {k : CapSlot} {cap : Capability}
    (h : proc.caps.slots k = some cap) : w cap ≤ procWeight w proc :=
  Tally.le_tally w h

theorem procWeight_le (w : Capability → Nat) (h : P p = some proc) :
    procWeight w proc ≤ liveTotal w P :=
  Tally.le_tally (procWeight w) h

/-- A capability of a live process weighs at most the total. -/
theorem le_liveTotal (w : Capability → Nat) {k : CapSlot} {cap : Capability}
    (hp : P p = some proc) (hk : proc.caps.slots k = some cap) : w cap ≤ liveTotal w P :=
  le_trans (le_procWeight w hk) (procWeight_le w hp)

theorem liveTotal_pos : 0 < liveTotal w P ↔
    ∃ p proc k cap, P p = some proc ∧ proc.caps.slots k = some cap ∧ 0 < w cap := by
  constructor
  · intro h
    obtain ⟨p, proc, hp, hpos⟩ := Tally.tally_pos.mp h
    obtain ⟨k, cap, hk, hcap⟩ := Tally.tally_pos.mp hpos
    exact ⟨p, proc, k, cap, hp, hk, hcap⟩
  · rintro ⟨p, proc, k, cap, hp, hk, hcap⟩
    have hle := le_liveTotal w hp hk
    omega

theorem procWeight_places {t' : CapTable} {cap : Capability} {k : CapSlot}
    (w : Capability → Nat) (h : CapTable.Places proc.caps cap k t') :
    procWeight w (proc.setCaps t') = procWeight w proc + w cap :=
  h.tally w

/-- The table of a process changes by one placement: the total grows by its weight. -/
theorem liveTotal_places {t' : CapTable} {cap : Capability} {k : CapSlot}
    (w : Capability → Nat) (hp : P p = some proc)
    (h : CapTable.Places proc.caps cap k t') :
    liveTotal w (Function.update P p (some (proc.setCaps t'))) = liveTotal w P + w cap := by
  have hput := liveTotal_put w hp (proc.setCaps t')
  rw [procWeight_places w h] at hput
  omega

end Plinth
