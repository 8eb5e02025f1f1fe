import Plinth.Ledger.Waiting

/-!
# `Plinth.Refine.Permits`: what a label asks of a guard

A guard speaks about the actions on the ledger. This module says, for each label, which
guarded actions the entry takes: which capability it gives away and how that transfer ends,
which one it releases, and which process it reclaims. All of this is a function of the state
before the entry.

`Permits g s ℓ` says that the guard `g` allows these actions.
-/

set_option autoImplicit false

namespace Plinth

/-- How a transfer by message ends: the receiver has room, or else the giver has room after
giving, or neither. -/
def transferFate (m : Mem) (proc : Process) (k : CapSlot) (cap : Capability) (p q : ProcSlot)
    (procq : Process) : Fate :=
  if (procq.caps.installHome (cap.lentTo ⟨p, k⟩ q) cap.origin q).isSome then .land q
  else if (giveAway m proc k cap).1.caps.firstFree.isSome then .back
  else .lost

/-- The processes, the memory, the rings and the devices are the same. -/
structure Ledger.Like (v v' : Ledger) : Prop where
  proc : v.proc = v'.proc
  mem : v.mem = v'.mem
  rings : v.rings = v'.rings
  devs : v.devs = v'.devs

/-- A process whose capabilities name no frame and no ring. -/
def Process.Bare (proc : Process) : Prop :=
  (∀ a, ¬ proc.Names (.frame a)) ∧ ∀ id, ¬ proc.Names (.ring id)

/-- `ring_register` with these arguments makes a ring: the size is fine, the slots name two
frames, and there is room for the capability. -/
def CapTable.canRegister (t : CapTable) (sqSlot cqSlot entries : Nat) : Bool :=
  decide (entries ≠ 0 ∧ entries ≤ maxEntries ∧ entries.isPowerOfTwo) && t.firstFree.isSome &&
    match t.lookup sqSlot (rightRead ||| rightWrite),
        t.lookup cqSlot (rightRead ||| rightWrite) with
    | .ok ⟨.frame sqPhys, _, _⟩, .ok ⟨.frame cqPhys, _, _⟩ => sqPhys != cqPhys
    | _, _ => false

namespace Kernel

/-- The transfer of the capability at `slot` of `p` to `q`: the giver, the slot and the end. -/
def transferOf (s : Kernel) (p : ProcSlot) (slot : Nat) (q : ProcSlot) :
    Option (ProcSlot × CapSlot × Fate) :=
  match s.procs.proc p, s.procs.proc q, capSlot? slot with
  | some proc, some procq, some k =>
    (proc.caps.slots k).map fun cap => (p, k, transferFate s.mem proc k cap p q procq)
  | _, _, _ => none

/-- The transfer of a spawn: to the child if the set-up succeeds, else back to the caller. -/
def spawnTransfer (s : Kernel) (core : Core) (image : Option Image) (slot : Nat) :
    Option (ProcSlot × CapSlot × Fate) :=
  match s.ipc.createEndpoint, s.procs.current core, capSlot? slot with
  | some (ep, ipc), some proc, some k =>
    (proc.caps.slots k).map fun cap =>
      let r := ({ s with ipc } : Kernel).takeForSpawn core slot
      let sendCap : Capability := ⟨.endpoint ep, rightSend, none⟩
      let lent := spawnLoan cap (s.procs.currentSlot core) slot
      (s.procs.currentSlot core, k,
        match (r.2.schedSpawn image [sendCap, lent]).1 with
        | some id => .child id
        | none => .undo)
  | _, _, _ => none

/-- The capability that an entry gives away: its holder, its slot, and the end of the
transfer. -/
def given (s : Kernel) : Label → Option (ProcSlot × CapSlot × Fate)
  | .send core epSlot _ capSlot =>
    match s.endpointIdFor core epSlot rightSend with
    | none => none
    | some id =>
      match s.ipc.takeWaiting id false with
      | none => none
      | some (receiver, _) =>
        if capSlot = noCap then none else s.transferOf (s.procs.currentSlot core) capSlot receiver
  | .recv core epSlot =>
    match s.endpointIdFor core epSlot rightRecv with
    | none => none
    | some id =>
      match s.ipc.takeWaiting id true with
      | none => none
      | some (sender, _) =>
        let slot := s.procs.table sender
        if slot.pendingCall ∨ slot.pendingCap = noCap then none
        else s.transferOf sender slot.pendingCap (s.procs.currentSlot core)
  | .spawn core (some image) slot => s.spawnTransfer core image slot
  | .spawnFromBuffer core _ _ image slot => s.spawnTransfer core image slot
  | _ => none

/-- The capability that an entry takes from the process that runs: a release, or the reply
capability of a reply. -/
def taken (s : Kernel) : Label → Option (ProcSlot × CapSlot)
  | .capRelease core slot =>
    (s.procs.current core).bind fun _ =>
      (capSlot? slot).map fun k => (s.procs.currentSlot core, k)
  | .reply core slot _ =>
    (s.procs.current core).bind fun proc => (capSlot? slot).bind fun k =>
      (proc.caps.slots k).bind fun cap =>
        if releaseAction cap = .refuse then some (s.procs.currentSlot core, k) else none
  | _ => none

/-- The charge of a CPU budget overdraws it. -/
def overdraws (s : Kernel) (core : Core) (slot amount : Nat) : Prop :=
  ∃ proc, s.procs.current core = some proc ∧
    proc.caps.charge slot amount rightConsume = .error .insufficient

/-- The entry reclaims the process in slot `p`, from the ledger `v`. -/
def Reclaims (s : Kernel) : Label → Ledger → ProcSlot → Prop
  | .exit core, v, p => v = s.ledger ∧ p = s.procs.currentSlot core
  | .cpuCharge core slot amount, v, p =>
    v = s.ledger ∧ p = s.procs.currentSlot core ∧ s.overdraws core slot amount
  | .run .., v, p =>
    s.tableEmpty = true ∧ v.rings = s.rings.rings ∧ v.devs = s.devs ∧
      ∃ proc, v.proc p = some proc ∧ proc.Bare
  | _, _, _ => False

/-- A borrowed capability would go home, and its lender has no room for it: the home slot is
not reserved, and no slot is free. -/
def homeless (s : Kernel) (cap : Capability) : Bool :=
  match isReclaimableKind cap.object, cap.origin with
  | true, some o =>
    match s.procs.proc o.lender with
    | some proc => (proc.caps.goHome o.home { cap with origin := none }).isNone
    | none => false
  | _, _ => false

/-- One of the capabilities finds no room when they go home in order. -/
def strandsCaps (dyingSlot : ProcSlot) : Kernel → List Capability → Bool
  | _, [] => false
  | s, cap :: caps =>
    s.homeless cap || strandsCaps dyingSlot (reclaimLentCap dyingSlot s cap) caps

/-- The exit of the process on `core` strands a capability. -/
def exitStrands (s : Kernel) (core : Core) : Bool :=
  match s.procs.current core with
  | some proc =>
    strandsCaps (s.procs.currentSlot core)
      { s with procs := s.procs.setCurrent core none } proc.caps.iter
  | none => false

/-- The release of the capability at `slot` strands it. -/
def releaseStrands (s : Kernel) (core : Core) (slot : Nat) : Bool :=
  match s.procs.current core with
  | some proc => ((proc.caps.peek slot).map s.homeless).getD false
  | none => false

/-- The entry strands a borrowed capability. -/
def Strands (s : Kernel) : Label → Prop
  | .exit core => s.exitStrands core = true
  | .cpuCharge core slot amount => s.overdraws core slot amount ∧ s.exitStrands core = true
  | .capRelease core slot => s.releaseStrands core slot = true
  | _ => False

/-- The capabilities that the kernel makes in an entry. -/
def Grants (s : Kernel) : Label → Capability → Prop
  | .run _ _ extra, cap => cap ∈ extra.reduceOption ∧ s.grantable cap = true
  | .spawn .., cap => ∃ id rights, cap = ⟨.endpoint id, rights, none⟩
  | .spawnFromBuffer .., cap => ∃ id rights, cap = ⟨.endpoint id, rights, none⟩
  | _, _ => False

/-- The process that submits requests, and the ring. -/
def poster (s : Kernel) : Label → Option (ProcSlot × RingId)
  | .ringSubmit core slot => (s.ringIdFor core slot).map fun id => (s.procs.currentSlot core, id)
  | _ => none

/-- The process that registers a ring, and the ring that it takes. -/
def registers (s : Kernel) : Label → Option (ProcSlot × RingId)
  | .ringRegister core sqSlot cqSlot entries =>
    match s.procs.current core, s.rings.firstFree with
    | some proc, some id =>
      if proc.caps.canRegister sqSlot cqSlot entries then some (s.procs.currentSlot core, id)
      else none
    | _, _ => none
  | _ => none

/-- The process in slot `p` has a free slot for a capability. -/
def hasRoom (s : Kernel) (p : ProcSlot) : Bool :=
  ((s.procs.proc p).bind fun proc => proc.caps.firstFree).isSome

/-- Where the running process parks if it blocks in a call with the given request. -/
def callPlace (s : Kernel) (core : Core) (id : EndpointId) (req : Nat) : Place :=
  match s.ipc.takeWaiting id false with
  | some (server, _) => if s.hasRoom server then .reply else .nowhere
  | none =>
    .sender id ⟨req, noCap, true, (s.procs.table (s.procs.currentSlot core)).result⟩

/-- The process that parks if the entry blocks, and where it parks. -/
def parking (s : Kernel) : Label → Option (ProcSlot × Place)
  | .send core epSlot msg capSlot =>
    (s.endpointIdFor core epSlot rightSend).map fun id =>
      let cur := s.procs.currentSlot core
      (cur, .sender id ⟨msg, capSlot, false, (s.procs.table cur).result⟩)
  | .recv core epSlot =>
    (s.endpointIdFor core epSlot rightRecv).map fun id =>
      (s.procs.currentSlot core, .receiver id)
  | .call core epSlot req =>
    (s.endpointIdFor core epSlot rightSend).map fun id =>
      (s.procs.currentSlot core, s.callPlace core id req)
  | .ringWait core slot =>
    (s.ringIdFor core slot).map fun id => (s.procs.currentSlot core, .ring id)
  | .bindWait core slot _ _ =>
    (s.procs.current core).bind fun proc =>
      match proc.caps.lookup slot rightMap with
      | .ok ⟨.boundDevice dev, _, _⟩ => some (s.procs.currentSlot core, .bound dev)
      | _ => none
  | _ => none

/-- The queued caller whose request a receive takes. -/
def served (s : Kernel) : Label → Option ProcSlot
  | .recv core epSlot =>
    match s.endpointIdFor core epSlot rightRecv with
    | none => none
    | some id =>
      match s.ipc.takeWaiting id true with
      | none => none
      | some (sender, _) => if (s.procs.table sender).pendingCall then some sender else none
  | _ => none

/-- The queued caller whose request a receive takes without room for the reply capability. -/
def forgotten (s : Kernel) : Label → Option ProcSlot
  | .recv core epSlot =>
    match s.endpointIdFor core epSlot rightRecv with
    | none => none
    | some id =>
      match s.ipc.takeWaiting id true with
      | none => none
      | some (sender, _) =>
        if (s.procs.table sender).pendingCall ∧ ¬ s.hasRoom (s.procs.currentSlot core) then
          some sender
        else none
  | _ => none

/-- The exit of the process on `core` concerns `p`: the process holds the reply capability for
`p`, or `p` waits at an endpoint that the process names. -/
def concerns (s : Kernel) (core : Core) (p : ProcSlot) : Prop :=
  ∃ proc, s.procs.current core = some proc ∧
    (proc.Names (.reply p) ∨ ∃ id, p ∈ s.ipc.waiting id ∧ proc.Names (.endpoint id))

/-- The process in slot `p` is parked in `ring_wait` on the ring `id`. -/
def waitsOnRing (s : Kernel) (p : ProcSlot) (id : RingId) : Prop :=
  (s.rings.rings id).waiting = true ∧ (s.rings.rings id).owner = p

/-- The entry signals the thing that the process in slot `p` is parked on. -/
def Signals (s : Kernel) : Label → ProcSlot → Prop
  | .send core epSlot _ _, p =>
    ∃ id ipc, s.endpointIdFor core epSlot rightSend = some id ∧
      s.ipc.takeWaiting id false = some (p, ipc)
  | .recv core epSlot, p =>
    ∃ id ipc, s.endpointIdFor core epSlot rightRecv = some id ∧
      s.ipc.takeWaiting id true = some (p, ipc)
  | .call core epSlot _, p =>
    ∃ id ipc, s.endpointIdFor core epSlot rightSend = some id ∧
      s.ipc.takeWaiting id false = some (p, ipc)
  | .reply core slot _, p =>
    ∃ proc cap, s.procs.current core = some proc ∧ proc.caps.lookup slot 0 = .ok cap ∧
      cap.object = .reply p
  | .exit core, p => s.concerns core p
  | .cpuCharge core _ _, p => s.concerns core p
  | .completeIrq dev _, p =>
    ∃ d, s.devs.devices dev = some d ∧ (waiterOf (some d) = some p ∨
      ∃ id userData slot, d.inflights.routing slot = some (.ring id userData) ∧
        s.waitsOnRing p id)
  | .deliverEvent source _, p =>
    ∃ sub, some sub ∈ s.rings.subs ∧ sub.source = source ∧ s.waitsOnRing p sub.ring
  | _, _ => False

/-- What the entry returns to the processes that it wakes. -/
def Tells : Label → Result → Prop
  | .send _ _ msg _, r => r.status = ipcOk ∧ r.payload = msg
  | .recv _ _, r => r = ⟨ipcOk, 0, noCap⟩
  | .call _ _ req, r => r.status = ipcOk ∧ r.payload = req
  | .reply _ _ msg, r => r = ⟨ipcOk, msg, noCap⟩
  | .exit _, r => r.status = ipcPeerDied ∧ r.payload = 0
  | .cpuCharge .., r => r.status = ipcPeerDied ∧ r.payload = 0
  | .completeIrq .., r => r = ⟨0, 0, noCap⟩
  | .deliverEvent .., r => r = ⟨0, 0, noCap⟩
  | _, _ => False

/-- The guard allows the actions of the entry. -/
structure Permits (g : Guard) (s : Kernel) (ℓ : Label) : Prop where
  give : ∀ v p k f, v.Like s.ledger → s.given ℓ = some (p, k, f) → g.give v p k f
  take : ∀ p k, s.taken ℓ = some (p, k) → g.take s.ledger p k
  leave : ∀ v p, s.Reclaims ℓ v p → g.leave v p
  strand : s.Strands ℓ → ∀ v cap, g.strand v cap
  grant : ∀ cap, s.Grants ℓ cap → g.grant cap
  post : ∀ p id, s.poster ℓ = some (p, id) → g.post p id
  register : ∀ p id, s.registers ℓ = some (p, id) → g.register p id
  park : ∀ p place, s.parking ℓ = some (p, place) → g.park p place
  serve : ∀ p, s.served ℓ = some p → g.serve p
  forget : ∀ p, s.forgotten ℓ = some p → g.forget p
  wake : ∀ p r, s.Signals ℓ p → Tells ℓ r → g.wake p r

/-- The trivial guard allows every entry. -/
theorem permits_any (s : Kernel) (ℓ : Label) : s.Permits Guard.any ℓ :=
  ⟨fun _ _ _ _ _ _ => trivial, fun _ _ _ => trivial, fun _ _ _ => trivial,
    fun _ _ _ => trivial, fun _ _ => trivial, fun _ _ _ => trivial, fun _ _ _ => trivial,
    fun _ _ _ => trivial, fun _ _ => trivial, fun _ _ => trivial, fun _ _ _ _ => trivial⟩

/-- The tightest guard that allows an entry: the actions that the entry takes. -/
def stepGuard (s : Kernel) (ℓ : Label) : Guard where
  give v p k f := v.Like s.ledger ∧ s.given ℓ = some (p, k, f)
  take v p k := v = s.ledger ∧ s.taken ℓ = some (p, k)
  leave v p := s.Reclaims ℓ v p
  strand _ _ := s.Strands ℓ
  grant cap := s.Grants ℓ cap
  post p id := s.poster ℓ = some (p, id)
  register p id := s.registers ℓ = some (p, id)
  park p place := s.parking ℓ = some (p, place)
  serve p := s.served ℓ = some p
  forget p := s.forgotten ℓ = some p
  wake p r := s.Signals ℓ p ∧ Tells ℓ r

theorem permits_stepGuard (s : Kernel) (ℓ : Label) : s.Permits (s.stepGuard ℓ) ℓ :=
  ⟨fun _ _ _ _ hlike hgiven => ⟨hlike, hgiven⟩, fun _ _ htaken => ⟨rfl, htaken⟩,
    fun _ _ hrec => hrec, fun hstrand _ _ => hstrand, fun _ hgrant => hgrant,
    fun _ _ hpost => hpost, fun _ _ hreg => hreg, fun _ _ hpark => hpark,
    fun _ hserve => hserve,
    fun _ hforget => hforget, fun _ _ hsig htells => ⟨hsig, htells⟩⟩

end Kernel

end Plinth
