import Mathlib.Logic.Relation
import Plinth.Ledger.State

/-!
# `Plinth.Ledger.Act`: the actions on the ledger

An `Act` is one small change of the ledger. A kernel entry is a path of such actions
(`Plinth.Refine`). So an invariant of the ledger is proved once for each action, and not for
each function of the kernel.

A `Guard` restricts the actions that take a capability or a process away. A guarded run is a
run of the kernel in which these actions satisfy the guard. The trivial guard `Guard.any`
allows every run.

* `TableAct`: the actions on the capability tables alone.
* `MemAct`: the actions on the allocator and the address spaces.
* `Act`: all actions.
-/

set_option autoImplicit false

namespace Plinth

/-- Where a process parks. -/
inductive Place where
  /-- In the queue of an endpoint, with the message `mail`. -/
  | sender (id : EndpointId) (mail : Mail)
  | receiver (id : EndpointId)
  /-- A server took the request, and it holds a reply capability. -/
  | reply
  /-- A server took the request, and nothing names the caller. -/
  | nowhere
  | ring (id : RingId)
  | bound (dev : DevId)

/-- Conditions on the actions that a guarded run may take. -/
structure Guard where
  /-- A transfer takes slot `k` of `p`, and ends with the given fate. -/
  give : Ledger → ProcSlot → CapSlot → Fate → Prop
  /-- A release takes slot `k` of `p`. -/
  take : Ledger → ProcSlot → CapSlot → Prop
  /-- The process in slot `p` is reclaimed. -/
  leave : Ledger → ProcSlot → Prop
  /-- A borrowed capability finds no room at its lender. -/
  strand : Ledger → Capability → Prop
  /-- The kernel mints a granted capability. -/
  grant : Capability → Prop
  /-- The process in slot `p` posts a request through a ring. -/
  post : ProcSlot → RingId → Prop
  /-- The process in slot `p` registers the ring `id`. -/
  register : ProcSlot → RingId → Prop
  /-- The process in slot `p` parks. -/
  park : ProcSlot → Place → Prop
  /-- A server takes the request of the queued caller in slot `p`. -/
  serve : ProcSlot → Prop
  /-- The process in slot `p` leaves the queue, and nothing names it. -/
  forget : ProcSlot → Prop
  /-- The process in slot `p` is woken with a result. -/
  wake : ProcSlot → Result → Prop

/-- The guard allows to wake the process in slot `p` with `IPC_PEER_DIED`. -/
def Guard.Reaps (g : Guard) (p : ProcSlot) : Prop :=
  ∀ r, r.status = ipcPeerDied ∧ r.payload = 0 → g.wake p r

/-- The guard that allows everything. -/
def Guard.any : Guard :=
  ⟨fun _ _ _ _ => True, fun _ _ _ => True, fun _ _ => True, fun _ _ => True, fun _ => True,
    fun _ _ => True, fun _ _ => True, fun _ _ => True, fun _ => True, fun _ => True,
    fun _ _ => True⟩

/-! ### The capability tables -/

/-- The capability names `o`. -/
def objWeight (o : CapObject) (cap : Capability) : Nat := if cap.object = o then 1 else 0

/-- The capability names endpoint `id` and has the right `right`. -/
def reachWeight (id : EndpointId) (right : Rights) (cap : Capability) : Nat :=
  if Kernel.reaches id right cap then 1 else 0

theorem objWeight_steady {o : CapObject} (h : ∀ budget, o ≠ .cpuTime budget) :
    Steady (objWeight o) := by
  refine ⟨fun cap origin => rfl, fun cap budget hobj => ?_⟩
  unfold objWeight
  rw [hobj, if_neg (Ne.symm (h budget))]

theorem reachWeight_steady (id : EndpointId) (right : Rights) :
    Steady (reachWeight id right) := by
  refine ⟨fun cap origin => rfl, fun cap budget hobj => ?_⟩
  simp [reachWeight, Kernel.reaches, hobj]

theorem objWeight_self (cap : Capability) : objWeight cap.object cap = 1 := if_pos rfl

theorem objWeight_of_ne {o : CapObject} {cap : Capability} (h : cap.object ≠ o) :
    objWeight o cap = 0 := if_neg h

theorem reachWeight_le (id : EndpointId) (right : Rights) (cap : Capability) :
    reachWeight id right cap ≤ objWeight (.endpoint id) cap := by
  unfold reachWeight Kernel.reaches objWeight
  by_cases h : cap.object = .endpoint id
  · simp only [h, if_true]
    split <;> omega
  · simp [h]

namespace Kernel

/-- The number of live capabilities that name the endpoint `id`. -/
def named (s : Kernel) (id : EndpointId) : Nat := liveTotal (objWeight (.endpoint id)) s.procs.proc

/-- The number of live capabilities that name the endpoint `id` and have the right `right`. -/
def reaching (s : Kernel) (id : EndpointId) (right : Rights) : Nat :=
  liveTotal (reachWeight id right) s.procs.proc

end Kernel

/-- What is left of a process that gives the capability `cap` of slot `k` away: the mappings
made through the slot go, and the slot is reserved if this starts a loan. -/
def giveAway (m : Mem) (proc : Process) (k : CapSlot) (cap : Capability) : Process × Mem :=
  let r := unmapForSlot m (proc.setCaps (proc.caps.set k none)) cap k
  (if lendReservesHome cap then r.1.setCaps (r.1.caps.mark k true) else r.1, r.2)

/-- A capability that nothing but its slot keeps track of, once no loan has to end. -/
def Capability.isPlain (cap : Capability) : Prop :=
  (isReclaimableKind cap.object = true → cap.origin = none) ∧
    match cap.object with
    | .frame _ => False
    | .endpoint _ => False
    | .reply _ => False
    | .ring _ => False
    | _ => True

/-- A release can hold the capability before it settles what becomes of it. -/
def Capability.isHoldable (cap : Capability) : Prop :=
  match cap.object with
  | .endpoint _ => False
  | .boundDevice _ => False
  | _ => True

section

variable (give : ProcSlot → CapSlot → Fate → Prop) (take : ProcSlot → CapSlot → Prop)
  (strand : Capability → Prop)

/-- The actions on the capability tables. -/
inductive TableAct : Holdings → Holdings → Prop where
  /-- A charge of a CPU budget. -/
  | charge {h : Holdings} {p : ProcSlot} {proc : Process} {k : CapSlot} {cap : Capability}
      {budget budget' : Nat} (hp : h.proc p = some proc) (hk : proc.caps.slots k = some cap)
      (hobj : cap.object = .cpuTime budget) (hnone : h.transit = none) :
      TableAct h { h with proc := Function.update h.proc p (some (proc.setCaps
        (proc.caps.set k (some { cap with object := .cpuTime budget' })))) }
  /-- A capability leaves the table of the giver. -/
  | give {h : Holdings} {p : ProcSlot} {proc : Process} {k : CapSlot} {cap : Capability}
      {f : Fate} (hp : h.proc p = some proc) (hk : proc.caps.slots k = some cap)
      (hnone : h.transit = none) (hdying : h.dying = none) (hfirst : h.spent = false)
      (hg : give p k f) :
      TableAct h { h with
        proc := Function.update h.proc p (some (giveAway h.mem proc k cap).1)
        mem := (giveAway h.mem proc k cap).2
        transit := some ⟨cap, p, k, f⟩, spent := true }
  /-- The receiver of a message takes it. -/
  | land {h : Holdings} {cap : Capability} {p q : ProcSlot} {k k' : CapSlot} {proc : Process}
      {t : CapTable} (htr : h.transit = some ⟨cap, p, k, .land q⟩) (hpq : p ≠ q)
      (hq : h.proc q = some proc)
      (hin : proc.caps.installHome (cap.lentTo ⟨p, k⟩ q) cap.origin q = some (k', t)) :
      TableAct h { h with
        proc := Function.update h.proc q (some (proc.setCaps t)), transit := none }
  /-- A new process takes it. -/
  | child {h : Holdings} {cap : Capability} {p q : ProcSlot} {k k' : CapSlot} {proc : Process}
      {t : CapTable} (htr : h.transit = some ⟨cap, p, k, .child q⟩) (hpq : p ≠ q)
      (hq : h.proc q = some proc) (hlender : cap.origin.map Origin.lender ≠ some q)
      (hin : proc.caps.install (Kernel.spawnLoan cap p k) = .ok (k', t)) :
      TableAct h { h with
        proc := Function.update h.proc q (some (proc.setCaps t)), transit := none }
  /-- The giver takes it back, in its first free slot. -/
  | back {h : Holdings} {cap : Capability} {p : ProcSlot} {k k' : CapSlot} {proc : Process}
      {t : CapTable} (htr : h.transit = some ⟨cap, p, k, .back⟩) (hp : h.proc p = some proc)
      (hin : proc.caps.reclaim cap = some (k', t)) :
      TableAct h { h with
        proc := Function.update h.proc p (some (proc.setCaps t)), transit := none }
  /-- The giver takes it back after a failed spawn: into its own slot if that is reserved. -/
  | undo {h : Holdings} {cap : Capability} {p : ProcSlot} {k k' : CapSlot} {proc : Process}
      {t : CapTable} (htr : h.transit = some ⟨cap, p, k, .undo⟩) (hp : h.proc p = some proc)
      (hin : proc.caps.Places cap k' t) (hown : lendReservesHome cap = true → k' = k)
      (hfree : lendReservesHome cap = false → proc.caps.reserved k' = false) :
      TableAct h { h with
        proc := Function.update h.proc p (some (proc.setCaps t)), transit := none }
  /-- Neither the receiver nor the giver has room. -/
  | lost {h : Holdings} {cap : Capability} {p : ProcSlot} {k : CapSlot} {proc : Process}
      (htr : h.transit = some ⟨cap, p, k, .lost⟩) (hp : h.proc p = some proc)
      (hfull : proc.caps.firstFree = none) :
      TableAct h { h with transit := none }
  /-- A release takes a capability out of a table. -/
  | take {h : Holdings} {p : ProcSlot} {proc : Process} {k : CapSlot} {cap : Capability}
      (hp : h.proc p = some proc) (hk : proc.caps.slots k = some cap)
      (hkind : cap.isHoldable) (hnone : h.transit = none) (hdying : h.dying = none)
      (hfirst : h.spent = false) (hg : take p k) :
      TableAct h { h with
        proc := Function.update h.proc p
          (some (unmapForSlot h.mem (proc.setCaps (proc.caps.set k none)) cap k).1)
        mem := (unmapForSlot h.mem (proc.setCaps (proc.caps.set k none)) cap k).2
        held := cap :: h.held, spent := true }
  /-- A borrowed capability goes home to its lender. -/
  | home {h : Holdings} {cap : Capability} {o : Origin} {rest : List Capability}
      {proc : Process} {k : CapSlot} {t : CapTable} (hheld : h.held = cap :: rest)
      (ho : cap.origin = some o) (hkind : isReclaimableKind cap.object = true)
      (hp : h.proc o.lender = some proc) (hnone : h.transit = none)
      (hin : proc.caps.goHome o.home { cap with origin := none } = some (k, t)) :
      TableAct h { h with
        proc := Function.update h.proc o.lender (some (proc.setCaps t)), held := rest }
  /-- The lender of a borrowed capability has no room for it. -/
  | strand {h : Holdings} {cap : Capability} {o : Origin} {rest : List Capability}
      {proc : Process} (hheld : h.held = cap :: rest) (ho : cap.origin = some o)
      (hkind : isReclaimableKind cap.object = true) (hp : h.proc o.lender = some proc)
      (hfull : proc.caps.goHome o.home { cap with origin := none } = none)
      (hg : strand cap) :
      TableAct h { h with held := rest }
  /-- A capability of a plain kind is gone. -/
  | drop {h : Holdings} {cap : Capability} {rest : List Capability}
      (hheld : h.held = cap :: rest) (hplain : cap.isPlain) :
      TableAct h { h with held := rest }
  /-- The framebuffer mappings of a slot go. -/
  | unmapFb {h : Holdings} {p : ProcSlot} {proc : Process} (k : CapSlot)
      (hp : h.proc p = some proc) :
      TableAct h { h with
        proc := Function.update h.proc p (some (unmapFbForSlot h.mem proc k).1)
        mem := (unmapFbForSlot h.mem proc k).2 }
  /-- No origin names the reclaimed process any more. -/
  | clearOrigins {h : Holdings} {p : ProcSlot} (hdying : h.dying = some p)
      (hp : h.proc p = none) (hnone : h.transit = none) :
      TableAct h { h with
        proc := fun q => (h.proc q).map fun proc => proc.setCaps (proc.caps.clearOrigin p)
        dying := none }
  /-- The order of the held capabilities does not matter. -/
  | reorder {h : Holdings} {held : List Capability} (hperm : held.Perm h.held) :
      TableAct h { h with held }

end

/-! ### Memory -/

/-- The memory part of the ledger. -/
structure Store where
  mem : Mem
  frames : List Nat
  spaces : List Nat

/-- The memory part of the ledger. -/
def Ledger.store (v : Ledger) : Store := ⟨v.mem, v.frames, v.spaces⟩

/-- The ledger with another memory part. -/
def Ledger.setStore (v : Ledger) (m : Store) : Ledger :=
  { v with mem := m.mem, frames := m.frames, spaces := m.spaces }

/-- The page of `va` is outside the window for user-chosen mappings. -/
def outsideMapWindow (va : Nat) : Prop :=
  va / frameSize < userMapBase / frameSize ∨ userMapEnd / frameSize ≤ va / frameSize

/-- The address space has no mapping in the window for user-chosen mappings. -/
def Mem.WindowFree (m : Mem) (l4 : Nat) : Prop :=
  ∀ va l, (m.spaces l4).leaf va = some l → outsideMapWindow va

/-- The actions on the allocator and the address spaces. -/
inductive MemAct : Store → Store → Prop where
  | alloc {m : Store} {a : Nat} {fa : FrameAlloc} (h : m.mem.fa.alloc = .ok (a, fa)) :
      MemAct m { m with mem := { m.mem with fa }, frames := a :: m.frames }
  | giveBack {m : Store} {a : Nat} {rest : List Nat} (h : m.frames = a :: rest) :
      MemAct m { m with mem := { m.mem with fa := m.mem.fa.giveBack a }, frames := rest }
  /-- A frame is lost: it stays allocated and nothing owns it. -/
  | leak {m : Store} {a : Nat} {rest : List Nat} (h : m.frames = a :: rest) :
      MemAct m { m with frames := rest }
  | reorder {m : Store} {frames : List Nat} (h : frames.Perm m.frames) :
      MemAct m { m with frames }
  /-- A walk allocates a missing page table. It is one of the user half. -/
  | link {m : Store} {a l4 : Nat} {fa : FrameAlloc} {key : TableKey}
      (h : m.mem.fa.alloc = .ok (a, fa)) (hlow : underUserHalf key = true) :
      MemAct m { m with
        mem := { m.mem with fa }.setSpace l4
          { m.mem.spaces l4 with tables := (m.mem.spaces l4).tables ++ [(key, a)] } }
  | openSpace {m : Store} {l4 : Nat} {rest : List Nat} (h : m.frames = l4 :: rest) :
      MemAct m { m with
        mem := m.mem.setSpace l4 AddressSpace.empty, frames := rest, spaces := l4 :: m.spaces }
  | closeSpace {m : Store} {l4 : Nat} {rest : List Nat} (h : m.spaces = l4 :: rest) :
      MemAct m { m with
        frames := (m.mem.spaces l4).userTables ++ l4 :: m.frames
        spaces := rest }
  | unmap {m : Store} (l4 : Nat) (vas : List Nat) :
      MemAct m { m with mem := m.mem.unmapAll l4 vas }
  /-- The loader maps a page. -/
  | load {m : Store} {l4 va : Nat} (l : Leaf) (h : outsideMapWindow va) :
      MemAct m { m with mem := m.mem.setSpace l4 ((m.mem.spaces l4).addLeaf va l) }

/-! ### All actions -/

/-- The process holds a capability that names `o`. -/
def Process.Names (proc : Process) (o : CapObject) : Prop :=
  ∃ k cap, proc.caps.slots k = some cap ∧ cap.object = o

/-- A capability that the kernel may grant. -/
def Ledger.Grantable (v : Ledger) (cap : Capability) : Prop :=
  cap.origin = none ∧
    match cap.object with
    | .endpoint id =>
      v.inUse id = true ∧ (cap.rights.has rightSend = true ∨ cap.rights.has rightRecv = true)
    | .blockRange .. => True
    | .eventSource _ => True
    | .framebuffer .. => True
    | .boundDevice _ => True
    | _ => False

/-- The process in slot `p` waits for nothing: it runs, or it just left what it waited for. -/
def Ledger.Free (v : Ledger) (p : ProcSlot) : Prop := v.state p ≠ .blocked ∨ p ∈ v.awake

/-- The device without its direct binding, and the frames that an unbind frees. -/
def Devices.detach (ds : Devices) (dev : DevId) : Devices × List Nat :=
  match (ds.devices dev).bind VirtioBlk.bound with
  | none => (ds, [])
  | some b =>
    let ds := ds.setDevice dev none
    match ds.iommu with
    | none => (ds, b.frames)
    | some bi =>
      match bi.bound with
      | none => (ds, b.frames)
      | some d => ({ ds with iommu := some { bi with bound := none } }, b.frames ++ d.frames)

/-- Replace the shared DMA domain. -/
def Devices.setDomain (ds : Devices) (bi : BlockIommu) (d : Domain) : Devices :=
  { ds with iommu := some { bi with domain := d } }

/-- Free the endpoint `id` if `n`, the number of capabilities that name it, is zero. -/
def Ledger.settle (v : Ledger) (id : EndpointId) (n : Nat) : Ledger :=
  { v with
    inUse := Function.update v.inUse id (v.inUse id && decide (0 < n))
    sendersWait := Function.update v.sendersWait id (v.sendersWait id && decide (0 < n)) }

@[simp] theorem Ledger.settle_toHoldings (v : Ledger) (id : EndpointId) (n : Nat) :
    (v.settle id n).toHoldings = v.toHoldings := rfl

/-- The process in slot `p` becomes ready with the result `r`. -/
def Ledger.woken (v : Ledger) (p : ProcSlot) (r : Result) : Ledger :=
  { v with
    state := Function.update v.state p .ready
    mail := Function.update v.mail p { v.mail p with result := r } }

/-- The right of the peers that waiters of one side wait for. -/
def peerRight (senders : Bool) : Rights := if senders then rightRecv else rightSend

/-- The right that a waiter of one side has itself. -/
def ownRight (senders : Bool) : Rights := if senders then rightSend else rightRecv

/-- The actions on the ledger. -/
inductive Act (g : Guard) : Ledger → Ledger → Prop where
  | table {v : Ledger} {h : Holdings}
      (act : TableAct (fun p k f => v.Free p ∧ g.give v p k f)
        (fun p k => v.Free p ∧ g.take v p k) (g.strand v) v.toHoldings h) :
      Act g v { v with toHoldings := h }
  | mem {v : Ledger} {m : Store} (act : MemAct v.store m) : Act g v (v.setStore m)
  -- Capabilities that the kernel makes.
  | grant {v : Ledger} {p : ProcSlot} {proc : Process} {cap : Capability} {k : CapSlot}
      {t : CapTable} (hp : v.proc p = some proc) (hok : v.Grantable cap) (hg : g.grant cap)
      (hgiver : ∀ tr, v.transit = some tr → tr.giver ≠ p)
      (hbound : ∀ dev, cap.object = .boundDevice dev →
        v.total (objWeight (.boundDevice dev)) = 0)
      (hin : proc.caps.install cap = .ok (k, t)) :
      Act g v { v with proc := Function.update v.proc p (some (proc.setCaps t)) }
  | mintFrame {v : Ledger} {p : ProcSlot} {proc : Process} {a : Nat} {rest : List Nat}
      {rights : Rights} {k : CapSlot} {t : CapTable} (hp : v.proc p = some proc)
      (hframes : v.frames = a :: rest) (hnone : v.transit = none)
      (hin : proc.caps.mint (.frame a) rights = .ok (k, t)) :
      Act g v { v with
        proc := Function.update v.proc p (some (proc.setCaps t)), frames := rest }
  | mintRing {v : Ledger} {p : ProcSlot} {proc : Process} {id : RingId} {ring : Ring}
      {rights : Rights} {k : CapSlot} {t : CapTable} (hp : v.proc p = some proc)
      (hfree : (v.rings id).inUse = false) (huse : ring.inUse = true)
      (howner : ring.owner = p) (hwait : ring.waiting = false)
      (hnone : v.transit = none) (hsq : proc.Names (.frame ring.sqPhys))
      (hcq : proc.Names (.frame ring.cqPhys)) (hmask : ring.mask.toNat < maxEntries)
      (hin : proc.caps.mint (.ring id) rights = .ok (k, t)) (hg : g.register p id) :
      Act g v { v with
        proc := Function.update v.proc p (some (proc.setCaps t))
        rings := Function.update v.rings id ring }
  -- User mappings.
  | mapFrame {v : Ledger} {p : ProcSlot} {proc : Process} {k : CapSlot} {cap : Capability}
      {addr va : Nat} {flags : PageFlags} {maps : List (Option (Nat × Nat))}
      (hp : v.proc p = some proc) (hk : proc.caps.slots k = some cap)
      (hobj : cap.object = .frame addr)
      (hrec : recordFirst (va, (k : Nat)) proc.maps = some maps) :
      Act g v { v with
        proc := Function.update v.proc p (some { proc with maps })
        mem := v.mem.setSpace proc.l4 ((v.mem.spaces proc.l4).addLeaf va ⟨addr, flags⟩) }
  | mapFb {v : Ledger} {p : ProcSlot} {proc : Process} {k : CapSlot} {cap : Capability}
      {physBase width height stride bpp format : Nat} {f : FbMap}
      {fbMaps : List (Option FbMap)} {sp : AddressSpace}
      (hp : v.proc p = some proc) (hk : proc.caps.slots k = some cap)
      (hobj : cap.object = .framebuffer physBase width height stride bpp format)
      (hslot : f.slot = k) (hrec : recordFirst f proc.fbMaps = some fbMaps)
      (htables : sp.tables = (v.mem.spaces proc.l4).tables)
      (hleaves : ∀ va l, sp.leaf va = some l → (v.mem.spaces proc.l4).leaf va = some l ∨
        ∃ i < f.pages, va / frameSize = (f.vaBase + i * frameSize) / frameSize ∧
          l.phys = physBase + i * frameSize)
      (hspan : ∀ i < f.pages, i * frameSize < height * stride * bpp) :
      Act g v { v with
        proc := Function.update v.proc p (some { proc with fbMaps })
        mem := v.mem.setSpace proc.l4 sp }
  | mapBound {v : Ledger} {p : ProcSlot} {proc : Process} {k : CapSlot} {cap : Capability}
      {dev : DevId} {b : Bound} {sp : AddressSpace}
      (hp : v.proc p = some proc) (hk : proc.caps.slots k = some cap)
      (hobj : cap.object = .boundDevice dev)
      (hdev : (v.devs.devices dev).bind VirtioBlk.bound = some b)
      (htables : sp.tables = (v.mem.spaces proc.l4).tables)
      (hleaves : ∀ va l, sp.leaf va = some l → (v.mem.spaces proc.l4).leaf va = some l ∨
        l.phys ∈ b.pages) :
      Act g v { v with mem := v.mem.setSpace proc.l4 sp }
  -- Endpoints.
  | create {v : Ledger} {id : EndpointId} (hfree : v.inUse id = false)
      (hfirst : v.spent = false) :
      Act g v { v with
        inUse := Function.update v.inUse id true
        sendersWait := Function.update v.sendersWait id false }
  | release {v : Ledger} {id : EndpointId}
      (hnone : v.total (objWeight (.endpoint id)) = 0) (hqueue : v.queue id = []) :
      Act g v { v with
        inUse := Function.update v.inUse id false
        sendersWait := Function.update v.sendersWait id false }
  | takeEndpoint {v : Ledger} {p : ProcSlot} {proc : Process} {k : CapSlot}
      {cap : Capability} {id : EndpointId} {n : Nat} (hp : v.proc p = some proc)
      (hk : proc.caps.slots k = some cap) (hobj : cap.object = .endpoint id)
      (hstate : v.state p ≠ .blocked) (hnone : v.transit = none) (hfirst : v.spent = false)
      (hg : g.take v p k) (hn : n + 1 = v.total (objWeight (.endpoint id))) :
      Act g v ({ v with
        proc := Function.update v.proc p (some (proc.setCaps (proc.caps.set k none)))
        spent := true }.settle id n)
  | dropEndpoint {v : Ledger} {cap : Capability} {rest : List Capability} {id : EndpointId}
      {n : Nat} (hheld : v.held = cap :: rest) (hobj : cap.object = .endpoint id)
      (hdoomed : v.doomed = true) (hn : n + 1 = v.total (objWeight (.endpoint id))) :
      Act g v ({ v with held := rest }.settle id n)
  -- Waiting.
  | parkQueue {v : Ledger} {p : ProcSlot} {proc : Process} {id : EndpointId} {k : CapSlot}
      {cap : Capability} {senders : Bool} {mail : Mail} (hp : v.proc p = some proc)
      (hk : proc.caps.slots k = some cap) (hcap : Kernel.reaches id (ownRight senders) cap = true)
      (hstate : v.state p = .running) (huse : v.inUse id = true)
      (hside : v.queue id = [] ∨ v.sendersWait id = senders)
      (hpeer : 0 < v.total (reachWeight id (peerRight senders)))
      (hmail : senders = false → mail = v.mail p) (hheld : v.held = [])
      (hg : g.park p (if senders then .sender id mail else .receiver id)) :
      Act g v { v with
        state := Function.update v.state p .blocked
        mail := Function.update v.mail p mail
        queue := Function.update v.queue id (v.queue id ++ [p])
        sendersWait := Function.update v.sendersWait id senders }
  | parkCall {v : Ledger} {p q : ProcSlot} {proc : Process} {k : CapSlot} {t : CapTable}
      (hstate : v.state p = .running) (hpq : p ≠ q) (hq : v.proc q = some proc)
      (hnone : v.transit = none) (hin : proc.caps.reclaim (Kernel.replyCap p) = some (k, t))
      (hg : g.park p .reply) :
      Act g v { v with
        state := Function.update v.state p .blocked
        proc := Function.update v.proc q (some (proc.setCaps t)) }
  | parkBare {v : Ledger} {p : ProcSlot} (hstate : v.state p = .running)
      (hg : g.park p .nowhere) :
      Act g v { v with state := Function.update v.state p .blocked }
  | parkRing {v : Ledger} {p : ProcSlot} {proc : Process} {k : CapSlot} {cap : Capability}
      {id : RingId} {r : Ring} (hp : v.proc p = some proc)
      (hk : proc.caps.slots k = some cap) (hobj : cap.object = .ring id)
      (hlive : (v.rings id).inUse = true)
      (hstate : v.state p = .running) (huse : r.inUse = (v.rings id).inUse)
      (howner : (v.rings id).owner = p) (hsame : r.owner = p)
      (hsq : r.sqPhys = (v.rings id).sqPhys) (hcq : r.cqPhys = (v.rings id).cqPhys)
      (hmask : r.mask = (v.rings id).mask) (htail : r.cqTail = (v.rings id).cqTail)
      (hwait : r.waiting = true)
      (hg : g.park p (.ring id)) :
      Act g v { v with
        state := Function.update v.state p .blocked
        rings := Function.update v.rings id r }
  | parkBind {v : Ledger} {p : ProcSlot} {proc : Process} {k : CapSlot} {cap : Capability}
      {dev : DevId} {d : VirtioBlk} {b : Bound} (hp : v.proc p = some proc)
      (hk : proc.caps.slots k = some cap) (hobj : cap.object = .boundDevice dev)
      (hstate : v.state p = .running) (hd : v.devs.devices dev = some d)
      (hb : d.bound = some b) (hg : g.park p (.bound dev)) :
      Act g v { v with
        state := Function.update v.state p .blocked
        devs := v.devs.setDevice dev
          (some { d with bound := some { b with waiter := some p } }) }
  | dequeue {v : Ledger} {p : ProcSlot} {id : EndpointId} {rest : List ProcSlot}
      (hq : v.queue id = p :: rest) :
      Act g v { v with queue := Function.update v.queue id rest, awake := p :: v.awake }
  | receiveCall {v : Ledger} {p q : ProcSlot} {id : EndpointId} {rest : List ProcSlot}
      {proc : Process} {k : CapSlot} {t : CapTable} (hqueue : v.queue id = p :: rest)
      (hside : v.sendersWait id = true) (hcall : (v.mail p).call = true)
      (hq : v.proc q = some proc) (hnone : v.transit = none)
      (hin : proc.caps.reclaim (Kernel.replyCap p) = some (k, t)) (hg : g.serve p) :
      Act g v { v with
        queue := Function.update v.queue id rest
        proc := Function.update v.proc q (some (proc.setCaps t)) }
  | wake {v : Ledger} {p : ProcSlot} {rest : List ProcSlot} {r : Result}
      (h : v.awake = p :: rest) (hg : g.wake p r) :
      Act g v { v with
        state := Function.update v.state p .ready
        mail := Function.update v.mail p { v.mail p with result := r }
        awake := rest }
  | forget {v : Ledger} {p : ProcSlot} {rest : List ProcSlot} (h : v.awake = p :: rest)
      (hg : g.forget p) :
      Act g v { v with awake := rest }
  | rouse {v : Ledger} {awake : List ProcSlot} (h : awake.Perm v.awake) :
      Act g v { v with awake }
  | suspend {v : Ledger} {p : ProcSlot} (hstate : v.state p = .running) :
      Act g v { v with state := Function.update v.state p .ready }
  | resume {v : Ledger} {p : ProcSlot} (hstate : v.state p = .ready) :
      Act g v { v with state := Function.update v.state p .running }
  -- Rings.
  | ringTick {v : Ledger} {id : RingId} {r : Ring} (huse : r.inUse = (v.rings id).inUse)
      (howner : r.owner = (v.rings id).owner) (hsq : r.sqPhys = (v.rings id).sqPhys)
      (hcq : r.cqPhys = (v.rings id).cqPhys) (hmask : r.mask = (v.rings id).mask)
      (htail : r.cqTail = (v.rings id).cqTail) (hwait : r.waiting = (v.rings id).waiting) :
      Act g v { v with rings := Function.update v.rings id r }
  | ringPost {v : Ledger} {id : RingId} {r : Ring} (huse : r.inUse = (v.rings id).inUse)
      (howner : r.owner = (v.rings id).owner) (hsq : r.sqPhys = (v.rings id).sqPhys)
      (hcq : r.cqPhys = (v.rings id).cqPhys) (hmask : r.mask = (v.rings id).mask)
      (hwait : r.waiting = false) :
      Act g v { v with
        rings := Function.update v.rings id r
        awake := (if (v.rings id).waiting then [(v.rings id).owner] else []) ++ v.awake }
  | ringStale {v : Ledger} {id : RingId} {r : Ring} (hfree : (v.rings id).inUse = false)
      (huse : r.inUse = false) (hwait : r.waiting = false) :
      Act g v { v with rings := Function.update v.rings id r }
  | dropRing {v : Ledger} {cap : Capability} {rest : List Capability} {id : RingId}
      (hheld : v.held = cap :: rest) (hobj : cap.object = .ring id) :
      Act g v { v with held := rest, rings := Function.update v.rings id Ring.empty }
  -- What becomes of the other held capabilities.
  | dropFrame {v : Ledger} {cap : Capability} {rest : List Capability} {a : Nat}
      (hheld : v.held = cap :: rest) (hobj : cap.object = .frame a) :
      Act g v { v with held := rest, frames := a :: v.frames }
  | dropReply {v : Ledger} {cap : Capability} {rest : List Capability} {c : ProcSlot}
      (hheld : v.held = cap :: rest) (hobj : cap.object = .reply c) :
      Act g v { v with held := rest, awake := c :: v.awake }
  -- Devices.
  | post {v : Ledger} {p : ProcSlot} {proc : Process} {dev : DevId} {d : VirtioBlk}
      {id : RingId} {userData head : Nat} {inf : Inflights} {chain : Chain}
      (hp : v.proc p = some proc) (hd : v.devs.devices dev = some d)
      (huse : (v.rings id).inUse = true) (howner : (v.rings id).owner = p)
      (hsubmit : d.inflights.submit (.ring id userData) = some (head, inf))
      (hframe : proc.Names (.frame chain.dataAddr)) (hg : g.post p id) :
      Act g v { v with devs := v.devs.setDevice dev (some { d with
        inflights := inf, chains := Function.update d.chains (head / descPerReq) chain }) }
  | complete {v : Ledger} {dev : DevId} {d : VirtioBlk} {inf : Inflights}
      (hd : v.devs.devices dev = some d)
      (hinf : ∀ slot, inf.routing slot = none ∨ inf.routing slot = d.inflights.routing slot)
      (hwf : d.inflights.WF → inf.WF) :
      Act g v { v with devs := v.devs.setDevice dev (some { d with inflights := inf }) }
  | unwait {v : Ledger} {dev : DevId} {d : VirtioBlk} {b : Bound}
      (hd : v.devs.devices dev = some d) (hb : d.bound = some b) :
      Act g v { v with
        devs := v.devs.setDevice dev (some { d with bound := some { b with waiter := none } })
        awake := b.waiter.toList ++ v.awake }
  | dmaLink {v : Ledger} {bi : BlockIommu} {a : Nat} {fa : FrameAlloc} {key : TableKey}
      (hbi : v.devs.iommu = some bi) (h : v.mem.fa.alloc = .ok (a, fa)) :
      Act g v { v with
        mem := { v.mem with fa }
        devs := v.devs.setDomain bi
          { bi.domain with tables := bi.domain.tables ++ [(key, a)] } }
  | dmaLeaf {v : Ledger} {bi : BlockIommu} {leaves : List Nat}
      (hbi : v.devs.iommu = some bi) :
      Act g v { v with devs := v.devs.setDomain bi { bi.domain with leaves } }
  | takeBound {v : Ledger} {p : ProcSlot} {proc : Process} {k : CapSlot} {cap : Capability}
      {dev : DevId} (hp : v.proc p = some proc) (hk : proc.caps.slots k = some cap)
      (hobj : cap.object = .boundDevice dev) (hstate : v.state p ≠ .blocked)
      (hnone : v.transit = none) (hfirst : v.spent = false) (hg : g.take v p k) :
      Act g v { v with
        proc := Function.update v.proc p (some (proc.setCaps (proc.caps.set k none)))
        devs := (v.devs.detach dev).1
        frames := (v.devs.detach dev).2 ++ v.frames, spent := true }
  -- Processes.
  | leave {v : Ledger} {p : ProcSlot} {proc : Process} (hp : v.proc p = some proc)
      (hstate : v.state p ≠ .blocked) (hheld : v.held = []) (hdying : v.dying = none)
      (htransit : v.transit = none) (hcalm : v.doomed = false) (hg : g.leave v p) :
      Act g v { v with
        proc := Function.update v.proc p none
        held := proc.caps.iter
        dying := some p
        spent := true
        state := Function.update v.state p .empty
        boot := Function.update v.boot p []
        mail := Function.update v.mail p Slot.empty.mail
        frames := (v.boot p).map Prod.snd ++ v.frames
        spaces := proc.l4 :: v.spaces }
  | doom {v : Ledger} (h : ∀ id, v.queue id ≠ [] →
      0 < listTotal (reachWeight id (peerRight (v.sendersWait id))) v.held →
        0 < liveTotal (reachWeight id (peerRight (v.sendersWait id))) v.proc) :
      Act g v { v with doomed := true }
  | calm {v : Ledger} (hheld : v.held = []) : Act g v { v with doomed := false }
  | enter {v : Ledger} {p : ProcSlot} {proc : Process} {boot : List (Nat × Nat)}
      {rest spaces : List Nat} {k : CapSlot} {budget : Nat} {rights : Rights}
      (hp : v.proc p = none) (hstate : v.state p = .empty)
      (hcaps : proc.caps = CapTable.new.set k (some ⟨.cpuTime budget, rights, none⟩))
      (hspaces : v.spaces = proc.l4 :: spaces)
      (hframes : v.frames = boot.map Prod.snd ++ rest) (hdying : v.dying = none)
      (hwindow : v.mem.WindowFree proc.l4)
      (himage : ∃ image : Image, boot.map Prod.fst = image.plan.map Prod.fst) :
      Act g v { v with
        proc := Function.update v.proc p (some proc)
        state := Function.update v.state p .ready
        boot := Function.update v.boot p boot
        frames := rest, spaces := spaces }

/-- A sequence of actions. -/
abbrev Path (g : Guard) : Ledger → Ledger → Prop := Relation.ReflTransGen (Act g)

end Plinth
