import Plinth.Common.IndexRing
import Plinth.Common.Transition
import Plinth.Submit.Drain

/-!
# `Plinth.Shims.BlockRead`: the synchronous block read

`sys_block_read` of `libplinth`, over the ring that the shim has to itself. A call packs its four
words into one entry, publishes it, rings the doorbell and waits for the completion. The entry has
less room than the arguments: 32 bits for each slot and 16 for the count. And the doorbell can
leave the entry in the queue, if the pool of the device is full; the call then waits all the same.

The kernel side is the drain of `ring_submit` with `post_read`. The other users of the devices are
there through the pool, which can change at any time, and the device completes the requests of the
ring in its own time. `kernel_refused`, `kernel_full` and `kernel_posted` connect this drain to that
of the kernel model.

`reads_faithful` says what is true in every run in which no request meets a full pool and the
arguments of every request that is posted fit into the entry.
-/

set_option autoImplicit false

namespace Plinth.BlockShim

open Transition IndexRing

/-! ### The kernel -/

/-- The devices as a request meets them: whether they are there, and the free slots of their
pools. -/
structure Pool where
  ready : DevId → Bool
  free : DevId → Nat

/-- A request at a device: the sectors and the address of the data. `caps` is the table of the
process when the request was posted; the kernel does not keep it. -/
structure Request where
  dev : DevId
  sector : Nat
  count : Nat
  addr : Nat
  caps : CapTable
  deriving DecidableEq

/-- What `post_read` does with an entry: an error completion, a request, or nothing at all
(`Outcome::Full`). -/
inductive Outcome where
  | refused (status : Nat)
  | posted (q : Request)
  | full
  deriving DecidableEq

/-- `post_read`. -/
def postRead (caps : CapTable) (pool : Pool) (e : SqEntry) : Outcome :=
  if badCount e.count then .refused blkEBadArg
  else
    match resolveRequest caps e rightRead rightWrite with
    | .error status => .refused status
    | .ok (dev, sector, addr) =>
      if pool.ready dev then
        if 0 < pool.free dev then .posted ⟨dev, sector, e.count, addr, caps⟩ else .full
      else .refused blkEDev

/-- The pool after a request was posted. -/
def Pool.take (p : Pool) (dev : DevId) : Pool :=
  { p with free := Function.update p.free dev (p.free dev - 1) }

/-- The pool after a request was completed. -/
def Pool.give (p : Pool) (dev : DevId) : Pool :=
  { p with free := Function.update p.free dev (p.free dev + 1) }

/-- The pools of the kernel's devices. -/
def Pool.of (ds : Devices) : Pool where
  ready := ds.ready
  free := fun dev => ((ds.devices dev).map fun d => d.inflights.free.length).getD 0

/-! ### The shim -/

/-- The mask of the ring, which has two entries (`SHIM_RING_ENTRIES`). -/
def shimMask : UInt32 := 1

/-- The arguments of `sys_block_read`. -/
structure Args where
  rangeSlot : UInt64
  frameSlot : UInt64
  sectorOff : UInt64
  count : UInt64
  deriving DecidableEq, Repr

/-- The entry that the call writes. -/
def Args.entry (a : Args) : SqEntry :=
  ⟨0, (a.count &&& 0xFFFF).toUInt32, a.rangeSlot.toUInt32, a.frameSlot.toUInt32,
    a.sectorOff.toNat, 0⟩

/-- A completion. The queue holds its status; the entry that it answers and the request that ended
are kept beside it. -/
structure Completion where
  status : Nat
  entry : SqEntry
  request : Option Request
  deriving DecidableEq

/-- Where the call stands: before the doorbell, or in the loop after it. -/
inductive Phase where
  | idle
  | submitting (a : Args)
  | waiting (a : Args)
  deriving DecidableEq, Repr

/-- A call that has returned, with the completion that it reaped. -/
structure Returned where
  args : Args
  status : Nat
  answer : Option Completion
  deriving DecidableEq

/-- The process with its ring, and what the kernel has of it. `flight` are the requests of the ring
at the devices, each with its entry, and `returned` the history of the calls. -/
structure State where
  caps : CapTable
  pool : Pool
  sq : IndexRing SqEntry
  cq : IndexRing Completion
  flight : List (SqEntry × Request)
  phase : Phase
  returned : List Returned

/-- A step of the process, of the devices or of the others. -/
inductive Label where
  /-- The table of the process changes. -/
  | table (caps : CapTable)
  /-- The other users of the devices change the pools. -/
  | pool (p : Pool)
  /-- `sys_block_read`, up to the doorbell. -/
  | call (a : Args)
  | submit
  /-- `shim_reap` finds a completion, and the call returns its status. -/
  | reap
  /-- `sys_ring_submit` or `sys_ring_wait` returns `SYS_ERR`: the handle names no ring of the
  process. -/
  | refuse
  /-- A device completes the `i`-th request in flight. -/
  | complete (i : Nat) (ok : Bool)

namespace State

/-- `finish`: the entry at the head is consumed, with an error completion. -/
def finish (s : State) (e : SqEntry) (status : Nat) : State :=
  { s with sq := s.sq.advance 1, cq := s.cq.push shimMask ⟨status, e, none⟩ }

/-- The entry at the head is consumed, and its request is at the device. -/
def post (s : State) (e : SqEntry) (q : Request) : State :=
  { s with sq := s.sq.advance 1, flight := s.flight ++ [(e, q)], pool := s.pool.take q.dev }

/-- The loop of `ring_submit`, with `n` entries left. -/
def drain : Nat → State → State
  | 0, s => s
  | n + 1, s =>
    let e := s.sq.entry shimMask 0
    match postRead s.caps s.pool e with
    | .refused status => drain n (s.finish e status)
    | .posted q => drain n (s.post e q)
    | .full => s

/-- The `i`-th request in flight has ended, and its completion is posted. -/
def completed (s : State) (i : Nat) (e : SqEntry) (q : Request) (ok : Bool) : State :=
  { s with
    flight := s.flight.eraseIdx i
    pool := s.pool.give q.dev
    cq := s.cq.push shimMask ⟨if ok then blkOk else blkEDev, e, some q⟩ }

/-- The call returns. -/
def ret (s : State) (a : Args) (status : Nat) (answer : Option Completion) : State :=
  { s with phase := .idle, returned := ⟨a, status, answer⟩ :: s.returned }

/-- One step. -/
def next (s : State) : Label → Option State
  | .table caps => some { s with caps }
  | .pool pool => some { s with pool }
  | .call a =>
    match s.phase with
    | .idle => some { s with sq := s.sq.push shimMask a.entry, phase := .submitting a }
    | _ => none
  | .submit =>
    match s.phase with
    | .submitting a => some ({ s with phase := .waiting a }.drain s.sq.count)
    | _ => none
  | .reap =>
    match s.phase with
    | .waiting a =>
      if s.cq.head = s.cq.tail then none
      else
        let c := s.cq.entry shimMask 0
        some ({ s with cq := s.cq.advance 1 }.ret a c.status (some c))
    | _ => none
  | .refuse =>
    match s.phase with
    | .idle => none
    | .submitting a => some (s.ret a blkEDev none)
    | .waiting a => if s.cq.head = s.cq.tail then some (s.ret a blkEDev none) else none
  | .complete i ok =>
    match s.flight[i]? with
    | none => none
    | some (e, q) => some (s.completed i e q ok)

end State

/-- A ring that was registered, before the first call. Its indices can be anywhere. -/
structure Fresh (s : State) : Prop where
  phase : s.phase = .idle
  sq : s.sq.head = s.sq.tail
  cq : s.cq.head = s.cq.tail
  flight : s.flight = []
  returned : s.returned = []

/-- The shim over its ring. -/
def system : System State Label where
  init := Fresh
  next := State.next

/-! ### What a call is for -/

/-- The entry asks for what the arguments say. -/
structure Args.Asks (a : Args) (e : SqEntry) : Prop where
  op : e.op = 0
  rangeSlot : e.rangeSlot.toNat = a.rangeSlot.toNat
  frameSlot : e.frameSlot.toNat = a.frameSlot.toNat
  sectorOff : e.sectorOff = a.sectorOff.toNat
  count : e.count = a.count.toNat

/-- The arguments have room in the entry. -/
def Args.fits (a : Args) : Bool :=
  a.rangeSlot.toNat < 2 ^ 32 && a.frameSlot.toNat < 2 ^ 32 && a.count.toNat < 2 ^ 16

/-- The kernel was asked for the sectors of the arguments with their slots, and the device has
completed that request. -/
def Returned.Exact (r : Returned) : Prop :=
  ∃ c q, r.answer = some c ∧ r.args.Asks c.entry ∧ c.request = some q ∧
    resolveRequest q.caps c.entry rightRead rightWrite = .ok (q.dev, q.sector, q.addr) ∧
      q.count = r.args.count.toNat

/-- A call reports success only for the read that it was asked for. While it waits, its request is
at the device, and it returns with the completion. -/
structure State.Faithful (s : State) : Prop where
  exact : ∀ r ∈ s.returned, r.status = blkOk → r.Exact
  served : ∀ a, s.phase = .waiting a → s.cq.head = s.cq.tail →
    ∃ q, s.flight = [(a.entry, q)] ∧ ∀ ok, ∃ t u, s.next (.complete 0 ok) = some t ∧
      t.next .reap = some u ∧ u.phase = .idle

/-- The step does not leave an entry in the queue, and it posts no request for arguments that have
no room in the entry. The handle names the ring. -/
def State.meets (s : State) : Label → Bool
  | .submit =>
    match s.phase with
    | .submitting a =>
      match postRead s.caps s.pool a.entry with
      | .refused _ => true
      | .posted _ => a.fits
      | .full => false
    | _ => true
  | .refuse => false
  | _ => true

/-! ### The entry -/

theorem toNat_mask16 (w : UInt64) : (w &&& 0xFFFF).toNat = w.toNat % 2 ^ 16 := by
  rw [UInt64.toNat_and, show (0xFFFF : UInt64).toNat = 2 ^ 16 - 1 from rfl,
    Nat.and_two_pow_sub_one_eq_mod]

/-- The kernel reads the low 16 bits of the count. -/
theorem count_entry (a : Args) : a.entry.count = a.count.toNat % 2 ^ 16 := by
  show ((a.count &&& 0xFFFF).toUInt32 &&& 0xFFFF).toNat = _
  rw [UInt32.toNat_and, show (0xFFFF : UInt32).toNat = 2 ^ 16 - 1 from rfl,
    Nat.and_two_pow_sub_one_eq_mod, UInt64.toNat_toUInt32, toNat_mask16]
  omega

/-- The entry asks for what the arguments say exactly if they have room in it. -/
theorem asks_entry_iff (a : Args) : a.Asks a.entry ↔ a.fits = true := by
  have hrange : a.entry.rangeSlot.toNat = a.rangeSlot.toNat % 2 ^ 32 := UInt64.toNat_toUInt32 _
  have hframe : a.entry.frameSlot.toNat = a.frameSlot.toNat % 2 ^ 32 := UInt64.toNat_toUInt32 _
  have hcount := count_entry a
  unfold Args.fits
  rw [Bool.and_eq_true, Bool.and_eq_true, decide_eq_true_iff, decide_eq_true_iff,
    decide_eq_true_iff]
  constructor
  · intro h
    have h₁ := h.rangeSlot
    have h₂ := h.frameSlot
    have h₃ := h.count
    omega
  · rintro ⟨⟨h₁, h₂⟩, h₃⟩
    exact ⟨rfl, by omega, by omega, rfl, by omega⟩

/-- A refused entry gets an error. -/
theorem refused_ne {caps : CapTable} {pool : Pool} {e : SqEntry} {status : Nat}
    (h : postRead caps pool e = .refused status) : status ≠ blkOk := by
  unfold postRead at h
  split at h
  · cases h
    decide
  · split at h
    · rename_i status' herror
      cases h
      exact Kernel.resolveRequest_error herror
    · split at h
      · split at h
        · cases h
        · cases h
      · cases h
        decide

theorem posted_resolves {caps : CapTable} {pool : Pool} {e : SqEntry} {q : Request}
    (h : postRead caps pool e = .posted q) :
    resolveRequest q.caps e rightRead rightWrite = .ok (q.dev, q.sector, q.addr) ∧
      q.count = e.count := by
  unfold postRead at h
  split at h
  · cases h
  · split at h
    · cases h
    · rename_i dev sector addr hresolve
      split at h
      · split at h
        · cases h
          exact ⟨hresolve, rfl⟩
        · cases h
      · cases h

/-! ### The kernel model -/

section
variable {k : Kernel} {caps : CapTable} {id : RingId} {e : SqEntry}

/-- An entry that is refused gets its error completion. -/
theorem kernel_refused {status : Nat} (h : postRead caps (Pool.of k.devs) e = .refused status) :
    k.postRead caps id e = (true, k.postStatus id e.userData status) := by
  unfold postRead at h
  unfold Kernel.postRead Kernel.postBlock
  split at h
  · rename_i hcount
    cases h
    rw [if_pos hcount]
  · rename_i hcount
    rw [if_neg hcount]
    cases hresolve : resolveRequest caps e rightRead rightWrite with
    | error status' =>
      simp only [hresolve] at h ⊢
      cases h
      rfl
    | ok r =>
      obtain ⟨dev, sector, addr⟩ := r
      simp only [hresolve] at h ⊢
      split at h
      · split at h
        · cases h
        · cases h
      · rename_i hready
        cases h
        exact if_neg hready

/-- An entry that passes the checks stays in the queue if the pool is empty. -/
theorem kernel_full (h : postRead caps (Pool.of k.devs) e = .full) :
    k.postRead caps id e = (false, k) := by
  unfold postRead at h
  unfold Kernel.postRead Kernel.postBlock
  split at h
  · cases h
  · rename_i hcount
    rw [if_neg hcount]
    cases hresolve : resolveRequest caps e rightRead rightWrite with
    | error status =>
      simp only [hresolve] at h
      cases h
    | ok r =>
      obtain ⟨dev, sector, addr⟩ := r
      simp only [hresolve] at h ⊢
      split at h
      · rename_i hready
        rw [if_pos (show k.devs.ready dev = true from hready)]
        split at h
        · cases h
        · rename_i hfree
          obtain ⟨d, hd⟩ := Option.isSome_iff_exists.mp hready
          have hnil : d.inflights.free = [] := by
            refine List.eq_nil_of_length_eq_zero (Nat.eq_zero_of_not_pos fun hpos => hfree ?_)
            unfold Pool.of
            dsimp only
            rw [hd]
            exact hpos
          have hnone : k.devs.ringPost k.mem.fa dev sector e.count addr id e.userData .read =
              none := by
            unfold Devices.ringPost Inflights.submit
            rw [hd]
            dsimp only
            rw [hnil]
          rw [hnone]
      · cases h

/-- Else it goes to the device, with the sectors and the address of the request. -/
theorem kernel_posted {q : Request} (h : postRead caps (Pool.of k.devs) e = .posted q) :
    ∃ t d head inflights, k.postRead caps id e = (true, t) ∧ t.rings = k.rings ∧ t.ram = k.ram ∧
      k.devs.devices q.dev = some d ∧
      d.inflights.submit (.ring id e.userData) = some (head, inflights) ∧
      t.devs.devices = Function.update k.devs.devices q.dev (some { d with
        inflights
        chains := Function.update d.chains (head / descPerReq)
          ⟨q.sector, q.count * 512, q.addr, .read⟩ }) := by
  unfold postRead at h
  split at h
  · cases h
  · rename_i hcount
    split at h
    · cases h
    · rename_i dev sector addr hresolve
      split at h
      · rename_i hready
        split at h
        · rename_i hfree
          cases h
          obtain ⟨d, hd⟩ := Option.isSome_iff_exists.mp hready
          have hdev : (k.devs.blockMapDma k.mem.fa addr).1.devices = k.devs.devices := by
            unfold Devices.blockMapDma
            split
            · rfl
            · split <;> rfl
          cases hslots : d.inflights.free with
          | nil =>
            unfold Pool.of at hfree
            dsimp only at hfree
            rw [hd] at hfree
            dsimp only [Option.map_some, Option.getD_some] at hfree
            rw [hslots] at hfree
            exact absurd hfree (Nat.lt_irrefl 0)
          | cons slot rest =>
            have hsubmit : d.inflights.submit (.ring id e.userData) = some (slot * descPerReq,
                { d.inflights with
                  free := rest
                  routing := Function.update d.inflights.routing slot
                    (some (.ring id e.userData)) }) := by
              unfold Inflights.submit
              rw [hslots]
            obtain ⟨r, hr⟩ : ∃ r, k.devs.ringPost k.mem.fa dev sector e.count addr id e.userData
                .read = some r := by
              unfold Devices.ringPost
              rw [hd]
              dsimp only
              rw [hsubmit]
              exact ⟨_, rfl⟩
            refine ⟨{ k with devs := r.1 }.setFa r.2, d, _, _, ?_, rfl, rfl, hd, hsubmit, ?_⟩
            · unfold Kernel.postRead Kernel.postBlock
              rw [if_neg hcount, hresolve]
              dsimp only
              rw [if_pos (show k.devs.ready dev = true from hready), hr]
            · show r.1.devices = _
              unfold Devices.ringPost at hr
              rw [hd] at hr
              dsimp only at hr
              rw [hsubmit] at hr
              obtain rfl := Option.some.inj hr
              unfold Devices.setDevice
              dsimp only
              split
              · rfl
              · rw [hdev]
        · cases h
      · cases h

end

/-! ### One drain -/

theorem sized_shimMask : Sized shimMask := ⟨1, by decide, rfl⟩

variable {s t : State} {a : Args}

/-- The doorbell, with the entry of the call in the queue. -/
theorem drain_single {e : SqEntry} (h : s.sq.contents shimMask = [e]) :
    (∃ status, postRead s.caps s.pool e = .refused status ∧
        s.drain s.sq.count = s.finish e status) ∨
      (∃ q, postRead s.caps s.pool e = .posted q ∧ s.drain s.sq.count = s.post e q) ∨
      postRead s.caps s.pool e = .full ∧ s.drain s.sq.count = s := by
  rw [count_of_contents h]
  show (∃ status, _ ∧ State.drain 1 s = _) ∨ (∃ q, _ ∧ State.drain 1 s = _) ∨
    _ ∧ State.drain 1 s = _
  unfold State.drain
  rw [(entry_cons h).1]
  dsimp only
  cases hpost : postRead s.caps s.pool e with
  | refused status => exact Or.inl ⟨status, rfl, rfl⟩
  | posted q => exact Or.inr (Or.inl ⟨q, rfl, rfl⟩)
  | full => exact Or.inr (Or.inr ⟨rfl, rfl⟩)

/-! ### Runs -/

/-- The completion answers the entry of the call, and if it is a success, the call is served. -/
def Args.Answered (a : Args) (c : Completion) : Prop :=
  c.entry = a.entry ∧ (c.status = blkOk → a.fits = true ∧ ∃ q, c.request = some q ∧
    resolveRequest q.caps a.entry rightRead rightWrite = .ok (q.dev, q.sector, q.addr) ∧
      q.count = a.entry.count)

/-- The request in flight is that of the call. -/
def Args.Sent (a : Args) (p : SqEntry × Request) : Prop :=
  p.1 = a.entry ∧ a.fits = true ∧
    resolveRequest p.2.caps a.entry rightRead rightWrite = .ok (p.2.dev, p.2.sector, p.2.addr) ∧
      p.2.count = a.entry.count

/-- What is in the queues in each phase. -/
structure Inv (s : State) : Prop where
  returned : ∀ r ∈ s.returned, r.status = blkOk → r.Exact
  idle : s.phase = .idle → s.sq.head = s.sq.tail ∧ s.cq.head = s.cq.tail ∧ s.flight = []
  submitting : ∀ a, s.phase = .submitting a → s.sq.contents shimMask = [a.entry] ∧
    s.cq.head = s.cq.tail ∧ s.flight = []
  waiting : ∀ a, s.phase = .waiting a → s.sq.head = s.sq.tail ∧
    ((∃ p, a.Sent p ∧ s.flight = [p] ∧ s.cq.head = s.cq.tail) ∨
      ∃ c, a.Answered c ∧ s.flight = [] ∧ s.cq.contents shimMask = [c])

theorem Args.Answered.exact {c : Completion} (h : a.Answered c) (hok : c.status = blkOk) :
    Returned.Exact ⟨a, c.status, some c⟩ := by
  obtain ⟨hentry, hanswer⟩ := h
  obtain ⟨hfits, q, hq, hresolve, hcount⟩ := hanswer hok
  have hasks := (asks_entry_iff a).mpr hfits
  refine ⟨c, q, rfl, ?_, hq, ?_, ?_⟩
  · rw [hentry]
    exact hasks
  · rw [hentry]
    exact hresolve
  · exact hcount.trans hasks.count

theorem inv_of_fresh (h : Fresh s) : Inv s where
  returned := fun r hr => by
    rw [h.returned] at hr
    cases hr
  idle := fun _ => ⟨h.sq, h.cq, h.flight⟩
  submitting := fun a ha => by
    rw [h.phase] at ha
    cases ha
  waiting := fun a ha => by
    rw [h.phase] at ha
    cases ha

/-- A call that returns leaves both queues empty. -/
theorem inv_ret (h : ∀ r ∈ s.returned, r.status = blkOk → r.Exact) (hsq : s.sq.head = s.sq.tail)
    (hcq : s.cq.head = s.cq.tail)
    (hflight : s.flight = []) {status : Nat} {answer : Option Completion}
    (hexact : status = blkOk → Returned.Exact ⟨a, status, answer⟩) :
    Inv (s.ret a status answer) where
  returned := by
    intro r hr hok
    rcases List.mem_cons.mp hr with rfl | hr
    · exact hexact hok
    · exact h r hr hok
  idle := fun _ => ⟨hsq, hcq, hflight⟩
  submitting := nofun
  waiting := nofun

/-- The doorbell either refuses the entry or sends the request. -/
theorem Inv.submit (h : Inv s) (ha : s.phase = .submitting a) (hok : s.meets .submit = true) :
    Inv ({ s with phase := .waiting a }.drain s.sq.count) := by
  obtain ⟨hsq, hcq, hflight⟩ := h.submitting a ha
  have hempty := contents_eq_nil.mp (entry_cons hsq).2
  unfold State.meets at hok
  dsimp only at hok
  rw [ha] at hok
  dsimp only at hok
  have hdrain := drain_single (s := { s with phase := .waiting a }) hsq
  dsimp only at hdrain
  rcases hdrain with ⟨status, hpost, hdrain⟩ | ⟨q, hpost, hdrain⟩ | ⟨hpost, -⟩
  · rw [hdrain]
    refine ⟨h.returned, nofun, nofun, fun b hb => ?_⟩
    cases hb
    exact ⟨hempty, Or.inr ⟨_, ⟨rfl, fun hzero => absurd hzero (refused_ne hpost)⟩, hflight,
      push_of_empty sized_shimMask hcq _⟩⟩
  · rw [hpost] at hok
    obtain ⟨hresolve, hcount⟩ := posted_resolves hpost
    rw [hdrain]
    refine ⟨h.returned, nofun, nofun, fun b hb => ?_⟩
    cases hb
    refine ⟨hempty, Or.inl ⟨(a.entry, q), ⟨rfl, hok, hresolve, hcount⟩, ?_, hcq⟩⟩
    show s.flight ++ [(a.entry, q)] = _
    rw [hflight]
    rfl
  · rw [hpost] at hok
    cases hok

/-- The device completes the request of the call. -/
theorem Inv.complete (h : Inv s) {e : SqEntry} {q : Request} {i : Nat}
    (hi : s.flight[i]? = some (e, q)) (ok : Bool) : Inv (s.completed i e q ok) := by
  have hsome : s.flight ≠ [] := by
    intro hnil
    rw [hnil] at hi
    cases hi
  refine ⟨h.returned, fun hp => absurd (h.idle hp).2.2 hsome,
    fun a ha => absurd (h.submitting a ha).2.2 hsome, fun a ha => ?_⟩
  obtain ⟨hsq, ⟨p, hsent, hflight, hcq⟩ | ⟨c, -, hnone, -⟩⟩ := h.waiting a ha
  · rw [hflight] at hi
    obtain ⟨rfl, rfl⟩ : i = 0 ∧ p = (e, q) := by
      cases i with
      | zero => exact ⟨rfl, Option.some.inj hi⟩
      | succ i => cases hi
    refine ⟨hsq, Or.inr ⟨_, ⟨hsent.1, fun _ => ⟨hsent.2.1, q, rfl, hsent.2.2⟩⟩, ?_,
      push_of_empty sized_shimMask hcq _⟩⟩
    show s.flight.eraseIdx 0 = []
    rw [hflight]
    rfl
  · exact absurd hnone hsome

/-- One step. -/
theorem Inv.next {ℓ : Label} (h : Inv s) (hok : s.meets ℓ = true) (hnext : s.next ℓ = some t) :
    Inv t := by
  cases ℓ with
  | table caps =>
    cases hnext
    exact { h with }
  | pool p =>
    cases hnext
    exact { h with }
  | call a =>
    simp only [State.next] at hnext
    split at hnext
    · rename_i hp
      cases hnext
      obtain ⟨hsq, hcq, hflight⟩ := h.idle hp
      refine ⟨h.returned, nofun, fun b hb => ?_, nofun⟩
      cases hb
      exact ⟨push_of_empty sized_shimMask hsq _, hcq, hflight⟩
    · cases hnext
  | submit =>
    simp only [State.next] at hnext
    split at hnext
    · rename_i a hp
      cases hnext
      exact h.submit hp hok
    · cases hnext
  | reap =>
    simp only [State.next] at hnext
    split at hnext
    · rename_i a hp
      split at hnext
      · cases hnext
      · rename_i hne
        cases hnext
        obtain ⟨hsq, ⟨p, -, -, hcq⟩ | ⟨c, hanswer, hflight, hcq⟩⟩ := h.waiting a hp
        · exact absurd hcq hne
        · obtain ⟨hentry, hrest⟩ := entry_cons hcq
          rw [hentry]
          exact inv_ret (s := { s with cq := s.cq.advance 1 }) h.returned hsq
            (contents_eq_nil.mp hrest) hflight hanswer.exact
    · cases hnext
  | refuse => cases hok
  | complete i ok =>
    simp only [State.next] at hnext
    split at hnext
    · cases hnext
    · rename_i e q hi
      cases hnext
      exact h.complete hi ok

/-- The call returns if there is a completion. -/
theorem next_reap (ha : s.phase = .waiting a) (hne : s.cq.head ≠ s.cq.tail) :
    s.next .reap = some ({ s with cq := s.cq.advance 1 }.ret a (s.cq.entry shimMask 0).status
      (some (s.cq.entry shimMask 0))) := by
  simp only [State.next, ha, if_neg hne]

/-- What a state of the invariant shows. -/
theorem Inv.faithful (h : Inv s) : s.Faithful where
  exact := h.returned
  served := by
    intro a ha hempty
    obtain ⟨-, ⟨p, hsent, hflight, hcq⟩ | ⟨c, -, -, hcq⟩⟩ := h.waiting a ha
    · obtain ⟨e, q⟩ := p
      obtain ⟨rfl, -⟩ := hsent
      refine ⟨q, hflight, fun ok => ?_⟩
      have hne : (s.completed 0 a.entry q ok).cq.head ≠ (s.completed 0 a.entry q ok).cq.tail := by
        intro heq
        have hnil : (s.completed 0 a.entry q ok).cq.contents shimMask = [] :=
          contents_eq_nil.mpr heq
        have hpush := push_of_empty sized_shimMask hcq
          (⟨if ok then blkOk else blkEDev, a.entry, some q⟩ : Completion)
        exact absurd (hpush.symm.trans hnil) (List.cons_ne_nil _ _)
      refine ⟨s.completed 0 a.entry q ok, _, ?_,
        next_reap (show (s.completed 0 a.entry q ok).phase = .waiting a from ha) hne, rfl⟩
      simp only [State.next, hflight, List.getElem?_cons_zero]
    · rw [contents_eq_nil.mpr hempty] at hcq
      cases hcq

/-- In every run in which no request meets a full pool and the arguments of every request that is
posted have room in the entry, a call reports success only for the read that it was asked for, and
while it waits its request is at the device. -/
theorem reads_faithful {s : State}
    (hs : Reachable system (fun s ℓ => s.meets ℓ = true) s) : s.Faithful :=
  (hs.invariant (I := Inv) (fun _ => inv_of_fresh)
    fun _ _ _ _ ih hok hnext => ih.next hok hnext).faithful

/-- A block range in slot 0 and a frame in slot 1. -/
def twoCaps : CapTable where
  slots := fun k =>
    if k = 0 then some ⟨.blockRange 0 0 64, rightRead, none⟩
    else if k = 1 then some ⟨.frame 4096, rightWrite, none⟩
    else none
  reserved := fun _ => false

/-- A process with a fresh ring, and devices with `free` slots each. -/
def start (free : Nat) : State where
  caps := twoCaps
  pool := ⟨fun _ => true, fun _ => free⟩
  sq := ⟨fun _ => ⟨0, 0, 0, 0, 0, 0⟩, 0, 0⟩
  cq := ⟨fun _ => ⟨0, ⟨0, 0, 0, 0, 0, 0⟩, none⟩, 0, 0⟩
  flight := []
  phase := .idle
  returned := []

theorem fresh_start (free : Nat) : Fresh (start free) := ⟨rfl, rfl, rfl, rfl, rfl⟩

/-- A read of one sector. -/
theorem reads_faithful_oneSector : (system.runFrom (start 1)
    [.call ⟨0, 1, 9, 1⟩, .submit, .complete 0 true, .reap]).Faithful :=
  reads_faithful (Reachable.runFrom ⟨_, .start (fresh_start 1)⟩ (by decide +kernel))

/-- A call that was answered by an entry with another count or another sector. -/
theorem unfaithful_of_answer {s : State} {a : Args} {c : Completion}
    (hmem : ⟨a, blkOk, some c⟩ ∈ s.returned)
    (hne : c.entry.count ≠ a.count.toNat ∨ c.entry.sectorOff ≠ a.sectorOff.toNat) :
    ¬ s.Faithful := by
  intro h
  obtain ⟨c', q, hc, hasks, -⟩ := h.exact _ hmem rfl
  cases hc
  rcases hne with hne | hne
  · exact hne hasks.count
  · exact hne hasks.sectorOff

/-- Three runs, each without one part of the condition. A count of 65537 is read as 1; a request
that met a full pool is waited for; and a call is answered by the entry of an earlier call, whose
doorbell was refused. -/
theorem reads_unfaithful :
    (∃ s a c, Reachable system always s ∧ s.returned = [⟨a, blkOk, some c⟩] ∧
      a.count = 65537 ∧ c.entry.count = 1 ∧ ¬ s.Faithful) ∧
    (∃ s a, Reachable system always s ∧ s.phase = .waiting a ∧ s.cq.head = s.cq.tail ∧
      s.flight = [] ∧ ¬ s.Faithful) ∧
    ∃ s a c r, Reachable system always s ∧ s.returned = [⟨a, blkOk, some c⟩, r] ∧
      a.sectorOff = 9 ∧ c.entry.sectorOff = 5 ∧ ¬ s.Faithful := by
  refine ⟨?_, ?_, ?_⟩
  · have hret : (system.runFrom (start 1) [.call ⟨0, 1, 0, 65537⟩, .submit, .complete 0 true,
        .reap]).returned = [⟨⟨0, 1, 0, 65537⟩, blkOk, some ⟨blkOk, ⟨0, 1, 0, 1, 0, 0⟩,
          some ⟨0, 0, 1, 4096, twoCaps⟩⟩⟩] := by decide +kernel
    exact ⟨_, _, _, ⟨_, system.run (fresh_start 1) _⟩, hret, rfl, by decide,
      unfaithful_of_answer (by rw [hret]; exact List.mem_singleton_self _) (Or.inl (by decide))⟩
  · have hphase : (system.runFrom (start 0) [.call ⟨0, 1, 0, 1⟩, .submit]).phase =
        .waiting ⟨0, 1, 0, 1⟩ := by decide +kernel
    have hcq : (system.runFrom (start 0) [.call ⟨0, 1, 0, 1⟩, .submit]).cq.head =
        (system.runFrom (start 0) [.call ⟨0, 1, 0, 1⟩, .submit]).cq.tail := by decide +kernel
    have hflight : (system.runFrom (start 0) [.call ⟨0, 1, 0, 1⟩, .submit]).flight = [] := by
      decide +kernel
    refine ⟨_, _, ⟨_, system.run (fresh_start 0) _⟩, hphase, hcq, hflight, fun h => ?_⟩
    obtain ⟨q, hq, -⟩ := h.served _ hphase hcq
    rw [hflight] at hq
    cases hq
  · have hret : (system.runFrom (start 1) [.call ⟨0, 1, 5, 1⟩, .refuse, .call ⟨0, 1, 9, 1⟩, .submit,
        .complete 0 true, .reap]).returned = [⟨⟨0, 1, 9, 1⟩, blkOk, some ⟨blkOk, ⟨0, 1, 0, 1, 5, 0⟩,
          some ⟨0, 5, 1, 4096, twoCaps⟩⟩⟩, ⟨⟨0, 1, 5, 1⟩, blkEDev, none⟩] := by decide +kernel
    exact ⟨_, _, _, _, ⟨_, system.run (fresh_start 1) _⟩, hret, rfl, rfl,
      unfaithful_of_answer (by rw [hret]; exact List.mem_cons_self) (Or.inr (by decide))⟩

end Plinth.BlockShim
