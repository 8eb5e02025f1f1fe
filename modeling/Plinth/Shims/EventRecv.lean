import Plinth.Common.IndexRing
import Plinth.Common.Transition
import Plinth.BlockIo
import Plinth.Queues.Drops

/-!
# `Plinth.Shims.EventRecv`: the synchronous event read

`sys_event_recv` of `libplinth`, over the event ring that the shim has to itself. The ring has one
subscription at a time, always with the same cookie. A call that names another slot than the last
one cancels the subscription and arms a new one, and then takes the oldest completion of the ring.
Nothing takes out the events of the old source that are still in the completion queue.

The kernel side is the drain of `ring_submit` with `post_event_sub` and `post_cancel`, and
`deliver_event` for the one subscription. The others are there through the subscription table,
which they can fill. `kernel_post` connects the drain of an entry to that of the kernel model.

`events_apart` says what is true in every run in which a call that subscribes finds nothing in the
completion queue but events of the source that it names.
-/

set_option autoImplicit false

namespace Plinth

namespace Input

/-! ### Words -/

theorem and_not_of_and {x d : UInt32} (h : x &&& d = 0) :
    x &&& ~~~d = x ∧ (x ||| d) &&& ~~~d = x := by
  have hbit : ∀ i (hi : i < 32), (x.toBitVec[i] && d.toBitVec[i]) = false := by
    intro i hi
    have h' := congrArg UInt32.toBitVec h
    rw [UInt32.toBitVec_and] at h'
    rw [← BitVec.getElem_and, h']
    exact BitVec.getElem_zero hi
  constructor
  · apply UInt32.toBitVec_inj.mp
    ext i hi
    have := hbit i hi
    rw [UInt32.toBitVec_and, UInt32.toBitVec_not, BitVec.getElem_and, BitVec.getElem_not]
    grind
  · apply UInt32.toBitVec_inj.mp
    ext i hi
    have := hbit i hi
    rw [UInt32.toBitVec_and, UInt32.toBitVec_not, UInt32.toBitVec_or, BitVec.getElem_and,
      BitVec.getElem_or, BitVec.getElem_not]
    grind

/-- A mask does not see the bits outside of it. -/
theorem or_and_mask {x d m : UInt32} (h : d &&& m = 0) : (x ||| d) &&& m = x &&& m := by
  apply UInt32.toBitVec_inj.mp
  ext i hi
  have h' := congrArg UInt32.toBitVec h
  rw [UInt32.toBitVec_and] at h'
  have hbit : (d.toBitVec[i] && m.toBitVec[i]) = false := by
    rw [← BitVec.getElem_and, h']
    exact BitVec.getElem_zero hi
  rw [UInt32.toBitVec_and, UInt32.toBitVec_and, UInt32.toBitVec_or, BitVec.getElem_and,
    BitVec.getElem_or, BitVec.getElem_and]
  grind

/-! ### Events -/

/-- The word of what a device records. -/
def word (a : Input) : UInt32 := a.event.pack

theorem kind_cases (a : Input) : a.event.kind = 1 ∨ a.event.kind = 2 := by
  cases a with
  | key => exact Or.inl rfl
  | mouseMove => exact Or.inr rfl

theorem toNat_pack (e : Event) : e.pack.toNat =
    e.kind.toNat ||| e.code.toNat * 2 ^ 8 ||| e.value.toNat * 2 ^ 24 := by
  have hcode := e.code.toNat_lt
  have hvalue := e.value.toNat_lt
  unfold Event.pack
  rw [UInt32.toNat_or, UInt32.toNat_or, UInt32.toNat_shiftLeft, UInt32.toNat_shiftLeft,
    UInt8.toNat_toUInt32, UInt16.toNat_toUInt32, UInt8.toNat_toUInt32, Nat.shiftLeft_eq,
    Nat.shiftLeft_eq]
  show _ ||| e.code.toNat * 2 ^ 8 % 2 ^ 32 ||| e.value.toNat * 2 ^ 24 % 2 ^ 32 = _
  rw [Nat.mod_eq_of_lt (show e.code.toNat * 2 ^ 8 < 2 ^ 32 by omega),
    Nat.mod_eq_of_lt (show e.value.toNat * 2 ^ 24 < 2 ^ 32 by omega)]

/-- The low byte of the word is the kind. -/
theorem pack_and (e : Event) : e.pack &&& 0xFF = e.kind.toUInt32 := by
  have hkind := e.kind.toNat_lt
  apply UInt32.toNat_inj.mp
  rw [UInt32.toNat_and, show (0xFF : UInt32).toNat = 2 ^ 8 - 1 from rfl,
    Nat.and_two_pow_sub_one_eq_mod, toNat_pack, Nat.or_mod_two_pow, Nat.or_mod_two_pow,
    Nat.mul_mod_left, show e.value.toNat * 2 ^ 24 % 2 ^ 8 = 0 by omega, Nat.or_zero, Nat.or_zero,
    Nat.mod_eq_of_lt hkind, UInt8.toNat_toUInt32]

theorem word_kind (a : Input) : a.word &&& 0xFF ≠ 0 := by
  unfold word
  rw [pack_and]
  rcases kind_cases a with h | h
  · rw [h]
    decide
  · rw [h]
    decide

/-- The status that carries it: its word, with the drop flag or without it. -/
def Shows (a : Input) (status : UInt32) : Prop :=
  status = a.word ∨ status = a.word ||| eventDropped

theorem Shows.kind {a : Input} {status : UInt32} (h : a.Shows status) :
    status &&& 0xFF ≠ 0 := by
  rcases h with rfl | rfl
  · exact word_kind a
  · rw [or_and_mask (show eventDropped &&& 0xFF = 0 by decide)]
    exact word_kind a

/-- Without the flag the status is the word. -/
theorem Shows.word {a : Input} {status : UInt32} (h : a.Shows status) :
    status &&& ~~~eventDropped = a.word := by
  obtain ⟨hplain, hflag⟩ := and_not_of_and (Queues.pack_unflagged a)
  rcases h with rfl | rfl
  · exact hplain
  · exact hflag

end Input

namespace EventShim

open Transition IndexRing

/-! ### The ring -/

/-- `EVT_COOKIE`. -/
def evtCookie : Nat := 1

/-- The mask of the ring, which has four entries (`EVT_RING_ENTRIES`). -/
def evtMask : UInt32 := 3

/-- `SYS_ERR`, which is no slot. -/
def sysErr : UInt64 := 0xFFFFFFFFFFFFFFFF

/-- `EVENT_OK`. -/
def eventOk : UInt64 := 0

/-- `EVENT_ERR`. -/
def eventErr : UInt64 := 1

/-- What `evt_submit_op` is called for. -/
inductive Ctrl where
  | sub (slot : UInt64)
  | cancel
  deriving DecidableEq, Repr

/-- The entry that it writes. -/
def Ctrl.entry : Ctrl → SqEntry
  | .sub slot => ⟨1, 0, slot.toUInt32, 0, 0, evtCookie⟩
  | .cancel => ⟨2, 0, (0 : UInt64).toUInt32, 0, 0, evtCookie⟩

/-- An event at a source. `seq` is the number of events before it. -/
structure Arrival where
  seq : Nat
  source : Nat
  sample : Input
  deriving DecidableEq, Repr

/-- A completion. The queue holds its status; the event that it is about is kept beside it. An error
of a subscription is about none. -/
structure Completion where
  status : UInt32
  event : Option Arrival
  deriving DecidableEq, Repr

/-- The subscription of the ring. -/
structure Sub where
  source : Nat
  dropped : UInt32
  deriving DecidableEq, Repr

/-- Where the call stands: before the doorbell of an entry, or in the loop after it. -/
inductive Phase where
  | idle
  | cancelling (slot : UInt64)
  | subscribing (slot : UInt64)
  | waiting (slot : UInt64)
  deriving DecidableEq, Repr

/-- A call that has returned. `caps` is the table of the process at that time, and `event` what the
completion was about. -/
structure Returned where
  caps : CapTable
  slot : UInt64
  status : UInt64
  word : UInt32
  event : Option Arrival
  deriving DecidableEq

/-- The process with its ring, and what the kernel has of it. `full` says that no record of the
subscription table is free, and `arrived` is the history of the sources. -/
structure State where
  caps : CapTable
  full : Bool
  sub : Option Sub
  arrived : List Arrival
  sq : IndexRing Ctrl
  cq : IndexRing Completion
  subSource : UInt64
  drops : UInt32
  phase : Phase
  returned : List Returned

/-- A step of the process, of a source or of the others. -/
inductive Label where
  /-- The table of the process changes. -/
  | table (caps : CapTable)
  /-- The other rings fill the subscription table, or leave room in it. -/
  | others (full : Bool)
  /-- `sys_event_recv`, up to the first doorbell or to the loop. -/
  | call (slot : UInt64)
  | submit
  /-- `evt_reap` finds a completion, and the call returns. -/
  | reap
  /-- `sys_ring_submit` or `sys_ring_wait` returns `SYS_ERR`: the handle names no ring of the
  process. -/
  | refuse
  /-- An event at a source. -/
  | arrive (source : Nat) (sample : Input)

namespace State

/-- `finish_event_err`. It does not look for room. -/
def finishEventErr (s : State) : State :=
  { s with cq := s.cq.push evtMask ⟨UInt32.ofNat eventSubErr, none⟩ }

/-- `post_entry`, for the two operations of the shim. -/
def post (s : State) : Ctrl → State
  | .sub slot =>
    match Kernel.sourceFor s.caps slot.toUInt32.toNat with
    | none => s.finishEventErr
    | some source =>
      if s.sub.isSome || s.full then s.finishEventErr else { s with sub := some ⟨source, 0⟩ }
  | .cancel => { s with sub := none }

/-- The loop of `ring_submit`, with `n` entries left. -/
def drain : Nat → State → State
  | 0, s => s
  | n + 1, s => drain n { s.post (s.sq.entry evtMask 0) with sq := s.sq.advance 1 }

/-- The number of dropped events after one more (`u32::saturating_add`). -/
def saturatingSucc (n : UInt32) : UInt32 := if n = 0xFFFFFFFF then n else n + 1

/-- `Subscriptions::deliver` for the subscription of the ring: the event goes into the completion
queue, with the drop flag after a drop, or is dropped if the queue is full. -/
def deliver (s : State) (e : Arrival) : State :=
  match s.sub with
  | none => s
  | some sub =>
    if sub.source ≠ e.source then s
    else if evtMask + 1 ≤ s.cq.tail - s.cq.head then
      { s with sub := some { sub with dropped := saturatingSucc sub.dropped } }
    else
      let status := if 0 < sub.dropped then e.sample.word ||| eventDropped else e.sample.word
      { s with
        cq := s.cq.push evtMask ⟨status, some e⟩
        sub := some { sub with dropped := 0 } }

/-- The event that arrives next. -/
def arrival (s : State) (source : Nat) (sample : Input) : Arrival :=
  ⟨s.arrived.length, source, sample⟩

/-- `evt_submit_op`, up to the doorbell. -/
def push (s : State) (c : Ctrl) (phase : Phase) : State :=
  { s with sq := s.sq.push evtMask c, phase }

/-- The call returns. -/
def ret (s : State) (slot status : UInt64) (word : UInt32) (event : Option Arrival) : State :=
  { s with phase := .idle, returned := ⟨s.caps, slot, status, word, event⟩ :: s.returned }

/-- The call returns for the completion `c`, which it has reaped. -/
def answer (s : State) (slot : UInt64) (c : Completion) : State :=
  if c.status &&& 0xFF = 0 then { s with subSource := sysErr }.ret slot eventErr 0 none
  else
    let drops := if c.status &&& eventDropped ≠ 0 then saturatingSucc s.drops else s.drops
    { s with drops }.ret slot eventOk (c.status &&& ~~~eventDropped) c.event

/-- After the doorbell of the `CANCEL` entry, whatever it returned. -/
def resubscribe (s : State) (slot : UInt64) : State :=
  { s with subSource := sysErr }.push (.sub slot) (.subscribing slot)

/-- One step. -/
def next (s : State) : Label → Option State
  | .table caps => some { s with caps }
  | .others full => some { s with full }
  | .call slot =>
    match s.phase with
    | .idle =>
      if s.subSource = slot then some { s with phase := .waiting slot }
      else if s.subSource ≠ sysErr then some (s.push .cancel (.cancelling slot))
      else some (s.push (.sub slot) (.subscribing slot))
    | _ => none
  | .submit =>
    match s.phase with
    | .cancelling slot => some ((s.drain s.sq.count).resubscribe slot)
    | .subscribing slot =>
        some { s.drain s.sq.count with subSource := slot, phase := .waiting slot }
    | _ => none
  | .reap =>
    match s.phase with
    | .waiting slot =>
      if s.cq.head = s.cq.tail then none
      else some ({ s with cq := s.cq.advance 1 }.answer slot (s.cq.entry evtMask 0))
    | _ => none
  | .refuse =>
    match s.phase with
    | .idle => none
    | .cancelling slot => some (s.resubscribe slot)
    | .subscribing slot => some (s.ret slot eventErr 0 none)
    | .waiting slot => if s.cq.head = s.cq.tail then some (s.ret slot eventErr 0 none) else none
  | .arrive source sample =>
    let e := s.arrival source sample
    some ({ s with arrived := s.arrived ++ [e] }.deliver e)

end State

/-- A ring that was registered, before the first call. Its indices can be anywhere. -/
structure Fresh (s : State) : Prop where
  phase : s.phase = .idle
  sub : s.sub = none
  subSource : s.subSource = sysErr
  arrived : s.arrived = []
  sq : s.sq.head = s.sq.tail
  cq : s.cq.head = s.cq.tail
  returned : s.returned = []

/-- The shim over its ring. -/
def system : System State Label where
  init := Fresh
  next := State.next

/-! ### The kernel model -/

/-- A first element that satisfies the test. -/
theorem filter_set_of_nil {α : Type} {q : α → Bool} {l : List α} {i : Nat} {a : α}
    (hi : i < l.length) (hnil : l.filter q = []) (ha : q a = true) :
    (l.set i a).filter q = [a] := by
  induction l generalizing i with
  | nil => exact absurd hi (Nat.not_lt_zero i)
  | cons x l ih =>
    rw [List.filter_cons] at hnil
    split at hnil
    · cases hnil
    · rename_i hx
      cases i with
      | zero => rw [List.set_cons_zero, List.filter_cons_of_pos ha, hnil]
      | succ i =>
        rw [List.set_cons_succ, List.filter_cons_of_neg hx]
        exact ih (Nat.lt_of_succ_lt_succ hi) hnil

/-- The first element that satisfies the test is replaced. -/
theorem filter_set_findIdx {α : Type} {q : α → Bool} {l : List α} {i : Nat} {a : α}
    (hi : l.findIdx? q = some i) (ha : ¬ q a = true) :
    (l.set i a).filter q = (l.filter q).tail := by
  induction l generalizing i with
  | nil => cases hi
  | cons x l ih =>
    rw [List.findIdx?_cons] at hi
    split at hi
    · rename_i hx
      cases hi
      rw [List.set_cons_zero, List.filter_cons_of_neg ha, List.filter_cons_of_pos hx,
        List.tail_cons]
    · rename_i hx
      obtain ⟨j, hj, rfl⟩ := Option.map_eq_some_iff.mp hi
      rw [List.set_cons_succ, List.filter_cons_of_neg hx, List.filter_cons_of_neg hx, ih hj]

/-- The subscription table has the subscription of the ring and no other one with its cookie. -/
structure Agrees (rt : RingTable) (id : RingId) (s : State) : Prop where
  sub : rt.subs.filter (RingTable.isSub id evtCookie) =
    (s.sub.map fun u => some ⟨u.source, id, evtCookie, u.dropped⟩).toList
  full : s.full = (rt.subs.findIdx? Option.isNone).isNone

section
variable {k : Kernel} {id : RingId} {s : State} {slot : UInt64}

theorem agrees_any (h : Agrees k.rings id s) :
    k.rings.subs.any (RingTable.isSub id evtCookie) = s.sub.isSome := by
  rw [Bool.eq_iff_iff, List.any_eq_true]
  constructor
  · rintro ⟨r, hr, hsub⟩
    have hmem := List.mem_filter.mpr ⟨hr, hsub⟩
    rw [h.sub] at hmem
    cases hs : s.sub with
    | none =>
      rw [hs] at hmem
      cases hmem
    | some u => rfl
  · intro hsome
    obtain ⟨u, hu⟩ := Option.isSome_iff_exists.mp hsome
    have hmem : some ⟨u.source, id, evtCookie, u.dropped⟩ ∈
        k.rings.subs.filter (RingTable.isSub id evtCookie) := by
      rw [h.sub, hu]
      exact List.mem_singleton_self _
    exact ⟨_, List.mem_filter.mp hmem⟩

/-- `CANCEL` takes one subscription of the ring with its cookie. -/
theorem cancel_subs (rt : RingTable) (id : RingId) (userData : Nat) :
    (rt.cancel id userData).subs.filter (RingTable.isSub id userData) =
      (rt.subs.filter (RingTable.isSub id userData)).tail ∧
    (rt.cancel id userData).rings = rt.rings := by
  unfold RingTable.cancel
  cases hfind : rt.subs.findIdx? (RingTable.isSub id userData) with
  | none =>
    have hnil : rt.subs.filter (RingTable.isSub id userData) = [] := by
      rw [List.filter_eq_nil_iff]
      intro x hx hsub
      rw [List.findIdx?_eq_none_iff] at hfind
      exact absurd (hfind x hx) (by rw [hsub]; nofun)
    refine ⟨?_, rfl⟩
    rw [hnil]
    rfl
  | some i => exact ⟨filter_set_findIdx hfind nofun, rfl⟩

/-- An error completion leaves the subscriptions as they are. -/
theorem agrees_refused (h : Agrees k.rings id s) :
    Agrees (k.postStatus id evtCookie eventSubErr).rings id s.finishEventErr := by
  have hsubs : (k.postStatus id evtCookie eventSubErr).rings.subs = k.rings.subs :=
    Queues.cqPost_subs k.rings k.ram id evtCookie eventSubErr false
  refine ⟨?_, ?_⟩
  · rw [hsubs]
    exact h.sub
  · rw [hsubs]
    exact h.full

/-- The drain of one entry: it posts the same error, or it leaves the queues alone. What is left of
the subscription table is the matter of the other rings too. -/
theorem kernel_post (h : Agrees k.rings id s) (c : Ctrl) :
    ∃ t full, k.postEntry s.caps id c.entry = (true, t) ∧
      Agrees t.rings id { s.post c with full } ∧
      (t = k.postStatus id evtCookie eventSubErr ∧ s.post c = s.finishEventErr ∨
        t.ram = k.ram ∧ t.rings.rings = k.rings.rings ∧ (s.post c).cq = s.cq) := by
  cases c with
  | sub slot =>
    show ∃ t full, k.postEventSub s.caps id (Ctrl.sub slot).entry = _ ∧ _
    unfold Kernel.postEventSub State.post
    rw [show (Ctrl.sub slot).entry.rangeSlot = slot.toUInt32 from rfl,
      show (Ctrl.sub slot).entry.userData = evtCookie from rfl]
    dsimp only
    cases hsource : Kernel.sourceFor s.caps slot.toUInt32.toNat with
    | none => exact ⟨_, s.full, rfl, agrees_refused h, Or.inl ⟨rfl, rfl⟩⟩
    | some source =>
      dsimp only
      unfold RingTable.subscribe
      rw [agrees_any h]
      cases hsub : s.sub with
      | some u => exact ⟨_, s.full, rfl, agrees_refused h, Or.inl ⟨rfl, rfl⟩⟩
      | none =>
        rw [h.full]
        cases hfree : k.rings.subs.findIdx? Option.isNone with
        | none =>
          refine ⟨_, s.full, rfl, agrees_refused h, Or.inl ⟨rfl, ?_⟩⟩
          rfl
        | some i =>
          refine ⟨_, _, rfl, ⟨?_, rfl⟩, Or.inr ⟨rfl, rfl, rfl⟩⟩
          have hlt : i < k.rings.subs.length := (List.findIdx?_eq_some_iff_getElem.mp hfree).1
          have hnil : k.rings.subs.filter (RingTable.isSub id evtCookie) = [] := by
            rw [h.sub, hsub]
            rfl
          refine filter_set_of_nil hlt hnil ?_
          simp [RingTable.isSub]
  | cancel =>
    refine ⟨_, _, rfl, ⟨?_, rfl⟩, Or.inr ⟨rfl, ?_, rfl⟩⟩
    · show (k.rings.cancel id evtCookie).subs.filter _ = []
      rw [(cancel_subs k.rings id evtCookie).1, h.sub]
      cases s.sub with
      | none => rfl
      | some u => rfl
    · exact (cancel_subs k.rings id evtCookie).2

end

/-! ### What the call promises -/

/-- A call that returns an event returns one of the source that its slot names, and the events
come in the order in which they arrived, each of them once. -/
structure State.Apart (s : State) : Prop where
  named : ∀ r ∈ s.returned, r.status = eventOk → ∃ e, r.event = some e ∧ e ∈ s.arrived ∧
    r.word = e.sample.word ∧ Kernel.sourceFor r.caps r.slot.toNat = some e.source
  ordered : (s.returned.filterMap Returned.event).Pairwise fun e e' => e'.seq < e.seq

/-- The completion is an event of the source that `slot` names. -/
def Completion.isFrom (caps : CapTable) (slot : UInt64) (c : Completion) : Bool :=
  match c.event with
  | some e => Kernel.sourceFor caps slot.toNat = some e.source
  | none => false

/-- Nothing waits in the completion queue but events of the source that `slot` names. -/
def State.clean (s : State) (slot : UInt64) : Bool :=
  (s.cq.contents evtMask).all (Completion.isFrom s.caps slot)

/-- The entry has room for the slot, or the kernel refuses it. -/
def State.fits (s : State) (slot : UInt64) : Bool :=
  slot.toNat < 2 ^ 32 || s.full || (Kernel.sourceFor s.caps slot.toUInt32.toNat).isNone

/-- A call that subscribes, or that finds `SYS_ERR` as its slot and does not, meets a clean queue.
The slot has room in the entry, the slot of the subscription keeps its source, and the doorbell is
not refused. -/
def State.meets (s : State) : Label → Bool
  | .table caps =>
    Kernel.sourceFor caps s.subSource.toNat = Kernel.sourceFor s.caps s.subSource.toNat
  | .call slot => slot ≠ sysErr || s.subSource ≠ sysErr || s.clean slot
  | .submit =>
    match s.phase with
    | .subscribing slot => s.clean slot && s.fits slot
    | _ => true
  | .refuse =>
    match s.phase with
    | .waiting _ => true
    | _ => false
  | _ => true

/-! ### The completion queue -/

theorem sized_evtMask : Sized evtMask := ⟨2, by decide, rfl⟩

variable {s t : State} {slot : UInt64}

theorem clean_iff : s.clean slot = true ↔
    ∀ j, j < s.cq.count → Completion.isFrom s.caps slot (s.cq.entry evtMask j) = true := by
  unfold State.clean contents entries
  simp only [List.all_map, List.all_eq_true, List.mem_range, Function.comp_apply]

theorem isFrom_iff {caps : CapTable} {c : Completion} : c.isFrom caps slot = true ↔
    ∃ e, c.event = some e ∧ Kernel.sourceFor caps slot.toNat = some e.source := by
  unfold Completion.isFrom
  cases c.event with
  | none => exact ⟨nofun, nofun⟩
  | some e =>
    rw [decide_eq_true_iff]
    exact ⟨fun h => ⟨e, rfl, h⟩, fun ⟨e', he, h⟩ => by cases he; exact h⟩

/-- No slot has the number `SYS_ERR`. -/
theorem sourceFor_sysErr (caps : CapTable) : Kernel.sourceFor caps sysErr.toNat = none := by
  unfold Kernel.sourceFor CapTable.lookup
  rw [show capSlot? sysErr.toNat = none by decide]

/-- What waits in the completion queue. Events stand there in the order in which they arrived, and
an error is there only while the ring has no subscription. -/
structure Queue (s : State) : Prop where
  seq : ∀ e ∈ s.arrived, e.seq < s.arrived.length
  count : s.cq.count ≤ 5
  room : (∀ j, j < s.cq.count → (s.cq.entry evtMask j).event ≠ none) → s.cq.count ≤ 4
  error : ∀ j, j < s.cq.count → (s.cq.entry evtMask j).event = none →
    (s.cq.entry evtMask j).status = 0 ∧ s.sub = none
  event : ∀ j e, j < s.cq.count → (s.cq.entry evtMask j).event = some e →
    e ∈ s.arrived ∧ e.sample.Shows (s.cq.entry evtMask j).status
  sorted : ∀ i j e e', i < j → j < s.cq.count → (s.cq.entry evtMask i).event = some e →
    (s.cq.entry evtMask j).event = some e' → e.seq < e'.seq
  apart : s.Apart
  later : ∀ r ∈ s.returned, ∀ e, r.event = some e → e.seq < s.arrived.length ∧
    ∀ j e', j < s.cq.count → (s.cq.entry evtMask j).event = some e' → e.seq < e'.seq

/-- The subscription and the events in the queue are of the source that `slot` names. -/
structure State.Follows (s : State) (slot : UInt64) : Prop where
  sub : ∀ sub, s.sub = some sub → Kernel.sourceFor s.caps slot.toNat = some sub.source
  event : ∀ j e, j < s.cq.count → (s.cq.entry evtMask j).event = some e →
    Kernel.sourceFor s.caps slot.toNat = some e.source

/-- A queue that is clean follows its slot while there is no subscription. -/
theorem follows_of_clean (h : s.clean slot = true) (hsub : s.sub = none) : s.Follows slot where
  sub := fun sub h => by
    rw [hsub] at h
    cases h
  event := fun j e hj he => by
    obtain ⟨e', he', hsource⟩ := isFrom_iff.mp (clean_iff.mp h j hj)
    rw [he] at he'
    cases he'
    exact hsource

theorem event_of_clean (h : s.clean slot = true) {j : Nat} (hj : j < s.cq.count) :
    (s.cq.entry evtMask j).event ≠ none := by
  obtain ⟨e, he, -⟩ := isFrom_iff.mp (clean_iff.mp h j hj)
  rw [he]
  exact nofun

theorem count_finishEventErr (h : s.cq.count ≤ 4) :
    s.finishEventErr.cq.count = s.cq.count + 1 :=
  count_push (lt_of_le_of_lt (Nat.succ_le_succ h) (by decide)) _

/-- An event that the queue still has behind the error of a subscription is at its old place. -/
theorem finishEventErr_event (h : s.cq.count ≤ 4) {j : Nat} {e : Arrival}
    (hj : j < s.finishEventErr.cq.count)
    (he : (s.finishEventErr.cq.entry evtMask j).event = some e) :
    j < s.cq.count ∧ (s.cq.entry evtMask j).event = some e ∧
      s.finishEventErr.cq.entry evtMask j = s.cq.entry evtMask j := by
  have hcount := count_finishEventErr h
  rcases entry_push evtMask s.cq ⟨UInt32.ofNat eventSubErr, none⟩ j with hsame | hnew
  · have hsame' : s.finishEventErr.cq.entry evtMask j = s.cq.entry evtMask j := hsame
    rcases Nat.lt_or_ge j s.cq.count with hlt | hge
    · rw [hsame'] at he
      exact ⟨hlt, he, hsame'⟩
    · obtain rfl : j = s.cq.count := by omega
      have hlast := entry_push_count evtMask s.cq ⟨UInt32.ofNat eventSubErr, none⟩
      rw [show s.finishEventErr.cq.entry evtMask s.cq.count = _ from hlast] at he
      cases he
  · rw [show s.finishEventErr.cq.entry evtMask j = _ from hnew] at he
    cases he

/-- The error of a subscription, behind a queue without errors. It can take the place of an event
if the queue is full. -/
theorem Queue.finishEventErr (h : Queue s) (hsub : s.sub = none)
    (hclean : ∀ j, j < s.cq.count → (s.cq.entry evtMask j).event ≠ none) :
    Queue s.finishEventErr := by
  have hfour := h.room hclean
  have hcount := count_finishEventErr hfour
  refine ⟨h.seq, by omega, fun hall => ?_, fun j hj hnone => ?_, fun j e hj he => ?_,
    fun i j e e' hij hj he he' => ?_, ⟨h.apart.named, h.apart.ordered⟩,
      fun r hr e he => ⟨(h.later r hr e he).1,
      fun j e' hj he' => ?_⟩⟩
  · have hlast := hall s.cq.count (by omega)
    exact absurd (congrArg Completion.event (entry_push_count evtMask s.cq _)) hlast
  · refine ⟨?_, hsub⟩
    rcases entry_push evtMask s.cq ⟨UInt32.ofNat eventSubErr, none⟩ j with hsame | hnew
    · rw [show s.finishEventErr.cq.entry evtMask j = _ from hsame] at hnone ⊢
      rcases Nat.lt_or_ge j s.cq.count with hlt | hge
      · exact absurd hnone (hclean j hlt)
      · obtain rfl : j = s.cq.count := by omega
        rw [← hsame, entry_push_count]
        rfl
    · rw [show s.finishEventErr.cq.entry evtMask j = _ from hnew]
      rfl
  · obtain ⟨hlt, hold, hsame⟩ := finishEventErr_event hfour hj he
    rw [hsame]
    exact h.event j e hlt hold
  · obtain ⟨-, hold, -⟩ := finishEventErr_event hfour (lt_trans hij hj) he
    obtain ⟨hlt, hold', -⟩ := finishEventErr_event hfour hj he'
    exact h.sorted i j e e' hij hlt hold hold'
  · obtain ⟨hlt, hold, -⟩ := finishEventErr_event hfour hj he'
    exact (h.later r hr e he).2 j e' hlt hold

/-- An event that finds room. -/
theorem Queue.pushEvent (h : Queue s) {e : Arrival} (hseq : e.seq = s.arrived.length)
    (hroom : s.cq.count < 4) {status : UInt32} (hshows : e.sample.Shows status) {sub : Sub}
    (hsub : s.sub = some sub) (sub' : Sub) :
    Queue { s with
      arrived := s.arrived ++ [e]
      cq := s.cq.push evtMask ⟨status, some e⟩
      sub := some sub' } := by
  have hcount : (s.cq.push evtMask ⟨status, some e⟩).count = s.cq.count + 1 :=
    count_push (lt_of_lt_of_le (Nat.succ_lt_succ hroom) (by decide)) _
  have hlast := entry_push_count evtMask s.cq ⟨status, some e⟩
  have hold : ∀ j, j < s.cq.count → (s.cq.push evtMask ⟨status, some e⟩).entry evtMask j =
      s.cq.entry evtMask j := fun j => entry_push_lt sized_evtMask hroom _
  have hsplit : ∀ j, j < (s.cq.push evtMask ⟨status, some e⟩).count →
      j < s.cq.count ∨ j = s.cq.count := by
    intro j hj
    omega
  have hlength : (s.arrived ++ [e]).length = s.arrived.length + 1 := List.length_append
  refine ⟨?_, ?_, fun _ => ?_, fun j hj hnone => ?_, fun j e' hj he' => ?_,
    fun i j e₁ e₂ hij hj h₁ h₂ => ?_, ?_, fun r hr e₁ h₁ => ⟨?_, fun j e₂ hj h₂ => ?_⟩⟩
  · intro e' he'
    dsimp only
    rw [hlength]
    rcases List.mem_append.mp he' with hmem | hmem
    · exact Nat.lt_succ_of_lt (h.seq e' hmem)
    · obtain rfl := List.mem_singleton.mp hmem
      omega
  · dsimp only
    omega
  · dsimp only
    omega
  · dsimp only at hnone hj ⊢
    rcases hsplit j hj with hlt | rfl
    · rw [hold j hlt] at hnone
      have hnone' := (h.error j hlt hnone).2
      rw [hsub] at hnone'
      cases hnone'
    · rw [hlast] at hnone
      cases hnone
  · dsimp only at hj he' ⊢
    rcases hsplit j hj with hlt | rfl
    · rw [hold j hlt] at he' ⊢
      obtain ⟨hmem, hshows'⟩ := h.event j e' hlt he'
      exact ⟨List.mem_append_left _ hmem, hshows'⟩
    · rw [hlast] at he' ⊢
      cases he'
      exact ⟨List.mem_append_right _ (List.mem_singleton_self _), hshows⟩
  · dsimp only at hj h₁ h₂
    have hi : i < s.cq.count := by
      rcases hsplit j hj with hlt | rfl
      · omega
      · exact hij
    rw [hold i hi] at h₁
    rcases hsplit j hj with hlt | rfl
    · rw [hold j hlt] at h₂
      exact h.sorted i j e₁ e₂ hij hlt h₁ h₂
    · rw [hlast] at h₂
      cases h₂
      rw [hseq]
      exact h.seq e₁ (h.event i e₁ hi h₁).1
  · refine ⟨fun r hr hok => ?_, h.apart.ordered⟩
    obtain ⟨e', he', hmem, hrest⟩ := h.apart.named r hr hok
    exact ⟨e', he', List.mem_append_left _ hmem, hrest⟩
  · dsimp only
    rw [hlength]
    exact Nat.lt_succ_of_lt (h.later r hr e₁ h₁).1
  · dsimp only at hj h₂
    rcases hsplit j hj with hlt | rfl
    · rw [hold j hlt] at h₂
      exact (h.later r hr e₁ h₁).2 j e₂ hlt h₂
    · rw [hlast] at h₂
      cases h₂
      rw [hseq]
      exact (h.later r hr e₁ h₁).1

/-- An event that is not posted. -/
theorem Queue.record (h : Queue s) (e : Arrival) (hseq : e.seq = s.arrived.length)
    {sub' : Option Sub} (hsub : s.sub = none → sub' = none) :
    Queue { s with arrived := s.arrived ++ [e], sub := sub' } := by
  have hlength : (s.arrived ++ [e]).length = s.arrived.length + 1 := List.length_append
  refine ⟨?_, h.count, h.room, fun j hj hnone => ?_, fun j e' hj he' => ?_, h.sorted, ?_,
    fun r hr e₁ h₁ => ⟨?_, (h.later r hr e₁ h₁).2⟩⟩
  · intro e' he'
    dsimp only
    rw [hlength]
    rcases List.mem_append.mp he' with hmem | hmem
    · exact Nat.lt_succ_of_lt (h.seq e' hmem)
    · obtain rfl := List.mem_singleton.mp hmem
      omega
  · obtain ⟨hstatus, hnosub⟩ := h.error j hj hnone
    exact ⟨hstatus, hsub hnosub⟩
  · obtain ⟨hmem, hshows⟩ := h.event j e' hj he'
    exact ⟨List.mem_append_left _ hmem, hshows⟩
  · refine ⟨fun r hr hok => ?_, h.apart.ordered⟩
    obtain ⟨e', he', hmem, hrest⟩ := h.apart.named r hr hok
    exact ⟨e', he', List.mem_append_left _ hmem, hrest⟩
  · dsimp only
    rw [hlength]
    exact Nat.lt_succ_of_lt (h.later r hr e₁ h₁).1

/-- An event at a source. -/
theorem Queue.arrive (h : Queue s) (source : Nat) (sample : Input) :
    Queue ({ s with arrived := s.arrived ++ [s.arrival source sample] }.deliver
      (s.arrival source sample)) := by
  unfold State.deliver
  dsimp only
  split
  · rename_i hnone
    exact h.record _ rfl id
  · rename_i sub hsub
    split
    · exact h.record _ rfl id
    · split
      · exact h.record _ rfl fun hnone => absurd (hnone.symm.trans hsub) (by nofun)
      · rename_i hroom
        refine h.pushEvent rfl ?_ ?_ hsub _
        · exact Nat.lt_of_not_le fun hle => hroom (UInt32.le_iff_toNat_le.mpr hle)
        · show Input.Shows sample _
          split
          · exact Or.inr rfl
          · exact Or.inl rfl

/-- The call returns with the completion at the head. -/
theorem Queue.answer (h : Queue s) (hne : s.cq.head ≠ s.cq.tail) (hfollows : s.Follows slot) :
    Queue ({ s with cq := s.cq.advance 1 }.answer slot (s.cq.entry evtMask 0)) := by
  have hpos := count_pos hne
  have hcount : (s.cq.advance 1).count = s.cq.count - 1 := count_advance hpos
  have hentry : ∀ j, (s.cq.advance 1).entry evtMask j = s.cq.entry evtMask (1 + j) :=
    fun j => entry_advance s.cq 1 j
  have hadvance : Queue { s with cq := s.cq.advance 1 } := by
    refine ⟨h.seq, ?_, fun _ => ?_, fun j hj hnone => ?_, fun j e hj he => ?_,
      fun i j e e' hij hj he he' => ?_, ⟨h.apart.named, h.apart.ordered⟩, fun r hr e he =>
        ⟨(h.later r hr e he).1, fun j e' hj he' => ?_⟩⟩
    · have := h.count
      dsimp only
      omega
    · have := h.count
      dsimp only
      omega
    · dsimp only at hj hnone ⊢
      rw [hentry] at hnone ⊢
      exact h.error _ (by omega) hnone
    · dsimp only at hj he ⊢
      rw [hentry] at he ⊢
      exact h.event _ e (by omega) he
    · dsimp only at hj he he'
      rw [hentry] at he he'
      exact h.sorted _ _ e e' (by omega) (by omega) he he'
    · dsimp only at hj he'
      rw [hentry] at he'
      exact (h.later r hr e he).2 _ e' (by omega) he'
  unfold State.answer
  cases hevent : (s.cq.entry evtMask 0).event with
  | none =>
    rw [if_pos (show (s.cq.entry evtMask 0).status &&& 0xFF = 0 by
      rw [(h.error 0 hpos hevent).1]; rfl)]
    refine { hadvance with apart := ⟨fun r hr hok => ?_, ?_⟩, later := fun r hr e he => ?_ }
    · rcases List.mem_cons.mp hr with rfl | hr
      · cases hok
      · exact h.apart.named r hr hok
    · exact h.apart.ordered
    · rcases List.mem_cons.mp hr with rfl | hr
      · cases he
      · exact hadvance.later r hr e he
  | some e =>
    obtain ⟨hmem, hshows⟩ := h.event 0 e hpos hevent
    rw [if_neg hshows.kind]
    refine { hadvance with apart := ⟨fun r hr hok => ?_, ?_⟩, later := fun r hr e' he' => ?_ }
    · rcases List.mem_cons.mp hr with rfl | hr
      · exact ⟨e, rfl, hmem, hshows.word, hfollows.event 0 e hpos hevent⟩
      · exact h.apart.named r hr hok
    · show List.Pairwise _ (e :: s.returned.filterMap Returned.event)
      refine List.pairwise_cons.mpr ⟨fun e' he' => ?_, h.apart.ordered⟩
      obtain ⟨r, hr, hre⟩ := List.mem_filterMap.mp he'
      exact (h.later r hr e' hre).2 0 e hpos hevent
    · rcases List.mem_cons.mp hr with rfl | hr
      · cases he'
        refine ⟨h.seq e hmem, fun j e₂ hj h₂ => ?_⟩
        change j < (s.cq.advance 1).count at hj
        have h₂' : (s.cq.entry evtMask (1 + j)).event = some e₂ := by
          rw [← hentry j]
          exact h₂
        exact h.sorted 0 _ e e₂ (by omega) (by omega) hevent h₂'
      · exact hadvance.later r hr e' he'

/-! ### The doorbell -/

theorem Queue.of_eq (h : Queue s) (harrived : t.arrived = s.arrived) (hcq : t.cq = s.cq)
    (hsub : t.sub = s.sub) (hreturned : t.returned = s.returned) : Queue t := by
  obtain ⟨caps, full, sub, arrived, sq, cq, subSource, drops, phase, returned⟩ := t
  obtain rfl := harrived
  obtain rfl := hcq
  obtain rfl := hsub
  obtain rfl := hreturned
  exact { h with apart := ⟨h.apart.named, h.apart.ordered⟩ }

/-- The doorbell, with one entry in the queue. -/
theorem drain_single {c : Ctrl} (h : s.sq.contents evtMask = [c]) :
    s.drain s.sq.count = { s.post c with sq := s.sq.advance 1 } ∧
      (s.sq.advance 1).head = (s.sq.advance 1).tail := by
  obtain ⟨hentry, hrest⟩ := entry_cons h
  rw [count_of_contents h]
  show State.drain 1 s = _ ∧ _
  unfold State.drain State.drain
  rw [hentry]
  exact ⟨rfl, contents_eq_nil.mp hrest⟩

/-- An entry that finds a clean queue is refused, or it arms the source that its slot names. -/
theorem post_sub (hsub : s.sub = none) (hfits : s.fits slot = true) :
    s.post (.sub slot) = s.finishEventErr ∨
      slot ≠ sysErr ∧ ∃ source, Kernel.sourceFor s.caps slot.toNat = some source ∧
        s.post (.sub slot) = { s with sub := some ⟨source, 0⟩ } := by
  unfold State.post
  dsimp only
  unfold State.fits at hfits
  split
  · exact Or.inl rfl
  · rename_i source hsource
    rw [hsource, Option.isNone_some, Bool.or_false, Bool.or_eq_true,
      decide_eq_true_iff] at hfits
    rcases hfits with hlt | hfull
    · have hslot : slot.toUInt32.toNat = slot.toNat := by
        rw [UInt64.toNat_toUInt32, Nat.mod_eq_of_lt hlt]
      have hne : slot ≠ sysErr := by
        rintro rfl
        exact absurd hlt (by decide)
      rw [hslot] at hsource
      rw [hsub, Option.isSome_none, Bool.false_or]
      split
      · exact Or.inl rfl
      · exact Or.inr ⟨hne, source, hsource, rfl⟩
    · rw [hfull, Bool.or_true, if_pos rfl]
      exact Or.inl rfl

/-- What is true between two steps of the run. -/
structure Inv (s : State) : Prop where
  queue : Queue s
  /-- What the kernel sends is for the slot that the shim has in mind. -/
  follows : (s.subSource ≠ sysErr ∨ ∃ slot, s.phase = .waiting slot) → s.Follows s.subSource
  unsubscribed : s.subSource = sysErr → s.sub = none
  idle : s.phase = .idle → s.sq.head = s.sq.tail
  cancelling : ∀ slot, s.phase = .cancelling slot → s.sq.contents evtMask = [.cancel]
  subscribing : ∀ slot, s.phase = .subscribing slot →
    s.sq.contents evtMask = [.sub slot] ∧ s.subSource = sysErr
  waiting : ∀ slot, s.phase = .waiting slot → s.sq.head = s.sq.tail ∧ s.subSource = slot

theorem inv_of_fresh (h : Fresh s) : Inv s := by
  have hnil : s.cq.contents evtMask = [] := contents_eq_nil.mpr h.cq
  have hcount : s.cq.count = 0 := count_of_contents hnil
  have hnone : ∀ j, ¬ j < s.cq.count := by
    intro j hj
    omega
  refine ⟨⟨?_, by omega, fun _ => by omega, fun j hj => absurd hj (hnone j),
    fun j _ hj => absurd hj (hnone j), fun _ j _ _ _ hj => absurd hj (hnone j), ⟨?_, ?_⟩, ?_⟩,
    ?_, fun _ => h.sub, fun _ => h.sq, ?_, ?_, ?_⟩
  · rw [h.arrived]
    exact nofun
  · rw [h.returned]
    exact nofun
  · rw [h.returned]
    exact List.Pairwise.nil
  · rw [h.returned]
    exact nofun
  · rintro (hne | ⟨slot, hp⟩)
    · exact absurd h.subSource hne
    · rw [h.phase] at hp
      cases hp
  · intro slot hp
    rw [h.phase] at hp
    cases hp
  · intro slot hp
    rw [h.phase] at hp
    cases hp
  · intro slot hp
    rw [h.phase] at hp
    cases hp

/-! ### Runs -/

/-- The shim writes the entry of a subscription. -/
theorem inv_push_sub (hqueue : Queue s) (hsub : s.sub = none) (hsource : s.subSource = sysErr)
    (hsq : s.sq.head = s.sq.tail) (slot : UInt64) :
    Inv (s.push (.sub slot) (.subscribing slot)) where
  queue := hqueue.of_eq rfl rfl rfl rfl
  follows := by
    rintro (hne | ⟨_, hp⟩)
    · exact absurd hsource hne
    · cases hp
  unsubscribed := fun _ => hsub
  idle := nofun
  cancelling := nofun
  subscribing := fun slot' hp => by
    cases hp
    exact ⟨push_of_empty sized_evtMask hsq _, hsource⟩
  waiting := nofun

theorem Inv.call (h : Inv s) (hp : s.phase = .idle) (hok : s.meets (.call slot) = true)
    (hnext : s.next (.call slot) = some t) : Inv t := by
  simp only [State.next, hp] at hnext
  split at hnext
  · rename_i heq
    cases hnext
    refine ⟨h.queue.of_eq rfl rfl rfl rfl, fun _ => ?_, h.unsubscribed, nofun, nofun, nofun,
      fun slot' hp' => ?_⟩
    · have hfollows : s.Follows s.subSource := by
        by_cases hne : s.subSource = sysErr
        · have hclean : s.clean slot = true := by
            simpa [State.meets, ← heq, hne] using hok
          rw [heq]
          exact follows_of_clean hclean (h.unsubscribed hne)
        · exact h.follows (Or.inl hne)
      exact ⟨hfollows.sub, hfollows.event⟩
    · cases hp'
      exact ⟨h.idle hp, heq⟩
  · split at hnext
    · rename_i hne
      cases hnext
      refine ⟨h.queue.of_eq rfl rfl rfl rfl, fun _ => ?_, h.unsubscribed, nofun,
        fun slot' hp' => push_of_empty sized_evtMask (h.idle hp) _, nofun, nofun⟩
      have hfollows := h.follows (Or.inl hne)
      exact ⟨hfollows.sub, hfollows.event⟩
    · rename_i hne
      have hsource : s.subSource = sysErr := Decidable.not_not.mp hne
      cases hnext
      exact inv_push_sub h.queue (h.unsubscribed hsource) hsource (h.idle hp) slot

/-- The doorbell of the `CANCEL` entry. -/
theorem Inv.cancel (h : Inv s) (hp : s.phase = .cancelling slot) :
    Inv ((s.drain s.sq.count).resubscribe slot) := by
  obtain ⟨hdrain, hempty⟩ := drain_single (h.cancelling slot hp)
  rw [hdrain]
  refine inv_push_sub (s := { s.post .cancel with sq := s.sq.advance 1, subSource := sysErr })
    ?_ rfl rfl hempty slot
  exact { h.queue with
    error := fun j hj hnone => ⟨(h.queue.error j hj hnone).1, rfl⟩
    apart := ⟨h.queue.apart.named, h.queue.apart.ordered⟩ }

/-- The doorbell of the entry of a subscription. -/
theorem Inv.subscribe (h : Inv s) (hp : s.phase = .subscribing slot)
    (hclean : s.clean slot = true) (hfits : s.fits slot = true) :
    Inv { s.drain s.sq.count with subSource := slot, phase := .waiting slot } := by
  obtain ⟨hsq, hsource⟩ := h.subscribing slot hp
  have hsub := h.unsubscribed hsource
  have hevents : ∀ j, j < s.cq.count → (s.cq.entry evtMask j).event ≠ none :=
    fun j hj => event_of_clean hclean hj
  have hfollows := follows_of_clean hclean hsub
  obtain ⟨hdrain, hempty⟩ := drain_single hsq
  rw [hdrain]
  rcases post_sub hsub hfits with hpost | ⟨hne, source, hnames, hpost⟩
  · rw [hpost]
    have hqueue := h.queue.finishEventErr hsub hevents
    refine ⟨hqueue.of_eq rfl rfl rfl rfl, fun _ => ⟨hfollows.sub, fun j e hj he => ?_⟩,
      fun _ => hsub, nofun, nofun, nofun, fun slot' hp' => ?_⟩
    · obtain ⟨hlt, hold, -⟩ := finishEventErr_event (h.queue.room hevents) hj he
      exact hfollows.event j e hlt hold
    · cases hp'
      exact ⟨hempty, rfl⟩
  · rw [hpost]
    refine ⟨?_, fun _ => ⟨fun sub hsome => ?_, hfollows.event⟩, fun heq => absurd heq hne, nofun,
      nofun, nofun, fun slot' hp' => ?_⟩
    · exact { h.queue with
        error := fun j hj hnone => absurd hnone (hevents j hj)
        apart := ⟨h.queue.apart.named, h.queue.apart.ordered⟩ }
    · cases hsome
      exact hnames
    · cases hp'
      exact ⟨hempty, rfl⟩

/-- An event follows the slot of the subscription that posts it. -/
theorem follows_arrive (h : s.Follows slot) (source : Nat) (sample : Input) :
    ({ s with arrived := s.arrived ++ [s.arrival source sample] }.deliver
      (s.arrival source sample)).Follows slot := by
  unfold State.deliver
  dsimp only
  split
  · exact ⟨h.sub, h.event⟩
  · rename_i sub hsub
    have hslot := h.sub sub hsub
    split
    · exact ⟨h.sub, h.event⟩
    · rename_i hsource
      split
      · refine ⟨fun sub' hsub' => ?_, h.event⟩
        cases hsub'
        exact hslot
      · rename_i hroom
        have hlt : s.cq.count < 4 :=
          Nat.lt_of_not_le fun hle => hroom (UInt32.le_iff_toNat_le.mpr hle)
        refine ⟨fun sub' hsub' => ?_, fun j e hj he => ?_⟩
        · cases hsub'
          exact hslot
        · dsimp only at hj he
          rw [count_push (lt_of_lt_of_le (Nat.succ_lt_succ hlt) (by decide))] at hj
          rcases Nat.lt_succ_iff_lt_or_eq.mp hj with hold | rfl
          · rw [entry_push_lt sized_evtMask hlt _ hold] at he
            exact h.event j e hold he
          · rw [entry_push_count] at he
            cases he
            rw [hslot, Decidable.not_not.mp hsource]

/-- An event does not subscribe. -/
theorem arrive_frame (source : Nat) (sample : Input) :
    let u := { s with arrived := s.arrived ++ [s.arrival source sample] }.deliver
      (s.arrival source sample)
    u.phase = s.phase ∧ u.subSource = s.subSource ∧ u.sq = s.sq ∧
      (s.sub = none → u.sub = none) := by
  unfold State.deliver
  dsimp only
  split
  · exact ⟨rfl, rfl, rfl, id⟩
  · rename_i sub hsub
    split
    · exact ⟨rfl, rfl, rfl, id⟩
    · split
      · exact ⟨rfl, rfl, rfl, fun hnone => absurd (hnone.symm.trans hsub) nofun⟩
      · exact ⟨rfl, rfl, rfl, fun hnone => absurd (hnone.symm.trans hsub) nofun⟩

theorem Inv.arrive (h : Inv s) (source : Nat) (sample : Input) :
    Inv ({ s with arrived := s.arrived ++ [s.arrival source sample] }.deliver
      (s.arrival source sample)) := by
  obtain ⟨hphase, hsource, hsq, hsub⟩ := arrive_frame (s := s) source sample
  refine ⟨h.queue.arrive source sample, ?_, ?_, ?_, ?_, ?_, ?_⟩
  · rw [hphase, hsource]
    exact fun hbound => follows_arrive (h.follows hbound) source sample
  · rw [hsource]
    exact fun heq => hsub (h.unsubscribed heq)
  · rw [hphase, hsq]
    exact h.idle
  · rw [hphase, hsq]
    exact h.cancelling
  · rw [hphase, hsq, hsource]
    exact h.subscribing
  · rw [hphase, hsq, hsource]
    exact h.waiting

/-- The call takes the completion at the head. After an error the shim has no slot in mind, and
the ring has no subscription. -/
theorem Inv.answer (h : Inv s) (hp : s.phase = .waiting slot) (hne : s.cq.head ≠ s.cq.tail) :
    Inv ({ s with cq := s.cq.advance 1 }.answer slot (s.cq.entry evtMask 0)) := by
  obtain ⟨hsq, hslot⟩ := h.waiting slot hp
  have hfollows := h.follows (Or.inr ⟨slot, hp⟩)
  have hfollows' : s.Follows slot := hslot ▸ hfollows
  have hqueue := h.queue.answer hne hfollows'
  have hpos := count_pos hne
  revert hqueue
  unfold State.answer
  split
  · rename_i hzero
    intro hqueue
    have hnone : (s.cq.entry evtMask 0).event = none := by
      cases hevent : (s.cq.entry evtMask 0).event with
      | none => rfl
      | some e => exact absurd hzero (h.queue.event 0 e hpos hevent).2.kind
    refine ⟨hqueue, ?_, fun _ => (h.queue.error 0 hpos hnone).2, fun _ => hsq, nofun, nofun, nofun⟩
    rintro (hbound | ⟨_, hp'⟩)
    · exact absurd rfl hbound
    · cases hp'
  · intro hqueue
    refine ⟨hqueue, fun _ => ⟨hfollows.sub, fun j e hj he => ?_⟩, h.unsubscribed, fun _ => hsq,
      nofun, nofun, nofun⟩
    have hcount : (s.cq.advance 1).count = s.cq.count - 1 := count_advance hpos
    change j < (s.cq.advance 1).count at hj
    have he' : (s.cq.entry evtMask (1 + j)).event = some e := by
      rw [← entry_advance s.cq 1 j]
      exact he
    exact hfollows.event (1 + j) e (by omega) he'

/-- `sys_ring_wait` is refused, and the call returns with nothing. -/
theorem Inv.giveUp (h : Inv s) (hp : s.phase = .waiting slot) :
    Inv (s.ret slot eventErr 0 none) := by
  obtain ⟨hsq, hslot⟩ := h.waiting slot hp
  have hfollows := h.follows (Or.inr ⟨slot, hp⟩)
  refine ⟨{ h.queue with apart := ⟨fun r hr hok => ?_, ?_⟩, later := fun r hr e he => ?_ },
    fun _ => ⟨hfollows.sub, hfollows.event⟩, h.unsubscribed, fun _ => hsq, nofun, nofun, nofun⟩
  · rcases List.mem_cons.mp hr with rfl | hr
    · cases hok
    · exact h.queue.apart.named r hr hok
  · exact h.queue.apart.ordered
  · rcases List.mem_cons.mp hr with rfl | hr
    · cases he
    · exact h.queue.later r hr e he

/-- One step. -/
theorem Inv.next {ℓ : Label} (h : Inv s) (hok : s.meets ℓ = true) (hnext : s.next ℓ = some t) :
    Inv t := by
  cases ℓ with
  | table caps =>
    cases hnext
    have hsame : Kernel.sourceFor caps s.subSource.toNat =
        Kernel.sourceFor s.caps s.subSource.toNat := of_decide_eq_true hok
    refine { h with queue := h.queue.of_eq rfl rfl rfl rfl, follows := fun hbound => ?_ }
    have hfollows := h.follows hbound
    refine ⟨fun sub hsub => ?_, fun j e hj he => ?_⟩
    · exact hsame.trans (hfollows.sub sub hsub)
    · exact hsame.trans (hfollows.event j e hj he)
  | others full =>
    cases hnext
    refine { h with queue := h.queue.of_eq rfl rfl rfl rfl, follows := fun hbound => ?_ }
    have hfollows := h.follows hbound
    exact ⟨hfollows.sub, hfollows.event⟩
  | call slot =>
    cases hp : s.phase with
    | idle => exact h.call hp hok hnext
    | cancelling | subscribing | waiting =>
      simp only [State.next, hp] at hnext
      cases hnext
  | submit =>
    simp only [State.next] at hnext
    split at hnext
    · rename_i slot hp
      cases hnext
      exact h.cancel hp
    · rename_i slot hp
      cases hnext
      simp only [State.meets, hp, Bool.and_eq_true] at hok
      exact h.subscribe hp hok.1 hok.2
    · cases hnext
  | reap =>
    simp only [State.next] at hnext
    split at hnext
    · rename_i slot hp
      split at hnext
      · cases hnext
      · rename_i hne
        cases hnext
        exact h.answer hp hne
    · cases hnext
  | refuse =>
    cases hp : s.phase with
    | waiting slot =>
      simp only [State.next, hp] at hnext
      split at hnext
      · cases hnext
        exact h.giveUp hp
      · cases hnext
    | idle | cancelling | subscribing =>
      simp only [State.meets, hp] at hok
      cases hok
  | arrive source sample =>
    cases hnext
    exact h.arrive source sample

/-- In every run in which a call that subscribes meets a clean queue, with a slot that has room in
the entry, in which the slot of the subscription keeps its source and no doorbell is refused, a
call returns only events of the source that its slot names, in the order in which they arrived. -/
theorem events_apart {s : State} (hs : Reachable system (fun s ℓ => s.meets ℓ = true) s) :
    s.Apart :=
  (hs.invariant (I := Inv) (fun _ => inv_of_fresh)
    fun _ _ _ _ ih hok hnext => ih.next hok hnext).queue.apart

/-- A process with the sources 0 and 1 in the slots 0 and 1, or the other way round. -/
def twoSources (keyboard mouse : Nat) : CapTable where
  slots := fun k =>
    if k = 0 then some ⟨.eventSource keyboard, rightRead, none⟩
    else if k = 1 then some ⟨.eventSource mouse, rightRead, none⟩
    else none
  reserved := fun _ => false

/-- A fresh ring. -/
def start : State where
  caps := twoSources 0 1
  full := false
  sub := none
  arrived := []
  sq := ⟨fun _ => .cancel, 0, 0⟩
  cq := ⟨fun _ => ⟨0, none⟩, 0, 0⟩
  subSource := sysErr
  drops := 0
  phase := .idle
  returned := []

theorem fresh_start : Fresh start := ⟨rfl, rfl, rfl, rfl, rfl, rfl, rfl⟩

/-- A key, and after a switch a packet of the mouse. -/
theorem events_apart_switch : (system.runFrom start
    [.call 0, .submit, .arrive 0 (.key 0x1E), .reap, .call 1, .submit, .submit,
      .arrive 1 (.mouseMove 1 2 0), .reap]).Apart :=
  events_apart (Reachable.runFrom ⟨_, .start fresh_start⟩ (by decide +kernel))

/-- A call that returned an event of another source. -/
theorem not_apart {s : State} {r : Returned} {e : Arrival} (hmem : r ∈ s.returned)
    (hok : r.status = eventOk) (he : r.event = some e)
    (hne : Kernel.sourceFor r.caps r.slot.toNat ≠ some e.source) : ¬ s.Apart := by
  intro h
  obtain ⟨e', he', -, -, hsource⟩ := h.named r hmem hok
  rw [he] at he'
  cases he'
  exact hne hsource

/-- Four runs, each without one part of the condition. The second key is returned for the mouse;
the slot 2^32 is read as 0; the slot names another source than the subscription; and the entry of
a refused doorbell arms the keyboard for a call that names the mouse. -/
theorem events_mixed :
    (∃ s r e rest, Reachable system always s ∧ s.returned = r :: rest ∧ r.slot = 1 ∧
      r.event = some e ∧ e = ⟨1, 0, .key 0x30⟩ ∧ ¬ s.Apart) ∧
    (∃ s r e, Reachable system always s ∧ s.returned = [r] ∧ r.slot = 0x100000000 ∧
      r.event = some e ∧ ¬ s.Apart) ∧
    (∃ s r e, Reachable system always s ∧ s.returned = [r] ∧ r.caps = twoSources 1 0 ∧
      r.slot = 0 ∧ r.event = some e ∧ e.source = 0 ∧ ¬ s.Apart) ∧
    ∃ s r e rest, Reachable system always s ∧ s.returned = r :: rest ∧ r.slot = 1 ∧
      r.event = some e ∧ e.source = 0 ∧ ¬ s.Apart := by
  refine ⟨?_, ?_, ?_, ?_⟩
  · have hret : (system.runFrom start [.call 0, .submit, .arrive 0 (.key 0x1E),
        .arrive 0 (.key 0x30), .reap, .call 1, .submit, .submit, .reap]).returned =
          [⟨twoSources 0 1, 1, 0, 0x1003001, some ⟨1, 0, .key 0x30⟩⟩,
            ⟨twoSources 0 1, 0, 0, 0x1001E01, some ⟨0, 0, .key 0x1E⟩⟩] := by decide +kernel
    exact ⟨_, _, _, _, ⟨_, system.run fresh_start _⟩, hret, rfl, rfl, rfl,
      not_apart (by rw [hret]; exact List.mem_cons_self) rfl rfl (by decide +kernel)⟩
  · have hret : (system.runFrom start [.call 0x100000000, .submit, .arrive 0 (.key 0x1E),
        .reap]).returned = [⟨twoSources 0 1, 0x100000000, 0, 0x1001E01,
          some ⟨0, 0, .key 0x1E⟩⟩] := by decide +kernel
    exact ⟨_, _, _, ⟨_, system.run fresh_start _⟩, hret, rfl, rfl,
      not_apart (by rw [hret]; exact List.mem_cons_self) rfl rfl (by decide +kernel)⟩
  · have hret : (system.runFrom start [.call 0, .submit, .table (twoSources 1 0),
        .arrive 0 (.key 0x1E), .reap]).returned = [⟨twoSources 1 0, 0, 0, 0x1001E01,
          some ⟨0, 0, .key 0x1E⟩⟩] := by decide +kernel
    exact ⟨_, _, _, ⟨_, system.run fresh_start _⟩, hret, rfl, rfl, rfl, rfl,
      not_apart (by rw [hret]; exact List.mem_cons_self) rfl rfl (by decide +kernel)⟩
  · have hret : (system.runFrom start [.call 0, .refuse, .call 1, .submit, .reap,
        .arrive 0 (.key 0x1E), .call 1, .submit, .reap]).returned =
          [⟨twoSources 0 1, 1, 0, 0x1001E01, some ⟨0, 0, .key 0x1E⟩⟩,
            ⟨twoSources 0 1, 1, 1, 0, none⟩, ⟨twoSources 0 1, 0, 1, 0, none⟩] := by
      decide +kernel
    exact ⟨_, _, _, _, ⟨_, system.run fresh_start _⟩, hret, rfl, rfl, rfl,
      not_apart (by rw [hret]; exact List.mem_cons_self) rfl rfl (by decide +kernel)⟩

end EventShim

end Plinth
