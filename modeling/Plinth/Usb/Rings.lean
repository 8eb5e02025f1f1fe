import Plinth.Common.CycleRing
import Plinth.Common.Transition
import Plinth.Usb.Trb

/-!
# `Plinth.Usb.Rings`: the rings of the xHCI driver

`ProducerRing` and `EventRing` of `kernel/src/xhci.rs`, each with a controller that follows the
specification on the other side. The driver and the controller share nothing but the slots: a cycle
bit in each entry tells whose it is.

`Producing` is the driver that pushes and the controller that consumes and follows the link in the
last slot. `Consuming` is the controller that writes events and the driver that polls. `rings_exact`
says that what comes out is what went in.
-/

set_option autoImplicit false

namespace Plinth

open Transition CycleRing

namespace Usb

/-- The slots of a ring segment. -/
abbrev Segment := Nat → Trb

/-! ### The rings of the driver -/

/-- `ProducerRing`. -/
structure ProducerRing where
  cap : Nat
  basePhys : UInt64
  enqueue : Nat
  pcs : Bool
  deriving DecidableEq, Repr

namespace ProducerRing

/-- `new`. It asserts that there is a slot besides the link. -/
def new (cap : Nat) (basePhys : UInt64) (slots : Segment) : Option (Segment × ProducerRing) :=
  if 2 ≤ cap then
    let zeroed : Segment := fun i => if i < cap then Trb.zeroed else slots i
    some (Function.update zeroed (cap - 1) (Trb.link basePhys true), ⟨cap, basePhys, 0, true⟩)
  else none

/-- `push`. -/
def push (r : ProducerRing) (slots : Segment) (trb : Trb) : UInt64 × Segment × ProducerRing :=
  let idx := r.enqueue
  let slots := Function.update slots idx (trb.setCycle r.pcs)
  let addr := r.basePhys + UInt64.ofNat idx * 16
  if idx + 1 = r.cap - 1 then
    -- The link gets the bit of the lap that ends here.
    let link := slots (r.cap - 1)
    (addr, Function.update slots (r.cap - 1) (link.setCycle r.pcs),
      { r with enqueue := 0, pcs := !r.pcs })
  else (addr, slots, { r with enqueue := idx + 1 })

end ProducerRing

/-- `EventRing`. -/
structure EventRing where
  len : Nat
  dequeue : Nat
  ccs : Bool
  deriving DecidableEq, Repr

namespace EventRing

/-- `new`. -/
def new (len : Nat) : Option EventRing := if 1 ≤ len then some ⟨len, 0, true⟩ else none

/-- `poll`. -/
def poll (r : EventRing) (slots : Segment) : Option Trb × EventRing :=
  let trb := slots r.dequeue
  if trb.cycle ≠ r.ccs then (none, r)
  else if r.dequeue + 1 = r.len then (some trb, { r with dequeue := 0, ccs := !r.ccs })
  else (some trb, { r with dequeue := r.dequeue + 1 })

end EventRing

/-! ### A controller that consumes -/

/-- The slot that an address names. -/
def slotAt (basePhys : UInt64) (cap : Nat) (addr : UInt64) : Option Nat :=
  let offset := (addr - basePhys).toNat
  if offset % 16 = 0 ∧ offset / 16 < cap then some (offset / 16) else none

/-- One step of a controller that consumes. Its cursor is the dequeue pointer with the consumer
cycle state. It does not take an entry whose cycle bit is not its cycle state. It follows a link,
and it takes any other entry. -/
def controllerStep (basePhys : UInt64) (cap : Nat) (slots : Segment) (c : Cursor) :
    Option (Cursor × Option Trb) :=
  let trb := slots c.index
  if trb.cycle ≠ c.cycle then none
  else if trb.trbType = TrbType.link.code then
    (slotAt basePhys cap trb.param).map fun index =>
      (⟨index, if trb.toggle then !c.cycle else c.cycle⟩, none)
  else some (⟨c.index + 1, c.cycle⟩, some trb)

/-- The driver and a controller on a producer ring, with what was pushed and what was seen. -/
structure Producing where
  ring : ProducerRing
  slots : Segment
  controller : Cursor
  pushed : List Trb
  seen : List Trb

namespace Producing

/-- What happens on the ring. -/
inductive Move where
  | push (trb : Trb)
  | consume
  deriving DecidableEq, Repr

/-- One step of the controller on this ring. -/
def step (s : Producing) : Option (Cursor × Option Trb) :=
  controllerStep s.ring.basePhys s.ring.cap s.slots s.controller

/-- The state after a move. -/
def next (s : Producing) : Move → Option Producing
  | .push trb =>
    let r := s.ring.push s.slots trb
    some { s with slots := r.2.1, ring := r.2.2, pushed := s.pushed ++ [trb] }
  | .consume => s.step.map fun r =>
    { s with controller := r.1, seen := s.seen ++ r.2.toList }

/-- The ring is new, and the controller starts at its first slot. -/
def system : System Producing Move where
  init s := ∃ cap basePhys before slots ring, 3 ≤ cap ∧
    ProducerRing.new cap basePhys before = some (slots, ring) ∧
      s = ⟨ring, slots, Cursor.start, [], []⟩
  next := next

/-- After the move at most `cap - 2` TRBs are outstanding, and what is pushed is work. -/
def Fits (s : Producing) : Move → Prop
  | .push trb => s.pushed.length + 1 ≤ s.seen.length + (s.ring.cap - 2) ∧
    trb.trbType ≠ TrbType.link.code
  | .consume => True

instance (s : Producing) : (m : Move) → Decidable (s.Fits m)
  | .push _ => inferInstanceAs (Decidable (_ ∧ _))
  | .consume => inferInstanceAs (Decidable True)

/-- The TRB that the controller sees next, after the link if it stands there. -/
def fetch (s : Producing) : Option Trb :=
  s.step.bind fun r =>
    r.2.or ((controllerStep s.ring.basePhys s.ring.cap s.slots r.1).bind fun r => r.2)

/-- What the controller saw is what was pushed, in order, and it sees the next one. The link is as
the protocol wants it: it points back and toggles, and its bit is the one that a controller has who
is a lap behind the driver. -/
structure Exact (s : Producing) : Prop where
  order : s.seen.map Trb.payload = (s.pushed.take s.seen.length).map Trb.payload
  next : s.fetch.map Trb.payload = (s.pushed[s.seen.length]?).map Trb.payload
  link : s.slots (s.ring.cap - 1) = (Trb.link s.ring.basePhys true).setCycle (!s.ring.pcs)
  follows : s.controller.index = s.ring.cap - 1 →
    (s.slots (s.ring.cap - 1)).cycle = s.controller.cycle

end Producing

/-! ### A controller that writes events -/

/-- A controller and the driver on an event ring, with what was written and what was popped. -/
structure Consuming where
  ring : EventRing
  slots : Segment
  controller : Cursor
  written : List Trb
  popped : List Trb

namespace Consuming

/-- What happens on the ring. -/
inductive Move where
  | write (event : Trb)
  | poll
  deriving DecidableEq, Repr

/-- The state after a move. The controller stamps its event with its cycle state. -/
def next (s : Consuming) : Move → Option Consuming
  | .write event =>
    let trb := event.setCycle s.controller.cycle
    some { s with
      slots := Function.update s.slots s.controller.index trb
      controller := s.controller.advance s.ring.len
      written := s.written ++ [trb] }
  | .poll =>
    let r := s.ring.poll s.slots
    some { s with ring := r.2, popped := s.popped ++ r.1.toList }

/-- The ring is new and its slots are zeroed. -/
def system : System Consuming Move where
  init s := ∃ len ring slots, EventRing.new len = some ring ∧
    (∀ i, i < len → slots i = Trb.zeroed) ∧ s = ⟨ring, slots, Cursor.start, [], []⟩
  next := next

/-- The controller does not write over an unread event. -/
def Fits (s : Consuming) : Move → Prop
  | .write _ => s.written.length < s.popped.length + s.ring.len
  | .poll => True

instance (s : Consuming) : (m : Move) → Decidable (s.Fits m)
  | .write _ => inferInstanceAs (Decidable (_ < _))
  | .poll => inferInstanceAs (Decidable True)

/-- What was popped is what was written, in order, and the next poll pops the next one. -/
structure Exact (s : Consuming) : Prop where
  order : s.popped = s.written.take s.popped.length
  next : (s.ring.poll s.slots).1 = s.written[s.popped.length]?

end Consuming

/-! ### The producer ring -/

namespace Producing

variable {s t : Producing} {m : Move}

/-- The number of slots for work. -/
def room (s : Producing) : Nat := s.ring.cap - 1

/-- The controller stands at the slot of the next TRB, or at the link before it. -/
def Stands (s : Producing) : Prop :=
  s.controller = Cursor.after s.room s.seen.length ∨
    s.controller = ⟨s.room, !(Cursor.after s.room s.seen.length).cycle⟩ ∧
      (Cursor.after s.room s.seen.length).index = 0

/-- The slots hold the stamped TRBs, and the driver and the controller stand where their counts
say. -/
structure Good (s : Producing) (log : List Trb) : Prop where
  cap : 3 ≤ s.ring.cap
  laid : Laid Trb.cycle s.room s.slots log
  pushed : log.map Trb.payload = s.pushed.map Trb.payload
  work : ∀ trb ∈ log, trb.trbType ≠ TrbType.link.code
  driver : (⟨s.ring.enqueue, s.ring.pcs⟩ : Cursor) = Cursor.after s.room log.length
  link : s.slots s.room = (Trb.link s.ring.basePhys true).setCycle (!s.ring.pcs)
  seen : s.seen = log.take s.seen.length
  behind : s.seen.length ≤ log.length
  near : log.length + 1 ≤ s.seen.length + s.room
  stands : s.Stands

theorem good_init (h : system.init s) : s.Good [] := by
  obtain ⟨cap, basePhys, before, slots, ring, hcap, hnew, rfl⟩ := h
  unfold ProducerRing.new at hnew
  rw [if_pos (by omega)] at hnew
  cases hnew
  exact {
    cap := hcap
    laid := by
      refine Laid.nil fun i hi => ?_
      have hi : i < cap - 1 := hi
      dsimp only
      rw [Function.update_of_ne (by omega), if_pos (by omega)]
      rfl
    pushed := rfl
    work := fun _ h => nomatch h
    driver := (Cursor.after_zero _).symm
    link := by
      unfold room
      dsimp only
      rw [Function.update_self]
      exact (Trb.setCycle_link basePhys).symm
    seen := rfl
    behind := Nat.le_refl _
    near := by
      show 0 + 1 ≤ 0 + (cap - 1)
      omega
    stands := Or.inl (Cursor.after_zero _).symm }

section

variable {log : List Trb} (h : s.Good log)
include h

theorem Good.room_pos : 0 < s.room := by
  have hcap := h.cap
  unfold room
  omega

theorem Good.length : log.length = s.pushed.length := by
  have hlen := congrArg List.length h.pushed
  rw [List.length_map, List.length_map] at hlen
  exact hlen

theorem Good.pcs : s.ring.pcs = (Cursor.after s.room log.length).cycle :=
  congrArg Cursor.cycle h.driver

/-! ### What the controller does -/

/-- At a slot for work it takes the next TRB if there is one. -/
theorem Good.step_slot (hat : s.controller = Cursor.after s.room s.seen.length) :
    s.step = (log[s.seen.length]?).map fun trb =>
      (⟨s.controller.index + 1, s.controller.cycle⟩, some trb) := by
  have hready := h.laid.ready h.room_pos h.behind (by have := h.near; omega)
  unfold step controllerStep
  dsimp only
  rw [hat]
  by_cases hlt : s.seen.length < log.length
  · have hentry := h.laid.entry hlt (by have := h.near; omega)
    have hmem := List.mem_of_getElem? hentry
    rw [if_neg (fun hne => hne (hready.mpr hlt)), if_neg (h.work _ hmem), hentry]
    rfl
  · rw [if_pos (fun heq => hlt (hready.mp heq)), List.getElem?_eq_none (by omega)]
    rfl

/-- The link has the bit of the controller that stands there. -/
theorem Good.link_cycle (hopen : (Cursor.after s.room s.seen.length).index = 0) :
    (s.slots s.room).cycle = !(Cursor.after s.room s.seen.length).cycle := by
  rw [h.link, Trb.cycle_setCycle, h.pcs,
    Cursor.after_cycle_of_lap hopen h.behind (by have := h.near; omega)]

/-- At the link it turns to the next lap. -/
theorem Good.step_link
    (hat : s.controller = ⟨s.room, !(Cursor.after s.room s.seen.length).cycle⟩)
    (hopen : (Cursor.after s.room s.seen.length).index = 0) :
    s.step = some (Cursor.after s.room s.seen.length, none) := by
  obtain ⟨htype, htoggle, hparam, -⟩ := Trb.link_fields s.ring.basePhys
  have hslot : slotAt s.ring.basePhys s.ring.cap s.ring.basePhys = some 0 := by
    have hcap := h.cap
    unfold slotAt
    rw [UInt64.sub_self]
    exact if_pos ⟨rfl, by show 0 < s.ring.cap; omega⟩
  unfold step controllerStep
  dsimp only
  rw [hat]
  dsimp only
  rw [if_neg (fun hne => hne (h.link_cycle hopen)), h.link, Trb.trbType_setCycle, if_pos htype,
    Trb.param_setCycle, hparam, hslot, Trb.toggle_setCycle, htoggle, if_pos rfl, Bool.not_not,
    Option.map_some, ← hopen]

/-! ### Moves -/

/-- A push with room. -/
theorem Good.push {trb : Trb} (hnext : s.next (.push trb) = some t) (hfits : s.Fits (.push trb)) :
    t.Good (log ++ [trb.setCycle s.ring.pcs]) := by
  obtain ⟨hroom, hwork⟩ := hfits
  have hcap := h.cap
  have hlen := h.length
  have hidx := Cursor.after_index_lt h.room_pos log.length
  have hadvance := Cursor.advance_after h.room_pos log.length
  have hlay := h.laid.lay (x := trb.setCycle s.ring.pcs) (by rw [Trb.cycle_setCycle, h.pcs])
  rw [← h.driver] at hidx hadvance hlay
  have hne : s.room ≠ s.ring.enqueue := by
    intro heq
    dsimp only at hidx
    omega
  -- What the push leaves alone.
  have hkeep : ∀ slots ring, ring.cap = s.ring.cap → ring.basePhys = s.ring.basePhys →
      Laid Trb.cycle s.room slots (log ++ [trb.setCycle s.ring.pcs]) →
      (⟨ring.enqueue, ring.pcs⟩ : Cursor) = Cursor.after s.room (log.length + 1) →
      slots s.room = (Trb.link s.ring.basePhys true).setCycle (!ring.pcs) →
      Good { s with slots := slots, ring := ring, pushed := s.pushed ++ [trb] }
        (log ++ [trb.setCycle s.ring.pcs]) := by
    intro slots ring hsame hbase hlaid hdriver hlink
    have hsameRoom : room { s with slots := slots, ring := ring, pushed := s.pushed ++ [trb] } =
        s.room := by
      unfold room
      rw [hsame]
    exact {
      cap := by rw [hsame]; exact hcap
      laid := by rw [hsameRoom]; exact hlaid
      pushed := by
        rw [List.map_append, List.map_append, h.pushed]
        simp
      work := by
        intro x hx
        rcases List.mem_append.mp hx with hx | hx
        · exact h.work x hx
        · rw [List.mem_singleton.mp hx, Trb.trbType_setCycle]
          exact hwork
      driver := by rw [hsameRoom, List.length_append]; exact hdriver
      link := by rw [hsameRoom, hbase]; exact hlink
      seen := by rw [List.take_append_of_le_length h.behind]; exact h.seen
      behind := by
        rw [List.length_append]
        have := h.behind
        dsimp only
        omega
      near := by
        rw [hsameRoom, List.length_append, List.length_singleton]
        unfold room
        dsimp only
        omega
      stands := by
        have hstands := h.stands
        unfold Stands at hstands ⊢
        rw [hsameRoom]
        exact hstands }
  have hnext : some _ = some t := hnext
  cases hnext
  unfold ProducerRing.push
  dsimp only
  split
  · rename_i hend
    -- The link takes the place of the last slot.
    refine hkeep _ _ rfl rfl ?_ ?_ ?_
    · refine hlay.congr h.room_pos fun i hi => ?_
      exact Function.update_of_ne (Nat.ne_of_lt hi) _ _
    · rw [← hadvance]
      unfold Cursor.advance
      exact (if_pos hend).symm
    · show Function.update _ (s.ring.cap - 1) _ s.room = _
      rw [show s.ring.cap - 1 = s.room from rfl, Function.update_self, Function.update_of_ne hne,
        h.link, Trb.setCycle_setCycle, Bool.not_not]
  · rename_i hend
    refine hkeep _ _ rfl rfl hlay ?_ ?_
    · rw [← hadvance]
      unfold Cursor.advance
      exact (if_neg hend).symm
    · dsimp only
      rw [Function.update_of_ne hne]
      exact h.link

/-- A step of the controller. -/
theorem Good.consume (hnext : s.next .consume = some t) : t.Good log := by
  have hnext : s.step.map _ = some t := hnext
  obtain ⟨r, hstep, rfl⟩ := Option.map_eq_some_iff.mp hnext
  rcases h.stands with hat | ⟨hat, hopen⟩
  · rw [h.step_slot hat] at hstep
    obtain ⟨trb, hentry, rfl⟩ := Option.map_eq_some_iff.mp hstep
    have hlt : s.seen.length < log.length := (List.getElem?_eq_some_iff.mp hentry).1
    have hadvance := Cursor.advance_after h.room_pos s.seen.length
    exact { h with
      seen := by
        show s.seen ++ [trb] = log.take (s.seen ++ [trb]).length
        rw [List.length_append, List.length_singleton, List.take_add_one, hentry, ← h.seen]
        rfl
      behind := by
        show (s.seen ++ [trb]).length ≤ log.length
        rw [List.length_append, List.length_singleton]
        omega
      near := by
        show log.length + 1 ≤ (s.seen ++ [trb]).length + s.room
        rw [List.length_append, List.length_singleton]
        have := h.near
        omega
      stands := by
        show (⟨s.controller.index + 1, s.controller.cycle⟩ : Cursor) =
            Cursor.after s.room (s.seen ++ [trb]).length ∨ _ =
              (⟨s.room, !(Cursor.after s.room (s.seen ++ [trb]).length).cycle⟩ : Cursor) ∧
            (Cursor.after s.room (s.seen ++ [trb]).length).index = 0
        rw [List.length_append, List.length_singleton, hat, ← hadvance]
        unfold Cursor.advance
        split
        · rename_i hend
          refine Or.inr ⟨?_, rfl⟩
          rw [hend, Bool.not_not]
        · exact Or.inl rfl }
  · rw [h.step_link hat hopen] at hstep
    cases hstep
    have hsame : s.seen ++ [] = s.seen := List.append_nil _
    exact { h with
      seen := by
        show s.seen ++ [] = log.take (s.seen ++ []).length
        rw [hsame]
        exact h.seen
      behind := by
        show (s.seen ++ []).length ≤ _
        rw [hsame]
        exact h.behind
      near := by
        show _ ≤ (s.seen ++ []).length + s.room
        rw [hsame]
        exact h.near
      stands := by
        refine Or.inl ?_
        show _ = Cursor.after s.room (s.seen ++ []).length
        rw [hsame] }

/-! ### What the controller sees -/

theorem Good.fetch : s.fetch = log[s.seen.length]? := by
  unfold Producing.fetch
  rcases h.stands with hat | ⟨hat, hopen⟩
  · rw [h.step_slot hat]
    cases log[s.seen.length]? with
    | none => rfl
    | some trb => rfl
  · have hgood : Good { s with controller := Cursor.after s.room s.seen.length } log :=
      { h with stands := Or.inl rfl }
    have hslot := hgood.step_slot rfl
    rw [h.step_link hat hopen]
    show (step { s with controller := Cursor.after s.room s.seen.length }).bind _ = _
    rw [hslot]
    show ((log[s.seen.length]?).map _).bind _ = _
    cases log[s.seen.length]? with
    | none => rfl
    | some trb => rfl

theorem Good.exact : s.Exact where
  order := by
    have hseen := congrArg (List.map Trb.payload) h.seen
    rw [List.map_take, h.pushed, ← List.map_take] at hseen
    exact hseen
  next := by
    rw [h.fetch, ← List.getElem?_map, h.pushed, List.getElem?_map]
  link := h.link
  follows hindex := by
    rcases h.stands with hat | ⟨hat, hopen⟩
    · have hlt := Cursor.after_index_lt h.room_pos s.seen.length
      rw [← hat] at hlt
      exact absurd hindex (Nat.ne_of_lt hlt)
    · rw [hat]
      exact h.link_cycle hopen

end

theorem good_of_reachable (hs : Reachable system Fits s) : ∃ log, s.Good log := by
  refine hs.invariant (I := fun s => ∃ log, s.Good log) (fun s hinit => ⟨[], good_init hinit⟩) ?_
  rintro s m t - ⟨log, h⟩ hfits hnext
  cases m with
  | push trb => exact ⟨_, h.push hnext hfits⟩
  | consume => exact ⟨log, h.consume hnext⟩

end Producing

/-! ### The event ring -/

namespace Consuming

variable {s t : Consuming} {m : Move}

/-- The slots hold the written events, and the controller and the driver stand where their counts
say. -/
structure Good (s : Consuming) : Prop where
  len : 0 < s.ring.len
  laid : Laid Trb.cycle s.ring.len s.slots s.written
  controller : s.controller = Cursor.after s.ring.len s.written.length
  driver : (⟨s.ring.dequeue, s.ring.ccs⟩ : Cursor) = Cursor.after s.ring.len s.popped.length
  popped : s.popped = s.written.take s.popped.length
  behind : s.popped.length ≤ s.written.length
  near : s.written.length ≤ s.popped.length + s.ring.len

theorem good_init (h : system.init s) : s.Good := by
  obtain ⟨len, ring, slots, hnew, hzero, rfl⟩ := h
  unfold EventRing.new at hnew
  split at hnew
  · rename_i hlen
    cases hnew
    exact {
      len := hlen
      laid := by
        refine Laid.nil fun i hi => ?_
        dsimp only
        rw [hzero i hi]
        rfl
      controller := (Cursor.after_zero _).symm
      driver := (Cursor.after_zero _).symm
      popped := rfl
      behind := Nat.le_refl _
      near := Nat.zero_le _ }
  · cases hnew

/-- What a poll finds. -/
theorem Good.poll (h : s.Good) :
    (s.ring.poll s.slots).1 = s.written[s.popped.length]? ∧
      (s.ring.poll s.slots).2.len = s.ring.len ∧
        (⟨(s.ring.poll s.slots).2.dequeue, (s.ring.poll s.slots).2.ccs⟩ : Cursor) =
          Cursor.after s.ring.len
            (s.popped.length + (s.written[s.popped.length]?).toList.length) := by
  have hdequeue : s.ring.dequeue = (Cursor.after s.ring.len s.popped.length).index :=
    congrArg Cursor.index h.driver
  have hccs : s.ring.ccs = (Cursor.after s.ring.len s.popped.length).cycle :=
    congrArg Cursor.cycle h.driver
  have hready := h.laid.ready h.len h.behind h.near
  have hadvance := Cursor.advance_after h.len s.popped.length
  rw [← hdequeue, ← hccs] at hready
  rw [← h.driver] at hadvance
  unfold EventRing.poll
  dsimp only
  by_cases hlt : s.popped.length < s.written.length
  · have hentry := h.laid.entry hlt h.near
    rw [← hdequeue] at hentry
    rw [if_neg (fun hne => hne (hready.mpr hlt)), hentry]
    unfold Cursor.advance at hadvance
    split
    · rename_i hend
      rw [if_pos hend] at hadvance
      exact ⟨rfl, rfl, hadvance⟩
    · rename_i hend
      rw [if_neg hend] at hadvance
      exact ⟨rfl, rfl, hadvance⟩
  · rw [if_pos (fun heq => hlt (hready.mp heq)), List.getElem?_eq_none (by omega)]
    exact ⟨rfl, rfl, h.driver⟩

theorem Good.next (h : s.Good) (hfits : s.Fits m) (hnext : s.next m = some t) : t.Good := by
  cases m with
  | write event =>
    have hfits : s.written.length < s.popped.length + s.ring.len := hfits
    have hnext : some _ = some t := hnext
    cases hnext
    have hlay := h.laid.lay (x := event.setCycle s.controller.cycle)
      (by rw [Trb.cycle_setCycle, h.controller])
    rw [← h.controller] at hlay
    exact {
      len := h.len
      laid := hlay
      controller := by
        show s.controller.advance s.ring.len = _
        rw [h.controller, Cursor.advance_after h.len, List.length_append]
        rfl
      driver := h.driver
      popped := by
        show s.popped = (s.written ++ _).take _
        rw [List.take_append_of_le_length h.behind]
        exact h.popped
      behind := by
        have := h.behind
        rw [List.length_append]
        dsimp only
        omega
      near := by
        rw [List.length_append, List.length_singleton]
        dsimp only
        omega }
  | poll =>
    obtain ⟨hfound, hlen, hdriver⟩ := h.poll
    have hnext : some _ = some t := hnext
    cases hnext
    rw [hfound]
    generalize (s.ring.poll s.slots).2 = ring at hlen hdriver ⊢
    have hpopped : s.popped ++ (s.written[s.popped.length]?).toList =
        s.written.take (s.popped.length + 1) := by
      rw [List.take_add_one, ← h.popped]
    have hcount : (s.popped ++ (s.written[s.popped.length]?).toList).length ≤ s.written.length := by
      rw [hpopped]
      exact List.length_take_le' ..
    exact {
      len := by rw [hlen]; exact h.len
      laid := by rw [hlen]; exact h.laid
      controller := by rw [hlen]; exact h.controller
      driver := by
        rw [hlen, List.length_append]
        exact hdriver
      popped := by
        show s.popped ++ _ = s.written.take (s.popped ++ _).length
        rw [hpopped, List.length_take]
        rcases Nat.le_total (s.popped.length + 1) s.written.length with hle | hle
        · rw [Nat.min_eq_left hle]
        · rw [Nat.min_eq_right hle, List.take_of_length_le hle, List.take_length]
      behind := hcount
      near := by
        have := h.near
        rw [hlen, List.length_append]
        dsimp only
        omega }

theorem good_of_reachable (hs : Reachable system Fits s) : s.Good :=
  hs.invariant (fun _ hinit => good_init hinit) fun _ _ _ _ h hfits hnext => h.next hfits hnext

end Consuming

/-- What the controller sees on a producer ring is what the driver pushed, and what the driver pops
from an event ring is what the controller wrote: in order, each once, however often the rings
wrap. -/
theorem rings_exact :
    (∀ s, Reachable Producing.system Producing.Fits s → s.Exact) ∧
      ∀ s, Reachable Consuming.system Consuming.Fits s → s.Exact := by
  refine ⟨fun s hs => ?_, fun s hs => ?_⟩
  · obtain ⟨log, h⟩ := Producing.good_of_reachable hs
    exact h.exact
  · have h := Consuming.good_of_reachable hs
    exact ⟨h.popped, h.poll.1⟩

/-- A new ring of two slots and a link. -/
def Producing.twoSlots : Producing where
  ring := ⟨3, 0x1000, 0, true⟩
  slots := Function.update (fun _ => Trb.zeroed) 2 (Trb.link 0x1000 true)
  controller := Cursor.start
  pushed := []
  seen := []

/-- Five commands pass, and the controller follows the link twice. -/
def Producing.twoLaps : List Producing.Move :=
  [.push Trb.enableSlot, .consume, .push (Trb.addressDevice 0x2000 1 false), .consume,
    .push (Trb.configureEndpoint 0x2000 1), .consume, .consume, .push Trb.enableSlot, .consume,
    .consume, .push (Trb.addressDevice 0x3000 2 false), .consume]

/-- A new event ring of one slot. -/
def Consuming.oneSlot : Consuming where
  ring := ⟨1, 0, true⟩
  slots := fun _ => Trb.zeroed
  controller := Cursor.start
  written := []
  popped := []

/-- Three events, each in another lap. -/
def Consuming.threeLaps : List Consuming.Move :=
  [.poll, .write ⟨0x1000, 0, 0⟩, .poll, .poll, .write ⟨0x1010, 0, 0⟩, .poll, .write ⟨0, 0, 1⟩]

theorem rings_exact_wrapped :
    (∃ s, Reachable Producing.system Producing.Fits s ∧ s.seen.length = 5 ∧
      s.controller = ⟨1, true⟩ ∧ s.Exact) ∧
    ∃ s, Reachable Consuming.system Consuming.Fits s ∧ s.popped.length = 2 ∧
      s.written.length = 3 ∧ s.Exact := by
  have hnew : ProducerRing.new 3 0x1000 (fun _ => Trb.zeroed) =
      some (Producing.twoSlots.slots, ⟨3, 0x1000, 0, true⟩) := by
    unfold ProducerRing.new
    simp only [ite_self]
    rfl
  have hproducing : Reachable Producing.system (fun s m => decide (s.Fits m) = true)
      Producing.twoSlots :=
    ⟨[], .start ⟨3, 0x1000, fun _ => Trb.zeroed, _, _, by decide, hnew, rfl⟩⟩
  have hconsuming : Reachable Consuming.system (fun s m => decide (s.Fits m) = true)
      Consuming.oneSlot :=
    ⟨[], .start ⟨1, _, fun _ => Trb.zeroed, rfl, fun _ _ => rfl, rfl⟩⟩
  have hlaps : Producing.system.follows (fun s m => decide (s.Fits m)) Producing.twoSlots
      Producing.twoLaps = true := by decide +kernel
  have hevents : Consuming.system.follows (fun s m => decide (s.Fits m)) Consuming.oneSlot
      Consuming.threeLaps = true := by decide +kernel
  have hs := (hproducing.runFrom hlaps).mono fun _ _ h => of_decide_eq_true h
  have ht := (hconsuming.runFrom hevents).mono fun _ _ h => of_decide_eq_true h
  exact ⟨⟨_, hs, by decide +kernel, by decide +kernel, rings_exact.1 _ hs⟩, _, ht,
    by decide +kernel, by decide +kernel, rings_exact.2 _ ht⟩

end Usb

end Plinth
