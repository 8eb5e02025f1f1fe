import Plinth.Queues.Virtqueue

/-!
# `Plinth.Queues.Demux`: every request is completed once

`Desk` says what the block path is for, without slots: requests are numbered as they are posted,
and the id of its chain stands for a request until the device reports that id. Then the request is
done, with the status byte that the device wrote for it.

The kernel does this with a pool of slots and a table of targets. It agrees with the desk
(`Virtqueue.Agrees`) as long as the ids that the device reports fit 16 bits, because it cuts the
32-bit id of a used element to 16 bits. A longer id can pass for the head of a live chain:
`longIdRun` completes a request that the device never reported.
-/

set_option autoImplicit false

namespace Plinth

open Transition

/-! ### The desk -/

/-- A request that waits for the device. `status` is the last byte that was written to its
status byte. -/
structure Pending where
  number : Nat
  target : Completion
  status : UInt8
  deriving DecidableEq

/-- The requests: what was posted, in order, the ones that wait by their id, and the ones that are
done with the completion of each. -/
structure Desk where
  posted : List Completion
  waiting : UInt32 → Option Pending
  done : List (Nat × Completion × Nat)

namespace Desk

def empty : Desk := ⟨[], fun _ => none, []⟩

/-- The status that a ring is told. -/
def code (status : UInt8) : Nat := if status = 0 then blkOk else blkEDev

/-- A request is posted under an id. -/
def post (d : Desk) (id : UInt32) (target : Completion) : Desk :=
  { d with
    posted := d.posted ++ [target]
    waiting := Function.update d.waiting id (some ⟨d.posted.length, target, 0xFF⟩) }

/-- The device reports an id. -/
def report (d : Desk) (id : UInt32) : Desk :=
  match d.waiting id with
  | none => d
  | some w =>
    { d with
      waiting := Function.update d.waiting id none
      done := d.done ++ [(w.number, w.target, code w.status)] }

/-- A byte is written. `addr` has the address of the status byte of each id. -/
def store (d : Desk) (addr : UInt32 → Nat) (a : Nat) (b : UInt8) : Desk :=
  { d with waiting := fun id =>
      (d.waiting id).map fun w => if a = addr id then { w with status := b } else w }

/-- The numbers of the requests that are done. -/
def numbers (d : Desk) : List Nat := d.done.map Prod.fst

/-- Every request that was posted either waits under one id or is done once, with the target that
was recorded for it. -/
structure Sound (d : Desk) : Prop where
  once : d.numbers.Nodup
  apart : ∀ id w, d.waiting id = some w → w.number ∉ d.numbers
  unique : ∀ id id' w w', d.waiting id = some w → d.waiting id' = some w' →
    w.number = w'.number → id = id'
  all : ∀ n, n < d.posted.length ↔ n ∈ d.numbers ∨ ∃ id w, d.waiting id = some w ∧ w.number = n
  done : ∀ n target status, (n, target, status) ∈ d.done → d.posted[n]? = some target
  waiting : ∀ id w, d.waiting id = some w → d.posted[w.number]? = some w.target

theorem empty_sound : empty.Sound where
  once := List.nodup_nil
  apart := nofun
  unique := nofun
  all := fun n => by
    constructor
    · exact fun h => absurd h (Nat.not_lt_zero n)
    · rintro (h | ⟨_, _, h, _⟩)
      · cases h
      · cases h
  done := nofun
  waiting := nofun

variable {d : Desk}

theorem post_waiting {id : UInt32} {target : Completion} :
    (d.post id target).waiting id = some ⟨d.posted.length, target, 0xFF⟩ :=
  Function.update_self ..

theorem post_waiting_of_ne {id id' : UInt32} {target : Completion} (h : id' ≠ id) :
    (d.post id target).waiting id' = d.waiting id' :=
  Function.update_of_ne h ..

/-- A request that is posted under a free id. -/
theorem Sound.post (h : d.Sound) {id : UInt32} (hfree : d.waiting id = none)
    (target : Completion) : (d.post id target).Sound := by
  have hdone : ∀ n ∈ d.numbers, n < d.posted.length := fun n hn => (h.all n).mpr (Or.inl hn)
  have hwait : ∀ id' w, d.waiting id' = some w → w.number < d.posted.length :=
    fun id' w hw => (h.all _).mpr (Or.inr ⟨id', w, hw, rfl⟩)
  -- A request that waits is the new one or an earlier one.
  have hcases : ∀ id' w, (d.post id target).waiting id' = some w →
      (id' = id ∧ w = ⟨d.posted.length, target, 0xFF⟩) ∨ (id' ≠ id ∧ d.waiting id' = some w) := by
    intro id' w hw
    by_cases hid : id' = id
    · subst hid
      refine Or.inl ⟨rfl, ?_⟩
      rw [post_waiting, Option.some.injEq] at hw
      exact hw.symm
    · rw [post_waiting_of_ne hid] at hw
      exact Or.inr ⟨hid, hw⟩
  have hold : ∀ (n : Nat) (t : Completion), d.posted[n]? = some t →
    (d.posted ++ [target])[n]? = some t := by
    intro n t hn
    rw [List.getElem?_append_left (List.getElem?_eq_some_iff.mp hn).1]
    exact hn
  refine ⟨h.once, fun id' w hw hmem => ?_, fun i j w w' hw hw' heq => ?_, fun n => ?_,
    fun n t status hmem => hold n t (h.done n t status hmem), fun id' w hw => ?_⟩
  · rcases hcases id' w hw with ⟨-, rfl⟩ | ⟨-, hw⟩
    · exact Nat.lt_irrefl _ (hdone _ hmem)
    · exact h.apart id' w hw hmem
  · rcases hcases i w hw with ⟨hi, hnew⟩ | ⟨-, holdw⟩
    · rcases hcases j w' hw' with ⟨hj, -⟩ | ⟨-, holdw'⟩
      · rw [hi, hj]
      · have hlt := hwait j w' holdw'
        rw [← heq, hnew] at hlt
        exact absurd hlt (Nat.lt_irrefl _)
    · rcases hcases j w' hw' with ⟨-, hnew⟩ | ⟨-, holdw'⟩
      · have hlt := hwait i w holdw
        rw [heq, hnew] at hlt
        exact absurd hlt (Nat.lt_irrefl _)
      · exact h.unique i j w w' holdw holdw' heq
  · have hlen : (d.post id target).posted.length = d.posted.length + 1 := List.length_append
    rw [hlen]
    constructor
    · intro hn
      by_cases hlast : n = d.posted.length
      · exact Or.inr ⟨id, _, Function.update_self .., hlast.symm⟩
      · rcases (h.all n).mp (by omega) with hmem | ⟨id', w, hw, hnum⟩
        · exact Or.inl hmem
        · refine Or.inr ⟨id', w, ?_, hnum⟩
          have hne : id' ≠ id := by
            rintro rfl
            rw [hfree] at hw
            cases hw
          rwa [post_waiting_of_ne hne]
    · rintro (hmem | ⟨id', w, hw, rfl⟩)
      · exact Nat.lt_succ_of_lt (hdone n hmem)
      · rcases hcases id' w hw with ⟨-, rfl⟩ | ⟨-, hw⟩
        · exact Nat.lt_succ_self _
        · exact Nat.lt_succ_of_lt (hwait id' w hw)
  · rcases hcases id' w hw with ⟨-, rfl⟩ | ⟨-, hw⟩
    · exact List.getElem?_concat_length
    · exact hold _ _ (h.waiting id' w hw)

/-- A report of an id. -/
theorem Sound.report (h : d.Sound) (id : UInt32) : (d.report id).Sound := by
  unfold Desk.report
  split
  · exact h
  · rename_i w hw
    have hcases : ∀ id' v, Function.update d.waiting id none id' = some v →
        id' ≠ id ∧ d.waiting id' = some v := by
      intro id' v hv
      by_cases hid : id' = id
      · rw [hid, Function.update_self] at hv
        cases hv
      · rw [Function.update_of_ne hid] at hv
        exact ⟨hid, hv⟩
    have hnumbers : ({ d with
        waiting := Function.update d.waiting id none
        done := d.done ++ [(w.number, w.target, code w.status)] } : Desk).numbers =
        d.numbers ++ [w.number] := List.map_append
    refine ⟨?_, fun id' v hv => ?_, fun i j v v' hv hv' heq => ?_, fun n => ?_,
      fun n t status hmem => ?_, fun id' v hv => h.waiting id' v (hcases id' v hv).2⟩
    · rw [hnumbers, List.nodup_append]
      refine ⟨h.once, List.nodup_singleton _, fun a ha b hb => ?_⟩
      rw [List.mem_singleton.mp hb]
      rintro rfl
      exact h.apart id w hw ha
    · obtain ⟨hne, hv⟩ := hcases id' v hv
      rw [hnumbers, List.mem_append, List.mem_singleton]
      rintro (hmem | hsame)
      · exact h.apart id' v hv hmem
      · exact hne (h.unique id' id v w hv hw hsame)
    · exact h.unique i j v v' (hcases i v hv).2 (hcases j v' hv').2 heq
    · rw [hnumbers, List.mem_append, List.mem_singleton]
      constructor
      · intro hn
        rcases (h.all n).mp hn with hmem | ⟨id', v, hv, rfl⟩
        · exact Or.inl (Or.inl hmem)
        · by_cases hid : id' = id
          · subst hid
            rw [hw, Option.some.injEq] at hv
            exact Or.inl (Or.inr (congrArg Pending.number hv.symm))
          · refine Or.inr ⟨id', v, ?_, rfl⟩
            dsimp only
            rwa [Function.update_of_ne hid]
      · rintro ((hmem | rfl) | ⟨id', v, hv, rfl⟩)
        · exact (h.all n).mpr (Or.inl hmem)
        · exact (h.all _).mpr (Or.inr ⟨id, w, hw, rfl⟩)
        · exact (h.all _).mpr (Or.inr ⟨id', v, (hcases id' v hv).2, rfl⟩)
    · rcases List.mem_append.mp hmem with hmem | hmem
      · exact h.done n t status hmem
      · have heq := List.mem_singleton.mp hmem
        cases heq
        exact h.waiting id w hw

/-- A write changes no number and no target. -/
theorem store_waiting {addr : UInt32 → Nat} {a : Nat} {b : UInt8} {id : UInt32} {w : Pending}
    (h : (d.store addr a b).waiting id = some w) :
    ∃ v, d.waiting id = some v ∧ v.number = w.number ∧ v.target = w.target := by
  unfold store at h
  dsimp only at h
  rw [Option.map_eq_some_iff] at h
  obtain ⟨v, hv, heq⟩ := h
  refine ⟨v, hv, ?_⟩
  subst heq
  split
  · exact ⟨rfl, rfl⟩
  · exact ⟨rfl, rfl⟩

theorem Sound.store (h : d.Sound) (addr : UInt32 → Nat) (a : Nat) (b : UInt8) :
    (d.store addr a b).Sound := by
  refine ⟨h.once, fun id w hw => ?_, fun i j w w' hw hw' heq => ?_, fun n => ?_, h.done,
    fun id w hw => ?_⟩
  · obtain ⟨v, hv, hnum, -⟩ := store_waiting hw
    rw [← hnum]
    exact h.apart id v hv
  · obtain ⟨v, hv, hnum, -⟩ := store_waiting hw
    obtain ⟨v', hv', hnum', -⟩ := store_waiting hw'
    exact h.unique i j v v' hv hv' (hnum.trans (heq.trans hnum'.symm))
  · rw [show (d.store addr a b).posted = d.posted from rfl,
      show (d.store addr a b).numbers = d.numbers from rfl, h.all n]
    refine or_congr_right ⟨?_, ?_⟩
    · rintro ⟨id, w, hw, rfl⟩
      refine ⟨id, if a = addr id then { w with status := b } else w, ?_, ?_⟩
      · unfold Desk.store
        dsimp only
        rw [hw]
        rfl
      · split
        · rfl
        · rfl
    · rintro ⟨id, w, hw, rfl⟩
      obtain ⟨v, hv, hnum, -⟩ := store_waiting hw
      exact ⟨id, v, hv, hnum⟩
  · obtain ⟨v, hv, hnum, htarget⟩ := store_waiting hw
    rw [← hnum, ← htarget]
    exact h.waiting id v hv

end Desk

namespace Virtqueue

variable {q : Virtqueue} {s t : State} {ℓ : Label} {d : Desk} {out : List (Completion × Nat)}
  {slot : Nat}

/-! ### A run at the desk -/

/-- The id of the chain of a slot. -/
def headId (slot : Nat) : UInt32 := UInt32.ofNat (slot * descPerReq)

/-- The address of the status byte of the request that an id stands for. -/
def statusOf (q : Virtqueue) (id : UInt32) : Nat := q.statusVa (id.toNat / descPerReq)

/-- The completions that a drain has found and not yet routed. -/
def State.found (s : State) : List (Completion × Nat) :=
  match s.drain with
  | some d => d.out
  | none => []

/-- The desk after a run, newest step first. Only the head that a request gets is the choice of
the kernel. -/
def desk (q : Virtqueue) : List (State × Label) → Desk
  | [] => .empty
  | (s, .ringPost ring userData ..) :: hist =>
    match s.inflights.submit (.ring ring userData) with
    | none => q.desk hist
    | some (head, _) => (q.desk hist).post (UInt32.ofNat head) (.ring ring userData)
  | (s, .element) :: hist => (q.desk hist).report (q.reportedId s)
  | (_, .store a b) :: hist => (q.desk hist).store q.statusOf a b
  | _ :: hist => q.desk hist

/-- The completions that a run has sent to their rings. -/
def routed : List (State × Label) → List (Completion × Nat)
  | [] => []
  | (s, .route) :: hist => routed hist ++ s.found
  | _ :: hist => routed hist

/-- No id of more than 16 bits passes for the head of a live chain. -/
def fits (q : Virtqueue) (s : State) : Label → Bool
  | .element =>
    decide ((q.reportedId s).toNat < 2 ^ 16) ||
      (s.inflights.complete (q.reportedHead s)).isNone
  | _ => true

theorem headId_toNat (h : slot < maxSlots) : (headId slot).toNat = slot * descPerReq := by
  unfold headId
  unfold maxSlots at h
  rw [UInt32.toNat_ofNat']
  unfold descPerReq
  omega

theorem headId_inj {slot' : Nat} (h : slot < maxSlots) (h' : slot' < maxSlots)
    (heq : headId slot = headId slot') : slot = slot' := by
  have hnat := congrArg UInt32.toNat heq
  rw [headId_toNat h, headId_toNat h'] at hnat
  unfold descPerReq at hnat
  omega

theorem statusOf_headId (h : slot < maxSlots) : q.statusOf (headId slot) = q.statusVa slot := by
  unfold statusOf
  rw [headId_toNat h, Nat.mul_div_cancel _ (by decide : 0 < descPerReq)]

/-! ### The kernel agrees with the desk -/

/-- The pool, the table of targets, the status bytes and the completions are what the desk says. -/
structure Agrees (q : Virtqueue) (s : State) (d : Desk) (out : List (Completion × Nat)) : Prop where
  wf : s.inflights.WF
  slots : s.inflights.slots = q.slots
  routing : ∀ slot < q.slots,
    s.inflights.routing slot = (d.waiting (headId slot)).map Pending.target
  heads : ∀ id w, d.waiting id = some w → ∃ slot, slot < q.slots ∧ id = headId slot
  status : ∀ slot < q.slots, ∀ w, d.waiting (headId slot) = some w →
    s.ram (q.statusVa slot) = w.status
  found : out ++ s.found = d.done.map Prod.snd
  /-- The array of a drain has room for all that are live. -/
  room : s.found.length + s.inflights.liveSlots.length ≤ q.slots

theorem Agrees.start (hinit : q.system.init s) : q.Agrees s .empty [] := by
  obtain ⟨hwf, hslots, hfree, hdrain⟩ := hinit
  have hfound : s.found = [] := by
    unfold State.found
    rw [hdrain]
  refine ⟨hwf, hslots, fun slot _ => hfree slot, nofun, nofun, ?_, ?_⟩
  · rw [hfound]
    rfl
  · have hcount := hwf.count
    rw [hfound, ← hslots]
    simp only [List.length_nil]
    omega

/-- The slot that a request gets is free, and no request waits under its id. -/
theorem Agrees.claims (h : q.Agrees s d out) {target : Completion} {head : Nat} {inf : Inflights}
    (hsubmit : s.inflights.submit target = some (head, inf)) :
    ∃ slot, slot < q.slots ∧ head = slot * descPerReq ∧ s.inflights.routing slot = none ∧
      d.waiting (headId slot) = none := by
  obtain ⟨slot, hfree, hhead, -, -⟩ := Inflights.submit_some hsubmit
  obtain ⟨hlt, hnone⟩ := h.wf.free slot (by rw [hfree]; exact List.mem_cons_self)
  rw [h.slots] at hlt
  refine ⟨slot, hlt, hhead, hnone, ?_⟩
  have hroute := h.routing slot hlt
  rw [hnone] at hroute
  exact Option.map_eq_none_iff.mp hroute.symm

theorem Agrees.ringPost (h : q.Agrees s d out) (hidle : s.drain = none) {target : Completion}
    {head : Nat} {inf : Inflights} (hsubmit : s.inflights.submit target = some (head, inf))
    (sector count framePhys : Nat) (dir : Direction) :
    q.Agrees
      { s with
        inflights := inf, ram := q.postRequest s.ram head sector count framePhys true dir }
      (d.post (UInt32.ofNat head) target) out := by
  have hwf := Inflights.submit_wf h.wf hsubmit
  obtain ⟨slot, hfree, rfl, hroute, hslots⟩ := Inflights.submit_some hsubmit
  have hlt := (h.wf.free slot (by rw [hfree]; exact List.mem_cons_self)).1
  rw [h.slots] at hlt
  have hmax := q.slots_bounds.2
  have hne : ∀ slot' < q.slots, slot' ≠ slot → headId slot' ≠ headId slot :=
    fun slot' hlt' hne heq => hne (headId_inj (by omega) (by omega) heq)
  have hfound : State.found { s with
        inflights := inf
        ram := q.postRequest s.ram (slot * descPerReq) sector count framePhys true dir } = [] := by
    unfold State.found
    dsimp only
    rw [hidle]
  rw [show UInt32.ofNat (slot * descPerReq) = headId slot from rfl]
  refine ⟨hwf, hslots.trans h.slots, fun slot' hlt' => ?_, fun id w hw => ?_,
    fun slot' hlt' w hw => ?_, h.found, ?_⟩
  · dsimp only
    rw [hroute]
    by_cases heq : slot' = slot
    · rw [heq, Function.update_self]
      rw [Desk.post_waiting]
      rfl
    · rw [Function.update_of_ne heq, h.routing slot' hlt',
        Desk.post_waiting_of_ne (hne slot' hlt' heq)]
  · by_cases hid : id = headId slot
    · exact ⟨slot, hlt, hid⟩
    · rw [Desk.post_waiting_of_ne hid] at hw
      exact h.heads id w hw
  · dsimp only
    by_cases heq : slot' = slot
    · rw [heq] at hw ⊢
      rw [Desk.post_waiting, Option.some.injEq] at hw
      rw [postRequest_status (by omega), ← hw]
    · rw [Desk.post_waiting_of_ne (hne slot' hlt' heq)] at hw
      rw [postRequest_status_of_ne (by omega) (by omega) heq]
      exact h.status slot' hlt' w hw
  · have hcount := hwf.count
    rw [hslots, h.slots] at hcount
    rw [hfound]
    simp only [List.length_nil]
    omega

/-! ### One element -/

/-- The id of a live chain is taken for its head. -/
theorem reportedHead_of (h : (q.reportedId s).toNat < 2 ^ 16) :
    q.reportedHead s = (q.reportedId s).toNat := by
  unfold reportedHead
  rw [UInt32.toNat_toUInt16, Nat.mod_eq_of_lt h]

/-- A chain that is live is found. -/
theorem complete_of_live {inf : Inflights} {target : Completion} (hlt : slot < inf.slots)
    (hlive : inf.routing slot = some target) : inf.complete (slot * descPerReq) ≠ none := by
  unfold Inflights.complete Inflights.slotOf
  rw [Nat.mul_mod_left, Nat.mul_div_cancel _ (by decide : 0 < descPerReq), if_pos hlt]
  simp only [ne_eq, not_true_eq_false, if_false]
  rw [hlive]
  exact Option.some_ne_none _

/-- If the id stands for no request, the kernel finds none. -/
theorem Agrees.bogus (h : q.Agrees s d out) (hfits : q.fits s .element = true)
    (hnone : d.waiting (q.reportedId s) = none) :
    s.inflights.complete (q.reportedHead s) = none := by
  unfold fits at hfits
  rw [Bool.or_eq_true, decide_eq_true_eq, Option.isNone_iff_eq_none] at hfits
  rcases hfits with hshort | hcomplete
  · cases hcomplete : s.inflights.complete (q.reportedHead s) with
    | none => rfl
    | some r =>
      obtain ⟨target, inf⟩ := r
      obtain ⟨slot, hhead, hlt, hlive, -⟩ := Inflights.complete_some hcomplete
      rw [h.slots] at hlt
      rw [reportedHead_of hshort] at hhead
      have hid : q.reportedId s = headId slot := by
        unfold headId
        rw [← hhead, UInt32.ofNat_toNat]
      have hroute := h.routing slot hlt
      rw [← hid, hnone, hlive] at hroute
      cases hroute
  · exact hcomplete

/-- If a request waits under the id, the kernel finds it. -/
theorem Agrees.reported (h : q.Agrees s d out) {w : Pending}
    (hw : d.waiting (q.reportedId s) = some w) :
    ∃ slot inf, slot < q.slots ∧ q.reportedId s = headId slot ∧
      q.reportedHead s = slot * descPerReq ∧
      s.inflights.complete (q.reportedHead s) = some (w.target, inf) := by
  obtain ⟨slot, hlt, hid⟩ := h.heads _ w hw
  have hmax := q.slots_bounds.2
  have hnat : (q.reportedId s).toNat = slot * descPerReq := by
    rw [hid, headId_toNat (by omega)]
  have hhead : q.reportedHead s = slot * descPerReq := by
    rw [reportedHead_of, hnat]
    unfold descPerReq at hnat
    unfold maxSlots at hmax
    omega
  have hlive := h.routing slot hlt
  rw [← hid, hw] at hlive
  cases hcomplete : s.inflights.complete (q.reportedHead s) with
  | none =>
    rw [hhead] at hcomplete
    exact absurd hcomplete (complete_of_live (by rw [h.slots]; exact hlt) hlive)
  | some r =>
    obtain ⟨target, inf⟩ := r
    obtain ⟨slot', hhead', -, hlive', -⟩ := Inflights.complete_some hcomplete
    have hsame : slot' = slot := by
      rw [hhead] at hhead'
      unfold descPerReq at hhead'
      omega
    rw [hsame, hlive, Option.map_some, Option.some.injEq] at hlive'
    exact ⟨slot, inf, hlt, hid, hhead, by rw [hlive']⟩

theorem drainOne_none {inf : Inflights} {head : Nat} {b : UInt8} (h : inf.complete head = none) :
    Devices.drainOne inf (head, b) = (none, inf) := by
  unfold Devices.drainOne
  dsimp only
  rw [h]

theorem drainOne_some {inf inf' : Inflights} {head : Nat} {b : UInt8} {target : Completion}
    (h : inf.complete head = some (target, inf')) :
    Devices.drainOne inf (head, b) = (some (target, Desk.code b), inf') := by
  have hslot : inf.slotOf head ≠ none := by
    intro hnone
    unfold Inflights.complete at h
    rw [hnone] at h
    cases h
  unfold Devices.drainOne
  dsimp only
  rw [h]
  cases hfound : inf.slotOf head with
  | none => exact absurd hfound hslot
  | some slot => rfl

/-- A bogus or repeated id is consumed, and nothing else changes. -/
theorem drainElement_none {dr : Drain} (hdrain : s.drain = some dr)
    (h : s.inflights.complete (q.reportedHead s) = none) :
    q.drainElement s dr = { s with lastUsed := s.lastUsed + 1 } := by
  unfold drainElement
  dsimp only
  rw [drainOne_none h, hdrain]

theorem Agrees.element (h : q.Agrees s d out) {dr : Drain} (hdrain : s.drain = some dr)
    (hfits : q.fits s .element = true) :
    q.Agrees (q.drainElement s dr) (d.report (q.reportedId s)) out := by
  have hmax := q.slots_bounds.2
  have hfound : s.found = dr.out := by
    unfold State.found
    rw [hdrain]
  unfold Desk.report
  cases hw : d.waiting (q.reportedId s) with
  | none =>
    rw [drainElement_none hdrain (h.bogus hfits hw)]
    exact ⟨h.wf, h.slots, h.routing, h.heads, h.status, h.found, h.room⟩
  | some w =>
    obtain ⟨slot, inf, hlt, hid, hhead, hcomplete⟩ := h.reported hw
    have hwf := Inflights.complete_wf h.wf hcomplete
    obtain ⟨slot', hhead', -, -, hroute, hfree, hslots⟩ := Inflights.complete_some hcomplete
    have hsame : slot' = slot := by
      rw [hhead] at hhead'
      unfold descPerReq at hhead'
      omega
    subst hsame
    -- A slot becomes free, so the array had room for one more.
    have hcount := h.wf.count
    have hcount' := hwf.count
    rw [hslots, hfree, List.length_cons] at hcount'
    have hroom := h.room
    rw [hfound] at hroom
    have hlen : dr.out.length < maxSlots := by omega
    have hstatus : s.ram (q.statusVa (q.reportedHead s / descPerReq)) = w.status := by
      rw [hhead, Nat.mul_div_cancel _ (by decide : 0 < descPerReq)]
      rw [hid] at hw
      exact h.status slot' hlt w hw
    have hstep : q.drainElement s dr = { s with
        inflights := inf, lastUsed := s.lastUsed + 1,
        drain := some { dr with out := dr.out ++ [(w.target, Desk.code w.status)] } } := by
      unfold drainElement
      dsimp only
      rw [drainOne_some hcomplete, hstatus]
      dsimp only
      rw [if_pos hlen]
    rw [hstep, hid]
    have hne : ∀ j < q.slots, j ≠ slot' → headId j ≠ headId slot' :=
      fun j hj hne heq => hne (headId_inj (by omega) (by omega) heq)
    refine ⟨hwf, hslots.trans h.slots, fun j hj => ?_, fun id v hv => ?_, fun j hj v hv => ?_, ?_,
      ?_⟩
    · dsimp only
      rw [hroute]
      by_cases heq : j = slot'
      · rw [heq, Function.update_self, Function.update_self]
        rfl
      · rw [Function.update_of_ne heq, Function.update_of_ne (hne j hj heq)]
        exact h.routing j hj
    · dsimp only at hv
      by_cases heq : id = headId slot'
      · rw [heq, Function.update_self] at hv
        cases hv
      · rw [Function.update_of_ne heq] at hv
        exact h.heads id v hv
    · dsimp only at hv ⊢
      by_cases heq : j = slot'
      · rw [heq, Function.update_self] at hv
        cases hv
      · rw [Function.update_of_ne (hne j hj heq)] at hv
        exact h.status j hj v hv
    · have hout := h.found
      rw [hfound] at hout
      rw [List.map_append, ← hout, List.append_assoc]
      rfl
    · show (dr.out ++ [_]).length + inf.liveSlots.length ≤ q.slots
      rw [List.length_append, List.length_singleton]
      omega

/-! ### The other steps -/

theorem Agrees.store (h : q.Agrees s d out) (a : Nat) (b : UInt8) :
    q.Agrees { s with ram := Function.update s.ram a b } (d.store q.statusOf a b) out := by
  have hmax := q.slots_bounds.2
  refine ⟨h.wf, h.slots, fun slot hlt => ?_, fun id w hw => ?_, fun slot hlt w hw => ?_, h.found,
    h.room⟩
  · dsimp only
    rw [h.routing slot hlt]
    unfold Desk.store
    rw [Option.map_map]
    refine congrArg (fun f => Option.map f (d.waiting (headId slot))) (funext fun w => ?_)
    dsimp only [Function.comp_apply]
    split
    · rfl
    · rfl
  · obtain ⟨v, hv, -⟩ := Desk.store_waiting hw
    exact h.heads id v hv
  · unfold Desk.store at hw
    dsimp only at hw ⊢
    rw [Option.map_eq_some_iff, statusOf_headId (by omega)] at hw
    obtain ⟨v, hv, rfl⟩ := hw
    by_cases heq : a = q.statusVa slot
    · rw [if_pos heq, heq, Function.update_self]
    · rw [if_neg heq, Function.update_of_ne (fun h => heq h.symm)]
      exact h.status slot hlt v hv

theorem Agrees.interrupt (h : q.Agrees s d out) (hidle : s.drain = none) (usedIdx : UInt16) :
    q.Agrees { s with drain := some ⟨usedIdx, []⟩ } d out := by
  have hnone : s.found = [] := by
    unfold State.found
    rw [hidle]
  have hfound := h.found
  have hroom := h.room
  rw [hnone] at hfound hroom
  exact ⟨h.wf, h.slots, h.routing, h.heads, h.status, hfound, hroom⟩

theorem Agrees.route (h : q.Agrees s d out) :
    q.Agrees { s with drain := none } d (out ++ s.found) := by
  refine ⟨h.wf, h.slots, h.routing, h.heads, h.status, ?_, ?_⟩
  · rw [show State.found { s with drain := none } = [] from rfl, List.append_nil]
    exact h.found
  · have hroom := h.room
    show 0 + s.inflights.liveSlots.length ≤ q.slots
    omega

/-- A guarded step keeps the kernel and the desk in agreement. -/
theorem Agrees.step {hist : List (State × Label)} (h : q.Agrees s (q.desk hist) (routed hist))
    (hsound : (q.desk hist).Sound) (hfits : q.fits s ℓ = true) (hnext : q.next s ℓ = some t) :
    q.Agrees t (q.desk ((s, ℓ) :: hist)) (routed ((s, ℓ) :: hist)) ∧
      (q.desk ((s, ℓ) :: hist)).Sound := by
  cases ℓ with
  | ringPost ring userData sector count framePhys dir =>
    unfold next at hnext
    dsimp only at hnext
    split at hnext
    · cases hnext
    · rename_i hidle
      rw [Bool.not_eq_true, Option.isSome_eq_false_iff, Option.isNone_iff_eq_none] at hidle
      unfold desk routed
      cases hsubmit : s.inflights.submit (.ring ring userData) with
      | none =>
        rw [hsubmit] at hnext
        cases hnext
        exact ⟨h, hsound⟩
      | some r =>
        obtain ⟨head, inf⟩ := r
        rw [hsubmit] at hnext
        cases hnext
        obtain ⟨slot, -, rfl, -, hfree⟩ := h.claims hsubmit
        exact ⟨h.ringPost hidle hsubmit sector count framePhys dir, hsound.post hfree _⟩
  | interrupt =>
    unfold next at hnext
    dsimp only at hnext
    split at hnext
    · cases hnext
    · rename_i hidle
      rw [Bool.not_eq_true, Option.isSome_eq_false_iff, Option.isNone_iff_eq_none] at hidle
      cases hnext
      exact ⟨h.interrupt hidle _, hsound⟩
  | element =>
    unfold next at hnext
    dsimp only at hnext
    split at hnext
    · cases hnext
    · rename_i dr hdrain
      split at hnext
      · cases hnext
      · cases hnext
        exact ⟨h.element hdrain hfits, hsound.report _⟩
  | route =>
    unfold next at hnext
    dsimp only at hnext
    split at hnext
    · cases hnext
    · split at hnext
      · cases hnext
        exact ⟨h.route, hsound⟩
      · cases hnext
  | store a b =>
    cases hnext
    exact ⟨h.store a b, hsound.store _ a b⟩

/-! ### The result -/

/-- Every request is completed once, to the target that was recorded for it and with its own
status byte. -/
structure ExactlyOnce (q : Virtqueue) (hist : List (State × Label)) (s : State) : Prop where
  /-- The rings are told what the desk says, in that order. -/
  completions : routed hist ++ s.found = (q.desk hist).done.map Prod.snd
  /-- Every request waits, or it is done once. -/
  sound : (q.desk hist).Sound
  /-- The live slots are those of the requests that wait. -/
  live : ∀ slot < q.slots,
    s.inflights.routing slot = ((q.desk hist).waiting (headId slot)).map Pending.target
  heads : ∀ id w, (q.desk hist).waiting id = some w → ∃ slot, slot < q.slots ∧ id = headId slot
  /-- The live and the free slots together are the pool. -/
  pool : s.inflights.liveSlots.length + s.inflights.free.length = q.slots
  /-- The chains of the live slots fit the queue. -/
  depth : s.inflights.liveSlots.length * descPerReq ≤ q.qsize.toNat
  /-- A request gets a slot that is not live. -/
  claims : ∀ target head inf, s.inflights.submit target = some (head, inf) →
    ∃ slot, slot < q.slots ∧ head = slot * descPerReq ∧ s.inflights.routing slot = none ∧
      (q.desk hist).waiting (headId slot) = none
  /-- An id that stands for no request changes nothing. -/
  bogus : ∀ t, q.fits s .element = true → (q.desk hist).waiting (q.reportedId s) = none →
    q.next s .element = some t → t = { s with lastUsed := s.lastUsed + 1 }

/-- In every run in which no id of more than 16 bits passes for a live head, every request is
completed once. -/
theorem exactly_once {hist : List (State × Label)}
    (run : Run q.system (fun s ℓ => q.fits s ℓ = true) hist s) : ExactlyOnce q hist s := by
  have h : q.Agrees s (q.desk hist) (routed hist) ∧ (q.desk hist).Sound := by
    induction run with
    | start hinit => exact ⟨.start hinit, Desk.empty_sound⟩
    | step _ guard hnext ih => exact ih.1.step ih.2 guard hnext
  obtain ⟨hagree, hsound⟩ := h
  have hcount := hagree.wf.count
  rw [hagree.slots] at hcount
  refine ⟨hagree.found, hsound, hagree.routing, hagree.heads, hcount, ?_,
    fun target head inf hsubmit => hagree.claims hsubmit, fun t hfits hnone hnext => ?_⟩
  · have hslots := q.slots_bounds.1
    unfold descPerReq at hslots ⊢
    omega
  · unfold next at hnext
    dsimp only at hnext
    split at hnext
    · cases hnext
    · rename_i dr hdrain
      split at hnext
      · cases hnext
      · rw [Option.some.injEq] at hnext
        rw [← hnext]
        exact drainElement_none hdrain (hagree.bogus hfits hnone)

/-! ### A queue of a device -/

/-- A queue of 64 entries. -/
def smallQueue : Virtqueue where
  devQsize := 64
  qsize := 64
  descVa := frameSize
  availVa := 2 * frameSize
  usedVa := 3 * frameSize
  bufVa := 4 * frameSize
  bufPhys := 4 * frameSize
  bufIova := none
  negotiated := rfl
  desc_apart := by decide
  avail_apart := by decide

/-- The queue before the first request. -/
def smallState : State := ⟨fun _ => 0, Inflights.new 21, 0, none⟩

theorem smallState_init : smallQueue.system.init smallState :=
  ⟨Inflights.new_wf 21, by decide, fun _ => rfl, rfl⟩

/-- A request of ring 0 is posted at the head 60, and the device reports it with status 0. -/
theorem exactly_once_oneRequest : ∃ hist s, ExactlyOnce smallQueue hist s ∧
    routed hist = [(.ring 0 7, blkOk)] := by
  have run : Run smallQueue.system (fun s ℓ => smallQueue.fits s ℓ = true) [] smallState :=
    .start smallState_init
  have run₁ := run.step (a := Label.ringPost 0 7 0 1 (8 * frameSize) .read) rfl rfl
  have run₂ := run₁.step (a := Label.store (smallQueue.statusVa 20) 0) rfl rfl
  have run₃ := run₂.step (a := Label.store (3 * frameSize + 4) 60) rfl rfl
  have run₄ := run₃.step (a := Label.store (3 * frameSize + 2) 1) rfl rfl
  have run₅ := run₄.step (a := Label.interrupt) rfl rfl
  have run₆ := run₅.step (a := Label.element) (by decide +kernel) rfl
  have run₇ := run₆.step (a := Label.route) rfl rfl
  exact ⟨_, _, exactly_once run₇, by decide +kernel⟩

/-- A request of ring 0 waits under the id 60. The device reports the id `2 ^ 16 + 60`, and the
ring is told that the request is done. -/
theorem longIdRun_completes : ∃ hist s, Run smallQueue.system always hist s ∧
    routed hist = [(.ring 0 7, blkEDev)] ∧ (smallQueue.desk hist).done = [] ∧
    ¬ ExactlyOnce smallQueue hist s := by
  have run : Run smallQueue.system always [] smallState := .start smallState_init
  have run₁ := run.step (a := Label.ringPost 0 7 0 1 (8 * frameSize) .read) trivial rfl
  have run₂ := run₁.step (a := Label.store (3 * frameSize + 4) 60) trivial rfl
  have run₃ := run₂.step (a := Label.store (3 * frameSize + 6) 1) trivial rfl
  have run₄ := run₃.step (a := Label.store (3 * frameSize + 2) 1) trivial rfl
  have run₅ := run₄.step (a := Label.interrupt) trivial rfl
  have run₆ := run₅.step (a := Label.element) trivial rfl
  have run₇ := run₆.step (a := Label.route) trivial rfl
  refine ⟨_, _, run₇, by decide +kernel, by decide +kernel, fun h => ?_⟩
  have hlen := congrArg List.length h.completions
  revert hlen
  decide +kernel

end Virtqueue

end Plinth
