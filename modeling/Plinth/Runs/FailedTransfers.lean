import Plinth.Refine.Transfer
import Plinth.Runs.Counts
import Plinth.Runs.Leaving

/-!
# `Plinth.Runs.FailedTransfers`: a transfer without room at the receiver

The give half of a transfer revokes the capability, and it reserves the slot if a loan begins. If
the receiver has no room, `install` puts the capability into the first free slot of the giver.
`failed_transfer_iff` says when this is the slot that it came from: no loan began, and no earlier
slot is free. The reservation of a loan stays, so `install` passes over the slot.

`fullReceiverRun` ends before a `send` in which the capability does not get its slot back.
-/

set_option autoImplicit false

namespace Plinth

open Transition

/-- The side that the capability lets its holder reach is counted at its endpoint: the debug
assertions of `remove_cap` hold. -/
def Ipc.counts (ipc : Ipc) (cap : Capability) : Bool :=
  match cap.object with
  | .endpoint id => (ipc.endpoints id).removeAsserts cap.rights
  | _ => true

/-- The capability at `slot`, if there is one, gets its slot back when a transfer fails: no loan
begins with it, and `slot` is the first free slot once it is empty. -/
def CapTable.givesBack (t : CapTable) (slot : Nat) : Bool :=
  (t.peek slot).all fun cap => !lendReservesHome cap && !t.isReserved slot &&
    (List.finRange maxCaps).all fun j => decide (slot ≤ j) || !t.isFree j

namespace CapTable

variable {t : CapTable} {k : CapSlot} {cap : Capability} {slot : Nat}

theorem givesBack_of_none (h : t.peek slot = none) : t.givesBack slot = true := by
  unfold givesBack
  rw [h, Option.all_none]

theorem givesBack_iff (hk : t.slots k = some cap) :
    t.givesBack k = true ↔
      lendReservesHome cap = false ∧ t.reserved k = false ∧ ∀ j, j < k → t.isFree j = false := by
  unfold givesBack isReserved
  rw [peek_of_slot, hk, Option.all_some, capSlot?_val]
  simp only [Option.elim_some, Bool.and_eq_true, Bool.not_eq_true', List.all_eq_true,
    List.mem_finRange, Bool.or_eq_true, decide_eq_true_eq, true_imp_iff, and_assoc]
  refine and_congr_right fun _ => and_congr_right fun _ => forall_congr' fun j => ?_
  rw [Fin.lt_def, ← Nat.not_le, or_iff_not_imp_left]

/-- The first free slot is `k` exactly if `k` is free and no earlier slot is. -/
theorem firstFree_eq_some_iff :
    t.firstFree = some k ↔ t.isFree k = true ∧ ∀ j, j < k → t.isFree j = false := by
  unfold firstFree
  rw [List.find?_eq_some_iff_getElem]
  constructor
  · rintro ⟨hfree, i, hi, hik, hbefore⟩
    refine ⟨hfree, fun j hj => ?_⟩
    rw [List.getElem_finRange] at hik
    have hlt : j.val < i := by
      rw [← hik] at hj
      exact hj
    have hfalse := hbefore j.val hlt
    rw [List.getElem_finRange] at hfalse
    simpa using hfalse
  · rintro ⟨hfree, hbefore⟩
    refine ⟨hfree, k.val, by simp, by simp, fun j hj => ?_⟩
    rw [List.getElem_finRange]
    have hfalse := hbefore ⟨j, lt_trans hj k.isLt⟩ hj
    simpa using hfalse

end CapTable

theorem peek_of_revoke_none {m : Mem} {proc : Process} {slot : Nat}
    (h : revokeAndUnmapForLend m proc slot = none) : proc.caps.peek slot = none := by
  by_contra hpeek
  obtain ⟨cap, hcap⟩ := Option.ne_none_iff_exists'.mp hpeek
  obtain ⟨k, hslot, hk⟩ := Option.bind_eq_some_iff.mp hcap
  obtain rfl := capSlot?_eq_some.mp hslot
  rw [revokeAndUnmapForLend_of_slot m hk] at h
  cases h

/-- The table of a giver that gave the capability at slot `k` away and takes it back. -/
def takenBack (m : Mem) (proc : Process) (k : CapSlot) (cap : Capability) : CapTable :=
  match (giveAway m proc k cap).1.caps.reclaim cap with
  | some (_, t) => t
  | none => (giveAway m proc k cap).1.caps

variable {m : Mem} {proc : Process} {k : CapSlot} {cap : Capability}

theorem giveAway_isFree (m : Mem) (cap : Capability) {j : CapSlot} (h : j ≠ k) :
    (giveAway m proc k cap).1.caps.isFree j = proc.caps.isFree j := by
  have hres : (giveAway m proc k cap).1.caps.reserved j = proc.caps.reserved j := by
    rw [giveAway_reserved]
    split
    · rw [Function.update_of_ne h]
    · rfl
  unfold CapTable.isFree
  rw [giveAway_slot_of_ne h, hres]

/-- The giver has its table back exactly if the capability got its slot back. -/
theorem takenBack_eq_iff (hk : proc.caps.slots k = some cap) :
    takenBack m proc k cap = proc.caps ↔
      lendReservesHome cap = false ∧ proc.caps.reserved k = false ∧
        ∀ j, j < k → proc.caps.isFree j = false := by
  have hempty : (giveAway m proc k cap).1.caps.slots k = none := giveAway_slot_self
  unfold takenBack
  rw [CapTable.reclaim_eq]
  constructor
  · intro heq
    cases hfirst : (giveAway m proc k cap).1.caps.firstFree with
    | none =>
      rw [hfirst] at heq
      dsimp only [Option.map_none] at heq
      rw [heq, hk] at hempty
      cases hempty
    | some j =>
      rw [hfirst] at heq
      dsimp only [Option.map_some] at heq
      have hjk : j = k := by
        by_contra hne
        have hslot := congrArg (fun t => t.slots k) heq
        rw [CapTable.set_slots, Function.update_of_ne (Ne.symm hne), hempty, hk] at hslot
        cases hslot
      subst hjk
      obtain ⟨-, hres⟩ := CapTable.firstFree_some hfirst
      have hkept := congrArg (fun t => t.reserved j) heq
      rw [CapTable.set_reserved, hres] at hkept
      refine ⟨?_, hkept.symm, fun i hi => ?_⟩
      · by_contra hlend
        rw [Bool.not_eq_false] at hlend
        rw [giveAway_reserved, if_pos hlend, Function.update_self] at hres
        cases hres
      · rw [← giveAway_isFree m cap (ne_of_lt hi)]
        exact (CapTable.firstFree_eq_some_iff.mp hfirst).2 i hi
  · rintro ⟨hlend, hres, hbefore⟩
    have hreserved : (giveAway m proc k cap).1.caps.reserved = proc.caps.reserved := by
      rw [giveAway_reserved, hlend, if_neg Bool.false_ne_true]
    have hfirst : (giveAway m proc k cap).1.caps.firstFree = some k := by
      refine CapTable.firstFree_eq_some_iff.mpr ⟨?_, fun j hj => ?_⟩
      · unfold CapTable.isFree
        rw [hempty, hreserved, hres]
        rfl
      · rw [giveAway_isFree m cap (ne_of_lt hj)]
        exact hbefore j hj
    rw [hfirst]
    dsimp only [Option.map_some]
    have hslots : ((giveAway m proc k cap).1.caps.set k (some cap)).slots = proc.caps.slots := by
      rw [CapTable.set_slots, giveAway_slots, Function.update_idem, ← hk, Function.update_eq_self]
    have hkept : ((giveAway m proc k cap).1.caps.set k (some cap)).reserved
        = proc.caps.reserved := hreserved
    cases hset : (giveAway m proc k cap).1.caps.set k (some cap) with
    | mk slots reserved =>
      rw [hset] at hslots hkept
      cases hcaps : proc.caps with
      | mk slots' reserved' =>
        rw [hcaps] at hslots hkept
        rw [CapTable.mk.injEq]
        exact ⟨hslots, hkept⟩

/-! ### The two arrival orders -/

namespace Ipc

variable {ipc : Ipc}

/-- The counts of two endpoint tables agree. -/
structure SameCounts (ipc ipc' : Ipc) : Prop where
  senders : ∀ id, (ipc'.endpoints id).senders = (ipc.endpoints id).senders
  receivers : ∀ id, (ipc'.endpoints id).receivers = (ipc.endpoints id).receivers

/-- A capability that leaves a table and enters one keeps the counts. -/
theorem sameCounts_moved (h : ipc.counts cap = true) :
    ipc.SameCounts ((ipc.noteCapRemoved cap false).noteCapAdded cap) := by
  unfold counts at h
  unfold noteCapRemoved noteCapAdded
  cases hobj : cap.object with
  | endpoint id =>
    rw [hobj] at h
    unfold Endpoint.removeAsserts at h
    dsimp only at h ⊢
    rw [Bool.false_and, if_neg Bool.false_ne_true]
    have hends : (ipc.debugAssert ((ipc.endpoints id).removeAsserts cap.rights)).endpoints
        = ipc.endpoints := by
      unfold debugAssert
      split
      · rfl
      · rfl
    have hback : (((ipc.endpoints id).removeCap cap.rights).addCap cap.rights).senders
          = (ipc.endpoints id).senders ∧
        (((ipc.endpoints id).removeCap cap.rights).addCap cap.rights).receivers
          = (ipc.endpoints id).receivers := by
      unfold Endpoint.removeCap Endpoint.addCap
      dsimp only
      cases hs : cap.rights.has rightSend <;> cases hr : cap.rights.has rightRecv <;>
        simp [hs, hr] at h ⊢ <;> omega
    constructor
    · intro id'
      unfold setEndpoint
      dsimp only
      by_cases hid : id' = id
      · subst hid
        rw [Function.update_self, Function.update_self]
        exact hback.1
      · rw [Function.update_of_ne hid, Function.update_of_ne hid, hends]
    · intro id'
      unfold setEndpoint
      dsimp only
      by_cases hid : id' = id
      · subst hid
        rw [Function.update_self, Function.update_self]
        exact hback.2
      · rw [Function.update_of_ne hid, Function.update_of_ne hid, hends]
  | _ => exact ⟨fun _ => rfl, fun _ => rfl⟩

end Ipc

namespace Procs

/-- The capability table of the process that runs on `core`. -/
def runningCaps (core : Core) (P : Procs) : Option CapTable := (P.current core).map Process.caps

/-- The capability table of the process in slot `p` of the table. -/
def suspendedCaps (p : ProcSlot) (P : Procs) : Option CapTable :=
  (P.table p).process.map Process.caps

end Procs

namespace Kernel

variable {s t : Kernel} {core : Core} {p : ProcSlot} {x y : Process} {capSlot : Nat}

/-- The transfer leaves no trace in the tables of the giver and of the receiver, and none in the
counts of the endpoints. -/
structure Invisible (giver receiver : Procs → Option CapTable) (s t : Kernel) : Prop where
  giver : giver t.procs = giver s.procs
  receiver : receiver t.procs = receiver s.procs
  counts : s.ipc.SameCounts t.ipc

theorem Invisible.refl (giver receiver : Procs → Option CapTable) (s : Kernel) :
    Invisible giver receiver s s := ⟨rfl, rfl, fun _ => rfl, fun _ => rfl⟩

/-- The capability at `capSlot` of the process `x` in slot `giver`, if there is one, finds no room
in the table `t` of the process in slot `receiver`. -/
def noRoom (x : Process) (giver : ProcSlot) (capSlot : Nat) (t : CapTable) (receiver : ProcSlot) :
    Bool :=
  (x.caps.peek capSlot).all fun cap =>
    (t.installHome (cap.lentTo (Origin.new giver capSlot) receiver) cap.origin receiver).isNone

/-- The capability at `capSlot` of the process `x`, if there is one, is counted at its
endpoint. -/
def counted (s : Kernel) (x : Process) (capSlot : Nat) : Bool :=
  (x.caps.peek capSlot).all s.ipc.counts

/-- What the tables say about a transfer that took the capability back. -/
theorem invisible_takenBack_iff {giver receiver : Procs → Option CapTable}
    (hk : x.caps.slots k = some cap) (hgiver : giver s.procs = some x.caps)
    (htaken : giver t.procs = some (takenBack s.mem x k cap))
    (hreceiver : receiver t.procs = receiver s.procs) (hcounts : s.ipc.SameCounts t.ipc) :
    Invisible giver receiver s t ↔ x.caps.givesBack k = true := by
  rw [CapTable.givesBack_iff hk, ← takenBack_eq_iff (m := s.mem) hk]
  constructor
  · intro h
    have hsame := h.giver
    rw [htaken, hgiver, Option.some.injEq] at hsame
    exact hsame
  · intro h
    refine ⟨?_, hreceiver, hcounts⟩
    rw [htaken, hgiver, h]

theorem runningCaps_setCurrent (P : Procs) :
    (P.setCurrent core (some x)).runningCaps core = some x.caps := by
  unfold Procs.runningCaps
  rw [Procs.setCurrent_current_self]
  rfl

theorem setTableProc_process_self (P : Procs) (c : Option Process) :
    ((P.setTableProc p c).table p).process = c := by
  simp [Procs.setTableProc, Procs.setSlot]

theorem suspendedCaps_setTableProc (P : Procs) :
    (P.setTableProc p (some x)).suspendedCaps p = some x.caps := by
  unfold Procs.suspendedCaps
  rw [setTableProc_process_self]
  rfl

/-- A transfer from the running process to a blocked one that has no room. -/
theorem currentToBlocked_fails (hx : s.procs.current core = some x)
    (hy : (s.procs.table p).process = some y)
    (hfull : noRoom x (s.procs.currentSlot core) capSlot y.caps p = true)
    (hcount : s.counted x capSlot = true) :
    (s.transferCurrentToBlocked core p capSlot).1 = noCap ∧
      (Invisible (Procs.runningCaps core) (Procs.suspendedCaps p) s
        (s.transferCurrentToBlocked core p capSlot).2 ↔ x.caps.givesBack capSlot = true) := by
  unfold transferCurrentToBlocked giveFromCurrent
  rw [hx]
  dsimp only
  rcases revokeAndUnmapForLend_cases s.mem x capSlot with hnone | ⟨k, cap, rfl, hk, hgive⟩
  · rw [hnone]
    exact ⟨rfl, iff_of_true (Invisible.refl _ _ s)
      (CapTable.givesBack_of_none (peek_of_revoke_none hnone))⟩
  · rw [hgive]
    have hpeek : x.caps.peek k = some cap := by rw [CapTable.peek_of_slot, hk]
    unfold noRoom at hfull
    unfold counted at hcount
    rw [hpeek, Option.all_some] at hfull hcount
    rw [Option.isNone_iff_eq_none] at hfull
    have hnone : (s.procs.setCurrent core (some (giveAway s.mem x k cap).1)).installIntoBlockedHome
        p (cap.lentTo (Origin.new (s.procs.currentSlot core) k) p) cap.origin = none := by
      have hslot : ((s.procs.setCurrent core (some (giveAway s.mem x k cap).1)).table p).process
          = some y := hy
      unfold Procs.installIntoBlockedHome Procs.onTable
      rw [hslot]
      dsimp only
      rw [hfull]
    dsimp only
    rw [show (s.procs.setCurrent core (some (giveAway s.mem x k cap).1)).currentSlot
      = s.procs.currentSlot from rfl, hnone]
    refine ⟨rfl, ?_⟩
    have hbase : (restoreToCurrent (s.procs.setCurrent core (some (giveAway s.mem x k cap).1)) core
        cap).runningCaps core = some (takenBack s.mem x k cap) ∧
        (restoreToCurrent (s.procs.setCurrent core (some (giveAway s.mem x k cap).1)) core
          cap).suspendedCaps p = s.procs.suspendedCaps p := by
      unfold restoreToCurrent Procs.onCurrent takenBack
      rw [Procs.setCurrent_current_self]
      dsimp only
      cases hback : (giveAway s.mem x k cap).1.caps.reclaim cap with
      | none => exact ⟨runningCaps_setCurrent _, rfl⟩
      | some r => exact ⟨runningCaps_setCurrent _, rfl⟩
    refine invisible_takenBack_iff hk ?_ hbase.1 hbase.2 (Ipc.sameCounts_moved hcount)
    unfold Procs.runningCaps
    rw [hx]
    rfl

/-- A transfer from a blocked process to the running one, which has no room. -/
theorem blockedToCurrent_fails (hx : s.procs.current core = some x)
    (hy : (s.procs.table p).process = some y)
    (hfull : noRoom y p capSlot x.caps (s.procs.currentSlot core) = true)
    (hcount : s.counted y capSlot = true) :
    (s.transferBlockedToCurrent core p capSlot).1 = noCap ∧
      (Invisible (Procs.suspendedCaps p) (Procs.runningCaps core) s
        (s.transferBlockedToCurrent core p capSlot).2 ↔ y.caps.givesBack capSlot = true) := by
  unfold transferBlockedToCurrent giveFromBlocked
  rw [hy]
  dsimp only
  rcases revokeAndUnmapForLend_cases s.mem y capSlot with hnone | ⟨k, cap, rfl, hk, hgive⟩
  · rw [hnone]
    exact ⟨rfl, iff_of_true (Invisible.refl _ _ s)
      (CapTable.givesBack_of_none (peek_of_revoke_none hnone))⟩
  · rw [hgive]
    have hpeek : y.caps.peek k = some cap := by rw [CapTable.peek_of_slot, hk]
    unfold noRoom at hfull
    unfold counted at hcount
    rw [hpeek, Option.all_some] at hfull hcount
    rw [Option.isNone_iff_eq_none] at hfull
    have hnone : ((s.procs.setTableProc p (some (giveAway s.mem y k cap).1)).onCurrent core fun t =>
        t.installHome (cap.lentTo (Origin.new p k) (s.procs.currentSlot core)) cap.origin
          (s.procs.currentSlot core)) = none := by
      have hcur : (s.procs.setTableProc p (some (giveAway s.mem y k cap).1)).current core
          = some x := hx
      unfold Procs.onCurrent
      rw [hcur]
      dsimp only
      rw [hfull]
    dsimp only
    rw [show (s.procs.setTableProc p (some (giveAway s.mem y k cap).1)).currentSlot
      = s.procs.currentSlot from rfl, hnone]
    refine ⟨rfl, ?_⟩
    have hbase : (restoreToBlocked (s.procs.setTableProc p (some (giveAway s.mem y k cap).1)) p
        cap).suspendedCaps p = some (takenBack s.mem y k cap) ∧
        (restoreToBlocked (s.procs.setTableProc p (some (giveAway s.mem y k cap).1)) p
          cap).runningCaps core = s.procs.runningCaps core := by
      have hslot : ((s.procs.setTableProc p (some (giveAway s.mem y k cap).1)).table p).process
          = some (giveAway s.mem y k cap).1 := setTableProc_process_self _ _
      unfold restoreToBlocked Procs.installIntoBlocked Procs.onTable takenBack
      rw [hslot]
      dsimp only
      cases hback : (giveAway s.mem y k cap).1.caps.reclaim cap with
      | none => exact ⟨suspendedCaps_setTableProc _, rfl⟩
      | some r => exact ⟨suspendedCaps_setTableProc _, rfl⟩
    refine invisible_takenBack_iff hk ?_ hbase.1 hbase.2 (Ipc.sameCounts_moved hcount)
    unfold Procs.suspendedCaps
    rw [hy]
    rfl

/-- In every state of a run the capabilities of a process are counted at their endpoints. -/
theorem Good.counted (hgood : s.Good) (hp : s.procs.proc p = some x) (capSlot : Nat) :
    s.counted x capSlot = true := by
  unfold Kernel.counted
  rw [Option.all_eq_true]
  intro cap hpeek
  obtain ⟨k, -, hk⟩ := Option.bind_eq_some_iff.mp hpeek
  unfold Ipc.counts
  cases hobj : cap.object with
  | endpoint id =>
    have hpos : ∀ right, cap.rights.has right = true → 0 < s.reaching id right := by
      intro right hright
      refine liveTotal_pos.mpr ⟨p, x, k, cap, hp, hk, ?_⟩
      unfold reachWeight reaches
      simp [hobj, hright]
    have hcounts := hgood.countsExact
    unfold Endpoint.removeAsserts
    dsimp only
    rw [hcounts.senders, hcounts.receivers, Bool.and_eq_true]
    constructor
    · cases hs : cap.rights.has rightSend with
      | false => rfl
      | true => simpa using hpos _ hs
    · cases hr : cap.rights.has rightRecv with
      | false => rfl
      | true => simpa using hpos _ hr
  | _ => rfl

/-- A transfer to a process that has no room fails, in both arrival orders. It leaves no trace
exactly if the capability gets its slot back: no loan begins, and no earlier slot is free. -/
theorem failed_transfer_iff (s : Kernel) (core : Core) (p : ProcSlot) (x y : Process)
    (capSlot : Nat) (hx : s.procs.current core = some x)
    (hy : (s.procs.table p).process = some y) :
    (noRoom x (s.procs.currentSlot core) capSlot y.caps p = true →
        s.counted x capSlot = true →
      (s.transferCurrentToBlocked core p capSlot).1 = noCap ∧
        (Invisible (Procs.runningCaps core) (Procs.suspendedCaps p) s
          (s.transferCurrentToBlocked core p capSlot).2 ↔ x.caps.givesBack capSlot = true)) ∧
    (noRoom y p capSlot x.caps (s.procs.currentSlot core) = true →
        s.counted y capSlot = true →
      (s.transferBlockedToCurrent core p capSlot).1 = noCap ∧
        (Invisible (Procs.suspendedCaps p) (Procs.runningCaps core) s
          (s.transferBlockedToCurrent core p capSlot).2 ↔ y.caps.givesBack capSlot = true)) :=
  ⟨fun hfull hcount => currentToBlocked_fails hx hy hfull hcount,
    fun hfull hcount => blockedToCurrent_fails hx hy hfull hcount⟩

/-- The block range in slot 1 is about to be sent to a process whose table is full. The sender
has free slots. -/
def fullReceiverRun : List Label :=
  [.createEndpoint,
    .run 0 [some smallImage] [some ⟨.blockRange 0 0 8, rightRead, none⟩,
      some ⟨.endpoint 0, rightSend, none⟩, some ⟨.endpoint 0, rightRecv, none⟩],
    .spawn 0 (some (some smallImage)) 3, .preempt 0, .resume 0 1] ++
    List.replicate 13 (.frameAlloc 0) ++ [.recv 0 2, .resume 0 0]

/-- The CPU budget in slot 0 of the sender is sent, and the receiver has no room. -/
theorem failed_transfer_fullReceiverRun :
    Invisible (Procs.runningCaps 0) (Procs.suspendedCaps 1) (smallMachine.runFrom fullReceiverRun)
      ((smallMachine.runFrom fullReceiverRun).transferCurrentToBlocked 0 1 0).2 := by
  have hx : ((smallMachine.runFrom fullReceiverRun).procs.current 0).isSome = true := by
    decide +kernel
  have hy : ((smallMachine.runFrom fullReceiverRun).procs.table 1).process.isSome = true := by
    decide +kernel
  exact (((failed_transfer_iff _ 0 1 (Option.get _ hx) (Option.get _ hy) 0
    (Option.some_get hx).symm (Option.some_get hy).symm).1 (by decide +kernel +revert)
    (by decide +kernel +revert)).2.mpr (by decide +kernel +revert))

/-- The receiver waits and its table is full. The block range comes back to slot 4 of the sender,
and slot 1 stays reserved. -/
theorem fullReceiverRun_moves : ∃ s, Reachable system always s ∧
    (s.ipc.takeWaiting 0 false).map Prod.fst = some 1 ∧
    (s.procs.suspendedCaps 1).map CapTable.firstFree = some none ∧
    s.capAt 0 1 = some ⟨.blockRange 0 0 8, rightRead, none⟩ ∧
    ((s.transferCurrentToBlocked 0 1 1).2.procs.runningCaps 0).map (fun t => t.reserved 1)
      = some true ∧
    (s.transferCurrentToBlocked 0 1 1).2.capAt 0 1 = none ∧
    (s.transferCurrentToBlocked 0 1 1).2.capAt 0 4
      = some ⟨.blockRange 0 0 8, rightRead, none⟩ :=
  ⟨smallMachine.runFrom fullReceiverRun, reachable_small _, by decide +kernel, by decide +kernel,
    by decide +kernel, by decide +kernel, by decide +kernel, by decide +kernel⟩

end Kernel

end Plinth
