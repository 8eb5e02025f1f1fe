import Plinth.Refine.Step
import Plinth.Runs.Boot
import Plinth.Spawning.Load

/-!
# `Plinth.Spawning.Atomic`: what a failed spawn leaves behind

A spawn creates the result endpoint, takes the capability that the caller transfers, sets the child
up and then gives the caller its handle. `Restored s t` says that the state `t` after a spawn has
the processes, the capability tables, the endpoints and the allocated frames of the state `s` from
before.

A spawn that fails restores these in three cases: no endpoint is free, the arguments are refused, or
the set-up of the child fails before it takes a frame that it cannot give back. The rollback puts a
capability of a kind that goes home back into its own slot. It installs another capability in the
first free slot, which may be a lower one. And when the caller has no slot for its handle, the child
runs already. `spawnsCleanly` says this, and `spawn_atomic_iff` is the main result.
-/

set_option autoImplicit false

namespace Plinth

open Transition

/-! ### The table of the caller -/

namespace CapTable

variable {t : CapTable} {k : CapSlot} {cap : Capability}

/-- The first free slot is free, and no slot below it is. -/
theorem firstFree_eq_some {j : CapSlot} :
    t.firstFree = some j ↔ t.isFree j = true ∧ ∀ i < j, t.isFree i = false := by
  unfold firstFree
  rw [← Fin.find?_eq_find?_finRange]
  exact Fin.find?_eq_some_iff

/-- The table after its capability in slot `k` was given away. -/
def giveOut (t : CapTable) (k : CapSlot) (cap : Capability) : CapTable :=
  if lendReservesHome cap then (t.set k none).mark k true else t.set k none

/-- The table after the rollback of that: the capability is back in its own slot if it starts a
loan, and else in the first free slot. -/
def takeBack (t : CapTable) (k : CapSlot) (cap : Capability) : CapTable :=
  if lendReservesHome cap then t
  else
    match (t.set k none).firstFree with
    | some j => (t.set k none).set j (some cap)
    | none => t.set k none

/-- A free slot of the table without the capability of slot `k`. -/
theorem isFree_set_none (hres : t.reserved k = false) (j : CapSlot) :
    (t.set k none).isFree j = (j == k || t.isFree j) := by
  unfold isFree
  rw [set_slots, set_reserved]
  by_cases hj : j = k
  · subst hj
    rw [Function.update_self, hres]
    simp
  · rw [Function.update_of_ne hj]
    simp [hj]

/-- Whether the caller has a slot for one more capability after the transfer. -/
theorem giveOut_firstFree_isSome (hk : t.slots k = some cap) (hres : t.reserved k = false) :
    (t.giveOut k cap).firstFree.isSome = (t.firstFree.isSome || !lendReservesHome cap) := by
  unfold giveOut
  cases hkind : lendReservesHome cap with
  | true =>
    -- The slot stays closed: it was occupied, and now it is reserved.
    have hsame : ∀ j, ((t.set k none).mark k true).isFree j = t.isFree j := by
      intro j
      unfold isFree
      by_cases hj : j = k
      · subst hj
        simp [mark, hk]
      · simp [mark, hj]
    rw [if_pos rfl, Bool.not_true, Bool.or_false]
    unfold firstFree
    rw [show ((t.set k none).mark k true).isFree = t.isFree from funext hsame]
  | false =>
    rw [if_neg Bool.false_ne_true, Bool.not_false, Bool.or_true]
    obtain ⟨j, hj⟩ := firstFree_isSome (t := t.set k none) (k := k) (by simp) hres
    rw [hj]
    rfl

/-- The rollback gives the old table exactly if the capability starts a loan, or if no slot below
its own is free. -/
theorem takeBack_eq_iff (hk : t.slots k = some cap) (hres : t.reserved k = false) :
    t.takeBack k cap = t ↔
      (lendReservesHome cap || t.firstFree.all fun j => decide (k ≤ j)) = true := by
  unfold takeBack
  cases hkind : lendReservesHome cap with
  | true => simp
  | false =>
    rw [if_neg Bool.false_ne_true, Bool.false_or]
    obtain ⟨j, hj⟩ := firstFree_isSome (t := t.set k none) (k := k) (by simp) hres
    rw [hj]
    dsimp only
    obtain ⟨hfree, hbelow⟩ := firstFree_eq_some.mp hj
    rw [isFree_set_none hres] at hfree
    have hocc : t.isFree k = false := by
      unfold isFree
      rw [hk]
      rfl
    by_cases hjk : j = k
    · subst hjk
      have hback : (t.set j none).set j (some cap) = t := by
        have hslot := Function.update_eq_self j t.slots
        rw [hk] at hslot
        unfold set
        rw [Function.update_idem, hslot]
      simp only [hback, true_iff]
      cases hfirst : t.firstFree with
      | none => rfl
      | some i =>
        obtain ⟨hi, -⟩ := firstFree_eq_some.mp hfirst
        rw [Option.all_some, decide_eq_true_iff]
        by_contra hlt
        have hno := hbelow i (lt_of_not_ge hlt)
        rw [isFree_set_none hres, hi, Bool.or_true] at hno
        cases hno
    · have hfree' : t.isFree j = true := by simpa [hjk] using hfree
      have hlt : j < k := by
        by_contra hge
        have hno := hbelow k (lt_of_le_of_ne (le_of_not_gt hge) fun heq => hjk heq.symm)
        rw [isFree_set_none hres, beq_self_eq_true, Bool.true_or] at hno
        cases hno
      constructor
      · intro heq
        -- The slot itself is empty now.
        have hslot : ((t.set k none).set j (some cap)).slots k = none := by
          rw [set_slots, Function.update_of_ne (fun h => hjk h.symm), set_slots,
            Function.update_self]
        rw [heq, hk] at hslot
        cases hslot
      · intro hall
        obtain ⟨i, hi⟩ := firstFree_isSome (t := t) (k := j) (by
          unfold isFree at hfree'
          rw [Bool.and_eq_true, Option.isNone_iff_eq_none] at hfree'
          exact hfree'.1) (by
          unfold isFree at hfree'
          rw [Bool.and_eq_true, Bool.not_eq_true'] at hfree'
          exact hfree'.2)
        rw [hi, Option.all_some, decide_eq_true_iff] at hall
        obtain ⟨-, hmin⟩ := firstFree_eq_some.mp hi
        have hno := hmin j (lt_of_lt_of_le hlt hall)
        rw [hfree'] at hno
        cases hno

end CapTable

namespace Kernel

variable {s t : Kernel} {core : Core} {proc x : Process} {k : CapSlot} {cap : Capability}
  {ep : EndpointId} {ipc : Ipc} {id : ProcSlot}

/-! ### What is restored -/

/-- The state `t` has the process table, the capability tables, the endpoints and the allocated
frames of `s`. -/
structure Restored (s t : Kernel) : Prop where
  table : t.procs.table = s.procs.table
  currentSlot : t.procs.currentSlot = s.procs.currentSlot
  caps : ∀ c, (t.procs.current c).map Process.caps = (s.procs.current c).map Process.caps
  inUse : ∀ id, (t.ipc.endpoints id).inUse = (s.ipc.endpoints id).inUse
  endpoints : ∀ id, (s.ipc.endpoints id).inUse = true → t.ipc.endpoints id = s.ipc.endpoints id
  links : t.ipc.links = s.ipc.links
  frames : ∀ a, t.mem.fa.marked a = s.mem.fa.marked a

theorem restored_self (s : Kernel) : s.Restored s :=
  ⟨rfl, rfl, fun _ => rfl, fun _ => rfl, fun _ _ => rfl, rfl, fun _ => rfl⟩

/-! ### The calls -/

/-- The two calls that spawn a process. -/
inductive SpawnCall where
  /-- `sys_spawn`. -/
  | embedded (binary : Option (Option Image))
  /-- `sys_spawn_from_buffer`. -/
  | buffer (bufVa len : Nat) (image : Option Image)

/-- A spawn by the process on `core`. -/
def spawnCall (s : Kernel) (core : Core) (call : SpawnCall) (transferSlot : Nat) : Nat × Kernel :=
  match call with
  | .embedded binary => s.sysSpawn core binary transferSlot
  | .buffer bufVa len image => s.sysSpawnFromBuffer core bufVa len image transferSlot

/-- The verdict of the parser on the image of the call, if its arguments are accepted. -/
def launches (s : Kernel) (core : Core) (call : SpawnCall) : Option (Option Image) :=
  match call with
  | .embedded binary => binary
  | .buffer bufVa len image =>
    if len = 0 ∨ maxSpawnElf < len ∨ bufVa % frameSize ≠ 0 ∨
        ¬ (userMapBase ≤ bufVa ∧ bufVa + len - 1 < userMapEnd) then none
    else
      match s.procs.current core with
      | none => none
      | some proc =>
        if s.mem.pagesAccessible proc.l4 bufVa (pagesTouched bufVa len) then some image else none

theorem spawnCall_eq (s : Kernel) (core : Core) (call : SpawnCall) (slot : Nat) :
    s.spawnCall core call slot =
      match s.launches core call with
      | none => (errCode, s)
      | some image => s.spawnScheduled core image slot := by
  unfold spawnCall launches
  cases call with
  | embedded binary =>
    cases binary with
    | none => rfl
    | some image => rfl
  | buffer bufVa len image =>
    dsimp only
    unfold sysSpawnFromBuffer
    split
    · rfl
    · cases s.procs.current core with
      | none => rfl
      | some proc =>
        dsimp only
        split
        · rfl
        · rfl

/-! ### The condition -/

/-- How the set-up of a child with this image ends: it needs a free slot of the process table
first. -/
def spawnEnd (s : Kernel) (image : Option Image) : LoadEnd :=
  match s.procs.findFreeSlot with
  | none => .refused
  | some _ => s.mem.loadEnd image

/-- The caller has a slot for its handle on the result endpoint: a free one, or the one that the
transfer leaves free. -/
def roomForHandle (t : CapTable) (slot : Nat) : Bool :=
  t.firstFree.isSome || (t.peek slot).any fun cap => !lendReservesHome cap

/-- The rollback returns the capability of this slot to the slot. -/
def returnsInPlace (t : CapTable) (slot : Nat) : Bool :=
  (t.peek slot).all fun cap =>
    lendReservesHome cap || t.firstFree.all fun j : CapSlot => decide (slot ≤ j.val)

/-- If the spawn fails, then nothing of it is left. -/
def spawnsCleanly (s : Kernel) (core : Core) (call : SpawnCall) (slot : Nat) : Bool :=
  match s.launches core call, s.procs.current core with
  | some image, some proc =>
    s.ipc.createEndpoint.isNone ||
      match s.spawnEnd image with
      | .loads => roomForHandle proc.caps slot
      | .refused => returnsInPlace proc.caps slot
      | .leaks => false
  | _, _ => true

/-! ### The parts of the call -/

/-- A spawn takes the capability that the caller has in the slot. -/
theorem takeForSpawn_peek (slot : Nat) (hc : s.procs.current core = some proc) :
    (s.takeForSpawn core slot).1 = proc.caps.peek slot := by
  unfold takeForSpawn
  split
  · rename_i herr
    subst herr
    rfl
  · unfold giveFromCurrent
    rw [hc]
    dsimp only
    unfold revokeAndUnmapForLend revokeAndUnmap CapTable.revoke CapTable.peek
    cases hslot : capSlot? slot with
    | none => rfl
    | some k =>
      dsimp only [Option.bind_some]
      cases hk : proc.caps.slots k with
      | none => rfl
      | some cap =>
        dsimp only [Option.map_some, Option.getD_some]
        by_cases hkind : lendReservesHome cap = true
        · rw [if_pos hkind]
        · rw [if_neg hkind]

theorem giveAway_giveOut (m : Mem) (proc : Process) (k : CapSlot) (cap : Capability) :
    (giveAway m proc k cap).1.caps = proc.caps.giveOut k cap ∧
      (giveAway m proc k cap).2.fa = m.fa := by
  unfold giveAway CapTable.giveOut
  dsimp only
  split
  · simp
  · simp

/-- The set-up of the child ends as `spawnEnd` says. -/
theorem schedSpawn_ends (s : Kernel) (image : Option Image) (caps : List Capability)
    (hlen : caps.length < maxCaps) :
    let r := s.schedSpawn image caps
    match s.spawnEnd image with
    | .loads => ∃ id, r.1 = some id ∧ s.procs.state id = .empty ∧ r.2.procs.state id = .ready ∧
        r.2.procs.current = s.procs.current
    | .refused => ∃ mem, r = (none, { s with mem }) ∧ ∀ b, mem.fa.marked b = s.mem.fa.marked b
    | .leaks => ∃ mem a, r = (none, { s with mem }) ∧
        mem.fa.marked a = s.mem.fa.marked a + 1 := by
  unfold spawnEnd schedSpawn
  cases hfind : s.procs.findFreeSlot with
  | none => exact ⟨s.mem, rfl, fun _ => rfl⟩
  | some id =>
    have hstate : s.procs.state id = .empty := by
      have hfree := List.find?_some hfind
      simpa using hfree
    dsimp only
    unfold setupProcess
    cases hcreate : s.mem.createAddressSpace with
    | none =>
      rw [createAddressSpace_none hcreate image]
      exact ⟨s.mem, rfl, fun _ => rfl⟩
    | some r =>
      obtain ⟨l4, m⟩ := r
      have hends := loadAndMap_ends hcreate image
      dsimp only at hends ⊢
      rcases hload : loadAndMap m image l4 with ⟨entry, mem, boot⟩
      rw [hload] at hends
      dsimp only at hends
      cases hend : s.mem.loadEnd image with
      | loads =>
        rw [hend] at hends
        obtain ⟨e, rfl⟩ := Option.isSome_iff_exists.mp hends
        obtain ⟨t, ipc, hin⟩ := installGrants_some caps (t := spawnProcess.caps) s.ipc
          (fun _ => rfl) (by rw [spawnProcess_used]; omega)
        dsimp only
        rw [hin]
        refine ⟨id, rfl, hstate, ?_, rfl⟩
        unfold Procs.state
        dsimp only
        rw [Procs.setSlot_table_self]
      | refused =>
        rw [hend] at hends
        obtain ⟨rfl, hmarks⟩ := hends
        exact ⟨_, rfl, hmarks⟩
      | leaks =>
        rw [hend] at hends
        obtain ⟨rfl, a, hmarks⟩ := hends
        refine ⟨_, a, rfl, ?_⟩
        rw [hmarks a, List.count_singleton_self]

/-- The rollback of the transfer puts the capability back into the table of the caller. -/
theorem undoTransfer_eq {t : CapTable} (hc : s.procs.current core = some x)
    (hx : x.caps = t.giveOut k cap) (hk : t.slots k = some cap) (hres : t.reserved k = false) :
    s.undoTransfer core k cap = { s with
      procs := s.procs.setCurrent core (some (x.setCaps (t.takeBack k cap)))
      ipc := s.ipc.noteCapAdded cap } := by
  unfold CapTable.giveOut at hx
  unfold undoTransfer CapTable.takeBack
  rw [hc]
  dsimp only [Option.bind_some]
  by_cases hkind : lendReservesHome cap = true
  · rw [if_pos hkind] at hx
    have hin := CapTable.reclaimTo_of_reserved (t := x.caps) (k := k) cap
      (by rw [hx]; simp [CapTable.mark]) (by rw [hx]; simp [CapTable.mark])
    have hback : (x.caps.set k (some cap)).mark k false = t := by
      have hslot := Function.update_eq_self k t.slots
      have hmark := Function.update_eq_self k t.reserved
      rw [hk] at hslot
      rw [hres] at hmark
      rw [hx]
      unfold CapTable.mark CapTable.set
      simp only [Function.update_idem, hslot, hmark]
    rw [hin, Option.isSome_some, if_pos rfl, if_pos hkind]
    unfold Procs.onCurrent
    rw [hc]
    dsimp only
    rw [hin, hback]
  · rw [if_neg hkind] at hx
    have hfree : x.caps.reserved k = false := by
      rw [hx]
      exact hres
    have hno := CapTable.reclaimTo_of_unreserved cap hfree
    have hclear : x.caps.clearReservation k = x.caps := by
      unfold CapTable.clearReservation
      rw [capSlot?_val]
      exact CapTable.mark_self hfree
    have hkeep : s.procs.setCurrent core (some (x.setCaps x.caps)) = s.procs := by
      unfold Procs.setCurrent
      rw [show x.setCaps x.caps = x from rfl, ← hc, Function.update_eq_self]
    rw [hno, Option.isSome_none, if_neg Bool.false_ne_true, if_neg hkind]
    unfold restoreToCurrent Procs.onCurrent
    rw [hc]
    dsimp only
    rw [hno]
    dsimp only
    rw [hclear, hkeep, hc]
    dsimp only
    obtain ⟨j, hj⟩ := CapTable.firstFree_isSome (t := t.set k none) (k := k) (by simp) hres
    rw [CapTable.reclaim_eq, hx, hj]
    rfl

/-- The end of the call: the handle of the caller. -/
theorem handle_restored (ep : EndpointId) (hx : t.procs.current core = some x)
    (hid : s.procs.state id = .empty) (hready : t.procs.state id = .ready) :
    let r : Nat × Kernel :=
      match t.procs.onCurrent core fun caps => (caps.mint (.endpoint ep) rightRecv).toOption with
      | some (h, procs) =>
        (h, { t with procs, ipc := t.ipc.noteCapAdded ⟨.endpoint ep, rightRecv, none⟩ })
      | none => (errCode, t)
    (r.1 = errCode → s.Restored r.2) ↔ x.caps.firstFree.isSome = true := by
  unfold Procs.onCurrent CapTable.mint CapTable.install
  rw [hx]
  dsimp only
  cases hfree : x.caps.firstFree with
  | some j =>
    simp only [Except.toOption, Option.isSome_some, iff_true]
    intro herr
    have hlt := j.isLt
    unfold errCode u64Max at herr
    unfold maxCaps at hlt
    omega
  | none =>
    simp only [Except.toOption, Option.isSome_none, Bool.false_eq_true, iff_false]
    intro hrest
    have htable := (hrest trivial).table
    unfold Procs.state at hid hready
    rw [htable, hid] at hready
    cases hready

/-! ### The endpoints -/

/-- The result endpoint that was just created is free again after the release. -/
theorem release_created (hcreate : s.ipc.createEndpoint = some (ep, ipc)) :
    (ipc.releaseEndpoint ep).links = s.ipc.links ∧ ∀ id, (ipc.releaseEndpoint ep).endpoints id =
      if id = ep then Endpoint.empty else s.ipc.endpoints id := by
  obtain ⟨-, rfl⟩ := Ipc.createEndpoint_some hcreate
  unfold Ipc.releaseEndpoint
  rw [Ipc.setEndpoint_self, if_pos (by rfl)]
  refine ⟨rfl, fun id => ?_⟩
  by_cases hid : id = ep
  · subst hid
    rw [Ipc.setEndpoint_self, if_pos rfl]
  · rw [Ipc.setEndpoint_of_ne _ _ hid, Ipc.setEndpoint_of_ne _ _ hid, if_neg hid]

/-- A capability that was given away and comes back counts as before. -/
theorem release_lent (hcreate : s.ipc.createEndpoint = some (ep, ipc)) (hcov : s.ipc.Covers cap)
    (hne : cap.object ≠ .endpoint ep) :
    (((ipc.noteCapRemoved cap false).releaseEndpoint ep).noteCapAdded cap).links = s.ipc.links ∧
      ∀ id, (((ipc.noteCapRemoved cap false).releaseEndpoint ep).noteCapAdded cap).endpoints id =
        if id = ep then Endpoint.empty else s.ipc.endpoints id := by
  obtain ⟨hlinks, hends⟩ := release_created hcreate
  obtain ⟨-, rfl⟩ := Ipc.createEndpoint_some hcreate
  have hzero : ∀ right, reachWeight ep right cap = 0 := fun right =>
    Ipc.reachWeight_of_ne right hne
  have hcov' : (s.ipc.setEndpoint ep { Endpoint.empty with inUse := true }).Covers cap := by
    intro id
    by_cases hid : id = ep
    · subst hid
      rw [hzero, hzero]
      exact ⟨Nat.zero_le _, Nat.zero_le _⟩
    · rw [Ipc.setEndpoint_of_ne _ _ hid]
      exact hcov id
  have hremoved := Ipc.noteCapRemoved_endpoints hcov' ep
  rw [hzero, hzero, Ipc.setEndpoint_self] at hremoved
  have hrelease : ((s.ipc.setEndpoint ep { Endpoint.empty with inUse := true }).noteCapRemoved cap
      false).releaseEndpoint ep = ((s.ipc.setEndpoint ep
        { Endpoint.empty with inUse := true }).noteCapRemoved cap false).setEndpoint ep
          Endpoint.empty := by
    unfold Ipc.releaseEndpoint
    rw [hremoved, if_pos (by rfl)]
  rw [hrelease]
  refine ⟨?_, fun id => ?_⟩
  · rw [Ipc.noteCapAdded_links, Ipc.setEndpoint_links, Ipc.noteCapRemoved_links,
      Ipc.setEndpoint_links]
  · rw [Ipc.noteCapAdded_endpoints]
    by_cases hid : id = ep
    · subst hid
      rw [Ipc.setEndpoint_self, if_pos rfl, hzero, hzero]
      rfl
    · obtain ⟨hs, hr⟩ := hcov id
      rw [if_neg hid, Ipc.setEndpoint_of_ne _ _ hid, Ipc.noteCapRemoved_endpoints hcov' id,
        Ipc.setEndpoint_of_ne _ _ hid]
      dsimp only
      rw [Nat.sub_add_cancel hs, Nat.sub_add_cancel hr]

/-- An endpoint that the call took into use and gave back is as before. -/
theorem restored_ends {ipc' : Ipc} (hfree : (s.ipc.endpoints ep).inUse = false)
    (h : ∀ id, ipc'.endpoints id = if id = ep then Endpoint.empty else s.ipc.endpoints id) :
    (∀ id, (ipc'.endpoints id).inUse = (s.ipc.endpoints id).inUse) ∧
      ∀ id, (s.ipc.endpoints id).inUse = true → ipc'.endpoints id = s.ipc.endpoints id := by
  refine ⟨fun id => ?_, fun id huse => ?_⟩
  · rw [h id]
    by_cases hid : id = ep
    · rw [if_pos hid, hid, hfree]
      rfl
    · rw [if_neg hid]
  · rw [h id]
    by_cases hid : id = ep
    · rw [hid, hfree] at huse
      cases huse
    · rw [if_neg hid]

/-! ### The whole call -/

/-- A spawn without a transfer. -/
theorem spawnAlone_restored (hc : s.procs.current core = some proc)
    (hcreate : s.ipc.createEndpoint = some (ep, ipc)) (image : Option Image) {slot : Nat}
    (htake : ({ s with ipc } : Kernel).takeForSpawn core slot = (none, { s with ipc })) :
    ((s.spawnScheduled core image slot).1 = errCode →
        s.Restored (s.spawnScheduled core image slot).2) ↔
      (match s.spawnEnd image with
        | .loads => proc.caps.firstFree.isSome
        | .refused => true
        | .leaks => false) = true := by
  obtain ⟨hfree, -⟩ := Ipc.createEndpoint_some hcreate
  obtain ⟨hlinks, hends⟩ := release_created hcreate
  obtain ⟨huse, heq⟩ := restored_ends hfree hends
  have hsched := schedSpawn_ends { s with ipc } image [⟨.endpoint ep, rightSend, none⟩]
    (by rw [List.length_singleton]; decide)
  unfold spawnScheduled
  rw [hcreate]
  dsimp only
  rw [htake]
  dsimp only [Option.map_none]
  rw [show [some ⟨.endpoint ep, rightSend, none⟩, none].reduceOption =
    [(⟨.endpoint ep, rightSend, none⟩ : Capability)] from rfl]
  change match s.spawnEnd image with | .loads => _ | .refused => _ | .leaks => _ at hsched
  cases hend : s.spawnEnd image with
  | loads =>
    rw [hend] at hsched
    obtain ⟨id, hid, hempty, hready, hcurrent⟩ := hsched
    have hhandle := handle_restored (s := s) ep
      (t := (({ s with ipc } : Kernel).schedSpawn image [⟨.endpoint ep, rightSend, none⟩]).2)
      (by rw [hcurrent]; exact hc) hempty hready
    rcases hr : ({ s with ipc } : Kernel).schedSpawn image [⟨.endpoint ep, rightSend, none⟩]
      with ⟨child, s'⟩
    rw [hr] at hid hhandle
    obtain rfl : child = some id := hid
    exact hhandle
  | refused =>
    rw [hend] at hsched
    obtain ⟨mem, hr, hmarks⟩ := hsched
    rw [hr]
    simp only [iff_true]
    exact fun _ => ⟨rfl, rfl, fun _ => rfl, huse, heq, hlinks, hmarks⟩
  | leaks =>
    rw [hend] at hsched
    obtain ⟨mem, a, hr, hmarks⟩ := hsched
    rw [hr]
    simp only [Bool.false_eq_true, iff_false]
    intro hrest
    have hframe := (hrest trivial).frames a
    dsimp only at hframe hmarks
    omega

theorem loadEnd_of_fa {m m' : Mem} (h : m'.fa = m.fa) (image : Option Image) :
    m'.loadEnd image = m.loadEnd image := by
  unfold Mem.loadEnd
  rw [h]

/-- The running processes with the table of one of them replaced. -/
theorem setCurrent_caps_iff (hc : s.procs.current core = some proc) (y : Process) :
    (∀ c, ((s.procs.setCurrent core (some y)).current c).map Process.caps =
      (s.procs.current c).map Process.caps) ↔ y.caps = proc.caps := by
  constructor
  · intro h
    have hcore := h core
    rw [Procs.setCurrent_current_self, hc] at hcore
    exact Option.some.inj hcore
  · intro h c
    unfold Procs.setCurrent
    dsimp only
    by_cases hcore : c = core
    · subst hcore
      rw [Function.update_self, hc, Option.map_some, Option.map_some, h]
    · rw [Function.update_of_ne hcore]

/-- A spawn with a transfer. -/
theorem spawnLending_restored (hc : s.procs.current core = some proc)
    (hk : proc.caps.slots k = some cap) (hres : proc.caps.reserved k = false)
    (hcov : s.ipc.Covers cap) (hcreate : s.ipc.createEndpoint = some (ep, ipc))
    (hne : cap.object ≠ .endpoint ep) (image : Option Image)
    (htake : ({ s with ipc } : Kernel).takeForSpawn core k =
      (some cap, ({ s with ipc } : Kernel).gave core proc k cap)) :
    ((s.spawnScheduled core image k).1 = errCode →
        s.Restored (s.spawnScheduled core image k).2) ↔
      (match s.spawnEnd image with
        | .loads => proc.caps.firstFree.isSome || !lendReservesHome cap
        | .refused => lendReservesHome cap || proc.caps.firstFree.all fun j => decide (k ≤ j)
        | .leaks => false) = true := by
  obtain ⟨hfree, -⟩ := Ipc.createEndpoint_some hcreate
  obtain ⟨hlinks, hends⟩ := release_lent hcreate hcov hne
  obtain ⟨huse, heq⟩ := restored_ends hfree hends
  obtain ⟨hcaps, hfa⟩ := giveAway_giveOut s.mem proc k cap
  have hrunning : (({ s with ipc } : Kernel).gave core proc k cap).procs.current core =
      some (giveAway s.mem proc k cap).1 := Procs.setCurrent_current_self ..
  have hsched := schedSpawn_ends (({ s with ipc } : Kernel).gave core proc k cap) image
    [⟨.endpoint ep, rightSend, none⟩, spawnLoan cap (s.procs.currentSlot core) k]
    (by rw [List.length_cons, List.length_singleton]; decide)
  have hsame : (({ s with ipc } : Kernel).gave core proc k cap).spawnEnd image =
      s.spawnEnd image := by
    unfold spawnEnd
    rw [show (({ s with ipc } : Kernel).gave core proc k cap).mem.loadEnd image =
      s.mem.loadEnd image from loadEnd_of_fa hfa image]
    rfl
  unfold spawnScheduled
  rw [hcreate]
  dsimp only
  rw [htake]
  dsimp only [Option.map_some]
  rw [show [some ⟨.endpoint ep, rightSend, none⟩,
      some (spawnLoan cap ((({ s with ipc } : Kernel).gave core proc k cap).procs.currentSlot core)
        k)].reduceOption =
    [(⟨.endpoint ep, rightSend, none⟩ : Capability),
      spawnLoan cap (s.procs.currentSlot core) k] from rfl]
  dsimp only at hsched
  rw [hsame] at hsched
  have hundo : ∀ u : Kernel, u.procs = (({ s with ipc } : Kernel).gave core proc k cap).procs →
      u.undoTransfer core k cap = { u with
        procs := u.procs.setCurrent core
          (some ((giveAway s.mem proc k cap).1.setCaps (proc.caps.takeBack k cap)))
        ipc := u.ipc.noteCapAdded cap } :=
    fun u hu => undoTransfer_eq (by rw [hu]; exact hrunning) hcaps hk hres
  cases hend : s.spawnEnd image with
  | loads =>
    rw [hend] at hsched
    obtain ⟨id, hid, hempty, hready, hcurrent⟩ := hsched
    have hhandle := handle_restored (s := s) ep
      (t := ((({ s with ipc } : Kernel).gave core proc k cap).schedSpawn image
        [⟨.endpoint ep, rightSend, none⟩, spawnLoan cap (s.procs.currentSlot core) k]).2)
      (by rw [hcurrent]; exact hrunning) hempty hready
    rcases hr : (({ s with ipc } : Kernel).gave core proc k cap).schedSpawn image
      [⟨.endpoint ep, rightSend, none⟩, spawnLoan cap (s.procs.currentSlot core) k]
      with ⟨child, s'⟩
    rw [hr] at hid hhandle
    obtain rfl : child = some id := hid
    rw [← CapTable.giveOut_firstFree_isSome hk hres, ← hcaps]
    exact hhandle
  | refused =>
    rw [hend] at hsched
    obtain ⟨mem, hr, hmarks⟩ := hsched
    rw [hr]
    dsimp only
    rw [hundo]
    swap
    · rfl
    have hiff := setCurrent_caps_iff hc
      ((giveAway s.mem proc k cap).1.setCaps (proc.caps.takeBack k cap))
    rw [Process.setCaps_caps] at hiff
    rw [← CapTable.takeBack_eq_iff hk hres, ← hiff]
    have hprocs : (({ s with ipc } : Kernel).gave core proc k cap).procs.setCurrent core
        (some ((giveAway s.mem proc k cap).1.setCaps (proc.caps.takeBack k cap))) =
      s.procs.setCurrent core
        (some ((giveAway s.mem proc k cap).1.setCaps (proc.caps.takeBack k cap))) := by
      unfold gave Procs.setCurrent
      dsimp only
      rw [Function.update_idem]
    dsimp only
    rw [hprocs]
    constructor
    · exact fun hrest => (hrest rfl).caps
    · intro hback _
      refine ⟨rfl, rfl, hback, huse, heq, hlinks, fun b => ?_⟩
      rw [hmarks b]
      exact congrArg (fun fa : FrameAlloc => fa.marked b) hfa
  | leaks =>
    rw [hend] at hsched
    obtain ⟨mem, a, hr, hmarks⟩ := hsched
    rw [hr]
    dsimp only
    rw [hundo]
    swap
    · rfl
    simp only [Bool.false_eq_true, iff_false]
    intro hrest
    have hframe := (hrest trivial).frames a
    have hold : (({ s with ipc } : Kernel).gave core proc k cap).mem.fa = s.mem.fa := hfa
    rw [hold] at hmarks
    dsimp only at hframe
    omega

/-- A spawn that fails leaves everything as it was exactly if `spawnsCleanly` says so. -/
theorem spawn_atomic_iff (hs : Reachable system always s) (hc : s.procs.current core = some proc)
    (call : SpawnCall) (slot : Nat) :
    ((s.spawnCall core call slot).1 = errCode → s.Restored (s.spawnCall core call slot).2) ↔
      s.spawnsCleanly core call slot = true := by
  have hgood := good_of_reachable hs
  have hproc := hgood.proc_of_current hc
  rw [spawnCall_eq]
  unfold spawnsCleanly
  rw [hc]
  cases s.launches core call with
  | none => exact iff_of_true (fun _ => s.restored_self) rfl
  | some image =>
    dsimp only
    cases hcreate : s.ipc.createEndpoint with
    | none =>
      rw [Option.isNone_none, Bool.true_or]
      refine iff_of_true (fun _ => ?_) rfl
      unfold spawnScheduled
      rw [hcreate]
      exact s.restored_self
    | some r =>
      obtain ⟨ep, ipc⟩ := r
      rw [Option.isNone_some, Bool.false_or]
      have hpeek := takeForSpawn_peek (s := { s with ipc }) slot hc
      rcases takeForSpawn_cases { s with ipc } slot hc with hnone | ⟨k, cap, rfl, hk, htake⟩
      · rw [hnone] at hpeek
        rw [spawnAlone_restored hc hcreate image hnone]
        unfold roomForHandle returnsInPlace
        rw [← hpeek, Option.any_none, Option.all_none, Bool.or_false]
      · rw [htake] at hpeek
        have hres : proc.caps.reserved k = false := by
          by_contra hyes
          rw [Bool.not_eq_false] at hyes
          rw [hgood.base.sound.reserved _ _ hproc k hyes] at hk
          cases hk
        have hcov : s.ipc.Covers cap := hgood.rep.ipc.covers fun id right => by
          have hle := le_liveTotal (reachWeight id right) hproc hk
          unfold peers
          omega
        have hne : cap.object ≠ .endpoint ep := by
          intro hobj
          have hzero := hgood.base.unnamed (Ipc.createEndpoint_some hcreate).1
          have hle := le_liveTotal (objWeight (.endpoint ep)) hproc hk
          rw [objWeight, if_pos hobj] at hle
          unfold Holdings.total at hzero
          omega
        rw [spawnLending_restored hc hk hres hcov hcreate hne image htake]
        unfold roomForHandle returnsInPlace
        rw [← hpeek, Option.any_some, Option.all_some]
        rfl

/-- A process with a frame, in the slot after its CPU budget. -/
def oneFrameRun : List Label := [.run 0 [some smallImage] [], .frameAlloc 0]

/-- A spawn of an image that the parser refuses gives the frame back. -/
theorem spawn_atomic_oneFrame :
    ((smallMachine.runFrom oneFrameRun).spawnCall 0 (.embedded (some none)) 1).1 = errCode ∧
      (smallMachine.runFrom oneFrameRun).Restored
        ((smallMachine.runFrom oneFrameRun).spawnCall 0 (.embedded (some none)) 1).2 := by
  have herr : ((smallMachine.runFrom oneFrameRun).spawnCall 0 (.embedded (some none)) 1).1 =
      errCode := by decide +kernel
  have hruns : ((smallMachine.runFrom oneFrameRun).procs.current 0).isSome = true := by
    decide +kernel
  obtain ⟨proc, hproc⟩ := Option.isSome_iff_exists.mp hruns
  exact ⟨herr, (spawn_atomic_iff (reachable_small oneFrameRun) hproc _ 1).mpr (by decide +kernel)
    herr⟩

/-- A process with a full table. -/
def fullTableRun : List Label :=
  .run 0 [some smallImage] [] :: List.replicate 15 (.frameAlloc 0)

/-- It spawns a child and is told `ERR`, but the child runs. -/
theorem fullTableRun_spawns :
    ((smallMachine.runFrom fullTableRun).spawnCall 0 (.embedded (some (some smallImage)))
        errCode).1 = errCode ∧
      (smallMachine.runFrom fullTableRun).procs.state 1 = .empty ∧
      ((smallMachine.runFrom fullTableRun).spawnCall 0 (.embedded (some (some smallImage)))
        errCode).2.procs.state 1 = .ready ∧
      ¬ (smallMachine.runFrom fullTableRun).Restored
        ((smallMachine.runFrom fullTableRun).spawnCall 0 (.embedded (some (some smallImage)))
          errCode).2 := by
  have hbefore : (smallMachine.runFrom fullTableRun).procs.state 1 = .empty := by decide +kernel
  have hafter : ((smallMachine.runFrom fullTableRun).spawnCall 0
      (.embedded (some (some smallImage))) errCode).2.procs.state 1 = .ready := by decide +kernel
  refine ⟨by decide +kernel, hbefore, hafter, fun hrest => ?_⟩
  unfold Procs.state at hbefore hafter
  rw [hrest.table, hbefore] at hafter
  cases hafter

end Kernel

end Plinth
