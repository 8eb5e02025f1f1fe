import Plinth.Refine.Calls
import Plinth.Refine.Permits

/-!
# `Plinth.Refine.Transfer`: the transfer of a capability by message

Both directions of a transfer (`transferCurrentToBlocked` and `transferBlockedToCurrent`) take
the capability from the giver and then end in one of three ways. `transfer_path` is this case
split on an abstract write of the two processes, and the two functions are instances of it.
-/

set_option autoImplicit false

namespace Plinth

variable {g : Guard} {v : Ledger} {s : Kernel} {gone : Option ProcSlot} {core : Core}
  {p q : ProcSlot} {proc procq : Process} {k : CapSlot} {cap : Capability} {P' : Procs}

/-! ### The halves of a transfer -/

theorem revokeAndUnmapForLend_of_slot (m : Mem) (hk : proc.caps.slots k = some cap) :
    revokeAndUnmapForLend m proc k = some (cap, giveAway m proc k cap) := by
  unfold revokeAndUnmapForLend revokeAndUnmap giveAway
  rw [CapTable.revoke_of_slot hk, CapTable.peek_of_slot, hk]
  dsimp only [Option.map_some, Option.getD_some]
  split
  · unfold CapTable.reserve
    rw [capSlot?_val]
  · rfl

/-- A process gives a capability away, or the slot names none. -/
theorem revokeAndUnmapForLend_cases (m : Mem) (proc : Process) (slot : Nat) :
    revokeAndUnmapForLend m proc slot = none ∨
      ∃ (k : CapSlot) (cap : Capability), slot = k ∧ proc.caps.slots k = some cap ∧
        revokeAndUnmapForLend m proc slot = some (cap, giveAway m proc k cap) := by
  cases hrev : proc.caps.revoke slot with
  | error e =>
    left
    unfold revokeAndUnmapForLend revokeAndUnmap
    rw [hrev]
  | ok r =>
    obtain ⟨cap, t⟩ := r
    obtain ⟨k, rfl, hk, -⟩ := CapTable.revoke_ok hrev
    exact Or.inr ⟨k, cap, rfl, hk, revokeAndUnmapForLend_of_slot m hk⟩

/-- The give half. -/
theorem Rep.give (h : Rep s gone v) (hp : v.proc p = some proc)
    (hk : proc.caps.slots k = some cap)
    (hw : Writes s.procs p (giveAway s.mem proc k cap).1 P') (tr : Option Transit) :
    Rep { s with
        procs := P', mem := (giveAway s.mem proc k cap).2, ipc := s.ipc.noteCapRemoved cap false }
      gone { v with
        proc := Function.update v.proc p (some (giveAway v.mem proc k cap).1)
        mem := (giveAway v.mem proc k cap).2, transit := tr, spent := true } := by
  rw [h.mem]
  refine ⟨h.procs.write (by rw [hp]; exact Option.some_ne_none proc) hw,
    h.ipc.removed fun id right => ?_, rfl, h.rings, h.devs⟩
  have hput := liveTotal_put (reachWeight id right) hp (giveAway s.mem proc k cap).1
  have hgive := procWeight_giveAway (m := s.mem) (reachWeight id right) hk
  unfold peers
  dsimp only
  omega

/-- The install half: the capability enters a table, and the counts are notified. -/
theorem Rep.place (h : Rep s gone v) {lent : Capability} {t : CapTable}
    (hq : v.proc q = some procq) (hin : CapTable.Places procq.caps lent k t)
    (hobj : lent.object = cap.object) (hrights : lent.rights = cap.rights)
    (hw : Writes s.procs q (procq.setCaps t) P') :
    Rep { s with procs := P', ipc := s.ipc.noteCapAdded cap } gone
      { v with proc := Function.update v.proc q (some (procq.setCaps t)), transit := none } := by
  refine ⟨h.procs.write (by rw [hq]; exact Option.some_ne_none procq) hw,
    h.ipc.added fun id right => ?_, h.mem, h.rings, h.devs⟩
  have hlent : reachWeight id right lent = reachWeight id right cap := by
    unfold reachWeight Kernel.reaches
    rw [hobj, hrights]
  unfold peers
  rw [liveTotal_places _ hq hin, hlent]
  dsimp only
  omega

/-- Only an outright owner's capability of a kind that goes home can be lost: every other
transfer leaves the giver a free slot. -/
theorem lendReservesHome_of_full {m : Mem}
    (hfull : (giveAway m proc k cap).1.caps.firstFree = none)
    (hres : proc.caps.reserved k = false) : lendReservesHome cap = true := by
  by_contra hno
  rw [Bool.not_eq_true] at hno
  rcases CapTable.firstFree_none hfull k with hslot | hmark
  · exact hslot giveAway_slot_self
  · rw [giveAway_reserved, hno, if_neg Bool.false_ne_true, hres] at hmark
    cases hmark

theorem not_endpoint_of_lendReservesHome (h : lendReservesHome cap = true) (id : EndpointId) :
    cap.object ≠ .endpoint id := by
  intro heq
  unfold lendReservesHome at h
  rw [heq] at h
  simp [isReclaimableKind] at h

/-! ### The whole transfer -/

/-- `s'` implements a ledger that `v` reaches and that differs in the holdings only. -/
def Transfers (g : Guard) (v : Ledger) (s' : Kernel) : Prop :=
  ∃ h : Holdings, Path g v { v with toHoldings := h } ∧
    Rep s' none { v with toHoldings := h } ∧ h.transit = none ∧ h.held = v.held ∧
    h.dying = v.dying

theorem Transfers.refl (h : Rep s none v) (hnone : v.transit = none) : Transfers g v s :=
  ⟨v.toHoldings, Relation.ReflTransGen.refl, h, hnone, rfl, rfl⟩

/-- The assumptions of a transfer of the capability at slot `k` of `p` to `q`. -/
structure Offer (v : Ledger) (p q : ProcSlot) (proc procq : Process) (k : CapSlot)
    (cap : Capability) : Prop where
  giver : v.proc p = some proc
  receiver : v.proc q = some procq
  ne : p ≠ q
  slot : proc.caps.slots k = some cap
  free : v.Free p
  transit : v.transit = none
  dying : v.dying = none
  spent : v.spent = false

/-- A transfer ends in one of three ways. -/
theorem transfer_path (h : Rep s none v) (hbase : v.Base) (ho : Offer v p q proc procq k cap)
    (hg : g.give v p k (transferFate v.mem proc k cap p q procq))
    (hw : Writes s.procs p (giveAway s.mem proc k cap).1 P') :
    (∀ k' t P'', procq.caps.installHome (cap.lentTo ⟨p, k⟩ q) cap.origin q = some (k', t) →
      Writes P' q (procq.setCaps t) P'' →
      Transfers g v { s with
        procs := P'', mem := (giveAway s.mem proc k cap).2
        ipc := (s.ipc.noteCapRemoved cap false).noteCapAdded cap }) ∧
    (∀ k' t P'', procq.caps.installHome (cap.lentTo ⟨p, k⟩ q) cap.origin q = none →
      (giveAway s.mem proc k cap).1.caps.reclaim cap = some (k', t) →
      Writes P' p ((giveAway s.mem proc k cap).1.setCaps t) P'' →
      Transfers g v { s with
        procs := P'', mem := (giveAway s.mem proc k cap).2
        ipc := (s.ipc.noteCapRemoved cap false).noteCapAdded cap }) ∧
    (procq.caps.installHome (cap.lentTo ⟨p, k⟩ q) cap.origin q = none →
      (giveAway s.mem proc k cap).1.caps.reclaim cap = none →
      Transfers g v { s with
        procs := P', mem := (giveAway s.mem proc k cap).2
        ipc := (s.ipc.noteCapRemoved cap false).noteCapAdded cap }) := by
  obtain ⟨hp, hq, hpq, hk, hfree, htransit, hdying, hspent⟩ := ho
  have hgive := fun tr => h.give hp hk hw tr
  have hact := Act.table (g := g) (TableAct.give hp hk htransit hdying hspent ⟨hfree, hg⟩)
  unfold transferFate at hact
  refine ⟨fun k' t P'' hin hw' => ?_, fun k' t P'' hno hin hw' => ?_, fun hno hfull => ?_⟩
  · rw [hin, Option.isSome_some, if_pos rfl] at hact
    have hq' : Function.update v.proc p (some (giveAway v.mem proc k cap).1) q = some procq := by
      rw [Function.update_of_ne (Ne.symm hpq), hq]
    have hland := fun give take strand => @TableAct.land give take strand
      (⟨Function.update v.proc p (some (giveAway v.mem proc k cap).1),
        (giveAway v.mem proc k cap).2, some ⟨cap, p, k, .land q⟩, v.held, v.dying, true⟩)
      _ _ _ _ _ _ _ rfl hpq hq' hin
    have hplace := (hgive none).place hq' (CapTable.installHome_some hin).1
      (Capability.lentTo_object ..) (Capability.lentTo_rights ..) hw'
    exact ⟨_, (Relation.ReflTransGen.single hact).tail (Act.table (hland _ _ _)), hplace, rfl, rfl,
      rfl⟩
  · rw [hno, Option.isSome_none, if_neg Bool.false_ne_true] at hact
    have hroom : (giveAway v.mem proc k cap).1.caps.firstFree.isSome = true := by
      rw [h.mem]
      by_contra hnone
      rw [Option.not_isSome_iff_eq_none] at hnone
      unfold CapTable.reclaim CapTable.install at hin
      rw [hnone] at hin
      cases hin
    rw [if_pos hroom] at hact
    have hback := fun give take strand => @TableAct.back give take strand
      (⟨Function.update v.proc p (some (giveAway v.mem proc k cap).1),
        (giveAway v.mem proc k cap).2, some ⟨cap, p, k, .back⟩, v.held, v.dying, true⟩)
      _ _ _ _ _ _ rfl (Function.update_self ..) (by rw [h.mem]; exact hin)
    have hplace := (hgive none).place (Function.update_self ..)
      (by rw [h.mem]; exact (CapTable.reclaim_some hin).1) rfl rfl (by rw [h.mem]; exact hw')
    exact ⟨_, (Relation.ReflTransGen.single hact).tail (Act.table (hback _ _ _)), hplace, rfl, rfl,
      rfl⟩
  · rw [hno, Option.isSome_none, if_neg Bool.false_ne_true] at hact
    have hnone := CapTable.reclaim_none hfull
    have hroom : ¬ (giveAway v.mem proc k cap).1.caps.firstFree.isSome = true := by
      rw [h.mem, hnone]
      exact Bool.false_ne_true
    rw [if_neg hroom] at hact
    have hlost := fun give take strand => @TableAct.lost give take strand
      (⟨Function.update v.proc p (some (giveAway v.mem proc k cap).1),
        (giveAway v.mem proc k cap).2, some ⟨cap, p, k, .lost⟩, v.held, v.dying, true⟩)
      _ _ _ _ rfl (Function.update_self ..) (by rw [h.mem]; exact hnone)
    have hres : proc.caps.reserved k = false := by
      by_contra hmark
      rw [Bool.not_eq_false] at hmark
      have hempty := hbase.sound.reserved p proc hp k hmark
      rw [hk] at hempty
      cases hempty
    have hkind := lendReservesHome_of_full hnone hres
    have hsame : (s.ipc.noteCapRemoved cap false).noteCapAdded cap
        = s.ipc.noteCapRemoved cap false :=
      Ipc.noteCapAdded_of_ne _ (not_endpoint_of_lendReservesHome hkind)
    rw [hsame]
    exact ⟨_, (Relation.ReflTransGen.single hact).tail (Act.table (hlost _ _ _)),
      ⟨(hgive none).procs, (hgive none).ipc, (hgive none).mem, h.rings, h.devs⟩, rfl, rfl, rfl⟩

/-! ### The two directions -/

namespace Kernel

theorem transferOf_some {slot : Nat} (hp : s.procs.proc p = some proc)
    (hq : s.procs.proc q = some procq) (hslot : slot = k) (hk : proc.caps.slots k = some cap) :
    s.transferOf p slot q = some (p, k, transferFate s.mem proc k cap p q procq) := by
  unfold transferOf
  subst hslot
  rw [hp, hq, capSlot?_val]
  dsimp only
  rw [hk]
  rfl

/-- The state in which a transfer starts: the other side just left its queue. -/
structure CanTransfer (v : Ledger) : Prop where
  transit : v.transit = none
  dying : v.dying = none
  spent : v.spent = false

theorem transferCurrentToBlocked_transfers (h : Rep s none v) (hbase : v.Base)
    (hv : CanTransfer v) {receiver : ProcSlot} {slot : Nat}
    (hc : s.procs.current core = some proc)
    (hr : (s.procs.table receiver).process = some procq)
    (hg : ∀ p k f, s.transferOf (s.procs.currentSlot core) slot receiver = some (p, k, f) →
      g.give v p k f) :
    Transfers g v (s.transferCurrentToBlocked core receiver slot).2 := by
  unfold transferCurrentToBlocked giveFromCurrent
  rw [hc]
  dsimp only
  rcases revokeAndUnmapForLend_cases s.mem proc slot with hnone | ⟨k, cap, rfl, hk, hrev⟩
  · rw [hnone]
    exact Transfers.refl h hv.transit
  · rw [hrev]
    dsimp only
    have hne := h.procs.placed.ne_of_current_of_table hc (p := receiver)
      (by rw [hr]; exact Option.some_ne_none procq)
    have hoffer : Offer v (s.procs.currentSlot core) receiver proc procq k cap :=
      ⟨h.procs.proc_of_current hc, h.procs.proc_of_table hr, hne, hk,
        Or.inl (by rw [h.procs.state_of_current hc]; exact fun heq => by cases heq),
        hv.transit, hv.dying, hv.spent⟩
    have hw := h.procs.placed.writes_current hc (giveAway s.mem proc k cap).1
    have hguard := hg _ _ _ (transferOf_some (h.procs.placed.proc_of_current hc)
      (h.procs.placed.proc_of_table hr) rfl hk)
    rw [← h.mem] at hguard
    obtain ⟨hland, hback, hlost⟩ := transfer_path h hbase hoffer hguard hw
    rw [Origin.new_fin]
    have hcur := s.procs.setCurrent_current_self core (some (giveAway s.mem proc k cap).1)
    split
    · rename_i landing P hin
      unfold Procs.installIntoBlockedHome at hin
      obtain ⟨x, t, hx, hinst, rfl⟩ := Procs.onTable_eq_some.mp hin
      obtain rfl : procq = x := by simpa using hr.symm.trans hx
      exact hland _ _ _ hinst (hw.placed.writes_table hx _)
    · rename_i hin
      unfold Procs.installIntoBlockedHome at hin
      have hno := (Procs.onTable_eq_none
        (P := s.procs.setCurrent core (some (giveAway s.mem proc k cap).1)) hr).mp hin
      unfold restoreToCurrent
      split
      · rename_i k' P hrestore
        obtain ⟨x, t, hx, hinst, rfl⟩ := Procs.onCurrent_eq_some.mp hrestore
        obtain rfl : (giveAway s.mem proc k cap).1 = x := by simpa using hcur.symm.trans hx
        exact hback _ _ _ hno hinst (hw.placed.writes_current hx _)
      · rename_i hrestore
        exact hlost hno ((Procs.onCurrent_eq_none hcur).mp hrestore)

theorem transferBlockedToCurrent_transfers (h : Rep s none v) (hbase : v.Base)
    (hv : CanTransfer v) {sender : ProcSlot} {slot : Nat}
    (hc : s.procs.current core = some procq)
    (hs : (s.procs.table sender).process = some proc) (hfree : v.Free sender)
    (hg : ∀ p k f, s.transferOf sender slot (s.procs.currentSlot core) = some (p, k, f) →
      g.give v p k f) :
    Transfers g v (s.transferBlockedToCurrent core sender slot).2 := by
  unfold transferBlockedToCurrent giveFromBlocked
  rw [hs]
  dsimp only
  rcases revokeAndUnmapForLend_cases s.mem proc slot with hnone | ⟨k, cap, rfl, hk, hrev⟩
  · rw [hnone]
    exact Transfers.refl h hv.transit
  · rw [hrev]
    dsimp only
    have hne := h.procs.placed.ne_of_current_of_table hc (p := sender)
      (by rw [hs]; exact Option.some_ne_none proc)
    have hoffer : Offer v sender (s.procs.currentSlot core) proc procq k cap :=
      ⟨h.procs.proc_of_table hs, h.procs.proc_of_current hc, Ne.symm hne, hk, hfree,
        hv.transit, hv.dying, hv.spent⟩
    have hw := h.procs.placed.writes_table hs (giveAway s.mem proc k cap).1
    have hguard := hg _ _ _ (transferOf_some (h.procs.placed.proc_of_table hs)
      (h.procs.placed.proc_of_current hc) rfl hk)
    rw [← h.mem] at hguard
    obtain ⟨hland, hback, hlost⟩ := transfer_path h hbase hoffer hguard hw
    rw [Origin.new_fin]
    have htab : ((s.procs.setTableProc sender (some (giveAway s.mem proc k cap).1)).table
        sender).process = some (giveAway s.mem proc k cap).1 := by
      unfold Procs.setTableProc
      rw [Procs.setSlot_table_self]
    split
    · rename_i landing P hin
      obtain ⟨x, t, hx, hinst, rfl⟩ := Procs.onCurrent_eq_some.mp hin
      obtain rfl : procq = x := by simpa using hc.symm.trans hx
      exact hland _ _ _ hinst (hw.placed.writes_current hx _)
    · rename_i hin
      have hno := (Procs.onCurrent_eq_none
        (P := s.procs.setTableProc sender (some (giveAway s.mem proc k cap).1)) hc).mp hin
      unfold restoreToBlocked
      split
      · rename_i k' P hrestore
        unfold Procs.installIntoBlocked at hrestore
        obtain ⟨x, t, hx, hinst, rfl⟩ := Procs.onTable_eq_some.mp hrestore
        obtain rfl : (giveAway s.mem proc k cap).1 = x := by simpa using htab.symm.trans hx
        exact hback _ _ _ hno hinst (hw.placed.writes_table hx _)
      · rename_i hrestore
        unfold Procs.installIntoBlocked at hrestore
        exact hlost hno ((Procs.onTable_eq_none htab).mp hrestore)

end Kernel

end Plinth
