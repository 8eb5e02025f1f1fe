import Plinth.Ledger.Origins

/-!
# `Plinth.Ledger.Loans`: loans and the slots that are reserved for them

A reclaimable capability on loan names its lender and the slot that it left. The lender reserves
that slot. `LoansAt` says that the two match: a slot of a live process is reserved exactly when
one capability on loan names it. A capability in transit counts as if it were lent already.

`Act.loans` says that every action keeps the match, if the guard lets no transfer fail, and no
transfer puts a capability of another kind into a reserved slot (`Guard.KeepsLoans`).
-/

set_option autoImplicit false

namespace Plinth

/-- The capability is on loan from slot `k` of the process in slot `L`. -/
def loanWeight (L : ProcSlot) (k : CapSlot) (cap : Capability) : Nat :=
  if isReclaimableKind cap.object = true ∧ cap.origin = some ⟨L, k⟩ then 1 else 0

/-- The capability in transit, with the loan that the transfer starts. -/
def Transit.lent (tr : Transit) : Capability :=
  if lendReservesHome tr.cap then { tr.cap with origin := some ⟨tr.giver, tr.slot⟩ } else tr.cap

/-- The number of capabilities on loan from slot `k` of the process in slot `L`. -/
def loanTotal (L : ProcSlot) (k : CapSlot) (P : ProcSlot → Option Process)
    (transit : Option Transit) (held : List Capability) : Nat :=
  liveTotal (loanWeight L k) P + listTotal (loanWeight L k) held
    + Tally.entry (fun tr => loanWeight L k tr.lent) transit

section

variable {L : ProcSlot} {k : CapSlot} {cap : Capability}

theorem loanWeight_none (h : cap.origin = none) : loanWeight L k cap = 0 :=
  if_neg fun hboth => by
    rw [h] at hboth
    cases hboth.2

theorem loanWeight_other (h : isReclaimableKind cap.object = false) : loanWeight L k cap = 0 :=
  if_neg fun hboth => by
    rw [h] at hboth
    cases hboth.1

theorem loanWeight_pos : 0 < loanWeight L k cap ↔
    isReclaimableKind cap.object = true ∧ cap.origin = some ⟨L, k⟩ := by
  unfold loanWeight
  split
  · rename_i h
    exact ⟨fun _ => h, fun _ => Nat.one_pos⟩
  · rename_i h
    exact ⟨fun hpos => absurd hpos (Nat.lt_irrefl 0), fun hboth => absurd hboth h⟩

theorem lendReservesHome_iff :
    lendReservesHome cap = true ↔ cap.origin = none ∧ isReclaimableKind cap.object = true := by
  unfold lendReservesHome
  rw [Bool.and_eq_true, Option.isNone_iff_eq_none]

theorem Transit.lent_of_origin {tr : Transit} {o : Origin} (h : tr.cap.origin = some o) :
    tr.lent = tr.cap := by
  unfold Transit.lent
  rw [if_neg]
  intro hlend
  rw [(lendReservesHome_iff.mp hlend).1] at h
  cases h

theorem Transit.lent_of_other {tr : Transit} (h : isReclaimableKind tr.cap.object = false) :
    tr.lent = tr.cap := by
  unfold Transit.lent
  rw [if_neg]
  intro hlend
  rw [(lendReservesHome_iff.mp hlend).2] at h
  cases h

/-- A hop of a capability that does not go home weighs what the transfer promised. -/
theorem loanWeight_lentTo (tr : Transit) {q : ProcSlot}
    (h : ∀ o, tr.cap.origin = some o → o.lender ≠ q) :
    loanWeight L k (tr.cap.lentTo ⟨tr.giver, tr.slot⟩ q) = loanWeight L k tr.lent := by
  rcases lentTo_cases tr.cap ⟨tr.giver, tr.slot⟩ q with ⟨hnone, heq⟩ | ⟨o, ho, hq, -⟩ |
    ⟨o, ho, -, heq⟩
  · rw [heq]
    cases hkind : isReclaimableKind tr.cap.object with
    | true =>
      unfold Transit.lent
      rw [if_pos (lendReservesHome_iff.mpr ⟨hnone, hkind⟩)]
    | false =>
      rw [Transit.lent_of_other hkind, loanWeight_other hkind]
      exact loanWeight_other hkind
  · exact absurd hq (h o ho)
  · rw [heq, Transit.lent_of_origin ho]

theorem loanWeight_spawnLoan (tr : Transit) :
    loanWeight L k (Kernel.spawnLoan tr.cap tr.giver tr.slot) = loanWeight L k tr.lent := by
  rcases spawnLoan_cases tr.cap tr.giver tr.slot with ⟨o, ho, heq⟩ | ⟨hnone, heq⟩
  · rw [heq, Transit.lent_of_origin ho]
  · rw [heq]
    cases hkind : isReclaimableKind tr.cap.object with
    | true =>
      unfold Transit.lent
      rw [if_pos (lendReservesHome_iff.mpr ⟨hnone, hkind⟩)]
    | false =>
      rw [Transit.lent_of_other hkind, loanWeight_other hkind]
      exact loanWeight_other hkind

/-- The transfer ends well: somebody has room, and a capability of another kind does not go to a
reserved slot. -/
structure Transit.Settles (P : ProcSlot → Option Process) (tr : Transit) : Prop where
  room : tr.fate ≠ .back ∧ tr.fate ≠ .lost
  home : ∀ q k proc, tr.fate = .land q → tr.cap.origin = some ⟨q, k⟩ →
    isReclaimableKind tr.cap.object = false → P q = some proc → proc.caps.reserved k = false

/-- A slot of a live process is reserved exactly when a capability on loan names it. -/
structure LoansAt (P : ProcSlot → Option Process) (transit : Option Transit)
    (held : List Capability) : Prop where
  loans : ∀ L proc k, P L = some proc →
    loanTotal L k P transit held = if proc.caps.reserved k = true then 1 else 0
  settles : ∀ tr, transit = some tr → tr.Settles P

/-- The loans of the holdings match. -/
def Holdings.Loans (h : Holdings) : Prop := LoansAt h.proc h.transit h.held

variable {P : ProcSlot → Option Process} {transit transit' : Option Transit}
  {held held' : List Capability} {dying : Option ProcSlot} {p : ProcSlot} {proc proc' : Process}

/-- Nothing is on loan from a slot without a process. -/
theorem SoundAt.loanTotal_dead (h : SoundAt P transit held dying) (hL : P L = none)
    (hdying : dying ≠ some L) : loanTotal L k P transit held = 0 := by
  have hlive : liveTotal (loanWeight L k) P = 0 := by
    by_contra hne
    obtain ⟨p, proc, j, cap, hp, hj, hpos⟩ := liveTotal_pos.mp (Nat.pos_of_ne_zero hne)
    obtain ⟨-, halive⟩ := h.origin p proc j cap _ hp hj (loanWeight_pos.mp hpos).2
    rcases halive with halive | hdie
    · exact halive hL
    · exact hdying hdie
  have hheld : listTotal (loanWeight L k) held = 0 := by
    refine List.sum_eq_zero fun n hn => ?_
    obtain ⟨cap, hmem, rfl⟩ := List.mem_map.mp hn
    by_contra hne
    exact h.held cap hmem _ (loanWeight_pos.mp (Nat.pos_of_ne_zero hne)).2 hL
  have htransit : Tally.entry (fun tr => loanWeight L k tr.lent) transit = 0 := by
    cases htr : transit with
    | none => rfl
    | some tr =>
      obtain ⟨prg, hprg, -, -, horigin⟩ := h.transit tr htr
      rw [Tally.entry_some]
      by_contra hne
      have hlent := (loanWeight_pos.mp (Nat.pos_of_ne_zero hne)).2
      unfold Transit.lent at hlent
      split at hlent
      · -- The loan starts at the giver, which is alive.
        rw [Option.some.injEq, Origin.mk.injEq] at hlent
        rw [hlent.1, hL] at hprg
        cases hprg
      · exact (horigin _ hlent).2 hL
  unfold loanTotal
  omega

/-! ### What keeps the match -/

theorem Transit.Settles.mono {tr : Transit} (h : tr.Settles P) {P' : ProcSlot → Option Process}
    (hres : ∀ q proc' k, P' q = some proc' → proc'.caps.reserved k = true →
      ∃ proc, P q = some proc ∧ proc.caps.reserved k = true) : tr.Settles P' := by
  refine ⟨h.room, fun q j proc hfate ho hkind hq => ?_⟩
  by_contra hne
  rw [Bool.not_eq_false] at hne
  obtain ⟨old, hold, hreserved⟩ := hres q proc j hq hne
  rw [h.home q j old hfate ho hkind hold] at hreserved
  cases hreserved

/-- A write to one process that keeps its reservations and its loans. -/
theorem LoansAt.put (h : LoansAt P transit held) (hp : P p = some proc)
    (htotal : ∀ L k, loanTotal L k (Function.update P p (some proc')) transit' held'
      = loanTotal L k P transit held)
    (hres : proc'.caps.reserved = proc.caps.reserved)
    (htr : ∀ tr, transit' = some tr → transit = some tr) :
    LoansAt (Function.update P p (some proc')) transit' held' := by
  have hback : ∀ q x, Function.update P p (some proc') q = some x →
      ∃ y, P q = some y ∧ x.caps.reserved = y.caps.reserved := by
    intro q x hx
    by_cases hq : q = p
    · rw [hq, Function.update_self, Option.some.injEq] at hx
      rw [hq, ← hx]
      exact ⟨proc, hp, hres⟩
    · rw [Function.update_of_ne hq] at hx
      exact ⟨x, hx, rfl⟩
  refine ⟨fun L x j hL => ?_, fun tr hsome => ?_⟩
  · obtain ⟨y, hy, heq⟩ := hback L x hL
    rw [htotal, heq]
    exact h.loans L y j hy
  · refine (h.settles tr (htr tr hsome)).mono fun q x j hq hj => ?_
    obtain ⟨y, hy, heq⟩ := hback q x hq
    rw [heq] at hj
    exact ⟨y, hy, hj⟩

/-- A placement ends the loan that names its slot, if the slot is reserved. -/
theorem LoansAt.place (h : LoansAt P transit held) {t : CapTable} (hp : P p = some proc)
    (hin : CapTable.Places proc.caps cap k t)
    (htotal : ∀ L j, loanTotal L j (Function.update P p (some (proc.setCaps t))) transit' held'
      + (if L = p ∧ j = k ∧ proc.caps.reserved k = true then 1 else 0)
        = loanTotal L j P transit held)
    (htr : ∀ tr, transit' = some tr → transit = some tr) :
    LoansAt (Function.update P p (some (proc.setCaps t))) transit' held' := by
  refine ⟨fun L x j hL => ?_, fun tr hsome => ?_⟩
  · have hsum := htotal L j
    by_cases hLp : L = p
    · subst hLp
      rw [Function.update_self, Option.some.injEq] at hL
      subst hL
      rw [h.loans L proc j hp] at hsum
      by_cases hj : j = k
      · subst hj
        rw [Process.setCaps_caps, hin.reserved_self]
        simp only [true_and] at hsum
        simp only [Bool.false_eq_true, if_false]
        omega
      · rw [Process.setCaps_caps, hin.reserved_of_ne hj]
        rw [if_neg fun hboth => hj hboth.2.1] at hsum
        exact hsum
    · rw [Function.update_of_ne hLp] at hL
      rw [if_neg fun hboth => hLp hboth.1] at hsum
      rw [h.loans L x j hL] at hsum
      exact hsum
  · refine (h.settles tr (htr tr hsome)).mono fun q x j hq hj => ?_
    by_cases hqp : q = p
    · subst hqp
      rw [Function.update_self, Option.some.injEq] at hq
      subst hq
      by_cases hjk : j = k
      · subst hjk
        rw [Process.setCaps_caps, hin.reserved_self] at hj
        cases hj
      · rw [Process.setCaps_caps, hin.reserved_of_ne hjk] at hj
        exact ⟨proc, hp, hj⟩
    · rw [Function.update_of_ne hqp] at hq
      exact ⟨x, hq, hj⟩

/-- A placement of a capability that is not on loan, in a slot that is not reserved. -/
theorem LoansAt.mint (h : LoansAt P transit held) {t : CapTable} (hp : P p = some proc)
    (hin : CapTable.Places proc.caps cap k t) (hres : proc.caps.reserved k = false)
    (ho : cap.origin = none) :
    LoansAt (Function.update P p (some (proc.setCaps t))) transit held := by
  refine h.place hp hin (fun L j => ?_) fun tr htr => htr
  have hput := liveTotal_places (loanWeight L j) hp hin
  rw [loanWeight_none ho] at hput
  unfold loanTotal
  rw [hput, hres]
  simp

/-- What a transfer leaves behind: if it starts a loan, the slot is reserved for it. -/
theorem LoansAt.give {m : Mem} {f : Fate} (h : LoansAt P none held) (hp : P p = some proc)
    (hk : proc.caps.slots k = some cap) (hunres : proc.caps.reserved k = false)
    (hsettles : Transit.Settles (Function.update P p (some (giveAway m proc k cap).1))
      ⟨cap, p, k, f⟩) :
    LoansAt (Function.update P p (some (giveAway m proc k cap).1)) (some ⟨cap, p, k, f⟩) held := by
  have htotal : ∀ L j, loanTotal L j (Function.update P p (some (giveAway m proc k cap).1))
      (some ⟨cap, p, k, f⟩) held + loanWeight L j cap
        = loanTotal L j P none held + loanWeight L j (Transit.lent ⟨cap, p, k, f⟩) := by
    intro L j
    have hput := liveTotal_put (loanWeight L j) hp (giveAway m proc k cap).1
    have hgone := procWeight_giveAway (m := m) (loanWeight L j) hk
    unfold loanTotal
    rw [Tally.entry_none, Tally.entry_some]
    omega
  refine ⟨fun L x j hL => ?_, fun tr htr => ?_⟩
  · have hsum := htotal L j
    by_cases hlend : lendReservesHome cap = true
    · obtain ⟨horigin, hkind⟩ := lendReservesHome_iff.mp hlend
      have hlent : Transit.lent ⟨cap, p, k, f⟩ = { cap with origin := some ⟨p, k⟩ } :=
        if_pos hlend
      rw [hlent, loanWeight_none horigin, Nat.add_zero] at hsum
      rw [hsum]
      by_cases hLp : L = p
      · subst hLp
        rw [Function.update_self, Option.some.injEq] at hL
        subst hL
        rw [h.loans L proc j hp, giveAway_reserved, if_pos hlend]
        by_cases hj : j = k
        · subst hj
          have hone : loanWeight L j { cap with origin := some ⟨L, j⟩ } = 1 :=
            if_pos ⟨hkind, rfl⟩
          rw [hunres, hone, Function.update_self]
          rfl
        · have hzero : loanWeight L j { cap with origin := some ⟨L, k⟩ } = 0 := by
            refine if_neg fun hboth => hj ?_
            simpa using hboth.2.symm
          rw [hzero, Function.update_of_ne hj, Nat.add_zero]
      · have hzero : loanWeight L j { cap with origin := some ⟨p, k⟩ } = 0 := by
          refine if_neg fun hboth => hLp ?_
          have heq := hboth.2
          simp only [Option.some.injEq, Origin.mk.injEq] at heq
          exact heq.1.symm
        rw [Function.update_of_ne hLp] at hL
        rw [hzero, h.loans L x j hL, Nat.add_zero]
    · -- No loan begins, and the capability counts as before.
      have hlent : Transit.lent ⟨cap, p, k, f⟩ = cap := if_neg hlend
      rw [hlent] at hsum
      rw [Nat.add_right_cancel hsum]
      by_cases hLp : L = p
      · rw [hLp, Function.update_self, Option.some.injEq] at hL
        rw [hLp, ← hL, giveAway_reserved, if_neg hlend]
        exact h.loans p proc j hp
      · rw [Function.update_of_ne hLp] at hL
        exact h.loans L x j hL
  · rw [Option.some.injEq] at htr
    subst htr
    exact hsettles

theorem loanWeight_clearLender (hne : L ≠ p) :
    loanWeight L k (CapTable.clearLender p cap) = loanWeight L k cap := by
  unfold CapTable.clearLender
  split
  · rename_i horigin
    rw [loanWeight_none rfl]
    refine (if_neg fun hboth => hne ?_).symm
    rw [hboth.2, Option.map_some, Option.some.injEq] at horigin
    exact horigin
  · rfl

theorem procWeight_clearOrigin (hne : L ≠ p) (proc : Process) :
    procWeight (loanWeight L k) (proc.setCaps (proc.caps.clearOrigin p))
      = procWeight (loanWeight L k) proc := by
  have htally : Tally.tally (loanWeight L k) (proc.caps.clearOrigin p).slots
      = Tally.tally (loanWeight L k) proc.caps.slots := by
    refine Tally.tally_congr fun j => ?_
    rw [CapTable.clearOrigin_slots]
    cases proc.caps.slots j with
    | none => rfl
    | some cap => exact loanWeight_clearLender hne
  exact htally

/-- To clear the origins that name a dead process ends no loan of a live one. -/
theorem LoansAt.clear (h : LoansAt P none held) (hp : P p = none) :
    LoansAt (fun q => (P q).map fun proc => proc.setCaps (proc.caps.clearOrigin p)) none held := by
  refine ⟨fun L x j hL => ?_, fun tr htr => (by cases htr)⟩
  obtain ⟨proc, hproc, rfl⟩ := Option.map_eq_some_iff.mp hL
  have hne : L ≠ p := by
    rintro rfl
    rw [hp] at hproc
    cases hproc
  have hlive : liveTotal (loanWeight L j)
      (fun q => (P q).map fun proc => proc.setCaps (proc.caps.clearOrigin p))
        = liveTotal (loanWeight L j) P := by
    refine Tally.tally_congr fun q => ?_
    cases P q with
    | none => rfl
    | some y => exact procWeight_clearOrigin hne y
  have hmatch := h.loans L proc j hproc
  unfold loanTotal at hmatch ⊢
  rw [hlive, Process.setCaps_caps, CapTable.clearOrigin_reserved]
  exact hmatch

theorem LoansAt.same_held (h : LoansAt P transit held)
    (htotal : ∀ L k, listTotal (loanWeight L k) held' = listTotal (loanWeight L k) held) :
    LoansAt P transit held' := by
  refine ⟨fun L proc k hL => ?_, h.settles⟩
  unfold loanTotal
  rw [htotal]
  exact h.loans L proc k hL

/-- A capability of another kind leaves its slot. -/
theorem LoansAt.drop_slot (h : LoansAt P transit held) (hp : P p = some proc)
    (hk : proc.caps.slots k = some cap) (hkind : isReclaimableKind cap.object = false) :
    LoansAt (Function.update P p (some (proc.setCaps (proc.caps.set k none)))) transit held := by
  refine h.put hp (fun L j => ?_) rfl fun tr htr => htr
  have hput := liveTotal_put (loanWeight L j) hp (proc.setCaps (proc.caps.set k none))
  have hrevoke := procWeight_revoke (loanWeight L j) hk
  rw [loanWeight_other hkind] at hrevoke
  unfold loanTotal
  omega

/-- The loans that name a slot of a live process, after a write that keeps the table. -/
theorem LoansAt.same_caps (h : LoansAt P transit held) (hp : P p = some proc)
    (hcaps : proc'.caps = proc.caps) :
    LoansAt (Function.update P p (some proc')) transit held := by
  refine h.put hp (fun L j => ?_) (by rw [hcaps]) fun tr htr => htr
  have hput := liveTotal_put_same (w := loanWeight L j) hp (x := proc') (by
    unfold procWeight
    rw [hcaps])
  unfold loanTotal
  rw [hput]

end

/-- The guard lets no transfer fail for lack of room, and no transfer puts a capability of another
kind into a reserved slot. -/
def Guard.KeepsLoans (g : Guard) (v : Ledger) : Prop :=
  ∀ p k f proc cap, g.give v p k f → v.proc p = some proc → proc.caps.slots k = some cap →
    Transit.Settles (Function.update v.proc p (some (giveAway v.mem proc k cap).1))
      ⟨cap, p, k, f⟩

variable {g : Guard} {v v' : Ledger} {j : CapSlot}

/-- A table action keeps the loans matched. -/
theorem TableAct.loans {give : ProcSlot → CapSlot → Fate → Prop}
    {take : ProcSlot → CapSlot → Prop} {strand : Capability → Prop} {h h' : Holdings}
    (act : TableAct give take strand h h') (hs : h.Sound)
    (hgive : ∀ p k f proc cap, give p k f → h.proc p = some proc → proc.caps.slots k = some cap →
      Transit.Settles (Function.update h.proc p (some (giveAway h.mem proc k cap).1))
        ⟨cap, p, k, f⟩)
    (hl : h.Loans) : h'.Loans := by
  -- A slot with a capability is not reserved.
  have hunres : ∀ {p proc k cap}, h.proc p = some proc → proc.caps.slots k = some cap →
      proc.caps.reserved k = false := by
    intro p proc k cap hp hk
    by_contra hne
    rw [Bool.not_eq_false] at hne
    rw [hs.reserved p proc hp k hne] at hk
    cases hk
  cases act with
  | @charge p proc k cap budget budget' hp hk hobj hnone =>
    refine hl.put hp (fun L j => ?_) rfl fun tr htr => htr
    have hold : loanWeight L j cap = 0 := loanWeight_other (by rw [hobj]; rfl)
    have hnew : loanWeight L j { cap with object := .cpuTime budget' } = 0 := loanWeight_other rfl
    have hput := liveTotal_put_same (w := loanWeight L j) hp (x := proc.setCaps
      (proc.caps.set k (some { cap with object := .cpuTime budget' }))) (by
        refine Tally.tally_update_same _ ?_
        rw [hk, Tally.entry_some, Tally.entry_some, hold, hnew])
    unfold loanTotal
    rw [hput]
  | @give p proc k cap f hp hk hnone hdying hfirst hg =>
    have hl' : LoansAt h.proc none h.held := hnone ▸ hl
    exact hl'.give hp hk (hunres hp hk) (hgive p k f proc cap hg hp hk)
  | @land cap p q k k' proc t htr hpq hq hin =>
    obtain ⟨hplaces, hprior⟩ := CapTable.installHome_some hin
    refine hl.place hq hplaces (fun L j => ?_) fun tr htr' => (by cases htr')
    have hput := liveTotal_places (loanWeight L j) hq hplaces
    unfold loanTotal
    rw [hput, htr, Tally.entry_none, Tally.entry_some]
    by_cases hhome : ∃ i, cap.origin = some ⟨q, i⟩
    · obtain ⟨i, hi⟩ := hhome
      have hcame : (cap.lentTo ⟨p, k⟩ q).origin = none := by
        unfold Capability.lentTo
        rw [hi]
        simp [Origin.lender]
      have hlent : Transit.lent ⟨cap, p, k, .land q⟩ = cap := Transit.lent_of_origin hi
      rw [loanWeight_none hcame, hlent]
      cases hkind : isReclaimableKind cap.object with
      | true =>
        -- The capability comes home: its loan has the slot reserved, and it lands there.
        have hone : loanWeight q i cap = 1 := if_pos ⟨hkind, hi⟩
        have hres : proc.caps.reserved i = true := by
          by_contra hne
          have hmatch := hl.loans q proc i hq
          rw [if_neg hne] at hmatch
          unfold loanTotal at hmatch
          rw [htr, Tally.entry_some, hlent, hone] at hmatch
          omega
        rw [hi] at hin
        have hslot : k' = i :=
          CapTable.installHome_reserved hres (hs.reserved q proc hq i hres) hin
        rw [hslot]
        unfold loanWeight
        rw [hi]
        by_cases hsame : L = q ∧ j = i
        · obtain ⟨rfl, rfl⟩ := hsame
          simp [hkind, hres]
        · have hother : ¬ (q = L ∧ i = j) := fun hboth => hsame ⟨hboth.1.symm, hboth.2.symm⟩
          have hother' : ¬ (L = q ∧ j = i ∧ proc.caps.reserved i = true) :=
            fun hboth => hsame ⟨hboth.1, hboth.2.1⟩
          simp [hother, hother']
      | false =>
        have hunreserved : proc.caps.reserved k' = false := by
          by_contra hne
          rw [Bool.not_eq_false] at hne
          have hslot := hprior hne
          rw [(hl.settles _ htr).home q k' proc rfl hslot hkind hq] at hne
          cases hne
        rw [loanWeight_other hkind, hunreserved]
        simp
    · have hhop : loanWeight L j (cap.lentTo ⟨p, k⟩ q)
          = loanWeight L j (Transit.lent ⟨cap, p, k, .land q⟩) := by
        refine loanWeight_lentTo ⟨cap, p, k, .land q⟩ fun o ho hlender => hhome ⟨o.home, ?_⟩
        rw [← hlender]
        exact ho
      have hunreserved : proc.caps.reserved k' = false := by
        by_contra hne
        rw [Bool.not_eq_false] at hne
        exact hhome ⟨k', hprior hne⟩
      rw [hhop, hunreserved]
      simp only [Bool.false_eq_true, and_false, if_false]
      omega
  | @child cap p q k k' proc t htr hpq hq hlender hin =>
    obtain ⟨hplaces, hres⟩ := CapTable.install_ok hin
    refine hl.place hq hplaces (fun L j => ?_) fun tr htr' => (by cases htr')
    have hput := liveTotal_places (loanWeight L j) hq hplaces
    have hloan : loanWeight L j (Kernel.spawnLoan cap p k)
        = loanWeight L j (Transit.lent ⟨cap, p, k, .child q⟩) :=
      loanWeight_spawnLoan ⟨cap, p, k, .child q⟩
    unfold loanTotal
    rw [hput, hloan, htr, hres, Tally.entry_none, Tally.entry_some]
    simp only [Bool.false_eq_true, and_false, if_false]
    omega
  | back htr hp hin => exact absurd rfl (hl.settles _ htr).room.1
  | @undo cap p k k' proc t htr hp hin hown hfree =>
    refine hl.place hp hin (fun L j => ?_) fun tr htr' => (by cases htr')
    have hput := liveTotal_places (loanWeight L j) hp hin
    unfold loanTotal
    rw [hput, htr, Tally.entry_none, Tally.entry_some]
    by_cases hlend : lendReservesHome cap = true
    · -- The loan that the transfer began ends, with the reservation.
      obtain ⟨horigin, hkind⟩ := lendReservesHome_iff.mp hlend
      obtain ⟨prg, hprg, -, hreserved, -⟩ := hs.transit _ htr
      have hsame : proc = prg := Option.some.inj (hp.symm.trans hprg)
      have hlent : Transit.lent ⟨cap, p, k, .undo⟩ = { cap with origin := some ⟨p, k⟩ } :=
        if_pos hlend
      rw [hown hlend, hlent, loanWeight_none horigin, hsame]
      change prg.caps.reserved k = lendReservesHome cap at hreserved
      rw [hreserved, hlend]
      unfold loanWeight
      by_cases hmine : L = p ∧ j = k
      · obtain ⟨rfl, rfl⟩ := hmine
        simp [hkind]
      · have hother : ¬ (p = L ∧ k = j) := fun hboth => hmine ⟨hboth.1.symm, hboth.2.symm⟩
        simp [hmine, hother]
    · have hlent : Transit.lent ⟨cap, p, k, .undo⟩ = cap := if_neg hlend
      rw [Bool.not_eq_true] at hlend
      rw [hlent, hfree hlend]
      simp only [Bool.false_eq_true, and_false, if_false]
      omega
  | lost htr hp hfull => exact absurd rfl (hl.settles _ htr).room.2
  | @take p proc k cap hp hk hkind hnone hdying hfirst hg =>
    refine hl.put hp (fun L j => ?_) ?_ fun tr htr => htr
    · have hput := liveTotal_put (loanWeight L j) hp
        (unmapForSlot h.mem (proc.setCaps (proc.caps.set k none)) cap k).1
      rw [procWeight_unmapForSlot] at hput
      have hrevoke := procWeight_revoke (loanWeight L j) hk
      unfold loanTotal
      dsimp only
      rw [listTotal_cons]
      omega
    · rw [unmapForSlot_caps]
      rfl
  | @home cap o rest proc k t hheld ho hkind hp hnone hin =>
    obtain ⟨hplaces, -⟩ := CapTable.goHome_some hin
    refine hl.place hp hplaces (fun L j => ?_) fun tr htr => htr
    have hput := liveTotal_places (loanWeight L j) hp hplaces
    have hone : loanWeight o.lender o.home cap = 1 := if_pos ⟨hkind, ho⟩
    have hres : proc.caps.reserved o.home = true := by
      by_contra hne
      have hmatch := hl.loans o.lender proc o.home hp
      rw [if_neg hne] at hmatch
      unfold loanTotal at hmatch
      rw [hheld, listTotal_cons, hone] at hmatch
      omega
    have hslot : k = o.home :=
      CapTable.goHome_reserved hres (hs.reserved o.lender proc hp o.home hres) hin
    unfold loanTotal
    dsimp only
    rw [hput, hslot, hres, hheld, listTotal_cons, loanWeight_none rfl]
    by_cases hsame : L = o.lender ∧ j = o.home
    · obtain ⟨rfl, rfl⟩ := hsame
      rw [hone, if_pos ⟨rfl, rfl, rfl⟩]
      omega
    · have hzero : loanWeight L j cap = 0 := by
        refine if_neg fun hboth => hsame ?_
        rw [ho, Option.some.injEq] at hboth
        rw [hboth.2]
        exact ⟨rfl, rfl⟩
      rw [hzero, if_neg fun hboth => hsame ⟨hboth.1, hboth.2.1⟩]
      omega
  | @strand cap o rest proc hheld ho hkind hp hfull hg =>
    -- The home slot is reserved, so the capability has room there.
    exfalso
    have hone : loanWeight o.lender o.home cap = 1 := if_pos ⟨hkind, ho⟩
    have hres : proc.caps.reserved o.home = true := by
      by_contra hne
      have hmatch := hl.loans o.lender proc o.home hp
      rw [if_neg hne] at hmatch
      unfold loanTotal at hmatch
      rw [hheld, listTotal_cons, hone] at hmatch
      omega
    unfold CapTable.goHome at hfull
    rw [CapTable.reclaimTo_of_reserved _ hres (hs.reserved o.lender proc hp o.home hres)] at hfull
    cases hfull
  | @drop cap rest hheld hplain =>
    refine hl.same_held fun L k => ?_
    rw [hheld, listTotal_cons]
    cases hkind : isReclaimableKind cap.object with
    | true => rw [loanWeight_none (hplain.1 hkind), Nat.zero_add]
    | false => rw [loanWeight_other hkind, Nat.zero_add]
  | unmapFb k hp => exact hl.same_caps hp rfl
  | @clearOrigins p hdying hp hnone =>
    have hl' : LoansAt h.proc none h.held := hnone ▸ hl
    have hclear := hl'.clear hp
    unfold Holdings.Loans
    dsimp only
    rw [hnone]
    exact hclear
  | reorder hperm => exact hl.same_held fun L k => listTotal_perm _ hperm

/-- Every action keeps the loans matched. -/
theorem Act.loans (act : Act g v v') (hg : g.KeepsLoans v) (hs : v.toHoldings.Sound)
    (hl : v.toHoldings.Loans) : v'.toHoldings.Loans := by
  -- The kinds that are dropped one by one are never on loan.
  have hdrop : ∀ {cap : Capability} {rest : List Capability}, v.held = cap :: rest →
      isReclaimableKind cap.object = false → LoansAt v.proc v.transit rest := by
    intro cap rest hheld hkind
    refine hl.same_held fun L k => ?_
    rw [hheld, listTotal_cons, loanWeight_other hkind, Nat.zero_add]
  cases act with
  | table act =>
    exact act.loans hs (fun p k f proc cap hgive => hg p k f proc cap hgive.2) hl
  | grant hp hok hgr hgiver hbound hin =>
    obtain ⟨hplaces, hres⟩ := CapTable.install_ok hin
    exact hl.mint hp hplaces hres hok.1
  | mintFrame hp hframes hnone hin =>
    obtain ⟨hplaces, hres⟩ := CapTable.install_ok hin
    exact hl.mint hp hplaces hres rfl
  | mintRing hp hfree huse howner hwait hnone hsq hcq hmask hin hreg =>
    obtain ⟨hplaces, hres⟩ := CapTable.install_ok hin
    exact hl.mint hp hplaces hres rfl
  | parkCall hstate hpq hq hnone hin hpark =>
    obtain ⟨hplaces, hres⟩ := CapTable.reclaim_some hin
    exact hl.mint hq hplaces hres rfl
  | receiveCall hqueue hside hcall hq hnone hin hserve =>
    obtain ⟨hplaces, hres⟩ := CapTable.reclaim_some hin
    exact hl.mint hq hplaces hres rfl
  | mapFrame hp hk hobj hrec => exact hl.same_caps hp rfl
  | mapFb hp hk hobj hslot hrec htables hleaves => exact hl.same_caps hp rfl
  | takeEndpoint hp hk hobj hstate hnone hfirst htake hn =>
    exact hl.drop_slot hp hk (by rw [hobj]; rfl)
  | takeBound hp hk hobj hstate hnone hfirst htake =>
    exact hl.drop_slot hp hk (by rw [hobj]; rfl)
  | dropEndpoint hheld hobj hdoomed hn => exact hdrop hheld (by rw [hobj]; rfl)
  | dropRing hheld hobj => exact hdrop hheld (by rw [hobj]; rfl)
  | dropFrame hheld hobj => exact hdrop hheld (by rw [hobj]; rfl)
  | dropReply hheld hobj => exact hdrop hheld (by rw [hobj]; rfl)
  | @leave p proc hp hstate hheld hdying htransit hcalm hleave =>
    refine ⟨fun L x j hL => ?_, fun tr htr => ?_⟩
    · dsimp only at hL
      by_cases hLp : L = p
      · rw [hLp, Function.update_self] at hL
        cases hL
      · rw [Function.update_of_ne hLp] at hL
        have hmatch := hl.loans L x j hL
        have hremove := liveTotal_remove (loanWeight L j) hp
        unfold loanTotal at hmatch ⊢
        dsimp only
        rw [hheld, listTotal_nil] at hmatch
        rw [listTotal_iter, ← hmatch]
        omega
    · have htr' : v.transit = some tr := htr
      rw [htransit] at htr'
      cases htr'
  | @enter p proc boot rest spaces k budget rights hp hstate hcaps hspaces hframes hdying =>
    have hzero : ∀ L j, procWeight (loanWeight L j) proc = 0 := by
      intro L j
      unfold procWeight
      rw [hcaps]
      have hset := Tally.tally_insert (loanWeight L j) (T := CapTable.new.slots) (i := k)
        ⟨.cpuTime budget, rights, none⟩ rfl
      rw [loanWeight_none rfl] at hset
      have hnew : Tally.tally (loanWeight L j) CapTable.new.slots = 0 := Tally.tally_none _
      rw [hnew] at hset
      exact hset
    have htotal : ∀ L j, loanTotal L j (Function.update v.proc p (some proc)) v.transit v.held
        = loanTotal L j v.proc v.transit v.held := by
      intro L j
      have hadd := liveTotal_add (loanWeight L j) hp proc
      rw [hzero] at hadd
      unfold loanTotal
      rw [hadd, Nat.add_zero]
    refine ⟨fun L x j hL => ?_, fun tr htr => (hl.settles tr htr).mono fun q x j hq hj => ?_⟩
    · dsimp only at hL ⊢
      rw [htotal]
      by_cases hLp : L = p
      · rw [hLp, Function.update_self, Option.some.injEq] at hL
        subst hL
        rw [hLp, hs.loanTotal_dead hp (by rw [hdying]; exact fun h => by cases h), hcaps]
        rfl
      · rw [Function.update_of_ne hLp] at hL
        exact hl.loans L x j hL
    · dsimp only at hq
      by_cases hqp : q = p
      · rw [hqp, Function.update_self, Option.some.injEq] at hq
        subst hq
        rw [hcaps] at hj
        cases hj
      · rw [Function.update_of_ne hqp] at hq
        exact ⟨x, hq, hj⟩
  | _ => exact hl

/-! ### What lands in a reserved slot -/

/-- The capability is in a table, or in motion. A capability in transit counts as lent. -/
def Holdings.Carries (h : Holdings) (cap : Capability) : Prop :=
  (∃ q x j, h.proc q = some x ∧ x.caps.slots j = some cap) ∨ cap ∈ h.held ∨
    ∃ tr, h.transit = some tr ∧ tr.lent = cap

variable {L q : ProcSlot} {k : CapSlot} {cap c : Capability} {x y : Process}

/-- A hop that leaves a loan for `L` behind is the hop of a loan for `L`. -/
theorem Transit.lent_of_lentTo {tr : Transit}
    (hpos : 0 < loanWeight L k (tr.cap.lentTo ⟨tr.giver, tr.slot⟩ q)) :
    tr.lent = tr.cap.lentTo ⟨tr.giver, tr.slot⟩ q := by
  obtain ⟨hkind, horigin⟩ := loanWeight_pos.mp hpos
  rcases lentTo_cases tr.cap ⟨tr.giver, tr.slot⟩ q with ⟨hnone, heq⟩ | ⟨o, -, -, heq⟩ |
    ⟨o, ho, -, heq⟩
  · rw [heq] at hkind ⊢
    exact if_pos (lendReservesHome_iff.mpr ⟨hnone, hkind⟩)
  · rw [heq] at horigin
    cases horigin
  · rw [heq]
    exact Transit.lent_of_origin ho

theorem Transit.lent_of_spawnLoan {tr : Transit}
    (hpos : 0 < loanWeight L k (Kernel.spawnLoan tr.cap tr.giver tr.slot)) :
    tr.lent = Kernel.spawnLoan tr.cap tr.giver tr.slot := by
  obtain ⟨hkind, -⟩ := loanWeight_pos.mp hpos
  rcases spawnLoan_cases tr.cap tr.giver tr.slot with ⟨o, ho, heq⟩ | ⟨hnone, heq⟩
  · rw [heq]
    exact Transit.lent_of_origin ho
  · rw [heq] at hkind ⊢
    exact if_pos (lendReservesHome_iff.mpr ⟨hnone, hkind⟩)

/-- A loan that a slot holds after an action was carried before it. -/
theorem SlotSource.carries (h : SlotSource v q j cap) (hpos : 0 < loanWeight L k cap) :
    v.toHoldings.Carries cap := by
  obtain ⟨hkind, horigin⟩ := loanWeight_pos.mp hpos
  cases h with
  | stay hx hj hage =>
    cases hage with
    | same => exact Or.inl ⟨_, _, _, hx, hj⟩
    | charge hobj => cases hkind
    | @clear p hdying =>
      rename_i old
      by_cases hlender : old.origin.map Origin.lender = some p
      · rw [CapTable.clearLender, if_pos hlender] at horigin
        cases horigin
      · rw [CapTable.clearLender, if_neg hlender]
        exact Or.inl ⟨_, _, _, hx, hj⟩
  | @arrive x tr hx htr hempty harrive =>
    refine Or.inr (Or.inr ⟨tr, htr, ?_⟩)
    cases harrive with
    | land hfate hne hres => exact Transit.lent_of_lentTo hpos
    | child hfate hne hlender hres => exact Transit.lent_of_spawnLoan hpos
    | back hfate hgiver hres => exact Transit.lent_of_origin horigin
    | undo hfate hgiver hown hres => exact Transit.lent_of_origin horigin
  | home hx hheld hempty ho hk hres hcap =>
    rw [hcap] at horigin
    cases horigin
  | new ho hres =>
    rw [ho] at horigin
    cases horigin

/-- A loan after an action was carried before it, or it begins. -/
theorem Act.loan_before (act : Act g v v') (h : v'.toHoldings.Carries cap)
    (hpos : 0 < loanWeight L k cap) :
    v.toHoldings.Carries cap ∨
      ∃ x c f, v.proc L = some x ∧ x.caps.slots k = some c ∧ g.give v L k f := by
  rcases h with ⟨q, y, j, hy, hj⟩ | hheld | ⟨tr, htr, rfl⟩
  · exact Or.inl ((act.slot_source hy hj).carries hpos)
  · rcases act.held_source hheld with hold | ⟨-, p, j, x, hx, hj, -⟩
    · exact Or.inl (Or.inr (Or.inl hold))
    · exact Or.inl (Or.inl ⟨p, x, j, hx, hj⟩)
  · rcases act.transit_source htr with hold | ⟨-, -, hgive, x, hx, hj⟩
    · exact Or.inl (Or.inr (Or.inr ⟨tr, hold, rfl⟩))
    · by_cases hlend : lendReservesHome tr.cap = true
      · -- The loan begins with this transfer, so it names the giver.
        have hlent : tr.lent = { tr.cap with origin := some ⟨tr.giver, tr.slot⟩ } := if_pos hlend
        rw [hlent] at hpos
        have horigin := (loanWeight_pos.mp hpos).2
        simp only [Option.some.injEq, Origin.mk.injEq] at horigin
        obtain ⟨rfl, rfl⟩ := horigin
        exact Or.inr ⟨x, _, _, hx, hj, hgive⟩
      · have hlent : tr.lent = tr.cap := if_neg hlend
        rw [hlent]
        exact Or.inl (Or.inl ⟨_, x, _, hx, hj⟩)

/-- What lands in a reserved slot is the capability that was lent from it. -/
theorem SlotSource.lands (h : SlotSource v L k cap) (hs : v.toHoldings.Sound)
    (hl : v.toHoldings.Loans) (hx : v.proc L = some x) (hres : x.caps.reserved k = true) :
    ∃ c, v.toHoldings.Carries c ∧ 0 < loanWeight L k c ∧ cap = { c with origin := none } := by
  have hempty := hs.reserved L x hx k hres
  have hsame : ∀ {z : Process}, v.proc L = some z → z = x := by
    intro z hz
    exact Option.some.inj (hz.symm.trans hx)
  cases h with
  | stay hz hj hage =>
    rw [hsame hz, hempty] at hj
    cases hj
  | @arrive z tr hz htr hempty' harrive =>
    rw [hsame hz] at harrive
    cases harrive with
    | land hfate hne hprior =>
      have ho := hprior hres
      have hkind : isReclaimableKind tr.cap.object = true := by
        by_contra hother
        rw [Bool.not_eq_true] at hother
        have hfree := (hl.settles tr htr).home L k x hfate ho hother hx
        rw [hres] at hfree
        cases hfree
      refine ⟨tr.cap, Or.inr (Or.inr ⟨tr, htr, Transit.lent_of_origin ho⟩),
        loanWeight_pos.mpr ⟨hkind, ho⟩, ?_⟩
      unfold Capability.lentTo
      rw [ho]
      simp [Origin.lender]
    | child hfate hne hlender hfree =>
      rw [hres] at hfree
      cases hfree
    | back hfate hgiver hfree =>
      rw [hres] at hfree
      cases hfree
    | undo hfate hgiver hown hfree =>
      cases hlend : lendReservesHome tr.cap with
      | true =>
        obtain ⟨hnone, hkind⟩ := lendReservesHome_iff.mp hlend
        have hlent : tr.lent = { tr.cap with origin := some ⟨tr.giver, tr.slot⟩ } := if_pos hlend
        refine ⟨tr.lent, Or.inr (Or.inr ⟨tr, htr, rfl⟩), ?_, ?_⟩
        · rw [hlent]
          refine loanWeight_pos.mpr ⟨hkind, ?_⟩
          rw [hgiver, ← hown hlend]
        · rw [hlent, ← hnone]
      | false =>
        rw [hfree hlend] at hres
        cases hres
  | home hz hheld hempty' ho hkind hslot hcap =>
    rw [hsame hz] at hslot
    rw [← hslot hres] at ho
    exact ⟨_, Or.inr (Or.inl hheld), loanWeight_pos.mpr ⟨hkind, ho⟩, hcap⟩
  | new ho hfree =>
    have hunres := (hfree x hx).2
    rw [hres] at hunres
    cases hunres

/-- Slot `k` of the process in slot `L` waits for the loan `c`, or the loan came home. -/
def Ledger.Awaits (v : Ledger) (L : ProcSlot) (k : CapSlot) (c : Capability) : Prop :=
  ∃ x, v.proc L = some x ∧
    ((x.caps.reserved k = true ∧
      ∀ cap, v.toHoldings.Carries cap → 0 < loanWeight L k cap → cap = c) ∨
      x.caps.slots k = some { c with origin := none })

/-- In no ledger does the guard let the process in slot `L` go, or a capability leave its
slot `k`. -/
structure Guard.Spares (g : Guard) (L : ProcSlot) (k : CapSlot) : Prop where
  stay : ∀ u, ¬ g.leave u L
  give : ∀ u x cap f, g.give u L k f → u.proc L = some x → x.caps.slots k ≠ some cap
  take : ∀ u x cap, g.take u L k → u.proc L = some x → x.caps.slots k ≠ some cap

theorem Act.awaits (act : Act g v v') (hs : v.toHoldings.Sound) (hl : v.toHoldings.Loans)
    (hg : g.Spares L k) (hkind : isReclaimableKind c.object = true) (h : v.Awaits L k c) :
    v'.Awaits L k c := by
  obtain ⟨x, hx, hcase⟩ := h
  have hlive := (act.same_or_leaves hx).resolve_right fun hleave => hg.stay v hleave.1
  obtain ⟨-, y, -, hy, -⟩ := hlive
  have hnext := act.slot_next hx hy k
  refine ⟨y, hy, ?_⟩
  rcases hcase with ⟨hres, honly⟩ | hslot
  · rcases hnext.reserved hres with hstill | ⟨cap, hcap⟩
    · refine Or.inl ⟨hstill, fun cap hcarry hpos => ?_⟩
      rcases act.loan_before hcarry hpos with hbefore | ⟨z, c', f, hz, hc', hgive⟩
      · exact honly cap hbefore hpos
      · exact absurd hc' (hg.give v z c' f hgive hz)
    · obtain ⟨c', hcarry, hpos, rfl⟩ := (act.slot_source hy hcap).lands hs hl hx hres
      rw [honly c' hcarry hpos] at hcap
      exact Or.inr hcap
  · rcases hnext.slot _ hslot with ⟨cap', hcap', hage⟩ | ⟨f, hgive⟩ | htake
    · right
      rw [hcap']
      cases hage with
      | same => rfl
      | charge hobj =>
        have hobj' : c.object = .cpuTime _ := hobj
        rw [hobj'] at hkind
        cases hkind
      | clear hdying => simp [CapTable.clearLender]
    · exact absurd hslot (hg.give v x _ f hgive hx)
    · exact absurd hslot (hg.take v x _ htake hx)

end Plinth
