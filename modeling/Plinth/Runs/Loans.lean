import Plinth.Ledger.Loans
import Plinth.Runs.RingOwners

/-!
# `Plinth.Runs.Loans`: loans and reservations

The owner of a reclaimable capability that lends it keeps the slot reserved. Every lent capability
records the slot that it left, also one of a kind that does not go home, and `install_home` only
checks that the slot is reserved. So a Frame capability that comes back can take the slot, and the
reservation, of a capability that is still on loan.

`loans_match` says that this is the only gap. In every run in which no transfer fails for lack of
room, and no capability of another kind comes back to a reserved slot, a slot is reserved exactly
when one capability on loan names it, and only that capability lands there. `takenHomeRun` is a run
in which a frame takes the reserved slot.
-/

set_option autoImplicit false

namespace Plinth

open Transition

/-- Two slots whose capabilities weigh something are the same, if the total is one. -/
theorem liveTotal_place {w : Capability → Nat} {P : ProcSlot → Option Process}
    (hone : liveTotal w P ≤ 1) {p q : ProcSlot} {x y : Process} {i j : CapSlot}
    {cap cap' : Capability} (hp : P p = some x) (hi : x.caps.slots i = some cap) (hw : 0 < w cap)
    (hq : P q = some y) (hj : y.caps.slots j = some cap') (hw' : 0 < w cap') : p = q ∧ i = j := by
  by_cases hpq : p = q
  · subst hpq
    rw [hp, Option.some.injEq] at hq
    subst hq
    refine ⟨rfl, ?_⟩
    by_contra hij
    have htwo := Tally.add_le_tally w hij hi hj
    have hproc : Tally.tally w x.caps.slots ≤ liveTotal w P := procWeight_le w hp
    omega
  · have htwo := Tally.add_le_tally (procWeight w) hpq hp hq
    have hfirst := le_procWeight w hi
    have hsecond := le_procWeight w hj
    unfold liveTotal at hone
    omega

/-- Two capabilities that weigh something are the same, if the total is one. -/
theorem liveTotal_unique {w : Capability → Nat} {P : ProcSlot → Option Process}
    (hone : liveTotal w P ≤ 1) {p q : ProcSlot} {x y : Process} {i j : CapSlot}
    {cap cap' : Capability} (hp : P p = some x) (hi : x.caps.slots i = some cap) (hw : 0 < w cap)
    (hq : P q = some y) (hj : y.caps.slots j = some cap') (hw' : 0 < w cap') : cap = cap' := by
  obtain ⟨rfl, rfl⟩ := liveTotal_place hone hp hi hw hq hj hw'
  rw [hp, Option.some.injEq] at hq
  subst hq
  exact Option.some.inj (hi.symm.trans hj)

namespace Kernel

variable {s t : Kernel} {ℓ : Label} {p q L : ProcSlot} {k : CapSlot} {cap c : Capability}

/-- The number of live capabilities of a reclaimable kind with the origin `(L, k)`. -/
def loans (s : Kernel) (L : ProcSlot) (k : CapSlot) : Nat :=
  liveTotal (loanWeight L k) s.procs.proc

/-- The live capability `cap` is on loan from slot `k` of the process in slot `L`. -/
def OnLoan (s : Kernel) (L : ProcSlot) (k : CapSlot) (cap : Capability) : Prop :=
  (∃ q x j, s.procs.proc q = some x ∧ x.caps.slots j = some cap) ∧
    isReclaimableKind cap.object = true ∧ cap.origin = some ⟨L, k⟩

/-- The transfer of the entry fails for lack of room: the giver takes the capability back, or it
is lost. -/
def transferFails (s : Kernel) (ℓ : Label) : Bool :=
  (s.given ℓ).any fun x => decide (x.2.2 = .back ∨ x.2.2 = .lost)

/-- The capability comes back to the process in slot `q`, to a slot that is reserved. -/
def comesToReserved (s : Kernel) (q : ProcSlot) (cap : Capability) : Bool :=
  !isReclaimableKind cap.object && cap.origin.any fun o =>
    decide (o.lender = q) && (s.procs.proc q).any fun proc => proc.caps.reserved o.home

/-- The entry brings a capability of another kind back to a reserved slot. -/
def takesReserved (s : Kernel) (ℓ : Label) : Bool :=
  match s.given ℓ with
  | some (p, k, .land q) => (s.capAt p k).any fun cap => s.comesToReserved q cap
  | _ => false

/-- The guard of the runs in which no transfer fails for lack of room, and no capability of
another kind comes back to a reserved slot. -/
def keepsLoans (s : Kernel) (ℓ : Label) : Prop :=
  s.transferFails ℓ = false ∧ s.takesReserved ℓ = false

instance : ∀ s ℓ, Decidable (keepsLoans s ℓ) := fun s ℓ =>
  inferInstanceAs (Decidable (s.transferFails ℓ = false ∧ s.takesReserved ℓ = false))

/-- The transfers of a guarded entry end well. -/
theorem keepsLoans.settles (hok : keepsLoans s ℓ) (hgood : s.Good) (v : Ledger) :
    (s.stepGuard ℓ).KeepsLoans v := by
  rintro p k f proc cap ⟨hlike, hgiven⟩ hp hk
  rw [hlike.proc] at hp ⊢
  have hroom := hok.1
  unfold transferFails at hroom
  rw [hgiven, Option.any_some, decide_eq_false_iff_not, not_or] at hroom
  refine ⟨hroom, fun q j x hfate ho hkind hq => ?_⟩
  dsimp only at hfate ho hkind
  subst hfate
  have hne : q ≠ p := by
    rintro rfl
    exact (hgood.base.sound.origin q proc k cap _ hp hk ho).1 rfl
  rw [Function.update_of_ne hne] at hq
  have htakes := hok.2
  have hq' : s.procs.proc q = some x := hq
  unfold takesReserved at htakes
  rw [hgiven] at htakes
  dsimp only at htakes
  rw [capAt_eq hp hk, Option.any_some] at htakes
  unfold comesToReserved at htakes
  rw [hkind, ho, Option.any_some, Bool.not_false, Bool.true_and] at htakes
  simpa [Origin.lender, Origin.home, hq'] using htakes

theorem loans_of_reachable (hs : Reachable system keepsLoans s) :
    s.ledger.toHoldings.Loans := by
  have hinit : ∀ s, Booted s → s.ledger.toHoldings.Loans := by
    intro s h
    refine ⟨fun L proc k hL => ?_, fun tr htr => (by cases htr)⟩
    have hnone : s.ledger.proc L = none := h.proc_none L
    rw [hnone] at hL
    cases hL
  refine hs.invariant (I := fun s => s.ledger.toHoldings.Loans) hinit ?_
  intro s ℓ t hreach hI hok hnext
  have hgood := good_of_reachable hreach
  obtain ⟨-, spent, hpath⟩ := hgood.step_path hnext
  have hend := Path.keeps (I := fun v => v.toHoldings.Loans)
    (fun v v' act hbase hl => act.loans (hok.settles hgood v) hbase.sound hl) hpath hgood.base hI
  exact ⟨hend.loans, hend.settles⟩

/-! ### What lands in a reserved slot -/

/-- A process that is alive before and after an entry is not reclaimed by it. -/
theorem Good.not_reclaimed (hgood : s.Good) (hnext : s.step ℓ = some t)
    (hp : s.procs.proc p ≠ none) (ht : t.procs.proc p ≠ none) (u : Ledger) :
    ¬ s.Reclaims ℓ u p := by
  intro hrec
  rcases reclaims_cases hrec with ⟨-, hleaver⟩ | ⟨hempty, -⟩
  · have hstate := leaver_empties hnext hleaver
    obtain ⟨hgood', -⟩ := hgood.step_path hnext
    exact ht (hgood'.rep.procs.placed.proc_of_empty hstate)
  · exact hp (hgood.dead_of_empty hempty p)

/-- An entry does not give or release what is in a slot that is empty. -/
theorem stepGuard_spares (hstay : ∀ u, ¬ s.Reclaims ℓ u L) {proc : Process}
    (hp : s.procs.proc L = some proc) (hempty : proc.caps.slots k = none) :
    (s.stepGuard ℓ).Spares L k where
  stay := hstay
  give := by
    rintro u x cap f ⟨hlike, -⟩ hx hk
    rw [hlike.proc] at hx
    have heq : proc = x := Option.some.inj (hp.symm.trans hx)
    rw [← heq, hempty] at hk
    cases hk
  take := by
    rintro u x cap ⟨rfl, -⟩ hx hk
    have heq : proc = x := Option.some.inj (hp.symm.trans hx)
    rw [← heq, hempty] at hk
    cases hk

/-- Over a path, a reserved slot waits for its loan. -/
theorem awaits_path {g : Guard} {v v' : Ledger} (path : Path g v v') (hbase : v.Base)
    (hkeeps : ∀ u, g.KeepsLoans u) (hspares : g.Spares L k)
    (hkind : isReclaimableKind c.object = true) (hl : v.toHoldings.Loans)
    (h : v.Awaits L k c) : v'.Awaits L k c := by
  have hboth : v'.toHoldings.Loans ∧ v'.Awaits L k c := by
    refine Path.keeps (I := fun u => u.toHoldings.Loans ∧ u.Awaits L k c) ?_ path hbase ⟨hl, h⟩
    rintro u u' act hu ⟨hul, hua⟩
    exact ⟨act.loans (hkeeps u) hu.sound hul, act.awaits hu.sound hul hspares hkind hua⟩
  exact hboth.2

/-- Loans and reservations match. -/
structure LoansMatch (s : Kernel) : Prop where
  /-- A slot is reserved exactly when one capability on loan names it. -/
  reserved : ∀ L proc k, s.procs.proc L = some proc →
    (proc.caps.reserved k = true ↔ s.loans L k = 1)
  /-- Otherwise none does. -/
  unreserved : ∀ L proc k, s.procs.proc L = some proc → proc.caps.reserved k = false →
    s.loans L k = 0
  /-- A reserved slot is empty. -/
  empty : ∀ L proc k, s.procs.proc L = some proc → proc.caps.reserved k = true →
    proc.caps.slots k = none
  /-- A capability that an entry puts into a reserved slot is the one that is on loan from it. -/
  lands : ∀ ℓ t, keepsLoans s ℓ → s.step ℓ = some t → ∀ L proc proc' k cap,
    s.procs.proc L = some proc → proc.caps.reserved k = true → t.procs.proc L = some proc' →
      proc'.caps.slots k = some cap →
        ∃ c, s.OnLoan L k c ∧ (∀ c', s.OnLoan L k c' → c' = c) ∧ cap = { c with origin := none }

/-- In every run in which no transfer fails for lack of room, and no capability of another kind
comes back to a reserved slot, loans and reservations match. -/
theorem loans_match (hs : Reachable system keepsLoans s) : s.LoansMatch := by
  have hgood := good_of_reachable hs
  have hl := loans_of_reachable hs
  have hloans : ∀ L proc k, s.procs.proc L = some proc →
      s.loans L k = if proc.caps.reserved k = true then 1 else 0 :=
    fun L proc k hL => hl.loans L proc k hL
  have hempty : ∀ L proc k, s.procs.proc L = some proc → proc.caps.reserved k = true →
      proc.caps.slots k = none := fun L proc k hL => hgood.base.sound.reserved L proc hL k
  refine ⟨fun L proc k hL => ?_, fun L proc k hL hres => ?_, hempty, ?_⟩
  · have hcount := hloans L proc k hL
    constructor
    · intro hres
      rwa [if_pos hres] at hcount
    · intro hone
      by_contra hres
      rw [if_neg hres, hone] at hcount
      cases hcount
  · have hcount := hloans L proc k hL
    rwa [hres, if_neg Bool.false_ne_true] at hcount
  · intro ℓ t hok hnext L proc proc' k cap hL hres hL' hcap
    have hone : s.loans L k = 1 := by
      rw [hloans L proc k hL, if_pos hres]
    have hpos : 0 < s.loans L k := by omega
    obtain ⟨q, x, j, c, hq, hj, hweight⟩ := liveTotal_pos.mp hpos
    have honly : ∀ c', (∃ q x j, s.procs.proc q = some x ∧ x.caps.slots j = some c') →
        0 < loanWeight L k c' → c' = c := by
      rintro c' ⟨q', x', j', hq', hj'⟩ hw
      exact liveTotal_unique (le_of_eq hone) hq' hj' hw hq hj hweight
    have hstay : ∀ u, ¬ s.Reclaims ℓ u L := hgood.not_reclaimed hnext
      (by rw [hL]; exact Option.some_ne_none proc) (by rw [hL']; exact Option.some_ne_none proc')
    have hstart : s.ledger.Awaits L k c := by
      refine ⟨proc, hL, Or.inl ⟨hres, fun c' hcarry hw => ?_⟩⟩
      rcases hcarry with hslot | hheld | ⟨tr, htr, -⟩
      · exact honly c' hslot hw
      · cases hheld
      · cases htr
    obtain ⟨-, spent, hpath⟩ := hgood.step_path hnext
    have hend := awaits_path hpath hgood.base (hok.settles hgood)
      (stepGuard_spares hstay hL (hempty L proc k hL hres)) (loanWeight_pos.mp hweight).1 hl hstart
    obtain ⟨y, hy, hcase⟩ := hend
    have hsame : y = proc' := Option.some.inj (hy.symm.trans hL')
    subst hsame
    refine ⟨c, ⟨⟨q, x, j, hq, hj⟩, loanWeight_pos.mp hweight⟩, fun c' hc' =>
      honly c' hc'.1 (loanWeight_pos.mpr hc'.2), ?_⟩
    rcases hcase with ⟨hres', -⟩ | hslot
    · obtain ⟨hgood', -⟩ := hgood.step_path hnext
      have hnone := hgood'.base.sound.reserved L y hL' k hres'
      rw [hcap] at hnone
      cases hnone
    · exact Option.some.inj (hcap.symm.trans hslot)

/-- The block range in slot 1 is lent to a new process. -/
def lendRun : List Label :=
  [.run 0 [some smallImage] [some ⟨.blockRange 0 0 8, rightRead, none⟩],
    .spawn 0 (some (some smallImage)) 1]

/-- The process in slot 1 lends a frame and then a block range from its slot 4. The block range
came from the process in slot 0, which exited. Then the frame comes back. -/
def takenHomeRun : List Label :=
  [.createEndpoint,
    .run 0 [some smallImage] [some ⟨.blockRange 0 0 8, rightRead, none⟩,
      some ⟨.endpoint 0, rightRecv, none⟩, some ⟨.endpoint 0, rightSend, none⟩],
    .spawn 0 (some (some smallImage)) 2, .preempt 0, .resume 0 1, .frameAlloc 0, .frameAlloc 0,
    .capRelease 0 3, .spawn 0 (some (some smallImage)) 4, .recv 0 2, .resume 0 0, .send 0 3 7 1,
    .exit 0, .resume 0 1, .spawn 0 (some (some smallImage)) 4, .recv 0 3, .resume 0 2,
    .send 0 1 7 2]

/-- The guard of the runs in which no transfer fails for lack of room. -/
def transfersFit (s : Kernel) (ℓ : Label) : Prop := s.transferFails ℓ = false

instance : ∀ s ℓ, Decidable (transfersFit s ℓ) := fun s ℓ =>
  inferInstanceAs (Decidable (s.transferFails ℓ = false))

theorem loans_match_lendRun : (smallMachine.runFrom lendRun).LoansMatch ∧
    (smallMachine.runFrom lendRun).loans 0 1 = 1 := by
  refine ⟨loans_match (reachable_small_of ?_), ?_⟩ <;> decide +kernel

/-- The block range is on loan from slot 4 of the process in slot 1. The slot is not reserved, and
it holds the frame. -/
theorem takenHomeRun_unreserved : ∃ s, Reachable system transfersFit s ∧ s.loans 1 4 = 1 ∧
    (s.procs.proc 1).map (fun proc => proc.caps.reserved 4) = some false ∧
    s.capAt 1 4 = some ⟨.frame (85 * frameSize), rightRead ||| rightWrite ||| rightMap, none⟩ :=
  ⟨smallMachine.runFrom takenHomeRun, reachable_small_of (by decide +kernel), by decide +kernel⟩

end Kernel

end Plinth
