import Plinth.Ledger.Trails
import Plinth.Runs.Loans

/-!
# `Plinth.Runs.Origins`: the origins of capabilities on loan

A capability on loan names its lender and the slot that it left. The lender is named by its slot in
the process table, and slots are used again. `LentFrom` is the history of a loan: the owner gave the
capability away from the named slot, the capability passed from holder to holder ever since, and the
lender was the same process all the time.

`origins_sound`: in every run each capability on loan has that history. An origin is cleared exactly
when the capability passes back to its lender or the lender exits, and it is never changed
otherwise.
-/

set_option autoImplicit false

namespace Plinth

open Transition

namespace Kernel

/-- The entry brings the capability from slot `j` of the process in slot `q` to slot `j'` of the
process in slot `q'`. It may leave it where it is. -/
def Passes (s : Kernel) (ℓ : Label) (t : Kernel) (q : ProcSlot) (j : CapSlot) (q' : ProcSlot)
    (j' : CapSlot) : Prop :=
  ∃ spent, Trail (s.stepGuard ℓ) s.ledger (.slot q j) { t.ledger with spent := spent } (.slot q' j')

/-- The history of a loan from slot `k` of the process in slot `L`. -/
inductive LentFrom (L : ProcSlot) (k : CapSlot) :
    List (Kernel × Label) → Kernel → ProcSlot → CapSlot → Prop where
  /-- The process gives away a capability that it owns outright. -/
  | first {hist : List (Kernel × Label)} {s t : Kernel} {ℓ : Label} {q : ProcSlot} {j : CapSlot}
      {c c' : Capability} (hown : s.capAt L k = some c) (hnone : c.origin = none)
      (hgiven : ∃ f, s.given ℓ = some (L, k, f)) (hpass : s.Passes ℓ t L k q j)
      (hsame : SameProcess s.procs.proc t.procs.proc L) (hcap : t.capAt q j = some c')
      (ho : c'.origin = some ⟨L, k⟩) : LentFrom L k ((s, ℓ) :: hist) t q j
  /-- The capability stays or is given on, and its lender stays. -/
  | hop {hist : List (Kernel × Label)} {s t : Kernel} {ℓ : Label} {q q' : ProcSlot} {j j' : CapSlot}
      {c' : Capability} (hlent : LentFrom L k hist s q j) (hpass : s.Passes ℓ t q j q' j')
      (hsame : SameProcess s.procs.proc t.procs.proc L) (hcap : t.capAt q' j' = some c')
      (ho : c'.origin = some ⟨L, k⟩) : LentFrom L k ((s, ℓ) :: hist) t q' j'

variable {s t : Kernel} {ℓ : Label} {p q q' L : ProcSlot} {j j' k : CapSlot}
  {cap cap' c : Capability} {o : Origin} {hist : List (Kernel × Label)}

theorem capAt_some (h : s.capAt q j = some cap) :
    ∃ x, s.procs.proc q = some x ∧ x.caps.slots j = some cap := Option.bind_eq_some_iff.mp h

/-- An origin names another process, and it is alive. -/
theorem Good.lender_alive (hgood : s.Good) (hcap : s.capAt q j = some cap)
    (ho : cap.origin = some o) : o.lender ≠ q ∧ s.procs.proc o.lender ≠ none := by
  obtain ⟨x, hx, hj⟩ := capAt_some hcap
  obtain ⟨hne, hlive | hdying⟩ := hgood.base.sound.origin q x j cap o hx hj ho
  · exact ⟨hne, hlive⟩
  · cases hdying

/-- A process that is alive before and after an entry is the same. -/
theorem Good.stays (hgood : s.Good) (hnext : s.step ℓ = some t) (hp : s.procs.proc p ≠ none)
    (ht : t.procs.proc p ≠ none) : SameProcess s.procs.proc t.procs.proc p := by
  obtain ⟨-, spent, hpath⟩ := hgood.step_path hnext
  obtain ⟨x, hx⟩ := Option.ne_none_iff_exists'.mp hp
  exact Path.same_process hpath (hgood.not_reclaimed hnext hp ht) hx

/-- A loan after an entry was one before it, or the entry begins it. -/
theorem Good.loan_before (hgood : s.Good) (hnext : s.step ℓ = some t)
    (hcap : t.capAt q j = some cap) (ho : cap.origin = some o) :
    (∃ q' j' c, s.capAt q' j' = some c ∧ c.origin = some o ∧ s.Passes ℓ t q' j' q j) ∨
      ∃ c, s.capAt o.lender o.home = some c ∧ c.origin = none ∧
        (∃ f, s.given ℓ = some (o.lender, o.home, f)) ∧
        s.Passes ℓ t o.lender o.home q j := by
  obtain ⟨-, spent, hpath⟩ := hgood.step_path hnext
  rcases Path.origin_trail hpath rfl rfl (fun u p k f hg => hg.1.proc) (.slot hcap ho) with
    ⟨q', j', c, hc, hco, trail⟩ | ⟨c, hc, hco, ⟨u, f, hg⟩, trail⟩
  · exact Or.inl ⟨q', j', c, hc, hco, spent, trail⟩
  · exact Or.inr ⟨c, hc, hco, ⟨f, hg.2⟩, spent, trail⟩

/-- A capability on loan has the history of its loan. The induction is on the run. -/
theorem lentFrom_of_origin (run : Run system always hist s) (hcap : s.capAt q j = some cap)
    (ho : cap.origin = some ⟨L, k⟩) : LentFrom L k hist s q j := by
  induction run generalizing q j cap with
  | start hinit =>
    obtain ⟨x, hx, -⟩ := capAt_some hcap
    rw [hinit.proc_none q] at hx
    cases hx
  | @step hist s t ℓ run guard hnext ih =>
    have hgood := good_of_reachable run.reachable
    have halive := ((hgood.step_path hnext).1.lender_alive hcap ho).2
    rcases hgood.loan_before hnext hcap ho with ⟨q', j', c, hc, hco, hpass⟩ |
      ⟨c, hc, hco, hgiven, hpass⟩
    · have hsame := hgood.stays hnext (hgood.lender_alive hc hco).2 halive
      exact .hop (ih hc hco) hpass hsame hcap ho
    · obtain ⟨x, hx, -⟩ := capAt_some hc
      have hsame := hgood.stays hnext (by rw [hx]; nofun) halive
      exact .first hc hco hgiven hpass hsame hcap ho

/-- What an entry does to the origin of a capability on loan. -/
theorem Good.origin_after (hgood : s.Good) (hnext : s.step ℓ = some t)
    (hcap : s.capAt q j = some cap) (ho : cap.origin = some o) (hpass : s.Passes ℓ t q j q' j')
    (hcap' : t.capAt q' j' = some cap') :
    cap'.origin = some o ∧ q' ≠ o.lender ∧ s.leaver ℓ ≠ some o.lender ∨
      cap'.origin = none ∧ (q' = o.lender ∨ s.leaver ℓ = some o.lender) := by
  obtain ⟨spent, trail⟩ := hpass
  have hgood' := (hgood.step_path hnext).1
  have hstart : s.ledger.Engaged (s.stepGuard ℓ) :=
    ⟨fun h => absurd rfl h, fun h => absurd rfl h, nofun⟩
  have hslot : s.ledger.At (.slot q j) cap := .slot hcap
  have hend : Ledger.At { t.ledger with spent := spent } (.slot q' j') cap' := .slot hcap'
  cases (trail.tracks hstart (.owes hslot ho)).2 with
  | owes hc hco =>
    cases hc.unique hend
    obtain ⟨hne, halive⟩ := hgood'.lender_alive hcap' hco
    refine Or.inl ⟨hco, Ne.symm hne, fun hleaver => halive ?_⟩
    exact hgood'.rep.procs.placed.proc_of_empty (leaver_empties hnext hleaver)
  | clear hc hco hspent htransit hback =>
    cases hc.unique hend
    refine Or.inr ⟨hco, ?_⟩
    rcases hback with ⟨j₀, heq⟩ | ⟨u, hleave⟩
    · cases heq
      exact Or.inl rfl
    · -- The lender was alive, so no failed launch reclaims it.
      right
      rcases reclaims_cases hleave with ⟨-, hleaver⟩ | ⟨hempty, -⟩
      · exact hleaver
      · exact absurd (hgood.dead_of_empty hempty _) (hgood.lender_alive hcap ho).2

/-- When a process exits, the capabilities of the others stay in their slots. -/
theorem Good.stays_put (hgood : s.Good) (hnext : s.step ℓ = some t) (hleaver : s.leaver ℓ = some L)
    (hcap : s.capAt q j = some cap) (hne : q ≠ L) :
    ∃ cap', t.capAt q j = some cap' ∧ s.Passes ℓ t q j q j := by
  have hnothing : s.given ℓ = none ∧ s.taken ℓ = none := by
    cases ℓ with
    | exit core => exact ⟨rfl, rfl⟩
    | cpuCharge core slot amount => exact ⟨rfl, rfl⟩
    | _ => cases hleaver
  obtain ⟨x, hx, -⟩ := capAt_some hcap
  have hstay : ∀ u, ¬ s.Reclaims ℓ u q := by
    intro u hrec
    rcases reclaims_cases hrec with ⟨-, hleaver'⟩ | ⟨hempty, -⟩
    · exact hne (Option.some.inj (hleaver'.symm.trans hleaver))
    · rw [hgood.dead_of_empty hempty q] at hx
      cases hx
  obtain ⟨-, spent, hpath⟩ := hgood.step_path hnext
  have hend := Path.keeps (I := fun v => ∃ c, v.capAt q j = some c ∧
    Trail (s.stepGuard ℓ) s.ledger (.slot q j) v (.slot q j)) ?_ hpath hgood.base ⟨cap, hcap, .refl⟩
  · obtain ⟨cap', hcap', trail⟩ := hend
    exact ⟨cap', hcap', spent, trail⟩
  · rintro v v' act - ⟨c, hc, trail⟩
    obtain ⟨x, hx, hj⟩ := Ledger.capAt_some hc
    obtain ⟨-, y, -, hy, -⟩ := (act.same_or_leaves hx).resolve_right
      fun hleave => hstay v hleave.1
    rcases (act.slot_next hx hy j).slot c hj with ⟨c', hc', -⟩ | ⟨f, hg⟩ | hg
    · have hnow : v'.capAt q j = some c' := (Ledger.capAt_eq hy).trans hc'
      exact ⟨c', hnow, .tail trail act (.stay (.slot hc) (.slot hnow))⟩
    · cases hnothing.1.symm.trans hg.2
    · cases hnothing.2.symm.trans hg.2

/-- Origins are sound: each capability on loan has the history of its loan, with a lender that is
not its holder. An entry clears the origin exactly if it brings the capability back to the lender or
the lender exits, and else it keeps it. After an exit no origin names the process: what it lent is
in the slots of the holders, on whichever core they run, and its origin is cleared. -/
theorem origins_sound (run : Run system always hist s) :
    (∀ q j cap L k, s.capAt q j = some cap → cap.origin = some ⟨L, k⟩ →
      q ≠ L ∧ LentFrom L k hist s q j) ∧
    (∀ ℓ t q j cap o q' j' cap', s.step ℓ = some t → s.capAt q j = some cap →
      cap.origin = some o → s.Passes ℓ t q j q' j' → t.capAt q' j' = some cap' →
        (cap'.origin = none ↔ q' = o.lender ∨ s.leaver ℓ = some o.lender) ∧
        (cap'.origin ≠ none → cap'.origin = some o)) ∧
    ∀ ℓ t L, s.step ℓ = some t → s.leaver ℓ = some L →
      (∀ q j cap o, t.capAt q j = some cap → cap.origin = some o → o.lender ≠ L) ∧
      ∀ q j cap k, s.capAt q j = some cap → cap.origin = some ⟨L, k⟩ →
        ∃ cap', t.capAt q j = some cap' ∧ s.Passes ℓ t q j q j ∧ cap'.origin = none := by
  have hgood := good_of_reachable run.reachable
  refine ⟨fun q j cap L k hcap ho =>
      ⟨Ne.symm (hgood.lender_alive hcap ho).1, lentFrom_of_origin run hcap ho⟩,
    fun ℓ t q j cap o q' j' cap' hnext hcap ho hpass hcap' => ?_,
    fun ℓ t L hnext hleaver => ⟨fun q j cap o hcap ho heq => ?_, fun q j cap k hcap ho => ?_⟩⟩
  · rcases hgood.origin_after hnext hcap ho hpass hcap' with ⟨hkept, hne, hstays⟩ | ⟨hnone, hback⟩
    · refine ⟨iff_of_false (by rw [hkept]; nofun) ?_, fun _ => hkept⟩
      rintro (hq | hleaver)
      · exact hne hq
      · exact hstays hleaver
    · exact ⟨iff_of_true hnone hback, fun h => absurd hnone h⟩
  · have hgood' := (hgood.step_path hnext).1
    refine (hgood'.lender_alive hcap ho).2 ?_
    rw [heq]
    exact hgood'.rep.procs.placed.proc_of_empty (leaver_empties hnext hleaver)
  · have hne : q ≠ L := Ne.symm (hgood.lender_alive hcap ho).1
    obtain ⟨cap', hcap', hpass⟩ := hgood.stays_put hnext hleaver hcap hne
    rcases hgood.origin_after hnext hcap ho hpass hcap' with ⟨-, -, hstays⟩ | ⟨hnone, -⟩
    · exact absurd hleaver hstays
    · exact ⟨cap', hcap', hpass, hnone⟩

/-- The borrower of a block range runs on another core when its lender exits. -/
theorem origins_sound_lendRun : ∃ hist s t cap, Run system always hist s ∧
    LentFrom 0 1 hist s 1 2 ∧ s.procs.currentSlot 1 = 1 ∧ s.step (.exit 0) = some t ∧
      t.capAt 1 2 = some cap ∧ cap.origin = none := by
  have hcap : ((smallMachine.runFrom (lendRun ++ [.resume 1 1])).capAt 1 2).bind
      Capability.origin = some ⟨0, 1⟩ := by decide +kernel
  have hcore : (smallMachine.runFrom (lendRun ++ [.resume 1 1])).procs.currentSlot 1 = 1 := by
    decide +kernel
  have hstep :
    ((smallMachine.runFrom (lendRun ++ [.resume 1 1])).step (.exit 0)).isSome = true := by
    decide +kernel
  have hleaver : (smallMachine.runFrom (lendRun ++ [.resume 1 1])).leaver (.exit 0) = some 0 := by
    decide +kernel
  obtain ⟨hist, run⟩ := reachable_small (lendRun ++ [.resume 1 1])
  obtain ⟨c, hc, ho⟩ := Option.bind_eq_some_iff.mp hcap
  obtain ⟨t, ht⟩ := Option.isSome_iff_exists.mp hstep
  obtain ⟨hlent, -, hexit⟩ := origins_sound run
  obtain ⟨cap, hcap', -, hnone⟩ := (hexit _ t 0 ht hleaver).2 1 2 c 1 hc ho
  exact ⟨hist, _, t, cap, run, (hlent 1 2 c 0 1 hc ho).2, hcore, ht, hcap', hnone⟩

end Kernel

end Plinth
