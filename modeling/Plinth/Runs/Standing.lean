import Plinth.Ledger.Standing
import Plinth.Runs.Boot

/-!
# `Plinth.Runs.Standing`: where processes stand, step by step

This module reads the automaton of `Plinth.Ledger.Standing` off for kernel steps. Between two
entries, a process is out of the wait places or it is parked at one of them. It parks only if
it runs and the entry is its own blocking call, and it is woken only if the entry signals what
it waits for.
-/

set_option autoImplicit false

namespace Plinth

open Transition

namespace Kernel

variable {s t : Kernel} {ℓ : Label} {p : ProcSlot} {place : Place}

/-- The process in slot `p` is Blocked at a place. -/
def ParkedAt (s : Kernel) (p : ProcSlot) (place : Place) : Prop :=
  s.ledger.Stands p (.at place)

theorem ParkedAt.blocked (h : s.ParkedAt p place) : s.procs.state p = .blocked := h.1

theorem ParkedAt.unique (hgood : s.Good) {place' : Place} (h : s.ParkedAt p place)
    (h' : s.ParkedAt p place') : place = place' :=
  hgood.base.registered.place_unique h.2 h'.2

/-- A process that parks is the one that runs. -/
theorem parking_running (hgood : s.Good) (h : s.parking ℓ = some (p, place)) :
    s.procs.state p = .running := by
  have hendpoint : ∀ {core slot right id}, right ≠ 0 →
      s.endpointIdFor core slot right = some id →
      s.procs.state (s.procs.currentSlot core) = .running := by
    intro core slot right id hne hid
    obtain ⟨-, proc, -, -, hc, -⟩ := endpointIdFor_some hne hid
    exact hgood.state_of_current hc
  cases ℓ with
  | send core epSlot msg capSlot =>
    obtain ⟨id, hid, heq⟩ := Option.map_eq_some_iff.mp h
    cases heq
    exact hendpoint (by decide) hid
  | recv core epSlot =>
    obtain ⟨id, hid, heq⟩ := Option.map_eq_some_iff.mp h
    cases heq
    exact hendpoint (by decide) hid
  | call core epSlot req =>
    obtain ⟨id, hid, heq⟩ := Option.map_eq_some_iff.mp h
    cases heq
    exact hendpoint (by decide) hid
  | ringWait core slot =>
    obtain ⟨id, hid, heq⟩ := Option.map_eq_some_iff.mp h
    cases heq
    obtain ⟨-, -, proc, hc, -⟩ := ringIdFor_some hid
    exact hgood.state_of_current hc
  | bindWait core slot seen idx =>
    obtain ⟨proc, hc, hrest⟩ := Option.bind_eq_some_iff.mp h
    split at hrest
    · cases hrest
      exact hgood.state_of_current hc
    · cases hrest
  | _ => cases h

/-- A process that is reclaimed is not blocked. -/
theorem reclaims_not_blocked (hgood : s.Good) (hnext : s.step ℓ = some t) {v : Ledger}
    (h : s.Reclaims ℓ v p) : s.procs.state p ≠ .blocked := by
  have hrun : ∀ {core proc}, s.procs.current core = some proc →
      s.procs.state (s.procs.currentSlot core) ≠ .blocked := by
    intro core proc hc
    rw [show s.procs.state _ = .running from hgood.state_of_current hc]
    decide
  cases ℓ with
  | exit core =>
    obtain ⟨-, rfl⟩ := h
    change s.onExit core = some t at hnext
    unfold onExit at hnext
    split at hnext
    · cases hnext
    · rename_i proc hc
      exact hrun hc
  | cpuCharge core slot amount =>
    obtain ⟨-, rfl, proc, hc, -⟩ := h
    exact hrun hc
  | run core images extra =>
    have hempty := List.all_eq_true.mp h.1 p (List.mem_finRange p)
    rw [beq_iff_eq] at hempty
    rw [hempty]
    decide
  | _ => exact h.elim

/-- Between two entries, every process stands out or at a place. -/
theorem stands_between (s : Kernel) (p : ProcSlot) :
    s.procs.state p ≠ .blocked ∨ ∃ place, s.ParkedAt p place := by
  obtain ⟨σ, hσ⟩ := s.ledger.stands_exists p
  cases σ with
  | out => exact Or.inl hσ
  | «at» place => exact Or.inr ⟨place, hσ⟩
  | leaving => exact absurd hσ.2 List.not_mem_nil

/-- What a step does to a parked process. -/
theorem Good.parked_next (hgood : s.Good) (hnext : s.step ℓ = some t)
    (h : s.ParkedAt p place) :
    t.ParkedAt p place ∨
      (∃ id mail, place = .sender id mail ∧ mail.call = true ∧ s.served ℓ = some p ∧
        t.ParkedAt p .reply) ∨
      (s.forgotten ℓ = some p ∧ t.ParkedAt p .nowhere) ∨
      (t.procs.state p ≠ .blocked ∧ s.Signals ℓ p ∧ Tells ℓ (t.procs.table p).result) := by
  obtain ⟨-, spent, hpath⟩ := hgood.step_path hnext
  have hpark : ∀ place, ¬ (s.stepGuard ℓ).park p place := fun place hg => by
    have hrun := parking_running hgood hg
    rw [h.blocked] at hrun
    cases hrun
  have hleave : ∀ v, ¬ (s.stepGuard ℓ).leave v p := fun v hg =>
    reclaims_not_blocked hgood hnext hg h.blocked
  obtain ⟨σ, hσ, hwalk⟩ := Path.moves hpath hgood.base h
  rcases hwalk.of_at hpark with rfl | ⟨rfl, -⟩ | ⟨id, mail, hplace, hcall, hserve, rfl⟩ |
    ⟨hforget, rfl⟩ | ⟨-, rfl⟩
  · exact Or.inl hσ
  · exact absurd hσ.2 List.not_mem_nil
  · exact Or.inr (Or.inl ⟨id, mail, hplace, hcall, hserve, hσ⟩)
  · exact Or.inr (Or.inr (Or.inl ⟨hforget, hσ⟩))
  · have htold := (Path.told hpath hgood.base hpark hleave h.blocked).resolve_left hσ
    exact Or.inr (Or.inr (Or.inr ⟨hσ, htold.1, htold.2⟩))

/-- Where a process stood before it was at a place. -/
theorem Good.parked_before (hgood : s.Good) (hnext : s.step ℓ = some t)
    (h : t.ParkedAt p place) :
    ∃ σ, s.ledger.Stands p σ ∧ Walks (s.stepGuard ℓ) p σ (.at place) := by
  obtain ⟨-, spent, hpath⟩ := hgood.step_path hnext
  exact Path.moved hpath hgood.base h

end Kernel

end Plinth
