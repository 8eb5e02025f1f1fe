import Plinth.Ledger.Retain
import Plinth.Runs.Waits

/-!
# `Plinth.Runs.Leaving`: what an entry takes from its holder

`parted` is the capability that an entry takes from its holder for good: it is given to somebody
else, or it is released, or nobody has room for it. `leaver` is the process that exits. A guard of
the form `keepGuard` speaks about these two only, and `permits_keep` says what it asks of a label.
-/

set_option autoImplicit false

namespace Plinth

open Transition

namespace Kernel

variable {s t : Kernel} {ℓ : Label} {p : ProcSlot}

/-- The capability in slot `k` of the process in slot `p`. -/
def capAt (s : Kernel) (p : ProcSlot) (k : CapSlot) : Option Capability :=
  (s.procs.proc p).bind fun proc => proc.caps.slots k

theorem capAt_eq {k : CapSlot} {proc : Process} {cap : Capability} (hp : s.procs.proc p = some proc)
    (hk : proc.caps.slots k = some cap) : s.capAt p k = some cap := by
  simp [capAt, hp, hk]

/-- The capability that the entry takes from its holder for good, with the holder. -/
def parted (s : Kernel) (ℓ : Label) : Option (ProcSlot × Capability) :=
  match s.given ℓ with
  | some (p, k, f) => if f.returns then none else (s.capAt p k).map fun cap => (p, cap)
  | none => (s.taken ℓ).bind fun (p, k) => (s.capAt p k).map fun cap => (p, cap)

/-- The charge at `slot` overdraws the budget. -/
def overdrawn (s : Kernel) (core : Core) (slot amount : Nat) : Bool :=
  match s.procs.current core with
  | none => false
  | some proc =>
    match proc.caps.charge slot amount rightConsume with
    | .error .insufficient => true
    | _ => false

theorem overdrawn_of (core : Core) (slot amount : Nat) (h : s.overdraws core slot amount) :
    s.overdrawn core slot amount = true := by
  obtain ⟨proc, hc, hcharge⟩ := h
  simp [overdrawn, hc, hcharge]

/-- A process that overdraws its budget exits. -/
theorem exits_of_overdrawn {core : Core} {slot amount : Nat}
    (h : s.overdrawn core slot amount = true) :
    s.onExit core = some (s.sysCpuCharge core slot amount).2 := by
  unfold overdrawn at h
  cases hc : s.procs.current core with
  | none =>
    rw [hc] at h
    cases h
  | some proc =>
    rw [hc] at h
    obtain ⟨u, hexit⟩ : ∃ u, s.onExit core = some u := by
      unfold onExit
      rw [hc]
      exact ⟨_, rfl⟩
    cases hcharge : proc.caps.charge slot amount rightConsume with
    | ok r => simp [hcharge] at h
    | error e =>
      cases e with
      | insufficient => simp [sysCpuCharge, hc, hcharge, hexit]
      | _ => simp [hcharge] at h

/-- The process that exits in the entry. -/
def leaver (s : Kernel) : Label → Option ProcSlot
  | .exit core => some (s.procs.currentSlot core)
  | .cpuCharge core slot amount =>
    if s.overdrawn core slot amount then some (s.procs.currentSlot core) else none
  | _ => none

/-- No label gives a capability away and also releases one. -/
theorem taken_of_given {x : ProcSlot × CapSlot × Fate} (h : s.given ℓ = some x) :
    s.taken ℓ = none := by
  cases ℓ with
  | capRelease core slot => cases h
  | reply core slot msg => cases h
  | _ => rfl

theorem parted_of_given {k : CapSlot} {f : Fate} {proc : Process} {cap : Capability}
    (hgiven : s.given ℓ = some (p, k, f)) (hp : s.procs.proc p = some proc)
    (hk : proc.caps.slots k = some cap) (hf : f.returns = false) :
    s.parted ℓ = some (p, cap) := by
  simp [parted, hgiven, hf, capAt_eq hp hk]

theorem parted_of_taken {k : CapSlot} {proc : Process} {cap : Capability}
    (htaken : s.taken ℓ = some (p, k)) (hp : s.procs.proc p = some proc)
    (hk : proc.caps.slots k = some cap) : s.parted ℓ = some (p, cap) := by
  cases hgiven : s.given ℓ with
  | none => simp [parted, hgiven, htaken, capAt_eq hp hk]
  | some x =>
    rw [taken_of_given hgiven] at htaken
    cases htaken

/-- A process is reclaimed because it exits, or because a launch failed. -/
theorem reclaims_cases {v : Ledger} (h : s.Reclaims ℓ v p) :
    v = s.ledger ∧ s.leaver ℓ = some p ∨
      s.tableEmpty = true ∧ v.rings = s.rings.rings ∧ v.devs = s.devs ∧
        ∃ proc, v.proc p = some proc ∧ proc.Bare := by
  cases ℓ with
  | exit core =>
    obtain ⟨hv, rfl⟩ := h
    exact Or.inl ⟨hv, rfl⟩
  | cpuCharge core slot amount =>
    obtain ⟨hv, rfl, hover⟩ := h
    exact Or.inl ⟨hv, by simp [leaver, overdrawn_of core slot amount hover]⟩
  | run core images extra => exact Or.inr h
  | _ => exact h.elim

end Kernel

/-! ### Guards that keep capabilities at their holders -/

/-- The guard that keeps the `pinned` capabilities at their holders, and lets a process exit only
if it `mayLeave`. -/
def keepGuard (pinned : Ledger → ProcSlot → Capability → Prop)
    (mayLeave : Ledger → ProcSlot → Process → Prop) : Guard :=
  { Guard.any with
    give := fun v p k f => ∀ proc cap, v.proc p = some proc → proc.caps.slots k = some cap →
      pinned v p cap → f.returns = true
    take := fun v p k => ∀ proc cap, v.proc p = some proc → proc.caps.slots k = some cap →
      ¬ pinned v p cap
    leave := fun v p => ∀ proc, v.proc p = some proc → mayLeave v p proc }

/-- A pinned capability is retained. -/
theorem keepGuard_retentive {pinned : Ledger → ProcSlot → Capability → Prop}
    {mayLeave : Ledger → ProcSlot → Process → Prop} {v : Ledger} {p : ProcSlot} {o : CapObject}
    (h : ∀ cap, cap.object = o → pinned v p cap) :
    (keepGuard pinned mayLeave).Retentive v p o where
  give := fun _ _ proc cap hg hp hk hobj => hg proc cap hp hk (h cap hobj)
  take := fun _ proc cap hg hp hk hobj => hg proc cap hp hk (h cap hobj)

namespace Kernel

variable {s t : Kernel} {ℓ : Label} {p : ProcSlot}

/-- What a `keepGuard` asks of a label. -/
theorem permits_keep {pinned : Ledger → ProcSlot → Capability → Prop}
    {mayLeave : Ledger → ProcSlot → Process → Prop}
    (hlike : ∀ v p cap, v.Like s.ledger → pinned v p cap → pinned s.ledger p cap)
    (hpart : ∀ p cap, s.parted ℓ = some (p, cap) → ¬ pinned s.ledger p cap)
    (hleave : ∀ v p proc, s.Reclaims ℓ v p → v.proc p = some proc → mayLeave v p proc) :
    s.Permits (keepGuard pinned mayLeave) ℓ := by
  have hany := s.permits_any ℓ
  refine ⟨?_, ?_, fun v p hrec proc hp => hleave v p proc hrec hp, hany.strand, hany.grant,
    hany.post, hany.register, hany.park, hany.serve, hany.forget, hany.wake⟩
  · intro v p k f hv hgiven proc cap hp hk hpin
    by_contra hf
    rw [Bool.not_eq_true] at hf
    have hp' : s.procs.proc p = some proc := by
      rw [hv.proc] at hp
      exact hp
    exact hpart p cap (parted_of_given hgiven hp' hk hf) (hlike v p cap hv hpin)
  · intro p k htaken proc cap hp hk
    exact hpart p cap (parted_of_taken htaken hp hk)

end Kernel

end Plinth
