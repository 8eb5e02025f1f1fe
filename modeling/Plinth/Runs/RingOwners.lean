import Plinth.Runs.RingFrames

/-!
# `Plinth.Runs.RingOwners`: only the process that registered a ring operates it

`ring_id_for` compares the process slot of the caller with the slot that registered the ring. The
slot of a process is used again after its exit, and a Ring capability can be sent away. So the check
names the right process only if the ring is released when its owner exits. The exit releases the
rings whose capabilities the process still holds.

`rings_confined` says that this is enough. In every run in which a process that exits holds the
capabilities for its rings, a ring in use was registered by the process that is in the owner slot
now. `orphanRun` is a run in which a process sends its Ring capability away and exits, and a later
process in its slot operates the ring.
-/

set_option autoImplicit false

namespace Plinth

open Transition

section

variable {g : Guard} {v v' v'' : Ledger} {p : ProcSlot} {id : RingId}

/-- The ring `id` is free, or it is about to go, or the process that was in slot `p` of `P` owns
it. -/
def Ledger.OwnedBy (v : Ledger) (P : ProcSlot → Option Process) (p : ProcSlot) (id : RingId) :
    Prop :=
  (v.rings id).inUse = true → v.Dropping id ∨ (v.rings id).owner = p ∧ SameProcess P v.proc p

theorem Act.ownedBy (act : Act g v v') {P : ProcSlot → Option Process}
    (hreg : ∀ q, ¬ g.register q id) (htakes : g.TakesRings v) (h : v.OwnedBy P p id) :
    v'.OwnedBy P p id := by
  intro huse
  rcases act.ring_next huse with hring | hnew
  · rcases h hring.inUse with hdrop | ⟨howner, hsame⟩
    · exact Or.inl (act.dropping hdrop huse)
    · obtain ⟨x, y, hx, hy, hl4⟩ := hsame
      rcases act.same_or_leaves hy with hstay | hgone
      · exact Or.inr ⟨hring.owner.trans howner, SameProcess.trans ⟨x, y, hx, hy, hl4⟩ hstay⟩
      · refine Or.inl ?_
        unfold Ledger.Dropping
        rw [hgone.held]
        exact (htakes p y id hgone.leave hy hring.inUse howner).mem_iter
  · exact absurd hnew.guard (hreg _)

/-- The owner of a ring stays in its slot as long as the ring is in use. -/
theorem Path.ownedBy (path : Path g v v') {P : ProcSlot → Option Process}
    (hreg : ∀ q, ¬ g.register q id) (htakes : ∀ u, g.TakesRings u) (h : v.OwnedBy P p id) :
    v'.OwnedBy P p id := by
  induction path with
  | refl => exact h
  | tail path act ih => exact act.ownedBy hreg (htakes _) ih

end

namespace Kernel

variable {s t : Kernel} {ℓ : Label} {p q : ProcSlot} {id : RingId} {core : Core}

/-- The ring that `ring_register` takes is free. -/
theorem registers_free (h : s.registers ℓ = some (p, id)) : (s.rings.rings id).inUse = false := by
  unfold registers at h
  split at h
  · split at h
    · rename_i hfree
      split at h
      · cases h
        exact firstFree_inUse hfree
      · cases h
    · cases h
  · cases h

/-- A ring in use after an entry was in use before it, or the entry registered it. -/
theorem Good.ring_before (hgood : s.Good) (hnext : s.step ℓ = some t)
    (huse : (t.rings.rings id).inUse = true) :
    SameRing s.ledger t.ledger id ∨ s.registers ℓ = some ((t.rings.rings id).owner, id) := by
  obtain ⟨-, spent, hpath⟩ := hgood.step_path hnext
  have huse' : (t.ledger.rings id).inUse = true := huse
  rcases Path.ring_before hpath huse' with hsame | hreg
  · exact Or.inl ⟨hsame.inUse, hsame.owner, hsame.sqPhys, hsame.cqPhys, hsame.mask⟩
  · exact Or.inr hreg

/-- The guard of the runs in which a process exits with the capabilities for its rings. -/
def keepsRings (s : Kernel) (ℓ : Label) : Prop := s.leavesRing ℓ = false

instance : ∀ s ℓ, Decidable (keepsRings s ℓ) := fun s ℓ =>
  inferInstanceAs (Decidable (s.leavesRing ℓ = false))

theorem ringsOwned_of_reachable (hs : Reachable system keepsRings s) : s.ledger.RingsOwned := by
  refine invariant (g := ringOwnerGuard) ?_ (fun _ _ h => h) ?_ ?_ hs
  · intro s hinit id huse
    rw [show (s.ledger.rings id).inUse = false from (hinit.rings id).1] at huse
    cases huse
  · intro v v' act _ h
    exact act.ringsOwned (ringOwnerGuard_takesRings v) h
  · intro s ℓ hgood hI hok
    exact permits_ringOwner hgood hI hok

/-- No ring is in use when the table is empty. -/
theorem Good.rings_idle (hgood : s.Good) (hI : s.ledger.RingsOwned) (hempty : s.tableEmpty = true)
    (id : RingId) : (s.rings.rings id).inUse = false := by
  by_contra huse
  rw [Bool.not_eq_false] at huse
  rcases hI id huse with ⟨cap, hmem, -⟩ | ⟨x, hx⟩
  · cases hmem
  · have hx' : s.procs.proc (s.rings.rings id).owner = some x := hx
    rw [hgood.dead_of_empty hempty] at hx'
    cases hx'

theorem Good.takesRings (hgood : s.Good) (hI : s.ledger.RingsOwned) (hok : keepsRings s ℓ)
    (v : Ledger) : (s.stepGuard ℓ).TakesRings v :=
  fun p _ id hleave hp huse howner =>
    takesRings_of_reclaims (p := p) hok (hgood.rings_idle hI) hleave hp id huse howner

/-- The process in slot `p` registers the ring `id`. -/
def RegistersRing (p : ProcSlot) (id : RingId) (s : Kernel) (ℓ : Label) (t : Kernel) : Prop :=
  s.registers ℓ = some (p, id) ∧ (t.rings.rings id).inUse = true ∧ (t.rings.rings id).owner = p ∧
    SameProcess s.procs.proc t.procs.proc p

/-- The ring `id` stays in use, and the process in slot `p` is its owner all the time. -/
structure OwnsRing (p : ProcSlot) (id : RingId) (s : Kernel) (ℓ : Label) (t : Kernel) : Prop where
  before : (s.rings.rings id).inUse = true ∧ (s.rings.rings id).owner = p
  after : (t.rings.rings id).inUse = true ∧ (t.rings.rings id).owner = p
  again : ∀ q, s.registers ℓ ≠ some (q, id)
  same : SameProcess s.procs.proc t.procs.proc p

/-- A registration keeps its caller. -/
theorem Good.registers_same (hgood : s.Good) (hnext : s.step ℓ = some t)
    (hreg : s.registers ℓ = some (p, id)) : SameProcess s.procs.proc t.procs.proc p := by
  obtain ⟨-, spent, hpath⟩ := hgood.step_path hnext
  cases ℓ with
  | ringRegister core sqSlot cqSlot entries =>
    have hp : ∃ proc, s.procs.proc p = some proc := by
      unfold registers at hreg
      dsimp only at hreg
      split at hreg
      · rename_i proc _ hc _
        split at hreg
        · cases hreg
          exact ⟨proc, hgood.proc_of_current hc⟩
        · cases hreg
      · cases hreg
    obtain ⟨proc, hp⟩ := hp
    exact Path.same_process hpath (fun v h => h) hp
  | _ => cases hreg

/-- The ring was registered by the process that is in slot `p` now, and it is in use since. -/
def Registered (hist : List (Kernel × Label)) (s : Kernel) (p : ProcSlot) (id : RingId) : Prop :=
  Since (RegistersRing p id) (OwnsRing p id) hist s

/-- What confines a ring to the process that registered it. -/
structure RingsConfined (hist : List (Kernel × Label)) (s : Kernel) : Prop where
  /-- The owner slot of a ring in use holds the process that registered the ring. -/
  owned : ∀ id, (s.rings.rings id).inUse = true → Registered hist s (s.rings.rings id).owner id
  /-- A ring call succeeds for the process that registered the ring. -/
  operator : ∀ core slot id, s.ringIdFor core slot = some id →
    Registered hist s (s.procs.currentSlot core) id
  /-- Every other ring call is refused. -/
  refused : ∀ core slot, s.ringIdFor core slot = none → s.ringSubmit core slot = (errCode, s) ∧
    s.ringWait core slot = (.value errCode, s) ∧
      ∀ userData, s.ringDropped core slot userData = errCode
  /-- The rings of a process end with its exit. -/
  ended : ∀ ℓ t p id, keepsRings s ℓ → s.step ℓ = some t → s.leaver ℓ = some p →
    (t.rings.rings id).inUse = true → (t.rings.rings id).owner ≠ p
  /-- The kernel writes to the frames of rings in use, and of the ring that it registers. -/
  writes : ∀ ℓ t, s.step ℓ = some t → (∀ ram, ℓ ≠ .memory ram) → ∀ a, t.ram a ≠ s.ram a →
    (∃ id, (s.rings.rings id).inUse = true ∧ (s.rings.rings id).Covers a) ∨
      ∃ core sqSlot cqSlot entries, ℓ = .ringRegister core sqSlot cqSlot entries

/-- A ring in use after an entry was registered by it, or its owner kept it. -/
theorem Good.ring_step (hgood : s.Good) (hI : s.ledger.RingsOwned) (hok : keepsRings s ℓ)
    (hnext : s.step ℓ = some t) (huse : (t.rings.rings id).inUse = true)
    (howner : (t.rings.rings id).owner = p) :
    RegistersRing p id s ℓ t ∨ OwnsRing p id s ℓ t := by
  rcases hgood.ring_before hnext huse with hsame | hreg
  · have hagain : ∀ q, s.registers ℓ ≠ some (q, id) := by
      intro q hreg
      have hfree := registers_free hreg
      have hused : (s.rings.rings id).inUse = true := hsame.inUse
      rw [hfree] at hused
      cases hused
    have hbefore : (s.rings.rings id).owner = p := hsame.owner.symm.trans howner
    obtain ⟨-, spent, hpath⟩ := hgood.step_path hnext
    have hstart : s.ledger.OwnedBy s.procs.proc p id := by
      intro hused
      rcases hI id hused with ⟨cap, hmem, -⟩ | ⟨proc, hproc⟩
      · cases hmem
      · have hproc' : s.procs.proc p = some proc := by
          rw [← hbefore]
          exact hproc
        exact Or.inr ⟨hbefore, .refl hproc'⟩
    have hend := Path.ownedBy hpath hagain (hgood.takesRings hI hok) hstart
    rcases hend huse with ⟨cap, hmem, -⟩ | ⟨-, hstay⟩
    · cases hmem
    · exact Or.inr ⟨⟨hsame.inUse, hbefore⟩, ⟨huse, howner⟩, hagain, hstay⟩
  · rw [howner] at hreg
    exact Or.inl ⟨hreg, huse, howner, hgood.registers_same hnext hreg⟩

/-- A ring in use was registered by the process in its owner slot. -/
theorem registered_of_run {hist : List (Kernel × Label)} (run : Run system keepsRings hist s)
    (huse : (s.rings.rings id).inUse = true) :
    Registered hist s (s.rings.rings id).owner id := by
  refine Run.since (R := fun u => (u.rings.rings id).inUse = true ∧
    (u.rings.rings id).owner = (s.rings.rings id).owner) ?_ ?_ run ⟨huse, rfl⟩
  · rintro u hinit ⟨hused, -⟩
    rw [(hinit.rings id).1] at hused
    cases hused
  · rintro u ℓ t hu hok hnext ⟨hused, howner⟩
    have hI := ringsOwned_of_reachable hu
    rcases (good_of_reachable hu).ring_step hI hok hnext hused howner with hreg | hown
    · exact Or.inl hreg
    · exact Or.inr ⟨hown.before, hown⟩

/-- The slot of a process that exits is empty. -/
theorem onExit_empties (h : s.onExit core = some t) :
    t.procs.state (s.procs.currentSlot core) = .empty := by
  unfold onExit at h
  split at h
  · cases h
  · simp only [Option.some.injEq] at h
    rw [← h]
    simp [Procs.state, Procs.setSlot, Slot.empty]

theorem leaver_empties (hnext : s.step ℓ = some t) (hleaver : s.leaver ℓ = some p) :
    t.procs.state p = .empty := by
  cases ℓ with
  | exit core =>
    cases hleaver
    exact onExit_empties hnext
  | cpuCharge core slot amount =>
    obtain ⟨-, rfl⟩ := onCore_some hnext
    change (if s.overdrawn core slot amount then some (s.procs.currentSlot core) else none)
      = some p at hleaver
    split at hleaver
    · rename_i hover
      cases hleaver
      exact onExit_empties (exits_of_overdrawn hover)
    · cases hleaver
  | _ => cases hleaver

/-- In every run in which a process that exits holds the capabilities for its rings, every ring
is confined to the process that registered it. -/
theorem rings_confined {hist : List (Kernel × Label)} (run : Run system keepsRings hist s) :
    RingsConfined hist s := by
  have hgood := good_of_reachable run.reachable
  have hI := ringsOwned_of_reachable run.reachable
  refine ⟨fun id huse => registered_of_run run huse, fun core slot id hid => ?_,
    fun core slot hnone => ?_, fun ℓ t p id hok hnext hleaver huse howner => ?_,
    fun ℓ t hnext hmemory a hne => ?_⟩
  · obtain ⟨huse, howner, -⟩ := ringIdFor_some hid
    rw [← howner]
    exact registered_of_run run huse
  · refine ⟨?_, ?_, fun userData => ?_⟩
    · simp [ringSubmit, hnone]
    · simp [ringWait, hnone]
    · simp [ringDropped, hnone]
  · rcases hgood.ring_step hI hok hnext huse howner with ⟨hreg, -⟩ | hown
    · -- An exit registers no ring.
      cases ℓ with
      | ringRegister core sqSlot cqSlot entries => cases hleaver
      | _ => cases hreg
    · obtain ⟨-, proc, -, hproc, -⟩ := hown.same
      have ht := good_of_reachable (run.reachable.next hok hnext)
      rw [ht.rep.procs.placed.proc_of_empty (leaver_empties hnext hleaver)] at hproc
      cases hproc
  · rcases step_rings hnext with hdrop | hwork | ⟨core, sqSlot, cqSlot, entries, hℓ, -⟩ |
      ⟨ram, hℓ, -⟩
    · rw [hdrop.ram] at hne
      exact absurd rfl hne
    · exact Or.inl (hwork.writes (ringsSized_of_reachable run.reachable) a hne)
    · exact Or.inr ⟨core, sqSlot, cqSlot, entries, hℓ⟩
    · exact absurd hℓ (hmemory ram)

/-- A process registers a ring and exits. -/
def ringExitRun : List Label := ringRun ++ [.exit 0]

theorem rings_confined_ringExitRun : ∃ hist,
    RingsConfined hist (smallMachine.runFrom ringExitRun) ∧
      ((smallMachine.runFrom ringExitRun).rings.rings 0).inUse = false := by
  have hs : Reachable system keepsRings (smallMachine.runFrom ringExitRun) :=
    reachable_small_of (by decide +kernel)
  obtain ⟨hist, run⟩ := hs
  exact ⟨hist, rings_confined run, by decide +kernel⟩

/-- A process registers a ring, sends the capability for it to its peer and exits. -/
def orphanRun : List Label :=
  [.createEndpoint,
    .run 0 [some smallImage, some smallImage]
      [some ⟨.endpoint 0, rightSend, none⟩, some ⟨.endpoint 0, rightRecv, none⟩],
    .frameAlloc 0, .frameAlloc 0, .ringRegister 0 2 3 4, .send 0 1 7 4, .resume 0 1, .recv 0 1,
    .preempt 0, .resume 0 0, .exit 0, .resume 0 1]

/-- The peer launches a process with the capability for the ring. The new process gets the free
slot, and it can operate the ring. -/
theorem orphanRun_operates : ∃ hist s, Run system always hist s ∧
    s.procs.currentSlot 0 = 0 ∧ s.ringIdFor 0 2 = some 0 ∧ ¬ Registered hist s 0 0 := by
  have hs : Reachable system always (smallMachine.runFrom orphanRun) := reachable_small orphanRun
  obtain ⟨hist, run⟩ := hs
  have hdead : (smallMachine.runFrom orphanRun).procs.proc 0 = none := by decide +kernel
  have hid : (smallMachine.runFrom (orphanRun ++ [.spawn 0 (some (some smallImage)) 2, .preempt 0,
      .resume 0 0])).procs.currentSlot 0 = 0 ∧
      (smallMachine.runFrom (orphanRun ++ [.spawn 0 (some (some smallImage)) 2, .preempt 0,
        .resume 0 0])).ringIdFor 0 2 = some 0 := by decide +kernel
  have run₁ := run.step (a := Label.spawn 0 (some (some smallImage)) 2) trivial rfl
  have run₂ := run₁.step (a := Label.preempt 0) trivial rfl
  have run₃ := run₂.step (a := Label.resume 0 0) trivial rfl
  refine ⟨_, _, run₃, hid.1, hid.2, ?_⟩
  rintro (⟨hreg, -⟩ | ⟨-, ⟨hreg, -⟩ | ⟨-, ⟨hreg, -⟩ | ⟨hown, -⟩⟩⟩)
  · cases hreg
  · cases hreg
  · cases hreg
  · -- Slot 0 was empty before the launch.
    obtain ⟨proc, -, hproc, -⟩ := hown.same
    rw [hdead] at hproc
    cases hproc

end Kernel

end Plinth
