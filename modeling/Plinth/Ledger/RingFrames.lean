import Plinth.Ledger.Retain

/-!
# `Plinth.Ledger.RingFrames`: who owns a ring, and its frames

A ring is in use from `ring_register` until a capability for it is released. `Act.ring_next` says
that in between the ring keeps its owner and its frames. `Ledger.RingsFramed` says that the owner
retains the frames, and `Ledger.RingsOwned` says that the owner is alive. Both need a guard,
because the kernel takes a frame or a process away without a look at the rings.
-/

set_option autoImplicit false

namespace Plinth

variable {g : Guard} {v v' : Ledger} {p : ProcSlot} {id : RingId}

/-- A release or an exit took a capability for the ring `id`, and the ring is about to go. -/
def Ledger.Dropping (v : Ledger) (id : RingId) : Prop := ∃ cap ∈ v.held, cap.object = .ring id

/-- The ring `id` is in use in both ledgers, with the same owner and the same frames. -/
structure SameRing (v v' : Ledger) (id : RingId) : Prop where
  inUse : (v.rings id).inUse = true
  owner : (v'.rings id).owner = (v.rings id).owner
  sqPhys : (v'.rings id).sqPhys = (v.rings id).sqPhys
  cqPhys : (v'.rings id).cqPhys = (v.rings id).cqPhys
  mask : (v'.rings id).mask = (v.rings id).mask

/-- The process in slot `p` registers the ring `id` in this action. -/
structure Registers (g : Guard) (v v' : Ledger) (id : RingId) : Prop where
  free : (v.rings id).inUse = false
  guard : g.register (v'.rings id).owner id
  alive : ∃ proc, v.proc (v'.rings id).owner = some proc
  mask : (v'.rings id).mask.toNat < maxEntries
  sq : v'.Holds (v'.rings id).owner (.frame (v'.rings id).sqPhys)
  cq : v'.Holds (v'.rings id).owner (.frame (v'.rings id).cqPhys)

theorem SameRing.of_eq (hr : v'.rings id = v.rings id) (huse : (v'.rings id).inUse = true) :
    SameRing v v' id := by
  refine ⟨?_, by rw [hr], by rw [hr], by rw [hr], by rw [hr]⟩
  rw [← hr]
  exact huse

/-- An update of one ring that keeps its use, its owner and its frames. -/
theorem SameRing.of_update {j : RingId} {r : Ring} (hr : v'.rings = Function.update v.rings j r)
    (hinUse : r.inUse = (v.rings j).inUse) (howner : r.owner = (v.rings j).owner)
    (hsq : r.sqPhys = (v.rings j).sqPhys) (hcq : r.cqPhys = (v.rings j).cqPhys)
    (hmask : r.mask = (v.rings j).mask) (huse : (v'.rings id).inUse = true) : SameRing v v' id := by
  by_cases hj : id = j
  · subst hj
    rw [hr, Function.update_self] at huse
    refine ⟨hinUse.symm.trans huse, ?_, ?_, ?_, ?_⟩ <;> rw [hr, Function.update_self]
    · exact howner
    · exact hsq
    · exact hcq
    · exact hmask
  · exact .of_eq (by rw [hr, Function.update_of_ne hj]) huse

/-- A ring in use was in use before with the same owner and frames, or it is new. -/
theorem Act.ring_next (act : Act g v v') (huse : (v'.rings id).inUse = true) :
    SameRing v v' id ∨ Registers g v v' id := by
  cases act with
  | @mintRing q proc j r rights k t hp hfree hnew howner hwait hnone hsq hcq hmask hin hg =>
    by_cases hj : id = j
    · subst hj
      -- The owner holds both frames, and the new capability takes an empty slot.
      have hkeep : ∀ a, proc.Names (.frame a) →
          ∃ k rights, Has (Function.update v.proc q (some (proc.setCaps t))) q k (.frame a)
            rights := by
        rintro a ⟨k', cap, hk', hobj⟩
        exact ⟨k', cap.rights,
          Has.place ⟨proc, cap, hp, hk', hobj, rfl⟩ hp (CapTable.install_ok hin).1⟩
      refine Or.inr ⟨hfree, ?_, ?_, ?_, ?_, ?_⟩ <;> dsimp only <;> rw [Function.update_self]
      · rw [howner]
        exact hg
      · exact ⟨proc, by rw [howner, hp]⟩
      · exact hmask
      · rw [howner]
        exact hkeep _ hsq
      · rw [howner]
        exact hkeep _ hcq
    · exact Or.inl (.of_eq (Function.update_of_ne hj ..) huse)
  | parkRing hp hk hobj hlive hstate hinUse howner hsame hsq hcq hmask htail hwait hg =>
    exact Or.inl (.of_update rfl hinUse (hsame.trans howner.symm) hsq hcq hmask huse)
  | ringTick hinUse howner hsq hcq hmask htail hwait =>
    exact Or.inl (.of_update rfl hinUse howner hsq hcq hmask huse)
  | ringPost hinUse howner hsq hcq hmask hwait =>
    exact Or.inl (.of_update rfl hinUse howner hsq hcq hmask huse)
  | @ringStale j r hfree hstale hwait =>
    by_cases hj : id = j
    · subst hj
      dsimp only at huse
      rw [Function.update_self, hstale] at huse
      cases huse
    · exact Or.inl (.of_eq (Function.update_of_ne hj ..) huse)
  | @dropRing cap rest j hheld hobj =>
    by_cases hj : id = j
    · subst hj
      dsimp only at huse
      rw [Function.update_self] at huse
      cases huse
    · exact Or.inl (.of_eq (Function.update_of_ne hj ..) huse)
  | _ => exact Or.inl (.of_eq rfl huse)

/-- A ring that is about to go is about to go until it is free. -/
theorem TableAct.dropping {give : ProcSlot → CapSlot → Fate → Prop}
    {take : ProcSlot → CapSlot → Prop} {strand : Capability → Prop} {h h' : Holdings}
    (act : TableAct give take strand h h') (hdrop : ∃ cap ∈ h.held, cap.object = .ring id) :
    ∃ cap ∈ h'.held, cap.object = .ring id := by
  obtain ⟨cap, hmem, hobj⟩ := hdrop
  -- A head that is no ring capability may go.
  have htail : ∀ {c : Capability} {rest : List Capability}, h.held = c :: rest →
      c.object ≠ .ring id → cap ∈ rest := by
    intro c rest hheld hne
    rw [hheld] at hmem
    rcases List.mem_cons.mp hmem with rfl | hrest
    · exact absurd hobj hne
    · exact hrest
  cases act with
  | take hq hj hkind hnone hdying hfirst hg => exact ⟨cap, List.mem_cons_of_mem _ hmem, hobj⟩
  | home hheld hor hkind hq hnone hin =>
    refine ⟨cap, htail hheld ?_, hobj⟩
    intro hring
    rw [hring] at hkind
    cases hkind
  | strand hheld hor hkind hq hfull hg =>
    refine ⟨cap, htail hheld ?_, hobj⟩
    intro hring
    rw [hring] at hkind
    cases hkind
  | drop hheld hplain =>
    refine ⟨cap, htail hheld ?_, hobj⟩
    intro hring
    unfold Capability.isPlain at hplain
    rw [hring] at hplain
    exact hplain.2
  | reorder hperm => exact ⟨cap, hperm.mem_iff.mpr hmem, hobj⟩
  | _ => exact ⟨cap, hmem, hobj⟩

theorem Act.dropping (act : Act g v v') (hdrop : v.Dropping id)
    (huse : (v'.rings id).inUse = true) : v'.Dropping id := by
  cases act with
  | table act => exact act.dropping hdrop
  | @dropEndpoint c rest ep n hheld hobj hdoomed hn =>
    obtain ⟨cap, hmem, hring⟩ := hdrop
    rw [hheld] at hmem
    rcases List.mem_cons.mp hmem with rfl | hrest
    · rw [hring] at hobj
      cases hobj
    · exact ⟨cap, hrest, hring⟩
  | @dropRing c rest j hheld hobj =>
    have hj : id ≠ j := by
      rintro rfl
      dsimp only at huse
      rw [Function.update_self] at huse
      cases huse
    obtain ⟨cap, hmem, hring⟩ := hdrop
    rw [hheld] at hmem
    rcases List.mem_cons.mp hmem with rfl | hrest
    · rw [hring, CapObject.ring.injEq] at hobj
      exact absurd hobj hj
    · exact ⟨cap, hrest, hring⟩
  | @dropFrame c rest a hheld hobj =>
    obtain ⟨cap, hmem, hring⟩ := hdrop
    rw [hheld] at hmem
    rcases List.mem_cons.mp hmem with rfl | hrest
    · rw [hring] at hobj
      cases hobj
    · exact ⟨cap, hrest, hring⟩
  | @dropReply c rest q hheld hobj =>
    obtain ⟨cap, hmem, hring⟩ := hdrop
    rw [hheld] at hmem
    rcases List.mem_cons.mp hmem with rfl | hrest
    · rw [hring] at hobj
      cases hobj
    · exact ⟨cap, hrest, hring⟩
  | leave hp hstate hheld hdying htransit hcalm hg =>
    obtain ⟨cap, hmem, -⟩ := hdrop
    rw [hheld] at hmem
    cases hmem
  | _ => exact hdrop

/-! ### The frames of a ring -/

/-- The owner of every ring in use retains the two frames, unless the ring is about to go. -/
def Ledger.RingsFramed (v : Ledger) : Prop :=
  ∀ id, (v.rings id).inUse = true → v.Dropping id ∨
    v.Retains (v.rings id).owner (.frame (v.rings id).sqPhys) ∧
      v.Retains (v.rings id).owner (.frame (v.rings id).cqPhys)

/-- In the ledger `v`, the guard lets nobody take a frame of a ring from its owner. -/
def Guard.KeepsRingFrames (g : Guard) (v : Ledger) : Prop :=
  ∀ id, (v.rings id).inUse = true →
    g.Retentive v (v.rings id).owner (.frame (v.rings id).sqPhys) ∧
      g.Retentive v (v.rings id).owner (.frame (v.rings id).cqPhys)

/-- A process that leaves has the capabilities for the rings that it owns. -/
def Guard.TakesRings (g : Guard) (v : Ledger) : Prop :=
  ∀ p proc id, g.leave v p → v.proc p = some proc → (v.rings id).inUse = true →
    (v.rings id).owner = p → proc.Names (.ring id)

/-- What a process names is among the capabilities that its exit takes. -/
theorem Process.Names.mem_iter {proc : Process} {o : CapObject} (h : proc.Names o) :
    ∃ cap ∈ proc.caps.iter, cap.object = o := by
  obtain ⟨k, cap, hk, hobj⟩ := h
  exact ⟨cap, CapTable.mem_iter.mpr ⟨k, hk⟩, hobj⟩

theorem Act.ringsFramed (act : Act g v v') (hkeep : g.KeepsRingFrames v)
    (hleave : g.TakesRings v) (h : v.RingsFramed) : v'.RingsFramed := by
  intro id huse
  rcases act.ring_next huse with hsame | hnew
  · rcases h id hsame.inUse with hdrop | ⟨hsq, hcq⟩
    · exact Or.inl (act.dropping hdrop huse)
    · -- An owner that leaves takes the capability for the ring along.
      have hgone : g.leave v (v.rings id).owner → (∃ proc, v.proc (v.rings id).owner = some proc ∧
          v'.held = proc.caps.iter) → v'.Dropping id := by
        rintro hg ⟨proc, hp, hheld⟩
        unfold Ledger.Dropping
        rw [hheld]
        exact (hleave _ proc id hg hp hsame.inUse rfl).mem_iter
      rw [hsame.owner, hsame.sqPhys, hsame.cqPhys]
      obtain ⟨hgsq, hgcq⟩ := hkeep id hsame.inUse
      rcases act.retains (by simp) hgsq hsq with hsq' | ⟨hg, -, hrest⟩
      · rcases act.retains (by simp) hgcq hcq with hcq' | ⟨hg, -, hrest⟩
        · exact Or.inr ⟨hsq', hcq'⟩
        · exact Or.inl (hgone hg hrest)
      · exact Or.inl (hgone hg hrest)
  · exact Or.inr ⟨Or.inl hnew.sq, Or.inl hnew.cq⟩

/-! ### The owner of a ring -/

/-- The owner of every ring in use is alive, unless the ring is about to go. -/
def Ledger.RingsOwned (v : Ledger) : Prop :=
  ∀ id, (v.rings id).inUse = true → v.Dropping id ∨ ∃ proc, v.proc (v.rings id).owner = some proc

theorem Act.ringsOwned (act : Act g v v') (hleave : g.TakesRings v) (h : v.RingsOwned) :
    v'.RingsOwned := by
  intro id huse
  rcases act.ring_next huse with hsame | hnew
  · rcases h id hsame.inUse with hdrop | ⟨proc, hp⟩
    · exact Or.inl (act.dropping hdrop huse)
    · rw [hsame.owner]
      rcases act.same_or_leaves hp with ⟨-, proc', -, hp', -⟩ | hgone
      · exact Or.inr ⟨proc', hp'⟩
      · refine Or.inl ?_
        unfold Ledger.Dropping
        rw [hgone.held]
        exact (hleave _ proc id hgone.leave hp hsame.inUse rfl).mem_iter
  · obtain ⟨k, rights, proc, cap, hp, -⟩ := hnew.sq
    exact Or.inr ⟨proc, hp⟩

end Plinth
