import Plinth.Ledger.Traffic

/-!
# `Plinth.Ledger.Trails`: the origin of a capability on its way

Two results about origins and trails. `Path.origin_trail`: if a capability is on loan after a path,
its trail leads back to a slot where it had that origin, or to the slot that its origin names.
`Trail.tracks`: along a trail the origin stays, and it is cleared only if the capability returns to
the lender or the lender leaves.
-/

set_option autoImplicit false

namespace Plinth

/-! ### Where a loan comes from -/

/-- The capability at the spot is on loan from `o`. A transfer begins a loan if the giver owns the
capability outright. -/
inductive Ledger.Owes (v : Ledger) : Spot → Origin → Prop where
  | slot {q : ProcSlot} {j : CapSlot} {c : Capability} {o : Origin} (h : v.capAt q j = some c)
      (ho : c.origin = some o) : Owes v (.slot q j) o
  | transit {tr : Transit} {o : Origin} (h : v.transit = some tr) (ho : tr.cap.origin = some o) :
      Owes v .transit o
  | begun {tr : Transit} (h : v.transit = some tr) (ho : tr.cap.origin = none) :
      Owes v .transit ⟨tr.giver, tr.slot⟩
  | held {c : Capability} {o : Origin} (h : c ∈ v.held) (ho : c.origin = some o) :
      Owes v (.held c) o

/-- The action begins a loan from `o`: the owner gives the capability away. -/
structure Begins (g : Guard) (v : Ledger) (o : Origin) : Prop where
  give : ∃ f, g.give v o.lender o.home f
  owned : ∃ c, v.capAt o.lender o.home = some c ∧ c.origin = none
  first : v.spent = false

section

variable {g : Guard} {v v' : Ledger} {p q : ProcSlot} {k j : CapSlot} {cap c : Capability}
  {proc x : Process} {t : CapTable} {o : Origin} {l : Spot}

theorem Ledger.Ages.origin_some (h : v.Ages cap c) (ho : c.origin = some o) :
    cap.origin = some o := by
  cases h with
  | same => exact ho
  | charge hobj => exact ho
  | @clear p hdying =>
    unfold CapTable.clearLender at ho
    split at ho
    · cases ho
    · exact ho

/-- What arrives on loan was on loan in transit, or the transfer begins the loan. -/
theorem Transit.Arrives.owes {tr : Transit} (h : tr.Arrives q x j c) (htr : v.transit = some tr)
    (ho : c.origin = some o) : v.Owes .transit o := by
  cases h with
  | land hfate hne hres =>
    rcases lentTo_cases tr.cap ⟨tr.giver, tr.slot⟩ q with ⟨hnone, heq⟩ | ⟨-, -, -, heq⟩ |
      ⟨-, -, -, heq⟩
    · rw [heq] at ho
      cases ho
      exact .begun htr hnone
    · rw [heq] at ho
      cases ho
    · rw [heq] at ho
      exact .transit htr ho
  | child hfate hne hlender hres =>
    rcases spawnLoan_cases tr.cap tr.giver tr.slot with ⟨-, -, heq⟩ | ⟨hnone, heq⟩
    · rw [heq] at ho
      exact .transit htr ho
    · rw [heq] at ho
      cases ho
      exact .begun htr hnone
  | back hfate hgiver hres => exact .transit htr ho
  | undo hfate hgiver hown hres => exact .transit htr ho

/-- A loan after an action was one before it, or the action begins it. -/
theorem Traffic.owes (h : Traffic g v v') (howes : v'.Owes l o) :
    (∃ m, Shift v v' m l ∧ v.Owes m o) ∨
      Shift v v' (.slot o.lender o.home) l ∧ Begins g v o := by
  cases howes with
  | @slot q j c _ hc ho =>
    left
    have hstay : ∀ d, v.capAt q j = some d → d.origin = some o →
        ∃ m, Shift v v' m (.slot q j) ∧ v.Owes m o :=
      fun d hd hdo => ⟨_, .stay (.slot hd) (.slot hc), .slot hd hdo⟩
    -- A slot that the action does not touch.
    have hsame : ∀ {p : ProcSlot} {k : CapSlot}, SameBut v v' p k → ¬ (q = p ∧ j = k) →
        ∃ m, Shift v v' m (.slot q j) ∧ v.Owes m o := by
      intro p k hrest hne
      rw [hrest q j hne] at hc
      exact hstay c hc ho
    cases h with
    | make hkeep hnew htr hheld hshrink hspent =>
      rcases hnew q j c hc with hold | hnone
      · exact hstay c hold ho
      · rw [ho] at hnone
        cases hnone
    | age hnone hage htr hheld hspent =>
      cases hold : v.capAt q j with
      | none =>
        rw [hnone q j hold] at hc
        cases hc
      | some d =>
        obtain ⟨d', hd', hages⟩ := hage q j d hold
        rw [hc] at hd'
        cases hd'
        exact hstay d hold (hages.origin_some ho)
    | give hg hfull hempty hrest hnone htr hheld hfirst hspent =>
      refine hsame hrest ?_
      rintro ⟨rfl, rfl⟩
      rw [hempty] at hc
      cases hc
    | @settle tr q' x j' d htr hnone harrive hempty hfull hrest hheld hspent =>
      by_cases hself : q = q' ∧ j = j'
      · obtain ⟨rfl, rfl⟩ := hself
        rw [hfull] at hc
        cases hc
        exact ⟨.transit, .arrive htr hnone hempty hfull, harrive.owes htr ho⟩
      · exact hsame hrest hself
    | lose hslots hnone hheld hspent =>
      rw [hslots] at hc
      exact hstay c hc ho
    | take hfull hempty hrest htr hheld hfirst hspent =>
      refine hsame hrest ?_
      rintro ⟨rfl, rfl⟩
      rw [hempty] at hc
      cases hc
    | home hheld hlent hempty hfull hrest htr hspent =>
      refine hsame hrest ?_
      rintro ⟨rfl, rfl⟩
      rw [hfull] at hc
      cases hc
      cases ho
    | @leave p hg hempty hrest htr hnone hheld hspent =>
      have hq : q ≠ p := by
        rintro rfl
        rw [hempty] at hc
        cases hc
      rw [hrest q j hq] at hc
      exact hstay c hc ho
  | @transit tr _ htr' ho =>
    have hstay : v'.transit = v.transit → ∃ m, Shift v v' m .transit ∧ v.Owes m o := by
      intro heq
      have htr : v.transit = some tr := heq.symm.trans htr'
      exact ⟨_, .stay (.transit htr) (.transit htr'), .transit htr ho⟩
    left
    cases h with
    | make hkeep hnew htr hheld hshrink hspent => exact hstay htr
    | age hnone hage htr hheld hspent => exact hstay htr
    | give hg hfull hempty hrest hnone htr hheld hfirst hspent =>
      rw [htr] at htr'
      cases htr'
      exact ⟨_, .give hnone htr, .slot hfull ho⟩
    | settle htr hnone harrive hempty hfull hrest hheld hspent =>
      rw [hnone] at htr'
      cases htr'
    | lose hslots hnone hheld hspent =>
      rw [hnone] at htr'
      cases htr'
    | take hfull hempty hrest htr hheld hfirst hspent => exact hstay htr
    | home hheld hlent hempty hfull hrest htr hspent => exact hstay htr
    | leave hg hempty hrest htr hnone hheld hspent => exact hstay htr
  | @begun tr htr' ho =>
    have hstay : v'.transit = v.transit →
        ∃ m, Shift v v' m .transit ∧ v.Owes m ⟨tr.giver, tr.slot⟩ := by
      intro heq
      have htr : v.transit = some tr := heq.symm.trans htr'
      exact ⟨_, .stay (.transit htr) (.transit htr'), .begun htr ho⟩
    cases h with
    | make hkeep hnew htr hheld hshrink hspent => exact Or.inl (hstay htr)
    | age hnone hage htr hheld hspent => exact Or.inl (hstay htr)
    | give hg hfull hempty hrest hnone htr hheld hfirst hspent =>
      rw [htr] at htr'
      cases htr'
      exact Or.inr ⟨.give hnone htr, ⟨_, hg⟩, ⟨_, hfull, ho⟩, hfirst⟩
    | settle htr hnone harrive hempty hfull hrest hheld hspent =>
      rw [hnone] at htr'
      cases htr'
    | lose hslots hnone hheld hspent =>
      rw [hnone] at htr'
      cases htr'
    | take hfull hempty hrest htr hheld hfirst hspent => exact Or.inl (hstay htr)
    | home hheld hlent hempty hfull hrest htr hspent => exact Or.inl (hstay htr)
    | leave hg hempty hrest htr hnone hheld hspent => exact Or.inl (hstay htr)
  | @held c _ hc ho =>
    left
    have hstay : c ∈ v.held → ∃ m, Shift v v' m (.held c) ∧ v.Owes m o :=
      fun hold => ⟨_, .stay (.held hold) (.held hc), .held hold ho⟩
    cases h with
    | make hkeep hnew htr hheld hshrink hspent => exact hstay (hheld c hc)
    | age hnone hage htr hheld hspent => exact hstay (hheld ▸ hc)
    | give hg hfull hempty hrest hnone htr hheld hfirst hspent => exact hstay (hheld ▸ hc)
    | settle htr hnone harrive hempty hfull hrest hheld hspent => exact hstay (hheld ▸ hc)
    | lose hslots hnone hheld hspent => exact hstay (hheld ▸ hc)
    | take hfull hempty hrest htr hheld hfirst hspent =>
      rcases hheld with heq | heq
      · rcases List.mem_cons.mp (heq ▸ hc) with rfl | hold
        · exact ⟨_, .take hfull hempty hc, .slot hfull ho⟩
        · exact hstay hold
      · exact hstay (heq ▸ hc)
    | home hheld hlent hempty hfull hrest htr hspent =>
      refine hstay ?_
      rw [hheld]
      exact List.mem_cons_of_mem _ hc
    | leave hg hempty hrest htr hnone hheld hspent =>
      obtain ⟨j, hj⟩ := (hheld c).mp hc
      exact ⟨_, .take hj (hempty j) hc, .slot hj ho⟩

/-- As long as an entry has taken nothing, every capability is where it was. -/
theorem Traffic.unspent (h : Traffic g v v') (hfirst : v'.spent = false) :
    v.spent = false ∧ ∀ q j c, v.capAt q j = some c → ∃ c', v'.capAt q j = some c' := by
  cases h with
  | make hkeep hnew htr hheld hshrink hspent =>
    exact ⟨hspent.symm.trans hfirst, fun q j c hc => ⟨c, hkeep q j c hc⟩⟩
  | age hnone hage htr hheld hspent =>
    refine ⟨hspent.symm.trans hfirst, fun q j c hc => ?_⟩
    obtain ⟨c', hc', -⟩ := hage q j c hc
    exact ⟨c', hc'⟩
  | give hg hfull hempty hrest hnone htr hheld hone hspent =>
    rw [hspent] at hfirst
    cases hfirst
  | @settle tr q' x j' d htr hnone harrive hempty hfull hrest hheld hspent =>
    refine ⟨hspent.symm.trans hfirst, fun q j c hc => ⟨c, ?_⟩⟩
    rw [hrest q j ?_]
    · exact hc
    · rintro ⟨rfl, rfl⟩
      rw [hempty] at hc
      cases hc
  | lose hslots hnone hheld hspent =>
    refine ⟨hspent.symm.trans hfirst, fun q j c hc => ⟨c, ?_⟩⟩
    rw [hslots]
    exact hc
  | take hfull hempty hrest htr hheld hone hspent =>
    rw [hspent] at hfirst
    cases hfirst
  | home hheld hlent hempty hfull hrest htr hspent =>
    refine ⟨hspent.symm.trans hfirst, fun q j c hc => ⟨c, ?_⟩⟩
    rw [hrest q j ?_]
    · exact hc
    · rintro ⟨rfl, rfl⟩
      rw [hempty] at hc
      cases hc
  | leave hg hempty hrest htr hnone hheld hspent =>
    rw [hspent] at hfirst
    cases hfirst

theorem Path.unmoved (path : Path g v v') (hc : v.capAt q j = some c) (hfirst : v'.spent = false) :
    (∃ c', v'.capAt q j = some c') ∧ Trail g v (.slot q j) v' (.slot q j) := by
  induction path with
  | refl => exact ⟨⟨c, hc⟩, .refl⟩
  | tail path act ih =>
    obtain ⟨hbefore, hkeep⟩ := act.traffic.unspent hfirst
    obtain ⟨⟨d, hd⟩, trail⟩ := ih hbefore
    obtain ⟨d', hd'⟩ := hkeep q j d hd
    exact ⟨⟨d', hd'⟩, .tail trail act (.stay (.slot hd) (.slot hd'))⟩

/-- A loan after a path was one before it, or its owner gave the capability away on the path. In
both cases the trail of the capability leads there. -/
theorem Path.origin_trail (path : Path g v v') (hnone : v.transit = none) (hheld : v.held = [])
    (hgive : ∀ u p k f, g.give u p k f → u.proc = v.proc) (howes : v'.Owes l o) :
    (∃ q j c, v.capAt q j = some c ∧ c.origin = some o ∧ Trail g v (.slot q j) v' l) ∨
      ∃ c, v.capAt o.lender o.home = some c ∧ c.origin = none ∧
        (∃ u f, g.give u o.lender o.home f) ∧ Trail g v (.slot o.lender o.home) v' l := by
  induction path generalizing l with
  | refl =>
    left
    cases howes with
    | slot hc ho => exact ⟨_, _, _, hc, ho, .refl⟩
    | transit htr ho =>
      rw [hnone] at htr
      cases htr
    | begun htr ho =>
      rw [hnone] at htr
      cases htr
    | held hc ho =>
      rw [hheld] at hc
      cases hc
  | @tail u u' path act ih =>
    rcases act.traffic.owes howes with ⟨m, hshift, hm⟩ | ⟨hshift, ⟨f, hg⟩, ⟨c, hc, ho⟩, hfirst⟩
    · rcases ih hm with ⟨q, j, c, hc, ho, trail⟩ | ⟨c, hc, ho, hg, trail⟩
      · exact Or.inl ⟨q, j, c, hc, ho, .tail trail act hshift⟩
      · exact Or.inr ⟨c, hc, ho, hg, .tail trail act hshift⟩
    · -- Nothing has moved when a transfer begins, so the slot is the one before the path.
      have hc' : v.capAt o.lender o.home = some c := by
        unfold Ledger.capAt at hc ⊢
        rw [← hgive u _ _ f hg]
        exact hc
      exact Or.inr ⟨c, hc', ho, ⟨u, f, hg⟩, .tail (Path.unmoved path hc' hfirst).2 act hshift⟩

end

/-! ### What becomes of an origin -/

/-- Something is in motion only after the entry took it, and a process is reclaimed only if the
guard lets it leave. -/
structure Ledger.Engaged (g : Guard) (v : Ledger) : Prop where
  transit : v.transit ≠ none → v.spent = true
  held : v.held ≠ [] → v.spent = true
  dying : ∀ p, v.dying = some p → v.spent = true ∧ ∃ u, g.leave u p

/-- A capability with the origin `o` before a path: it has the origin still, or it lost the origin
because it is back at the lender, or because the lender leaves. -/
inductive Ledger.Tracks (g : Guard) (v : Ledger) (o : Origin) (l : Spot) : Prop where
  | owes {c : Capability} (h : v.At l c) (ho : c.origin = some o)
  | clear {c : Capability} (h : v.At l c) (ho : c.origin = none) (hspent : v.spent = true)
      (hl : l ≠ .transit) (hend : (∃ j, l = .slot o.lender j) ∨ ∃ u, g.leave u o.lender)

section

variable {g : Guard} {v v' : Ledger} {p q : ProcSlot} {k j : CapSlot} {cap c c' : Capability}
  {proc x : Process} {t : CapTable} {o : Origin} {l l' : Spot}

theorem Traffic.spent_mono (h : Traffic g v v') (hspent : v.spent = true) : v'.spent = true := by
  by_contra hfirst
  rw [Bool.not_eq_true] at hfirst
  rw [(h.unspent hfirst).1] at hspent
  cases hspent

/-- A process is reclaimed only if the guard lets it leave. -/
theorem Act.dying_source (act : Act g v v') (h : v'.dying = some p) :
    v.dying = some p ∨ g.leave v p ∧ v'.spent = true := by
  cases act with
  | table act =>
    cases act with
    | clearOrigins hdying hp hnone => cases h
    | _ => exact Or.inl h
  | leave hp hstate hheld hdying htransit hcalm hleave =>
    cases h
    exact Or.inr ⟨hleave, rfl⟩
  | _ => exact Or.inl h

theorem Act.engaged (act : Act g v v') (h : v.Engaged g) : v'.Engaged g := by
  have htraffic := act.traffic
  refine ⟨fun htr => ?_, fun hheld => ?_, fun p hp => ?_⟩
  · cases htraffic with
    | give hg hfull hempty hrest hnone htr' hheld hfirst hspent => exact hspent
    | settle htr' hnone harrive hempty hfull hrest hheld hspent => exact absurd hnone htr
    | lose hslots hnone hheld hspent => exact absurd hnone htr
    | take hfull hempty hrest htr' hheld hfirst hspent => exact hspent
    | leave hg hempty hrest htr' hnone hheld hspent => exact hspent
    | make hkeep hnew htr' hheld hshrink hspent => exact hspent.trans (h.transit (htr' ▸ htr))
    | age hnone hage htr' hheld hspent => exact hspent.trans (h.transit (htr' ▸ htr))
    | home hheld hlent hempty hfull hrest htr' hspent =>
      exact hspent.trans (h.transit (htr' ▸ htr))
  · cases htraffic with
    | give hg hfull hempty hrest hnone htr' hheld' hfirst hspent => exact hspent
    | settle htr' hnone harrive hempty hfull hrest hheld' hspent =>
      exact hspent.trans (h.held (hheld' ▸ hheld))
    | lose hslots hnone hheld' hspent => exact hspent.trans (h.held (hheld' ▸ hheld))
    | take hfull hempty hrest htr' hheld' hfirst hspent => exact hspent
    | leave hg hempty hrest htr' hnone hheld' hspent => exact hspent
    | make hkeep hnew htr' hheld' hshrink hspent =>
      obtain ⟨c, hc⟩ := List.exists_mem_of_ne_nil _ hheld
      exact hspent.trans (h.held (List.ne_nil_of_mem (hheld' c hc)))
    | age hnone hage htr' hheld' hspent => exact hspent.trans (h.held (hheld' ▸ hheld))
    | home hheld' hlent hempty hfull hrest htr' hspent =>
      exact hspent.trans (h.held (by rw [hheld']; exact List.cons_ne_nil _ _))
  · rcases act.dying_source hp with hold | ⟨hleave, hspent⟩
    · obtain ⟨hspent, hleave⟩ := h.dying p hold
      exact ⟨htraffic.spent_mono hspent, hleave⟩
    · exact ⟨hspent, v, hleave⟩

/-- A capability that stays where it is keeps its origin, unless its lender is reclaimed. -/
theorem Traffic.stay_origin (h : Traffic g v v') (hc : v.At l c) (hc' : v'.At l c') :
    c'.origin = c.origin ∨ c'.origin = none ∧ l ≠ .transit ∧
      ∃ o, c.origin = some o ∧ v.dying = some o.lender := by
  cases hc with
  | @slot q j _ hold =>
    cases hc' with
    | slot hnew =>
    have hsame : v'.capAt q j = v.capAt q j → c'.origin = c.origin := by
      intro heq
      rw [heq, hold] at hnew
      cases hnew
      rfl
    cases h with
    | make hkeep _ htr hheld hshrink hspent =>
      exact Or.inl (hsame ((hkeep q j c hold).trans hold.symm))
    | age hnone hage htr hheld hspent =>
      obtain ⟨d, hd, hages⟩ := hage q j c hold
      rw [hnew] at hd
      cases hd
      cases hages with
      | same => exact Or.inl rfl
      | charge hobj => exact Or.inl rfl
      | @clear p hdying =>
        unfold CapTable.clearLender
        split
        · rename_i hlender
          obtain ⟨o, ho, heq⟩ := Option.map_eq_some_iff.mp hlender
          exact Or.inr ⟨rfl, nofun, o, ho, hdying.trans (congrArg some heq.symm)⟩
        · exact Or.inl rfl
    | give hg hfull hempty hrest hnone htr hheld hfirst hspent =>
      refine Or.inl (hsame (hrest q j ?_))
      rintro ⟨rfl, rfl⟩
      rw [hempty] at hnew
      cases hnew
    | settle htr hnone harrive hempty hfull hrest hheld hspent =>
      refine Or.inl (hsame (hrest q j ?_))
      rintro ⟨rfl, rfl⟩
      rw [hempty] at hold
      cases hold
    | lose hslots hnone hheld hspent => exact Or.inl (hsame (by rw [hslots]))
    | take hfull hempty hrest htr hheld hfirst hspent =>
      refine Or.inl (hsame (hrest q j ?_))
      rintro ⟨rfl, rfl⟩
      rw [hempty] at hnew
      cases hnew
    | home hheld hlent hempty hfull hrest htr hspent =>
      refine Or.inl (hsame (hrest q j ?_))
      rintro ⟨rfl, rfl⟩
      rw [hempty] at hold
      cases hold
    | leave hg hempty hrest htr hnone hheld hspent =>
      refine Or.inl (hsame (hrest q j ?_))
      rintro rfl
      rw [hempty] at hnew
      cases hnew
  | @transit tr htr =>
    cases hc' with
    | @transit tr' htr' =>
    left
    have hsame : v'.transit = v.transit → tr'.cap.origin = tr.cap.origin := by
      intro heq
      rw [heq, htr] at htr'
      cases htr'
      rfl
    cases h with
    | make hkeep hnew heq hheld hshrink hspent => exact hsame heq
    | age hnone hage heq hheld hspent => exact hsame heq
    | give hg hfull hempty hrest hnone heq hheld hfirst hspent =>
      rw [hnone] at htr
      cases htr
    | settle hsome hnone harrive hempty hfull hrest hheld hspent =>
      rw [hnone] at htr'
      cases htr'
    | lose hslots hnone hheld hspent =>
      rw [hnone] at htr'
      cases htr'
    | take hfull hempty hrest heq hheld hfirst hspent => exact hsame heq
    | home hheld hlent hempty hfull hrest heq hspent => exact hsame heq
    | leave hg hempty hrest heq hnone hheld hspent => exact hsame heq
  | held hold =>
    cases hc' with
    | held hnew => exact Or.inl rfl

theorem Ledger.At.unique (h : v.At l c) (h' : v.At l c') : c = c' := by
  cases h with
  | slot h =>
    cases h' with
    | slot h' => exact Option.some.inj (h.symm.trans h')
  | transit h =>
    cases h' with
    | transit h' => rw [Option.some.inj (h.symm.trans h')]
  | held h =>
    cases h' with
    | held h' => rfl

/-- A transfer that begins takes the capability of the slot, and it is the first. -/
theorem Traffic.begins {tr : Transit} (h : Traffic g v v') (hnone : v.transit = none)
    (htr : v'.transit = some tr) :
    v.capAt tr.giver tr.slot = some tr.cap ∧ v.spent = false := by
  have hno : v'.transit ≠ v.transit := fun heq => by
    rw [heq, hnone] at htr
    cases htr
  cases h with
  | give hg hfull hempty hrest _ htr' hheld hfirst hspent =>
    rw [htr'] at htr
    cases htr
    exact ⟨hfull, hfirst⟩
  | settle _ hnone' harrive hempty hfull hrest hheld hspent =>
    rw [hnone'] at htr
    cases htr
  | lose hslots hnone' hheld hspent =>
    rw [hnone'] at htr
    cases htr
  | make hkeep hnew heq hheld hshrink hspent => exact absurd heq hno
  | age hnone' hage heq hheld hspent => exact absurd heq hno
  | take hfull hempty hrest heq hheld hfirst hspent => exact absurd heq hno
  | home hheld hlent hempty hfull hrest heq hspent => exact absurd heq hno
  | leave hg hempty hrest heq hnone' hheld hspent => exact absurd heq hno

/-- A transfer that ends in a slot arrives there. -/
theorem Traffic.arrives {tr : Transit} (h : Traffic g v v') (htr : v.transit = some tr)
    (hnone : v'.transit = none) (hempty : v.capAt q j = none) (hfull : v'.capAt q j = some c) :
    ∃ x, tr.Arrives q x j c := by
  have hno : v'.transit ≠ v.transit := fun heq => by
    rw [heq, htr] at hnone
    cases hnone
  cases h with
  | @settle tr' q' x j' d htr' _ harrive hempty' hfull' hrest hheld hspent =>
    rw [htr] at htr'
    cases htr'
    by_cases hself : q = q' ∧ j = j'
    · obtain ⟨rfl, rfl⟩ := hself
      rw [hfull'] at hfull
      cases hfull
      exact ⟨x, harrive⟩
    · rw [hrest q j hself, hempty] at hfull
      cases hfull
  | lose hslots _ hheld hspent =>
    rw [hslots, hempty] at hfull
    cases hfull
  | give hg _ _ hrest hnone' _ hheld hfirst hspent =>
    rw [hnone'] at htr
    cases htr
  | make hkeep hnew heq hheld hshrink hspent => exact absurd heq hno
  | age hnone' hage heq hheld hspent => exact absurd heq hno
  | take _ _ hrest heq hheld hfirst hspent => exact absurd heq hno
  | home hheld hlent _ _ hrest heq hspent => exact absurd heq hno
  | leave hg _ hrest heq hnone' hheld hspent => exact absurd heq hno

/-- What empties a slot is the first to take something, or the process leaves. -/
theorem Traffic.empties (h : Traffic g v v') (hfull : v.capAt q j = some c)
    (hempty : v'.capAt q j = none) : v.spent = false ∨ g.leave v q := by
  have hsame : v'.capAt q j ≠ v.capAt q j := fun heq => by
    rw [heq, hfull] at hempty
    cases hempty
  cases h with
  | give hg _ _ hrest hnone htr hheld hfirst hspent => exact Or.inl hfirst
  | take _ _ hrest htr hheld hfirst hspent => exact Or.inl hfirst
  | make hkeep hnew htr hheld hshrink hspent =>
    exact absurd ((hkeep q j c hfull).trans hfull.symm) hsame
  | age hnone hage htr hheld hspent =>
    obtain ⟨d, hd, -⟩ := hage q j c hfull
    rw [hempty] at hd
    cases hd
  | @settle tr q' x j' d htr hnone harrive hempty' hfull' hrest hheld hspent =>
    refine absurd (hrest q j ?_) hsame
    rintro ⟨rfl, rfl⟩
    rw [hfull'] at hempty
    cases hempty
  | lose hslots hnone hheld hspent => exact absurd (by rw [hslots]) hsame
  | home hheld hlent hempty' hfull' hrest htr hspent =>
    refine absurd (hrest q j ?_) hsame
    rintro ⟨rfl, rfl⟩
    rw [hfull'] at hempty
    cases hempty
  | @leave p hg _ hrest htr hnone hheld hspent =>
    by_cases hq : q = p
    · exact Or.inr (hq ▸ hg)
    · exact absurd (hrest q j hq) hsame

/-- What comes from the held capabilities and fills a slot is at its lender. -/
theorem Traffic.homes (h : Traffic g v v') (hheld : v.held = c :: v'.held)
    (hempty : v.capAt q j = none) (hfull : v'.capAt q j = some c') :
    ∃ o, c.origin = some o ∧ q = o.lender ∧ c'.origin = none := by
  have hno : v'.held ≠ v.held := fun heq =>
    absurd (congrArg List.length (heq.trans hheld)) (by simp)
  cases h with
  | @home d o j' hheld' hlent hempty' hfull' hrest htr hspent =>
    have hcd : c = d := (List.cons.inj (hheld.symm.trans hheld')).1
    subst hcd
    by_cases hself : q = o.lender ∧ j = j'
    · obtain ⟨rfl, rfl⟩ := hself
      rw [hfull'] at hfull
      cases hfull
      exact ⟨o, hlent, rfl, rfl⟩
    · rw [hrest q j hself, hempty] at hfull
      cases hfull
  | make hkeep hnew htr _ hshrink hspent =>
    rw [hshrink c hheld, hempty] at hfull
    cases hfull
  | take _ _ hrest htr hheld' hfirst hspent =>
    rcases hheld' with heq | heq
    · have hlen := congrArg List.length (hheld.trans (congrArg _ heq))
      simp only [List.length_cons] at hlen
      omega
    · exact absurd heq hno
  | leave hg _ hrest htr hnone _ hspent =>
    rw [hnone] at hheld
    cases hheld
  | age hnone hage htr heq hspent => exact absurd heq hno
  | give hg _ _ hrest hnone htr heq hfirst hspent => exact absurd heq hno
  | settle htr hnone harrive _ _ hrest heq hspent => exact absurd heq hno
  | lose hslots hnone heq hspent => exact absurd heq hno

/-- What arrives from a loan is on that loan, or it is back at its lender. -/
theorem Transit.Arrives.tracks {tr : Transit} (h : tr.Arrives q x j c)
    (ho : tr.cap.origin = some o) : c.origin = some o ∨ c.origin = none ∧ q = o.lender := by
  cases h with
  | land hfate hne hres =>
    rcases lentTo_cases tr.cap ⟨tr.giver, tr.slot⟩ q with ⟨hnone, -⟩ | ⟨o', ho', hq, heq⟩ |
      ⟨o', ho', hq, heq⟩
    · rw [ho] at hnone
      cases hnone
    · rw [ho] at ho'
      cases ho'
      exact Or.inr ⟨by rw [heq], hq.symm⟩
    · rw [heq]
      exact Or.inl ho
  | child hfate hne hlender hres =>
    rcases spawnLoan_cases tr.cap tr.giver tr.slot with ⟨-, -, heq⟩ | ⟨hnone, heq⟩
    · rw [heq]
      exact Or.inl ho
    · rw [ho] at hnone
      cases hnone
  | back hfate hgiver hres => exact Or.inl ho
  | undo hfate hgiver hown hres => exact Or.inl ho

/-- One action keeps the account of a loan. There is one case for each way to move. -/
theorem Traffic.tracks (h : Traffic g v v') (he : v.Engaged g) (hl : v.Tracks g o l)
    (hshift : Shift v v' l l') : v'.Tracks g o l' := by
  cases hshift with
  | @stay _ c c' hc hc' =>
    have hstay := h.stay_origin hc hc'
    cases hl with
    | owes hd ho =>
      cases hc.unique hd
      rcases hstay with heq | ⟨hnone, htransit, o', ho', hdying⟩
      · exact .owes hc' (heq.trans ho)
      · rw [ho] at ho'
        cases ho'
        obtain ⟨hspent, hleave⟩ := he.dying _ hdying
        exact .clear hc' hnone (h.spent_mono hspent) htransit (Or.inr hleave)
    | clear hd ho hspent htransit hend =>
      cases hc.unique hd
      have hnone : c'.origin = none := by
        rcases hstay with heq | ⟨hnone, -⟩
        · exact heq.trans ho
        · exact hnone
      exact .clear hc' hnone (h.spent_mono hspent) htransit hend
  | give hnone htr =>
    obtain ⟨hfull, hfirst⟩ := h.begins hnone htr
    cases hl with
    | owes hd ho =>
      cases hd.unique (.slot hfull)
      exact .owes (.transit htr) ho
    | clear hd ho hspent htransit hend =>
      rw [hspent] at hfirst
      cases hfirst
  | @arrive q j tr c htr hnone hempty hfull =>
    obtain ⟨x, harrive⟩ := h.arrives htr hnone hempty hfull
    cases hl with
    | owes hd ho =>
      cases hd.unique (.transit htr)
      rcases harrive.tracks ho with hsome | ⟨hcleared, hq⟩
      · exact .owes (.slot hfull) hsome
      · have hspent := he.transit (by rw [htr]; nofun)
        exact .clear (.slot hfull) hcleared (h.spent_mono hspent) nofun (Or.inl ⟨j, by rw [hq]⟩)
    | clear hd ho hspent htransit hend => exact absurd rfl htransit
  | @take q j c hfull hempty hheld =>
    cases hl with
    | owes hd ho =>
      cases hd.unique (.slot hfull)
      exact .owes (.held hheld) ho
    | clear hd ho hspent htransit hend =>
      cases hd.unique (.slot hfull)
      refine .clear (.held hheld) ho (h.spent_mono hspent) nofun (Or.inr ?_)
      -- The entry has taken something already, so the process leaves.
      rcases h.empties hfull hempty with hfirst | hleave
      · rw [hspent] at hfirst
        cases hfirst
      · rcases hend with ⟨j', heq⟩ | hleave'
        · cases heq
          exact ⟨v, hleave⟩
        · exact hleave'
  | @home q j c c' hheld hempty hfull =>
    obtain ⟨o', ho', hq, hnone⟩ := h.homes hheld hempty hfull
    have hspent := he.held (by rw [hheld]; exact List.cons_ne_nil _ _)
    cases hl with
    | owes hd ho =>
      cases hd with
      | held hd =>
      rw [ho] at ho'
      cases ho'
      exact .clear (.slot hfull) hnone (h.spent_mono hspent) nofun (Or.inl ⟨j, by rw [hq]⟩)
    | clear hd ho _ htransit hend =>
      cases hd with
      | held hd =>
      rw [ho] at ho'
      cases ho'

/-- What becomes of a loan along a trail. -/
theorem Trail.tracks (trail : Trail g v l v' l') (he : v.Engaged g) (hl : v.Tracks g o l) :
    v'.Engaged g ∧ v'.Tracks g o l' := by
  induction trail with
  | refl => exact ⟨he, hl⟩
  | tail trail act shift ih => exact ⟨act.engaged ih.1, act.traffic.tracks ih.1 ih.2 shift⟩

end

end Plinth
