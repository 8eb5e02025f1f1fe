import Plinth.Ledger.Act
import Plinth.Proofs.Memory

/-!
# `Plinth.Ledger.Sound`: well-formed holdings, and what the table actions conserve

`SoundAt` holds of the capability tables in every reachable state: a reserved slot is empty,
and every origin names another process, which is alive.

`TableAct.total` is the conservation law. A table action changes no steady total, except that
it can end a capability of a plain kind. So the totals of frames, endpoints, rings and replies
change only by the actions that say so.
-/

set_option autoImplicit false

namespace Plinth

/-! ### What giving a capability away leaves -/

section

variable (m : Mem) (proc : Process) (k : CapSlot) (cap : Capability)

theorem giveAway_slots :
    (giveAway m proc k cap).1.caps.slots = Function.update proc.caps.slots k none := by
  unfold giveAway
  dsimp only
  split
  · simp
  · simp

theorem giveAway_reserved :
    (giveAway m proc k cap).1.caps.reserved
      = if lendReservesHome cap then Function.update proc.caps.reserved k true
        else proc.caps.reserved := by
  unfold giveAway
  dsimp only
  split
  · simp
  · simp

@[simp] theorem giveAway_l4 : (giveAway m proc k cap).1.l4 = proc.l4 := by
  unfold giveAway
  dsimp only
  split
  · simp
  · simp

theorem giveAway_mem :
    (giveAway m proc k cap).2 = m.unmapAll proc.l4 (proc.vasFor cap k) :=
  unmapForSlot_mem m _ cap k

end

variable {m : Mem} {proc : Process} {k : CapSlot} {cap : Capability}

theorem giveAway_slot_of_ne {j : CapSlot} (h : j ≠ k) :
    (giveAway m proc k cap).1.caps.slots j = proc.caps.slots j := by
  rw [giveAway_slots, Function.update_of_ne h]

theorem giveAway_slot_self : (giveAway m proc k cap).1.caps.slots k = none := by
  rw [giveAway_slots, Function.update_self]

theorem procWeight_giveAway (w : Capability → Nat) (hk : proc.caps.slots k = some cap) :
    procWeight w (giveAway m proc k cap).1 + w cap = procWeight w proc := by
  unfold procWeight
  rw [giveAway_slots]
  exact Tally.tally_erase w hk

theorem procWeight_revoke (w : Capability → Nat) (hk : proc.caps.slots k = some cap) :
    procWeight w (proc.setCaps (proc.caps.set k none)) + w cap = procWeight w proc :=
  Tally.tally_erase w hk

theorem procWeight_charge {w : Capability → Nat} (hw : Steady w)
    (hk : proc.caps.slots k = some cap) {budget b : Nat}
    (hobj : cap.object = .cpuTime budget) :
    procWeight w (proc.setCaps (proc.caps.set k
      (some { cap with object := .cpuTime b }))) = procWeight w proc :=
  CapTable.tally_charge hw hk hobj

theorem procWeight_unmapForSlot (w : Capability → Nat) (slot : Nat) :
    procWeight w (unmapForSlot m proc cap slot).1 = procWeight w proc := by
  unfold procWeight
  rw [unmapForSlot_caps]

theorem spawnLoan_cases (cap : Capability) (p : ProcSlot) (k : CapSlot) :
    (∃ o, cap.origin = some o ∧ Kernel.spawnLoan cap p k = cap) ∨
      (cap.origin = none ∧ Kernel.spawnLoan cap p k = { cap with origin := some ⟨p, k⟩ }) := by
  unfold Kernel.spawnLoan
  rw [Origin.new_fin]
  cases h : cap.origin with
  | none => exact Or.inr ⟨rfl, by simp⟩
  | some o =>
    left
    refine ⟨o, rfl, ?_⟩
    rw [Option.some_or, ← h]

theorem lentTo_cases (cap : Capability) (source : Origin) (q : ProcSlot) :
    (cap.origin = none ∧ cap.lentTo source q = { cap with origin := some source }) ∨
      (∃ o, cap.origin = some o ∧ o.lender = q ∧
        cap.lentTo source q = { cap with origin := none }) ∨
      (∃ o, cap.origin = some o ∧ o.lender ≠ q ∧ cap.lentTo source q = cap) := by
  unfold Capability.lentTo
  cases h : cap.origin with
  | none => exact Or.inl ⟨rfl, rfl⟩
  | some o =>
    by_cases ho : o.lender = q
    · exact Or.inr (Or.inl ⟨o, rfl, ho, by simp [ho]⟩)
    · exact Or.inr (Or.inr ⟨o, rfl, ho, by simp [ho]⟩)

theorem spawnLoan_steady {w : Capability → Nat} (hw : Steady w) (cap : Capability)
    (p : ProcSlot) (k : CapSlot) : w (Kernel.spawnLoan cap p k) = w cap :=
  hw.origin cap _

/-! ### Sound holdings -/

/-- What holds of the capability tables in every reachable state. -/
structure SoundAt (P : ProcSlot → Option Process) (transit : Option Transit)
    (held : List Capability) (dying : Option ProcSlot) : Prop where
  /-- A reserved slot is empty. -/
  reserved : ∀ p proc, P p = some proc → ∀ k, proc.caps.reserved k = true →
    proc.caps.slots k = none
  /-- An origin names another process, which is alive or just being reclaimed. -/
  origin : ∀ p proc k cap o, P p = some proc → proc.caps.slots k = some cap →
    cap.origin = some o → o.lender ≠ p ∧ (P o.lender ≠ none ∨ dying = some o.lender)
  held : ∀ cap ∈ held, ∀ o, cap.origin = some o → P o.lender ≠ none
  /-- The slot that a transfer emptied stays empty, and it is reserved if a loan starts. -/
  transit : ∀ tr, transit = some tr → ∃ proc, P tr.giver = some proc ∧
    proc.caps.slots tr.slot = none ∧
    proc.caps.reserved tr.slot = lendReservesHome tr.cap ∧
    ∀ o, tr.cap.origin = some o → o.lender ≠ tr.giver ∧ P o.lender ≠ none

/-- The holdings are sound. -/
def Holdings.Sound (h : Holdings) : Prop := SoundAt h.proc h.transit h.held h.dying

theorem update_some_ne_none {P : ProcSlot → Option Process} {p q : ProcSlot} {proc : Process}
    (h : P q ≠ none) : Function.update P p (some proc) q ≠ none := by
  by_cases hq : q = p
  · subst hq
    simp
  · rw [Function.update_of_ne hq]
    exact h

section

variable {P : ProcSlot → Option Process} {transit : Option Transit} {held : List Capability}
  {dying : Option ProcSlot} {p : ProcSlot} {proc' : Process}

/-- To rewrite a live process keeps the holdings sound, if the new table is sound. The
transit is given up or kept by the caller. -/
theorem SoundAt.put (h : SoundAt P transit held dying) {transit' : Option Transit}
    (hres : ∀ k, proc'.caps.reserved k = true → proc'.caps.slots k = none)
    (hor : ∀ k cap o, proc'.caps.slots k = some cap → cap.origin = some o →
      o.lender ≠ p ∧ (P o.lender ≠ none ∨ dying = some o.lender))
    (htr : ∀ tr, transit' = some tr → ∃ proc, Function.update P p (some proc') tr.giver = some proc
      ∧ proc.caps.slots tr.slot = none ∧ proc.caps.reserved tr.slot = lendReservesHome tr.cap ∧
      ∀ o, tr.cap.origin = some o → o.lender ≠ tr.giver ∧ P o.lender ≠ none) :
    SoundAt (Function.update P p (some proc')) transit' held dying := by
  refine ⟨?_, ?_, ?_, ?_⟩
  · intro q proc hq k hk
    by_cases heq : q = p
    · subst heq
      rw [Function.update_self, Option.some.injEq] at hq
      subst hq
      exact hres k hk
    · rw [Function.update_of_ne heq] at hq
      exact h.reserved q proc hq k hk
  · intro q proc k cap o hq hk ho
    have hcap : o.lender ≠ q ∧ (P o.lender ≠ none ∨ dying = some o.lender) := by
      by_cases heq : q = p
      · subst heq
        rw [Function.update_self, Option.some.injEq] at hq
        subst hq
        exact hor k cap o hk ho
      · rw [Function.update_of_ne heq] at hq
        exact h.origin q proc k cap o hq hk ho
    exact ⟨hcap.1, hcap.2.imp update_some_ne_none id⟩
  · intro cap hcap o ho
    exact update_some_ne_none (h.held cap hcap o ho)
  · intro tr heq
    obtain ⟨proc, hproc, hempty, hrt, hot⟩ := htr tr heq
    exact ⟨proc, hproc, hempty, hrt, fun o ho =>
      ⟨(hot o ho).1, update_some_ne_none (hot o ho).2⟩⟩

/-- A placement into a live process keeps the holdings sound, if the origin of the placed
capability names another live process. -/
theorem SoundAt.place (h : SoundAt P transit held dying) {proc : Process} {t : CapTable}
    {cap : Capability} {k : CapSlot} {transit' : Option Transit} (hp : P p = some proc)
    (hin : CapTable.Places proc.caps cap k t)
    (ho : ∀ o, cap.origin = some o → o.lender ≠ p ∧ P o.lender ≠ none)
    (htr : ∀ tr, transit' = some tr → transit = some tr ∧ tr.giver ≠ p) :
    SoundAt (Function.update P p (some (proc.setCaps t))) transit' held dying := by
  refine h.put ?_ ?_ ?_
  · intro j hj
    by_cases heq : j = k
    · subst heq
      rw [Process.setCaps_caps, hin.reserved_self] at hj
      cases hj
    · rw [Process.setCaps_caps, hin.reserved_of_ne heq] at hj
      rw [Process.setCaps_caps, hin.slot_of_ne heq]
      exact h.reserved p proc hp j hj
  · intro j c o hj hc
    rcases hin.slot_cases hj with ⟨-, rfl⟩ | ⟨-, hold⟩
    · exact ⟨(ho o hc).1, Or.inl (ho o hc).2⟩
    · exact h.origin p proc j c o hp hold hc
  · intro tr heq
    obtain ⟨hold, hne⟩ := htr tr heq
    obtain ⟨prg, hprg, hrest⟩ := h.transit tr hold
    exact ⟨prg, by rw [Function.update_of_ne hne, hprg], hrest⟩

/-- A placement of a capability without an origin. -/
theorem SoundAt.mint (h : SoundAt P none held dying) {proc : Process} {t : CapTable}
    {cap : Capability} {k : CapSlot} (hp : P p = some proc)
    (hin : CapTable.Places proc.caps cap k t) (ho : cap.origin = none) :
    SoundAt (Function.update P p (some (proc.setCaps t))) none held dying := by
  refine h.place hp hin (fun o horigin => ?_) (fun tr htr => by cases htr)
  rw [ho] at horigin
  cases horigin

/-- Removal of a capability keeps the holdings sound. -/
theorem SoundAt.revoke (h : SoundAt P none held dying) {proc : Process} {k : CapSlot}
    (hp : P p = some proc) (hcaps : proc'.caps = proc.caps.set k none) :
    SoundAt (Function.update P p (some proc')) none held dying := by
  refine h.put ?_ ?_ (fun tr htr => by cases htr)
  · intro j hj
    rw [hcaps, CapTable.set_reserved] at hj
    rw [hcaps, CapTable.set_slots]
    by_cases heq : j = k
    · subst heq
      rw [Function.update_self]
    · rw [Function.update_of_ne heq]
      exact h.reserved p proc hp j hj
  · intro j c o hj hc
    rw [hcaps, CapTable.set_slots] at hj
    by_cases heq : j = k
    · subst heq
      rw [Function.update_self] at hj
      cases hj
    · rw [Function.update_of_ne heq] at hj
      exact h.origin p proc j c o hp hj hc

/-- A rewrite that keeps the table keeps the holdings sound. -/
theorem SoundAt.same_caps (h : SoundAt P transit held dying) {proc : Process}
    (hp : P p = some proc) (hcaps : proc'.caps = proc.caps) :
    SoundAt (Function.update P p (some proc')) transit held dying := by
  refine h.put ?_ ?_ ?_
  · intro k hk
    rw [hcaps] at hk ⊢
    exact h.reserved p proc hp k hk
  · intro k cap o hk ho
    rw [hcaps] at hk
    exact h.origin p proc k cap o hp hk ho
  · intro tr htr
    obtain ⟨prg, hprg, hempty, hrt, hot⟩ := h.transit tr htr
    by_cases heq : tr.giver = p
    · rw [heq, hp, Option.some.injEq] at hprg
      subst hprg
      refine ⟨proc', by rw [heq, Function.update_self], ?_, ?_, hot⟩
      · rw [hcaps]
        exact hempty
      · rw [hcaps]
        exact hrt
    · exact ⟨prg, by rw [Function.update_of_ne heq, hprg], hempty, hrt, hot⟩

theorem SoundAt.no_transit (h : SoundAt P transit held dying) : SoundAt P none held dying :=
  ⟨h.reserved, h.origin, h.held, fun tr htr => by cases htr⟩

theorem SoundAt.held_sub (h : SoundAt P transit held dying) {held' : List Capability}
    (hsub : ∀ cap ∈ held', cap ∈ held) : SoundAt P transit held' dying :=
  ⟨h.reserved, h.origin, fun cap hcap => h.held cap (hsub cap hcap), h.transit⟩

/-- What a transfer that lands brings along: the origin of the lent capability. -/
theorem SoundAt.lentTo_origin (h : SoundAt P transit held dying) {cap : Capability}
    {giver q : ProcSlot} {k : CapSlot} {f : Fate} (htr : transit = some ⟨cap, giver, k, f⟩)
    (hne : giver ≠ q) (o : Origin) (ho : (cap.lentTo ⟨giver, k⟩ q).origin = some o) :
    o.lender ≠ q ∧ P o.lender ≠ none := by
  obtain ⟨prg, hprg, -, -, hot⟩ := h.transit _ htr
  rcases lentTo_cases cap ⟨giver, k⟩ q with ⟨-, heq⟩ | ⟨o', -, -, heq⟩ | ⟨o', ho', hne', heq⟩
  · rw [heq] at ho
    simp only [Option.some.injEq] at ho
    subst ho
    exact ⟨hne, fun hnone => by
      change P giver = none at hnone
      change P giver = some prg at hprg
      rw [hnone] at hprg
      cases hprg⟩
  · rw [heq] at ho
    cases ho
  · rw [heq, ho', Option.some.injEq] at ho
    subst ho
    exact ⟨hne', (hot o' ho').2⟩

theorem SoundAt.spawnLoan_origin (h : SoundAt P transit held dying) {cap : Capability}
    {giver q : ProcSlot} {k : CapSlot} {f : Fate} (htr : transit = some ⟨cap, giver, k, f⟩)
    (hne : giver ≠ q) (hlender : cap.origin.map Origin.lender ≠ some q) (o : Origin)
    (ho : (Kernel.spawnLoan cap giver k).origin = some o) :
    o.lender ≠ q ∧ P o.lender ≠ none := by
  obtain ⟨prg, hprg, -, -, hot⟩ := h.transit _ htr
  rcases spawnLoan_cases cap giver k with ⟨o', ho', heq⟩ | ⟨-, heq⟩
  · rw [heq, ho', Option.some.injEq] at ho
    subst ho
    refine ⟨fun hq => hlender ?_, (hot o' ho').2⟩
    rw [ho', ← hq]
    rfl
  · rw [heq] at ho
    simp only [Option.some.injEq] at ho
    subst ho
    exact ⟨hne, fun hnone => by
      change P giver = none at hnone
      change P giver = some prg at hprg
      rw [hnone] at hprg
      cases hprg⟩

end

/-- A table action keeps the holdings sound. -/
theorem TableAct.sound {give : ProcSlot → CapSlot → Fate → Prop}
    {take : ProcSlot → CapSlot → Prop} {strand : Capability → Prop} {h h' : Holdings}
    (act : TableAct give take strand h h') (hs : h.Sound) : h'.Sound := by
  cases act with
  | @charge p proc k cap budget budget' hp hk hobj hnone =>
    refine hs.put ?_ ?_ (fun tr htr => by rw [hnone] at htr; cases htr)
    · intro j hj
      by_cases heq : j = k
      · subst heq
        have hnone := hs.reserved p proc hp j hj
        rw [hk] at hnone
        cases hnone
      · rw [Process.setCaps_caps, CapTable.set_slots, Function.update_of_ne heq]
        exact hs.reserved p proc hp j hj
    · intro j c o hj hc
      rw [Process.setCaps_caps, CapTable.set_slots] at hj
      by_cases heq : j = k
      · subst heq
        rw [Function.update_self, Option.some.injEq] at hj
        subst hj
        exact hs.origin p proc j cap o hp hk hc
      · rw [Function.update_of_ne heq] at hj
        exact hs.origin p proc j c o hp hj hc
  | @give p proc k cap f hp hk hnone hdying hfirst hg =>
    have hunres : proc.caps.reserved k = false := by
      cases hr : proc.caps.reserved k with
      | false => rfl
      | true =>
        have hempty := hs.reserved p proc hp k hr
        rw [hk] at hempty
        cases hempty
    refine hs.put ?_ ?_ ?_
    · intro j hj
      by_cases heq : j = k
      · subst heq
        exact giveAway_slot_self
      · rw [giveAway_slot_of_ne heq]
        refine hs.reserved p proc hp j ?_
        rw [giveAway_reserved] at hj
        split at hj
        · rwa [Function.update_of_ne heq] at hj
        · exact hj
    · intro j c o hj hc
      by_cases heq : j = k
      · subst heq
        rw [giveAway_slot_self] at hj
        cases hj
      · rw [giveAway_slot_of_ne heq] at hj
        exact hs.origin p proc j c o hp hj hc
    · intro tr htr
      simp only [Option.some.injEq] at htr
      subst htr
      refine ⟨_, Function.update_self .., giveAway_slot_self, ?_, ?_⟩
      · dsimp only
        rw [giveAway_reserved]
        split
        · rename_i hl
          rw [Function.update_self, hl]
        · rename_i hl
          simp only [Bool.not_eq_true] at hl
          rw [hunres, hl]
      · intro o ho
        obtain ⟨hne, hlive⟩ := hs.origin p proc k cap o hp hk ho
        refine ⟨hne, hlive.resolve_right ?_⟩
        rw [hdying]
        exact fun h => by cases h
  | land htr hpq hq hin =>
    exact hs.place hq (CapTable.installHome_some hin).1 (hs.lentTo_origin htr hpq)
      (fun tr h => by cases h)
  | child htr hpq hq hlender hin =>
    exact hs.place hq (CapTable.install_ok hin).1 (hs.spawnLoan_origin htr hpq hlender)
      (fun tr h => by cases h)
  | back htr hp hin =>
    obtain ⟨prg, hprg, -, -, hot⟩ := hs.transit _ htr
    exact hs.place hp (CapTable.reclaim_some hin).1 hot (fun tr h => by cases h)
  | undo htr hp hin hown hfree =>
    obtain ⟨prg, hprg, -, -, hot⟩ := hs.transit _ htr
    exact hs.place hp hin hot (fun tr h => by cases h)
  | lost htr hp hfull => exact hs.no_transit
  | @take p proc k cap hp hk hkind hnone hdying hfirst hg =>
    have hcaps : (unmapForSlot h.mem (proc.setCaps (proc.caps.set k none)) cap k).1.caps
        = proc.caps.set k none := by
      rw [unmapForSlot_caps, Process.setCaps_caps]
    have hput := (hs.no_transit).revoke hp hcaps
    unfold Holdings.Sound
    dsimp only
    rw [hnone]
    refine ⟨hput.reserved, hput.origin, ?_, hput.transit⟩
    intro c hc o ho
    rcases List.mem_cons.mp hc with rfl | hmem
    · obtain ⟨-, hlive⟩ := hs.origin p proc k c o hp hk ho
      refine update_some_ne_none (hlive.resolve_right ?_)
      rw [hdying]
      exact fun h => by cases h
    · exact hput.held c hmem o ho
  | @home cap o rest proc k t hheld ho hkind hp hnone hin =>
    have hsub := hs.held_sub fun c hc => by
      rw [hheld]
      exact List.mem_cons_of_mem _ hc
    unfold Holdings.Sound
    dsimp only
    rw [hnone]
    exact hsub.no_transit.mint hp (CapTable.goHome_some hin).1 rfl
  | strand hheld ho hkind hp hfull hg =>
    exact hs.held_sub fun c hc => by
      rw [hheld]
      exact List.mem_cons_of_mem _ hc
  | drop hheld hplain =>
    exact hs.held_sub fun c hc => by
      rw [hheld]
      exact List.mem_cons_of_mem _ hc
  | unmapFb k hp => exact hs.same_caps hp rfl
  | @clearOrigins p hdying hp hnone =>
    have hlive : ∀ q, h.proc q ≠ none →
        (h.proc q).map (fun proc => proc.setCaps (proc.caps.clearOrigin p)) ≠ none := by
      intro q hq
      simpa using hq
    refine ⟨?_, ?_, ?_, ?_⟩
    · intro q proc hq k hk
      obtain ⟨old, hold, rfl⟩ := Option.map_eq_some_iff.mp hq
      rw [Process.setCaps_caps, CapTable.clearOrigin_slots,
        hs.reserved q old hold k hk]
      rfl
    · intro q proc k cap o hq hk ho
      obtain ⟨old, hold, rfl⟩ := Option.map_eq_some_iff.mp hq
      rw [Process.setCaps_caps, CapTable.clearOrigin_slots] at hk
      obtain ⟨c, hc, rfl⟩ := Option.map_eq_some_iff.mp hk
      unfold CapTable.clearLender at ho
      split at ho
      · cases ho
      · rename_i hne
        obtain ⟨hq', halive⟩ := hs.origin q old k c o hold hc ho
        refine ⟨hq', Or.inl (hlive _ (halive.resolve_right ?_))⟩
        rw [hdying]
        rintro heq
        apply hne
        rw [ho, Option.map_some, ← heq]
    · intro cap hcap o ho
      exact hlive _ (hs.held cap hcap o ho)
    · intro tr htr
      rw [hnone] at htr
      cases htr
  | reorder hperm => exact hs.held_sub fun c hc => hperm.mem_iff.mp hc

/-! ### Conservation -/

/-- A capability of a kind that nothing outside the tables counts. -/
def Capability.isDroppable (cap : Capability) : Prop :=
  match cap.object with
  | .frame _ => False
  | .endpoint _ => False
  | .reply _ => False
  | .ring _ => False
  | _ => True

theorem isDroppable_of_reclaimable {cap : Capability}
    (h : isReclaimableKind cap.object = true) : cap.isDroppable := by
  unfold Capability.isDroppable
  unfold isReclaimableKind at h
  cases hobj : cap.object <;> simp_all

theorem Capability.isPlain.isDroppable {cap : Capability} (h : cap.isPlain) :
    cap.isDroppable := by
  obtain ⟨-, hkind⟩ := h
  unfold Capability.isDroppable
  cases hobj : cap.object <;> simp_all

/-- An object of a kind that is counted outside the tables. -/
def CapObject.isTracked : CapObject → Prop
  | .frame _ => True
  | .endpoint _ => True
  | .reply _ => True
  | .ring _ => True
  | _ => False

theorem objWeight_tracked {o : CapObject} (h : o.isTracked) : Steady (objWeight o) := by
  refine objWeight_steady fun budget heq => ?_
  subst heq
  exact h

/-- What a list of droppable capabilities weighs for a tracked object: nothing. -/
theorem listTotal_droppable {o : CapObject} (ho : o.isTracked) {gone : List Capability}
    (h : ∀ cap ∈ gone, cap.isDroppable) : listTotal (objWeight o) gone = 0 := by
  induction gone with
  | nil => rfl
  | cons cap gone ih =>
    have hcap := h cap List.mem_cons_self
    rw [listTotal_cons, ih fun c hc => h c (List.mem_cons_of_mem _ hc)]
    refine objWeight_of_ne fun heq => ?_
    unfold Capability.isDroppable at hcap
    rw [heq] at hcap
    cases o <;> simp_all [CapObject.isTracked]

theorem listTotal_reach_droppable {id : EndpointId} {right : Rights} {gone : List Capability}
    (h : ∀ cap ∈ gone, cap.isDroppable) : listTotal (reachWeight id right) gone = 0 := by
  have hzero := listTotal_droppable (o := .endpoint id) trivial h
  have hle : listTotal (reachWeight id right) gone ≤ listTotal (objWeight (.endpoint id)) gone :=
    List.sum_le_sum fun cap _ => reachWeight_le id right cap
  omega

/-- To clear the origins that name a process keeps the total. -/
theorem liveTotal_clearOrigins {w : Capability → Nat} (hw : Steady w)
    (P : ProcSlot → Option Process) (p : ProcSlot) :
    liveTotal w (fun q => (P q).map fun proc => proc.setCaps (proc.caps.clearOrigin p))
      = liveTotal w P := by
  refine Tally.tally_congr fun q => ?_
  cases P q with
  | none => rfl
  | some proc => exact CapTable.tally_clearOrigin hw proc.caps p

/-- What a table action does to the held capabilities, and the capabilities that it ends. -/
inductive Gone (take : ProcSlot → CapSlot → Prop) (strand : Capability → Prop) (h h' : Holdings) :
    List Capability → Prop where
  | nothing (hheld : h'.held.Perm h.held) : Gone take strand h h' []
  | takes {p : ProcSlot} {proc : Process} {k : CapSlot} {cap : Capability}
      (hp : h.proc p = some proc) (hk : proc.caps.slots k = some cap) (hfirst : h.spent = false)
      (hg : take p k) (hspent : h'.spent = true) (hheld : h'.held = cap :: h.held) :
      Gone take strand h h' []
  | home {cap : Capability} {o : Origin} (ho : cap.origin = some o)
      (hheld : h.held = cap :: h'.held) : Gone take strand h h' []
  | drop {cap : Capability} (hplain : cap.isPlain) (hheld : h.held = cap :: h'.held) :
      Gone take strand h h' [cap]
  | strand {cap : Capability} (hg : strand cap) : Gone take strand h h' [cap]
  | lost {tr : Transit} (htr : h.transit = some tr) (hfate : tr.fate = .lost) :
      Gone take strand h h' [tr.cap]

/-- The conservation law of the table actions, with the capabilities that are gone. -/
theorem TableAct.gone {give : ProcSlot → CapSlot → Fate → Prop}
    {take : ProcSlot → CapSlot → Prop} {strand : Capability → Prop} {h h' : Holdings}
    (act : TableAct give take strand h h') (hs : h.Sound) :
    ∃ gone : List Capability, Gone take strand h h' gone ∧ (∀ cap ∈ gone, cap.isDroppable) ∧
      ∀ w, Steady w → h'.total w + listTotal w gone = h.total w := by
  have hkept : Gone take strand h h' [] → (∀ w, Steady w → h'.total w = h.total w) →
      ∃ gone : List Capability, Gone take strand h h' gone ∧ (∀ cap ∈ gone, cap.isDroppable) ∧
        ∀ w, Steady w → h'.total w + listTotal w gone = h.total w :=
    fun hgone heq => ⟨[], hgone, fun cap hcap => (by cases hcap), fun w hw => heq w hw⟩
  cases act with
  | @charge p proc k cap budget budget' hp hk hobj hnone =>
    refine hkept (.nothing (.refl _)) fun w hw => ?_
    have hput := liveTotal_put_same hp (procWeight_charge hw hk (b := budget') hobj)
    simp only [Holdings.total, hput]
  | @give p proc k cap f hp hk hnone hdying hfirst hg =>
    refine hkept (.nothing (.refl _)) fun w hw => ?_
    have hput := liveTotal_put w hp (giveAway h.mem proc k cap).1
    have hgive := procWeight_giveAway (m := h.mem) w hk
    simp only [Holdings.total, hnone, transitTotal_none, transitTotal_some]
    omega
  | land htr hpq hq hin =>
    refine hkept (.nothing (.refl _)) fun w hw => ?_
    have hput := liveTotal_places w hq (CapTable.installHome_some hin).1
    rw [hw.lentTo] at hput
    simp only [Holdings.total, htr, transitTotal_none, transitTotal_some, hput]
    omega
  | child htr hpq hq hlender hin =>
    refine hkept (.nothing (.refl _)) fun w hw => ?_
    have hput := liveTotal_places w hq (CapTable.install_ok hin).1
    rw [spawnLoan_steady hw] at hput
    simp only [Holdings.total, htr, transitTotal_none, transitTotal_some, hput]
    omega
  | back htr hp hin =>
    refine hkept (.nothing (.refl _)) fun w hw => ?_
    have hput := liveTotal_places w hp (CapTable.reclaim_some hin).1
    simp only [Holdings.total, htr, transitTotal_none, transitTotal_some, hput]
    omega
  | undo htr hp hin hown hfree =>
    refine hkept (.nothing (.refl _)) fun w hw => ?_
    have hput := liveTotal_places w hp hin
    simp only [Holdings.total, htr, transitTotal_none, transitTotal_some, hput]
    omega
  | @lost cap p k proc htr hp hfull =>
    refine ⟨[cap], .lost htr rfl, ?_, fun w hw => ?_⟩
    · intro c hc
      rw [List.mem_singleton] at hc
      subst hc
      obtain ⟨prg, hprg, hempty, hrt, -⟩ := hs.transit _ htr
      have heq : prg = proc := by
        change h.proc p = some prg at hprg
        rw [hp, Option.some.injEq] at hprg
        exact hprg.symm
      subst heq
      have hres : prg.caps.reserved k = true := by
        rcases CapTable.firstFree_none hfull k with hno | hyes
        · exact absurd hempty hno
        · exact hyes
      have hlends : lendReservesHome c = true := hrt.symm.trans hres
      unfold lendReservesHome at hlends
      rw [Bool.and_eq_true] at hlends
      exact isDroppable_of_reclaimable hlends.2
    · simp only [Holdings.total, htr, transitTotal_none, transitTotal_some, listTotal_cons,
        listTotal_nil]
      omega
  | @take p proc k cap hp hk hkind hnone hdying hfirst hg =>
    refine hkept (.takes hp hk hfirst hg rfl rfl) fun w hw => ?_
    have hput := liveTotal_put w hp
      (unmapForSlot h.mem (proc.setCaps (proc.caps.set k none)) cap k).1
    rw [procWeight_unmapForSlot] at hput
    have hrevoke := procWeight_revoke w hk
    simp only [Holdings.total, listTotal_cons]
    omega
  | @home cap o rest proc k t hheld ho hkind hp hnone hin =>
    refine hkept (.home ho hheld) fun w hw => ?_
    have hput := liveTotal_places w hp (CapTable.goHome_some hin).1
    rw [hw.origin] at hput
    simp only [Holdings.total, hheld, listTotal_cons, hput]
    omega
  | @strand cap o rest proc hheld ho hkind hp hfull hg =>
    refine ⟨[cap], .strand hg, fun c hc => ?_, fun w hw => ?_⟩
    · rw [List.mem_singleton] at hc
      subst hc
      exact isDroppable_of_reclaimable hkind
    · simp only [Holdings.total, hheld, listTotal_cons, listTotal_nil]
      omega
  | @drop cap rest hheld hplain =>
    refine ⟨[cap], .drop hplain hheld, fun c hc => ?_, fun w hw => ?_⟩
    · rw [List.mem_singleton] at hc
      subst hc
      exact hplain.isDroppable
    · simp only [Holdings.total, hheld, listTotal_cons, listTotal_nil]
      omega
  | unmapFb k hp =>
    refine hkept (.nothing (.refl _)) fun w hw => ?_
    have hput := liveTotal_put_same (w := w) hp
      (x := (unmapFbForSlot h.mem _ k).1) rfl
    simp only [Holdings.total, hput]
  | @clearOrigins p hdying hp hnone =>
    refine hkept (.nothing (.refl _)) fun w hw => ?_
    unfold Holdings.total
    rw [liveTotal_clearOrigins hw]
  | reorder hperm =>
    refine hkept (.nothing hperm) fun w hw => ?_
    unfold Holdings.total
    rw [listTotal_perm w hperm]

/-- The conservation law of the table actions: what is gone is of a kind that nothing else
counts. -/
theorem TableAct.total {give : ProcSlot → CapSlot → Fate → Prop}
    {take : ProcSlot → CapSlot → Prop} {strand : Capability → Prop} {h h' : Holdings}
    (act : TableAct give take strand h h') (hs : h.Sound) :
    ∃ gone : List Capability, (∀ cap ∈ gone, cap.isDroppable) ∧
      ∀ w, Steady w → h'.total w + listTotal w gone = h.total w := by
  obtain ⟨gone, -, hdrop, htotal⟩ := act.gone hs
  exact ⟨gone, hdrop, htotal⟩

/-- A table action keeps the total of every tracked object. -/
theorem TableAct.total_tracked {give : ProcSlot → CapSlot → Fate → Prop}
    {take : ProcSlot → CapSlot → Prop} {strand : Capability → Prop} {h h' : Holdings}
    (act : TableAct give take strand h h') (hs : h.Sound) {o : CapObject}
    (ho : o.isTracked) : h'.total (objWeight o) = h.total (objWeight o) := by
  obtain ⟨gone, hgone, htotal⟩ := act.total hs
  have heq := htotal _ (objWeight_tracked ho)
  rw [listTotal_droppable ho hgone] at heq
  omega

theorem TableAct.total_reach {give : ProcSlot → CapSlot → Fate → Prop}
    {take : ProcSlot → CapSlot → Prop} {strand : Capability → Prop} {h h' : Holdings}
    (act : TableAct give take strand h h') (hs : h.Sound) (id : EndpointId) (right : Rights) :
    h'.total (reachWeight id right) = h.total (reachWeight id right) := by
  obtain ⟨gone, hgone, htotal⟩ := act.total hs
  have heq := htotal _ (reachWeight_steady id right)
  rw [listTotal_reach_droppable hgone] at heq
  omega

/-! ### All actions keep the holdings sound -/

/-- Every action keeps the holdings sound. -/
theorem Act.sound {g : Guard} {v v' : Ledger} (act : Act g v v') (hs : v.toHoldings.Sound) :
    v'.toHoldings.Sound := by
  cases act with
  | table act => exact act.sound hs
  | grant hp hok hg hgiver hbound hin =>
    refine hs.place hp (CapTable.install_ok hin).1 (fun o ho => ?_)
      (fun tr htr => ⟨htr, hgiver tr htr⟩)
    rw [hok.1] at ho
    cases ho
  | mintFrame hp hframes hnone hin =>
    refine hs.place hp (CapTable.install_ok hin).1 (fun o ho => by cases ho)
      (fun tr htr => ?_)
    change v.transit = some tr at htr
    rw [hnone] at htr
    cases htr
  | mintRing hp hfree huse howner hwait hnone hsq hcq hmask hin hg =>
    refine hs.place hp (CapTable.install_ok hin).1 (fun o ho => by cases ho)
      (fun tr htr => ?_)
    change v.transit = some tr at htr
    rw [hnone] at htr
    cases htr
  | parkCall hstate hpq hq hnone hin hg =>
    refine hs.place hq (CapTable.reclaim_some hin).1 (fun o ho => by cases ho)
      (fun tr htr => ?_)
    change v.transit = some tr at htr
    rw [hnone] at htr
    cases htr
  | receiveCall hqueue hside hcall hq hnone hin =>
    refine hs.place hq (CapTable.reclaim_some hin).1 (fun o ho => by cases ho)
      (fun tr htr => ?_)
    change v.transit = some tr at htr
    rw [hnone] at htr
    cases htr
  | mapFrame hp hk hobj hrec => exact hs.same_caps hp rfl
  | mapFb hp hk hobj hslot hrec htables hleaves => exact hs.same_caps hp rfl
  | @takeEndpoint p proc k cap id n hp hk hobj hstate hnone hfirst hg hn =>
    have hrev := hs.no_transit.revoke hp
      (Process.setCaps_caps proc (proc.caps.set k none))
    exact ⟨hrev.reserved, hrev.origin, hrev.held, fun tr htr => by
      change v.transit = some tr at htr
      rw [hnone] at htr
      cases htr⟩
  | @takeBound p proc k cap dev hp hk hobj hstate hnone hfirst hg =>
    have hrev := hs.no_transit.revoke hp
      (Process.setCaps_caps proc (proc.caps.set k none))
    exact ⟨hrev.reserved, hrev.origin, hrev.held, fun tr htr => by
      change v.transit = some tr at htr
      rw [hnone] at htr
      cases htr⟩
  | dropEndpoint hheld hobj hdoomed hn =>
    exact hs.held_sub fun c hc => by
      rw [hheld]
      exact List.mem_cons_of_mem _ hc
  | dropRing hheld hobj =>
    exact hs.held_sub fun c hc => by
      rw [hheld]
      exact List.mem_cons_of_mem _ hc
  | dropFrame hheld hobj =>
    exact hs.held_sub fun c hc => by
      rw [hheld]
      exact List.mem_cons_of_mem _ hc
  | dropReply hheld hobj =>
    exact hs.held_sub fun c hc => by
      rw [hheld]
      exact List.mem_cons_of_mem _ hc
  | @leave p proc hp hstate hheld hdying htransit hcalm hg =>
    have hother : ∀ q, q ≠ p → v.proc q ≠ none → Function.update v.proc p none q ≠ none := by
      intro q hq hlive
      rwa [Function.update_of_ne hq]
    have hgone : ∀ q prg, Function.update v.proc p none q = some prg →
        q ≠ p ∧ v.proc q = some prg := by
      intro q prg hq
      by_cases heq : q = p
      · subst heq
        rw [Function.update_self] at hq
        cases hq
      · rw [Function.update_of_ne heq] at hq
        exact ⟨heq, hq⟩
    refine ⟨?_, ?_, ?_, ?_⟩
    · intro q prg hq k hk
      exact hs.reserved q prg (hgone q prg hq).2 k hk
    · intro q prg k cap o hq hk ho
      obtain ⟨hne, hlive⟩ := hs.origin q prg k cap o (hgone q prg hq).2 hk ho
      refine ⟨hne, ?_⟩
      by_cases hop : o.lender = p
      · exact Or.inr (by rw [hop])
      · refine Or.inl (hother _ hop (hlive.resolve_right ?_))
        rw [hdying]
        exact fun h => by cases h
    · intro cap hcap o ho
      obtain ⟨k, hk⟩ := CapTable.mem_iter.mp hcap
      obtain ⟨hne, hlive⟩ := hs.origin p proc k cap o hp hk ho
      refine hother _ hne (hlive.resolve_right ?_)
      rw [hdying]
      exact fun h => by cases h
    · intro tr htr
      change v.transit = some tr at htr
      rw [htransit] at htr
      cases htr
  | @enter p proc boot rest spaces k budget rights hp hstate hcaps hspaces hframes hdying =>
    refine hs.put ?_ ?_ ?_
    · intro j hj
      rw [hcaps] at hj
      cases hj
    · intro j cap o hj ho
      rw [hcaps, CapTable.set_slots] at hj
      by_cases heq : j = k
      · subst heq
        rw [Function.update_self, Option.some.injEq] at hj
        subst hj
        cases ho
      · rw [Function.update_of_ne heq] at hj
        cases hj
    · intro tr htr
      obtain ⟨prg, hprg, hrest⟩ := hs.transit tr htr
      refine ⟨prg, ?_, hrest⟩
      rw [Function.update_of_ne, hprg]
      rintro heq
      rw [heq] at hprg
      change v.proc p = some prg at hprg
      rw [hp] at hprg
      cases hprg
  | _ => exact hs

end Plinth
