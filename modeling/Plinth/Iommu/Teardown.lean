import Plinth.Iommu.Rep

/-!
# `Plinth.Iommu.Teardown`: the frames of a domain

`teardown` goes through the tables of a domain from the root and gives each of them back to the
frame allocator. It knows a table from a page by the level only.

`Tree` says of the tables what the walk needs: every entry above the last level is a link to a table
one level below, or empty. The last level may hold anything, so the arguments of `map` play no part.
`Tree.mem_subtree` finds every table below a table in the walk, and `Tree.nodup_subtree` finds it
once.

In a `Lifetime` other parties use the frame allocator too. `teardown_returns_tables` is about every
sequence of such events on a new domain.
-/

set_option autoImplicit false

namespace Plinth.Iommu

/-! ### The walk -/

/-- `free_subtree`, from a table with `below` levels below it. -/
def freeSubtree (fmt : PteFmt) (mem : Tables) :
    (below table : Nat) → FrameAlloc → FrameAlloc
  | 0, table, fa => fa.giveBack table
  | below + 1, table, fa =>
    ((List.range entries).foldl (fun fa idx =>
      if (fmt.decode (mem table idx)).1 then
        freeSubtree fmt mem below (fmt.decode (mem table idx)).2 fa
      else fa) fa).giveBack table

/-- `Domain::teardown`. -/
def Domain.teardown (d : Domain) (fa : FrameAlloc) (mem : Tables) : FrameAlloc × Domain :=
  if d.root ≠ 0 then (freeSubtree d.fmt mem (d.levels - 1) d.root fa, { d with root := 0 })
  else (fa, d)

/-- The frames that `free_subtree` gives back, in order. -/
def subtree (fmt : PteFmt) (mem : Tables) : (below table : Nat) → List Nat
  | 0, table => [table]
  | below + 1, table =>
    (List.range entries).flatMap (fun idx =>
      if (fmt.decode (mem table idx)).1 then subtree fmt mem below (fmt.decode (mem table idx)).2
      else []) ++ [table]

/-- The frames that the walk gives back below one entry. -/
def underEntry (fmt : PteFmt) (mem : Tables) (below table idx : Nat) : List Nat :=
  if (fmt.decode (mem table idx)).1 then subtree fmt mem below (fmt.decode (mem table idx)).2
  else []

theorem subtree_succ (fmt : PteFmt) (mem : Tables) (below table : Nat) :
    subtree fmt mem (below + 1) table =
      (List.range entries).flatMap (underEntry fmt mem below table) ++ [table] := rfl

theorem giveBackAll_append (fa : FrameAlloc) (as bs : List Nat) :
    fa.giveBackAll (as ++ bs) = (fa.giveBackAll as).giveBackAll bs := List.foldl_append

/-- The walk gives back the list. -/
theorem freeSubtree_eq (fmt : PteFmt) (mem : Tables) (below table : Nat) (fa : FrameAlloc) :
    freeSubtree fmt mem below table fa = fa.giveBackAll (subtree fmt mem below table) := by
  induction below generalizing table fa with
  | zero => rfl
  | succ below ih =>
    have hentries : ∀ (idxs : List Nat) (fa : FrameAlloc),
        idxs.foldl (fun fa idx =>
          if (fmt.decode (mem table idx)).1 then
            freeSubtree fmt mem below (fmt.decode (mem table idx)).2 fa
          else fa) fa =
        fa.giveBackAll (idxs.flatMap (underEntry fmt mem below table)) := by
      intro idxs
      induction idxs with
      | nil => exact fun _ => rfl
      | cons idx idxs ihidx =>
        intro fa
        rw [List.foldl_cons, List.flatMap_cons, giveBackAll_append, ihidx]
        congr 1
        unfold underEntry
        split
        · exact ih _ _
        · rfl
    rw [subtree_succ, giveBackAll_append, ← hentries]
    rfl

variable {d : Domain} {fa fa' : FrameAlloc} {mem mem' : Tables} {tab : Nat → Nat → Option Nat}
  {iova phys perms n b p t c idx below : Nat}

/-! ### The tables as a tree -/

/-- The tables in `mem` are a tree, whatever the last level holds. As in `Rep`, `tab b p` is the
table with `b` levels below it for the prefix `p`. -/
structure Tree (d : Domain) (fa : FrameAlloc) (mem : Tables) (tab : Nat → Nat → Option Nat) :
    Prop where
  root : tab (d.levels - 1) 0 = some d.root
  inj : ∀ {b p b' p' t}, tab b p = some t → tab b' p' = some t → b = b' ∧ p = p'
  link : ∀ {b p t}, tab (b + 1) p = some t → ∀ idx < 512,
    mem t idx = linkEntry d.fmt (tab b (p * 512 + idx)) (b + 1)
  parent : ∀ {b p t}, tab b p = some t → b + 1 < d.levels → ∃ t', tab (b + 1) (p / 512) = some t'
  under : ∀ {b p t}, tab b p = some t → b < d.levels ∧ p / 512 ^ (d.levels - 1 - b) = 0
  frames : ∀ {b p t}, tab b p = some t → PageAddr t ∧ 0 < fa.marked t
  memory : fa.frames * frameSize ≤ 2 ^ 52

/-- The frame is a table. -/
def IsTable (tab : Nat → Nat → Option Nat) (a : Nat) : Prop := ∃ b p, tab b p = some a

namespace Tree

/-- The entry of a table above the last level. -/
theorem decode (h : Tree d fa mem tab) (ht : tab (b + 1) p = some t) (hidx : idx < 512) :
    d.fmt.decode (mem t idx) =
      ((tab b (p * 512 + idx)).isSome, (tab b (p * 512 + idx)).getD 0) := by
  rw [h.link ht idx hidx]
  exact decode_linkEntry d.fmt (fun c hc => (h.frames hc).1) _

/-- What the walk gives back below an entry: the tables under the child, if there is one. -/
theorem underEntry_eq (h : Tree d fa mem tab) (ht : tab (b + 1) p = some t) (hidx : idx < 512) :
    underEntry d.fmt mem b t idx =
      ((tab b (p * 512 + idx)).map (subtree d.fmt mem b)).getD [] := by
  unfold underEntry
  rw [h.decode ht hidx]
  cases tab b (p * 512 + idx) with
  | none => rfl
  | some c => rfl

/-- A table at a higher level, above a table. -/
theorem ancestor (h : Tree d fa mem tab) (ht : tab b p = some t) (k : Nat)
    (hk : b + k < d.levels) : ∃ t', tab (b + k) (p / 512 ^ k) = some t' := by
  induction k with
  | zero => exact ⟨t, by rw [Nat.pow_zero, Nat.div_one]; exact ht⟩
  | succ k ih =>
    obtain ⟨t', ht'⟩ := ih (by omega)
    obtain ⟨t'', ht''⟩ := h.parent ht' (by omega)
    rw [Nat.div_div_eq_div_mul, ← Nat.pow_succ] at ht''
    exact ⟨t'', ht''⟩

/-- The walk from a table finds the tables at or below it. -/
theorem mem_subtree (h : Tree d fa mem tab) (ht : tab below n = some t) (a : Nat) :
    a ∈ subtree d.fmt mem below t ↔
      ∃ b p, tab b p = some a ∧ b ≤ below ∧ p / 512 ^ (below - b) = n := by
  induction below generalizing n t with
  | zero =>
    show a ∈ [t] ↔ _
    rw [List.mem_singleton]
    constructor
    · rintro rfl
      exact ⟨0, n, ht, Nat.le_refl _, Nat.div_one n⟩
    · rintro ⟨b, p, hp, hb, rfl⟩
      obtain rfl := Nat.le_zero.mp hb
      rw [Nat.sub_zero, Nat.pow_zero, Nat.div_one, hp] at ht
      exact Option.some.inj ht
  | succ below ih =>
    rw [subtree_succ, List.mem_append, List.mem_flatMap, List.mem_singleton]
    constructor
    · rintro (⟨idx, hidx, hmem⟩ | rfl)
      · have hlt : idx < 512 := List.mem_range.mp hidx
        rw [h.underEntry_eq ht hlt] at hmem
        cases hc : tab below (n * 512 + idx) with
        | none =>
          rw [hc] at hmem
          cases hmem
        | some c =>
          rw [hc] at hmem
          obtain ⟨b, p, hp, hb, hprefix⟩ := (ih hc).mp hmem
          refine ⟨b, p, hp, by omega, ?_⟩
          rw [show below + 1 - b = (below - b) + 1 by omega, Nat.pow_succ,
            ← Nat.div_div_eq_div_mul, hprefix]
          omega
      · exact ⟨below + 1, n, ht, Nat.le_refl _, by rw [Nat.sub_self, Nat.pow_zero, Nat.div_one]⟩
    · rintro ⟨b, p, hp, hb, hprefix⟩
      by_cases htop : b = below + 1
      · subst htop
        rw [Nat.sub_self, Nat.pow_zero, Nat.div_one] at hprefix
        subst hprefix
        exact Or.inr (Option.some.inj (hp.symm.trans ht))
      · -- The table lies under the child that its prefix names.
        left
        have hunder := (h.under ht).1
        obtain ⟨c, hc⟩ := h.ancestor hp (below - b) (by omega)
        rw [show b + (below - b) = below by omega] at hc
        rw [show below + 1 - b = (below - b) + 1 by omega, Nat.pow_succ,
          ← Nat.div_div_eq_div_mul] at hprefix
        have hlt : p / 512 ^ (below - b) % 512 < 512 := Nat.mod_lt _ (by decide)
        have hchild : n * 512 + p / 512 ^ (below - b) % 512 = p / 512 ^ (below - b) := by omega
        refine ⟨p / 512 ^ (below - b) % 512, List.mem_range.mpr hlt, ?_⟩
        rw [h.underEntry_eq ht hlt, hchild, hc]
        exact (ih hc).mpr ⟨b, p, hp, by omega, rfl⟩

/-- The walk finds no table twice. -/
theorem nodup_subtree (h : Tree d fa mem tab) (ht : tab below n = some t) :
    (subtree d.fmt mem below t).Nodup := by
  induction below generalizing n t with
  | zero => exact List.nodup_singleton t
  | succ below ih =>
    have hfind : ∀ {idx a}, idx < 512 → a ∈ underEntry d.fmt mem below t idx →
        ∃ b p, tab b p = some a ∧ b ≤ below ∧ p / 512 ^ (below - b) = n * 512 + idx := by
      intro idx a hidx hmem
      rw [h.underEntry_eq ht hidx] at hmem
      cases hc : tab below (n * 512 + idx) with
      | none =>
        rw [hc] at hmem
        cases hmem
      | some c =>
        rw [hc] at hmem
        exact (h.mem_subtree hc a).mp hmem
    rw [subtree_succ, List.nodup_append]
    refine ⟨?_, List.nodup_singleton t, ?_⟩
    · rw [List.nodup_flatMap]
      refine ⟨fun idx hidx => ?_, ?_⟩
      · rw [h.underEntry_eq ht (List.mem_range.mp hidx)]
        cases hc : tab below (n * 512 + idx) with
        | none => exact List.nodup_nil
        | some c => exact ih hc
      · -- Two entries lead to tables with different prefixes.
        refine List.nodup_range.pairwise_of_forall_ne fun i hi j hj hij a hai haj => ?_
        obtain ⟨b, p, hp, hb, hpre⟩ := hfind (List.mem_range.mp hi) hai
        obtain ⟨b', p', hp', hb', hpre'⟩ := hfind (List.mem_range.mp hj) haj
        obtain ⟨rfl, rfl⟩ := h.inj hp hp'
        exact hij (by omega)
    · intro a ha c hc hac
      obtain rfl := List.mem_singleton.mp hc
      subst hac
      obtain ⟨idx, hidx, hmem⟩ := List.mem_flatMap.mp ha
      obtain ⟨b, p, hp, hb, -⟩ := hfind (List.mem_range.mp hidx) hmem
      have hlevel := (h.inj hp ht).1
      omega

/-- The walk from the root finds every table. -/
theorem mem_subtree_root (h : Tree d fa mem tab) (a : Nat) :
    a ∈ subtree d.fmt mem (d.levels - 1) d.root ↔ IsTable tab a := by
  rw [h.mem_subtree h.root]
  constructor
  · rintro ⟨b, p, hp, -, -⟩
    exact ⟨b, p, hp⟩
  · rintro ⟨b, p, hp⟩
    obtain ⟨hb, hzero⟩ := h.under hp
    exact ⟨b, p, hp, by omega, hzero⟩

/-! ### Changes -/

/-- A frame of no table does not become one when the allocator changes. -/
theorem with_frames (h : Tree d fa mem tab) (hframes : fa'.frames = fa.frames)
    (hkeep : ∀ t, IsTable tab t → 0 < fa'.marked t) : Tree d fa' mem tab :=
  ⟨h.root, h.inj, h.link, h.parent, h.under,
    fun ht => ⟨(h.frames ht).1, hkeep _ ⟨_, _, ht⟩⟩, by rw [hframes]; exact h.memory⟩

/-- A new table, cleared and linked. -/
theorem grow (h : Tree d fa mem tab) (hb : b + 1 < d.levels)
    (ht : tab (b + 1) p = some t) (hidx : idx < 512) (hnone : tab b (p * 512 + idx) = none)
    (halloc : fa.alloc = .ok (c, fa')) :
    Tree d fa' ((mem.clear c).set t idx (d.fmt.encodeLink c (b + 1)))
      (withTable tab b (p * 512 + idx) c) := by
  obtain ⟨hpage, hfresh, hmark, hframes, hkeep⟩ := alloc_frame halloc h.memory
  have hne : ∀ {b' p' t'}, tab b' p' = some t' → t' ≠ c := by
    rintro b' p' t' ht' rfl
    have hmarked := (h.frames ht').2
    omega
  have hclear : ∀ i, ((mem.clear c).set t idx (d.fmt.encodeLink c (b + 1))) c i = 0 := by
    intro i
    unfold Tables.set Tables.clear
    rw [if_neg (fun hand => hne ht hand.1.symm), if_pos rfl]
  have hold : ∀ {t' i}, t' ≠ c → ¬ (t' = t ∧ i = idx) →
      ((mem.clear c).set t idx (d.fmt.encodeLink c (b + 1))) t' i = mem t' i := by
    intro t' i hc hnot
    unfold Tables.set Tables.clear
    rw [if_neg hnot, if_neg hc]
  refine ⟨withTable_mono hnone h.root, ?_, ?_, ?_, ?_, ?_, by rw [hframes]; exact h.memory⟩
  · intro b₁ p₁ b₂ p₂ t' h₁ h₂
    rcases withTable_cases h₁ with ⟨rfl, rfl, rfl⟩ | ⟨-, ho₁⟩
    · rcases withTable_cases h₂ with ⟨rfl, rfl, -⟩ | ⟨-, ho₂⟩
      · exact ⟨rfl, rfl⟩
      · exact absurd rfl (hne ho₂)
    · rcases withTable_cases h₂ with ⟨-, -, rfl⟩ | ⟨-, ho₂⟩
      · exact absurd rfl (hne ho₁)
      · exact h.inj ho₁ ho₂
  · intro b' p' t' ht' i hi
    rcases withTable_cases ht' with ⟨rfl, rfl, rfl⟩ | ⟨-, ho⟩
    · -- The new table has no links, and no table has it as its parent.
      have hchild : tab b' ((p * 512 + idx) * 512 + i) = none := by
        cases hsome : tab b' ((p * 512 + idx) * 512 + i) with
        | none => rfl
        | some t'' =>
          obtain ⟨u, hu⟩ := h.parent hsome (by omega)
          have hdiv : ((p * 512 + idx) * 512 + i) / 512 = p * 512 + idx := by omega
          rw [hdiv, hnone] at hu
          cases hu
      rw [hclear, withTable_other (fun hand => absurd hand.1 (by omega)), hchild]
      rfl
    · by_cases hhere : t' = t ∧ i = idx
      · obtain ⟨rfl, rfl⟩ := hhere
        obtain ⟨hbb, rfl⟩ := h.inj ho ht
        obtain rfl : b' = b := by omega
        rw [withTable_self]
        unfold Tables.set
        rw [if_pos ⟨rfl, rfl⟩]
        rfl
      · rw [hold (hne ho) hhere, h.link ho i hi, withTable_other]
        rintro ⟨rfl, hprefix⟩
        obtain rfl : p' = p := by omega
        obtain rfl : i = idx := by omega
        exact hhere ⟨Option.some.inj (ho.symm.trans ht), rfl⟩
  · intro b' p' t' ht' hb'
    rcases withTable_cases ht' with ⟨rfl, rfl, -⟩ | ⟨-, ho⟩
    · have hdiv : (p * 512 + idx) / 512 = p := by omega
      rw [hdiv]
      exact ⟨t, withTable_mono hnone ht⟩
    · obtain ⟨u, hu⟩ := h.parent ho hb'
      exact ⟨u, withTable_mono hnone hu⟩
  · intro b' p' t' ht'
    rcases withTable_cases ht' with ⟨rfl, rfl, -⟩ | ⟨-, ho⟩
    · have hzero := (h.under ht).2
      refine ⟨by omega, ?_⟩
      rw [show d.levels - 1 - b' = (d.levels - 1 - (b' + 1)) + 1 by omega, Nat.pow_succ,
        Nat.mul_comm (512 ^ _) 512, ← Nat.div_div_eq_div_mul,
        show (p * 512 + idx) / 512 = p by omega]
      exact hzero
    · exact h.under ho
  · intro b' p' t' ht'
    rcases withTable_cases ht' with ⟨-, -, rfl⟩ | ⟨-, ho⟩
    · exact ⟨hpage, hmark⟩
    · exact ⟨(h.frames ho).1, hkeep t' (h.frames ho).2⟩

/-- A write to a table of the last level. -/
theorem write (h : Tree d fa mem tab) (ht : tab 0 p = some t) (idx entry : Nat) :
    Tree d fa (mem.set t idx entry) tab := by
  refine ⟨h.root, h.inj, ?_, h.parent, h.under, h.frames, h.memory⟩
  intro b p' t' ht' i hi
  unfold Tables.set
  rw [if_neg, h.link ht' i hi]
  rintro ⟨rfl, -⟩
  exact absurd (h.inj ht' ht).1 (by omega)

end Tree

theorem isTable_withTable (hnone : tab b p = none) (a : Nat) :
    IsTable (withTable tab b p c) a ↔ IsTable tab a ∨ a = c := by
  constructor
  · rintro ⟨b', p', h⟩
    rcases withTable_cases h with ⟨-, -, rfl⟩ | ⟨-, hold⟩
    · exact Or.inr rfl
    · exact Or.inl ⟨b', p', hold⟩
  · rintro (⟨b', p', h⟩ | rfl)
    · exact ⟨b', p', withTable_mono hnone h⟩
    · exact ⟨b, p, withTable_self _ _ _ _⟩

/-- The frames that a call has taken from the allocator. -/
def Taken (fa fa' : FrameAlloc) (a : Nat) : Prop := fa.marked a = 0 ∧ fa'.marked a = 1

/-- The tables afterwards are the ones from before, with the frames that were taken. -/
structure Grown (d : Domain) (fa fa' : FrameAlloc) (mem' : Tables)
    (tab tab' : Nat → Nat → Option Nat) : Prop where
  tree : Tree d fa' mem' tab'
  tables : ∀ a, IsTable tab' a ↔ IsTable tab a ∨ Taken fa fa' a
  keeps : ∀ a, fa.marked a ≤ fa'.marked a
  frames : fa'.frames = fa.frames

/-- A change of the memory alone. -/
theorem Tree.grown (h : Tree d fa mem' tab) : Grown d fa fa mem' tab tab := by
  refine ⟨h, fun a => ⟨Or.inl, ?_⟩, fun _ => Nat.le_refl _, rfl⟩
  rintro (htab | ⟨hzero, hone⟩)
  · exact htab
  · omega

/-- One more table, and then some. -/
theorem Grown.cons {fa₁ : FrameAlloc} {tab' : Nat → Nat → Option Nat}
    (hnone : tab b p = none) (halloc : fa.alloc = .ok (c, fa₁))
    (h : Grown d fa₁ fa' mem' (withTable tab b p c) tab') : Grown d fa fa' mem' tab tab' := by
  obtain ⟨hfresh, hmarked, -⟩ := fa.alloc_marked halloc
  have hle : ∀ a, fa.marked a ≤ fa₁.marked a := by
    intro a
    rw [hmarked]
    exact Nat.le_add_right _ _
  refine ⟨h.tree, fun a => ?_, fun a => Nat.le_trans (hle a) (h.keeps a),
    h.frames.trans (FrameAlloc.alloc_frames halloc)⟩
  rw [h.tables, isTable_withTable hnone]
  unfold Taken
  have hone := fa'.marked_le_one a
  have hkeep := h.keeps a
  have hsame := hmarked a
  by_cases hac : a = c
  · subst hac
    rw [if_pos rfl] at hsame
    exact ⟨fun _ => Or.inr ⟨hfresh, by omega⟩, fun _ => Or.inl (Or.inr rfl)⟩
  · rw [if_neg hac] at hsame
    rw [show fa₁.marked a = fa.marked a by omega]
    simp [hac]

/-- The loop of `map`, whatever it maps. -/
theorem Tree.mapFrom {r : Except DomainError Unit} (h : Tree d fa mem tab)
    (hidx : ∀ b < d.levels, index iova b = n / 512 ^ b % 512) (hb : b < d.levels)
    (ht : tab b (n / 512 ^ (b + 1)) = some t)
    (hrun : mapFrom d.fmt iova phys perms b t fa mem = (r, fa', mem')) :
    ∃ tab', Grown d fa fa' mem' tab tab' := by
  induction b generalizing t fa mem tab with
  | zero =>
    unfold Iommu.mapFrom at hrun
    dsimp only at hrun
    split at hrun
    all_goals
      obtain ⟨rfl, rfl, rfl⟩ := Prod.mk.inj hrun |>.imp id Prod.mk.inj
    · exact ⟨tab, h.grown⟩
    · exact ⟨tab, (h.write ht _ _).grown⟩
  | succ b ih =>
    have hlt : n / 512 ^ (b + 1) % 512 < 512 := Nat.mod_lt _ (by decide)
    have hdecode := h.decode ht hlt
    have hchild := prefix_child n (b + 1)
    rw [hchild] at hdecode
    unfold Iommu.mapFrom at hrun
    dsimp only at hrun
    rw [hidx (b + 1) hb, hdecode] at hrun
    cases hc : tab b (n / 512 ^ (b + 1)) with
    | some c =>
      rw [hc] at hrun
      exact ih h (by omega) hc hrun
    | none =>
      rw [hc] at hrun
      dsimp only [Option.isSome_none] at hrun
      unfold allocTable at hrun
      cases halloc : fa.alloc with
      | error e =>
        rw [halloc] at hrun
        obtain ⟨rfl, rfl, rfl⟩ := Prod.mk.inj hrun |>.imp id Prod.mk.inj
        exact ⟨tab, h.grown⟩
      | ok q =>
        obtain ⟨c, fa₁⟩ := q
        rw [halloc] at hrun
        dsimp only at hrun
        have hgrow := h.grow hb ht hlt (by rw [hchild]; exact hc) halloc
        rw [hchild] at hgrow
        obtain ⟨tab', hgrown⟩ := ih hgrow (by omega) (withTable_self _ _ _ _) hrun
        exact ⟨tab', hgrown.cons hc halloc⟩

/-- The loop of `unmap`. -/
theorem Tree.unmapFrom {r : Except DomainError Unit} (h : Tree d fa mem tab)
    (hidx : ∀ b < d.levels, index iova b = n / 512 ^ b % 512) (hb : b < d.levels)
    (ht : tab b (n / 512 ^ (b + 1)) = some t)
    (hrun : unmapFrom d.fmt mem iova b t = (r, mem')) : Tree d fa mem' tab := by
  induction b generalizing t with
  | zero =>
    unfold Iommu.unmapFrom at hrun
    dsimp only at hrun
    split at hrun
    all_goals obtain ⟨rfl, rfl⟩ := Prod.mk.inj hrun
    · exact h
    · exact h.write ht _ _
  | succ b ih =>
    have hlt : n / 512 ^ (b + 1) % 512 < 512 := Nat.mod_lt _ (by decide)
    have hdecode := h.decode ht hlt
    rw [prefix_child n (b + 1)] at hdecode
    unfold Iommu.unmapFrom at hrun
    rw [hidx (b + 1) hb, hdecode] at hrun
    cases hc : tab b (n / 512 ^ (b + 1)) with
    | none =>
      rw [hc] at hrun
      obtain ⟨rfl, rfl⟩ := Prod.mk.inj hrun
      exact h
    | some c =>
      rw [hc] at hrun
      exact ih (by omega) hc hrun

/-! ### The lifetime of a domain -/

/-- What happens while a domain is in use: a call, or another party takes a frame from the allocator
or gives one back. -/
inductive Event where
  | map (iova phys perms : Nat)
  | unmap (iova : Nat)
  | take
  | give (addr : Nat)
  deriving DecidableEq, Repr

/-- A domain in use. `owned` are the frames that it has taken from the allocator, and `mapped` the
frames that were mapped as a leaf, the latest first. -/
structure Lifetime where
  domain : Domain
  mem : Tables
  fa : FrameAlloc
  owned : Nat → Bool
  mapped : List Nat

namespace Lifetime

/-- A new domain has taken one frame, its root. -/
def start (fa0 : FrameAlloc) (d : Domain) (fa : FrameAlloc) (mem : Tables) : Lifetime :=
  ⟨d, mem, fa, fun a => fa0.marked a == 0 && fa.marked a == 1, []⟩

/-- One event. -/
def step (s : Lifetime) : Event → Lifetime
  | .map iova phys perms =>
    let (r, fa, mem) := s.domain.map s.fa s.mem iova phys perms
    { s with
      fa, mem
      owned := fun a => s.owned a || (s.fa.marked a == 0 && fa.marked a == 1)
      mapped := if r.isOk then phys :: s.mapped else s.mapped }
  | .unmap iova => { s with mem := (s.domain.unmap s.mem iova).2 }
  | .take => { s with fa := (s.fa.alloc.toOption.map Prod.snd).getD s.fa }
  | .give addr => { s with fa := s.fa.giveBack addr }

/-- A sequence of events. -/
def run (s : Lifetime) (events : List Event) : Lifetime := events.foldl step s

/-- Other parties give back their own frames only. -/
def Honest (s : Lifetime) : List Event → Prop
  | [] => True
  | .give addr :: events => s.owned addr = false ∧ (s.step (.give addr)).Honest events
  | .map iova phys perms :: events => (s.step (.map iova phys perms)).Honest events
  | .unmap iova :: events => (s.step (.unmap iova)).Honest events
  | .take :: events => (s.step .take).Honest events

/-- The frame is in the allocator: `alloc` can return it. -/
def InPool (fa : FrameAlloc) (a : Nat) : Prop :=
  a % frameSize = 0 ∧ a / frameSize < fa.frames ∧ fa.marked a = 0

instance (fa : FrameAlloc) (a : Nat) : Decidable (InPool fa a) :=
  inferInstanceAs (Decidable (_ ∧ _ ∧ _))

/-- The frames that are mapped belong to the caller: it maps no frame of the domain and none that is
in the allocator, and gives none of them back while the domain exists. -/
def CallersFrames (s : Lifetime) : List Event → Prop
  | [] => True
  | .map iova phys perms :: events =>
    s.owned phys = false ∧ ¬ InPool s.fa phys ∧ (s.step (.map iova phys perms)).CallersFrames events
  | .give addr :: events => addr ∉ s.mapped ∧ (s.step (.give addr)).CallersFrames events
  | .unmap iova :: events => (s.step (.unmap iova)).CallersFrames events
  | .take :: events => (s.step .take).CallersFrames events

/-- What `teardown` gives back, in order. -/
def freed (s : Lifetime) : List Nat :=
  subtree s.domain.fmt s.mem (s.domain.levels - 1) s.domain.root

/-- The frames that the domain has taken are its tables. -/
structure Ok (s : Lifetime) : Prop where
  levels : 0 < s.domain.levels
  root : s.domain.root ≠ 0
  tree : ∃ tab, Tree s.domain s.fa s.mem tab ∧ ∀ a, s.owned a = true ↔ IsTable tab a

variable {s : Lifetime}

/-- A page number below the width with the same indices. -/
theorem index_low (hlevels : 0 < d.levels) (iova : Nat) :
    (∀ b < d.levels, index iova b = iova / 4096 % 512 ^ d.levels / 512 ^ b % 512) ∧
      iova / 4096 % 512 ^ d.levels / 512 ^ (d.levels - 1 + 1) = 0 := by
  refine ⟨fun b hb => index_mod hb iova, ?_⟩
  rw [Nat.sub_add_cancel hlevels]
  exact Nat.div_eq_of_lt (Nat.mod_lt _ (Nat.pow_pos (by decide)))

/-- `map` takes frames for tables only. -/
theorem map_grown {r : Except DomainError Unit} (hlevels : 0 < d.levels)
    (htree : Tree d fa mem tab) (hmap : d.map fa mem iova phys perms = (r, fa', mem')) :
    ∃ tab', Grown d fa fa' mem' tab tab' := by
  unfold Domain.map at hmap
  split at hmap
  · obtain ⟨rfl, rfl, rfl⟩ := Prod.mk.inj hmap |>.imp id Prod.mk.inj
    exact ⟨tab, htree.grown⟩
  · obtain ⟨hidx, hzero⟩ := index_low hlevels iova
    exact htree.mapFrom hidx (by omega) (by rw [hzero]; exact htree.root) hmap

/-- The frames that `map` takes become tables. -/
theorem Ok.map (h : s.Ok) (iova phys perms : Nat) : (s.step (.map iova phys perms)).Ok := by
  obtain ⟨hlevels, hroot, tab, htree, howned⟩ := h
  cases hmap : s.domain.map s.fa s.mem iova phys perms with
  | mk r rest =>
    obtain ⟨fa', mem'⟩ := rest
    obtain ⟨tab', hgrown⟩ := map_grown hlevels htree hmap
    unfold step
    dsimp only
    rw [hmap]
    refine ⟨hlevels, hroot, tab', hgrown.tree, fun a => ?_⟩
    dsimp only
    rw [hgrown.tables, Bool.or_eq_true, howned, Bool.and_eq_true, beq_iff_eq, beq_iff_eq]
    rfl

theorem Ok.unmap (h : s.Ok) (iova : Nat) : (s.step (.unmap iova)).Ok := by
  obtain ⟨hlevels, hroot, tab, htree, howned⟩ := h
  refine ⟨hlevels, hroot, tab, ?_, howned⟩
  show Tree s.domain s.fa (s.domain.unmap s.mem iova).2 tab
  unfold Domain.unmap
  split
  · exact htree
  · obtain ⟨hidx, hzero⟩ := index_low hlevels iova
    exact htree.unmapFrom hidx (by omega) (by rw [hzero]; exact htree.root) rfl

/-- Another party takes a frame. -/
theorem Ok.take (h : s.Ok) : (s.step .take).Ok := by
  obtain ⟨hlevels, hroot, tab, htree, howned⟩ := h
  refine ⟨hlevels, hroot, tab, ?_, howned⟩
  show Tree s.domain ((s.fa.alloc.toOption.map Prod.snd).getD s.fa) s.mem tab
  cases halloc : s.fa.alloc with
  | error e => exact htree
  | ok q =>
    obtain ⟨c, fa'⟩ := q
    obtain ⟨-, -, -, hframes, hkeep⟩ := alloc_frame halloc htree.memory
    exact htree.with_frames hframes fun t ⟨_, _, ht⟩ => hkeep t (htree.frames ht).2

/-- Another party gives a frame back that is not a table. -/
theorem Ok.give (h : s.Ok) {addr : Nat} (haddr : s.owned addr = false) :
    (s.step (.give addr)).Ok := by
  obtain ⟨hlevels, hroot, tab, htree, howned⟩ := h
  refine ⟨hlevels, hroot, tab, ?_, howned⟩
  refine htree.with_frames (FrameAlloc.giveBack_frames _ _) fun t ht => ?_
  obtain ⟨b, p, hbp⟩ := ht
  have hne : t ≠ addr := by
    rintro rfl
    rw [(howned t).mpr ⟨b, p, hbp⟩] at haddr
    cases haddr
  show 0 < (s.fa.giveBack addr).marked t
  rw [FrameAlloc.giveBack_other hne]
  exact (htree.frames hbp).2

/-- Every sequence of events keeps the tables. -/
theorem Ok.run {events : List Event} (h : s.Ok) (hhonest : s.Honest events) :
    (s.run events).Ok := by
  induction events generalizing s with
  | nil => exact h
  | cons event events ih =>
    cases event with
    | map iova phys perms => exact ih (h.map iova phys perms) hhonest
    | unmap iova => exact ih (h.unmap iova) hhonest
    | take => exact ih h.take hhonest
    | give addr => exact ih (h.give hhonest.1) hhonest.2

/-! ### The frames that are mapped -/

/-- The frames that were mapped are not the domain's, and none is in the allocator. -/
def Apart (s : Lifetime) : Prop := ∀ a ∈ s.mapped, s.owned a = false ∧ ¬ InPool s.fa a

/-- A frame that is not in the allocator is not taken from it. -/
theorem not_inPool {a : Nat} (hframes : fa'.frames = fa.frames)
    (hkeeps : fa.marked a ≤ fa'.marked a) (h : ¬ InPool fa a) :
    ¬ InPool fa' a ∧ ¬ Taken fa fa' a := by
  refine ⟨fun ⟨haligned, hbelow, hzero⟩ => h ⟨haligned, ?_, by omega⟩, fun ⟨hzero, hone⟩ => h ?_⟩
  · rw [← hframes]
    exact hbelow
  · unfold FrameAlloc.marked at hone
    split at hone
    · rename_i hin
      rw [hframes] at hin
      exact ⟨hin.1, hin.2.1, hzero⟩
    · cases hone

theorem Apart.map (h : s.Apart) (hok : s.Ok) {iova phys perms : Nat}
    (howned : s.owned phys = false) (hpool : ¬ InPool s.fa phys) :
    (s.step (.map iova phys perms)).Apart := by
  obtain ⟨hlevels, -, tab, htree, -⟩ := hok
  cases hmap : s.domain.map s.fa s.mem iova phys perms with
  | mk r rest =>
    obtain ⟨fa', mem'⟩ := rest
    obtain ⟨tab', hgrown⟩ := map_grown hlevels htree hmap
    have hold : ∀ a ∈ phys :: s.mapped, s.owned a = false ∧ ¬ InPool s.fa a := by
      intro a ha
      rcases List.mem_cons.mp ha with rfl | ha
      · exact ⟨howned, hpool⟩
      · exact h a ha
    unfold step
    dsimp only
    rw [hmap]
    intro a ha
    dsimp only at ha ⊢
    have hmem : a ∈ phys :: s.mapped := by
      split at ha
      · exact ha
      · exact List.mem_cons_of_mem _ ha
    obtain ⟨hnot, hout⟩ := hold a hmem
    obtain ⟨hout', htaken⟩ := not_inPool hgrown.frames (hgrown.keeps a) hout
    refine ⟨?_, hout'⟩
    rw [hnot, Bool.false_or, Bool.eq_false_iff]
    intro hand
    rw [Bool.and_eq_true, beq_iff_eq, beq_iff_eq] at hand
    exact htaken hand

theorem Apart.take (h : s.Apart) : (s.step .take).Apart := by
  intro a ha
  obtain ⟨hnot, hout⟩ := h a ha
  refine ⟨hnot, ?_⟩
  show ¬ InPool ((s.fa.alloc.toOption.map Prod.snd).getD s.fa) a
  cases halloc : s.fa.alloc with
  | error e => exact hout
  | ok q =>
    obtain ⟨c, fa'⟩ := q
    obtain ⟨-, hmarked, -⟩ := s.fa.alloc_marked halloc
    exact (not_inPool (FrameAlloc.alloc_frames halloc)
      (by rw [hmarked]; exact Nat.le_add_right _ _) hout).1

theorem Apart.give (h : s.Apart) {addr : Nat} (haddr : addr ∉ s.mapped) :
    (s.step (.give addr)).Apart := by
  intro a ha
  obtain ⟨hnot, hout⟩ := h a ha
  have hne : a ≠ addr := by
    rintro rfl
    exact haddr ha
  refine ⟨hnot, ?_⟩
  show ¬ InPool (s.fa.giveBack addr) a
  unfold InPool
  rw [FrameAlloc.giveBack_frames, FrameAlloc.giveBack_other hne]
  exact hout

theorem Apart.run {events : List Event} (h : s.Apart) (hok : s.Ok) (hhonest : s.Honest events)
    (hcallers : s.CallersFrames events) : (s.run events).Apart := by
  induction events generalizing s with
  | nil => exact h
  | cons event events ih =>
    cases event with
    | map iova phys perms =>
      exact ih (h.map hok hcallers.1 hcallers.2.1) (hok.map iova phys perms) hhonest hcallers.2.2
    | unmap iova => exact ih h (hok.unmap iova) hhonest hcallers
    | take => exact ih h.take hok.take hhonest hcallers
    | give addr => exact ih (h.give hcallers.1) (hok.give hhonest.1) hhonest.2 hcallers.2

/-! ### `teardown` -/

/-- `teardown` gives back the frames that the domain has taken, and no others. -/
structure TornDown (s : Lifetime) : Prop where
  /-- It gives back the frames of the walk, each of them once. -/
  returns : s.domain.teardown s.fa s.mem =
    (s.fa.giveBackAll s.freed, { s.domain with root := 0 })
  once : s.freed.Nodup
  /-- They are exactly the frames that the domain has taken. -/
  exactly : ∀ a, a ∈ s.freed ↔ s.owned a = true
  /-- The allocator refuses none of them, and keeps its other frames. -/
  accepted : (s.domain.teardown s.fa s.mem).1.refused = s.fa.refused
  marked : ∀ a, (s.domain.teardown s.fa s.mem).1.marked a =
    if s.owned a then 0 else s.fa.marked a

theorem Ok.tornDown (h : s.Ok) : s.TornDown := by
  obtain ⟨hlevels, hroot, tab, htree, howned⟩ := h
  have hreturns : s.domain.teardown s.fa s.mem =
      (s.fa.giveBackAll s.freed, { s.domain with root := 0 }) := by
    unfold Domain.teardown
    rw [if_pos hroot, freeSubtree_eq]
    rfl
  have hexactly : ∀ a, a ∈ s.freed ↔ s.owned a = true := by
    intro a
    rw [howned]
    exact htree.mem_subtree_root a
  have honce : s.freed.Nodup := htree.nodup_subtree htree.root
  have hcount : ∀ a, 0 + s.freed.count a ≤ s.fa.marked a := by
    intro a
    rw [Nat.zero_add, List.Nodup.count honce]
    split
    · rename_i hmem
      obtain ⟨b, p, hp⟩ := (howned a).mp ((hexactly a).mp hmem)
      exact (htree.frames hp).2
    · exact Nat.zero_le _
  obtain ⟨hrefused, hmarked⟩ := FrameAlloc.giveBackAll_marked hcount
  refine ⟨hreturns, honce, hexactly, by rw [hreturns]; exact hrefused, fun a => ?_⟩
  rw [hreturns]
  have hafter := hmarked a
  have hone := s.fa.marked_le_one a
  have hbefore := hcount a
  rw [List.Nodup.count honce] at hafter hbefore
  show (s.fa.giveBackAll s.freed).marked a = _
  by_cases ha : s.owned a = true
  · rw [if_pos ((hexactly a).mpr ha)] at hafter hbefore
    rw [if_pos ha]
    omega
  · rw [if_neg (fun hmem => ha ((hexactly a).mp hmem))] at hafter
    rw [if_neg ha]
    omega

/-- A cleared root alone is a tree. -/
theorem tree_new {root levels : Nat} (mem : Tables) (fmt : PteFmt) (hpage : PageAddr root)
    (hmark : 0 < fa.marked root) (hmemory : fa.frames * frameSize ≤ 2 ^ 52) (hlevels : 0 < levels) :
    Tree ⟨root, levels, fmt⟩ fa (mem.clear root)
      (withTable (fun _ _ => none) (levels - 1) 0 root) := by
  have honly : ∀ {b p t}, withTable (fun _ _ => none) (levels - 1) 0 root b p = some t →
      b = levels - 1 ∧ p = 0 ∧ t = root := by
    intro b p t ht
    rcases withTable_cases ht with hnew | ⟨-, hold⟩
    · exact hnew
    · cases hold
  refine ⟨withTable_self _ _ _ _, ?_, ?_, ?_, ?_, ?_, hmemory⟩
  · intro b p b' p' t ht ht'
    obtain ⟨rfl, rfl, -⟩ := honly ht
    obtain ⟨rfl, rfl, -⟩ := honly ht'
    exact ⟨rfl, rfl⟩
  · intro b p t ht i hi
    obtain ⟨hb, rfl, rfl⟩ := honly ht
    rw [show mem.clear t t i = 0 from if_pos rfl,
      withTable_other (fun hand => absurd hand.1 (by omega))]
    rfl
  · intro b p t ht hb
    obtain ⟨rfl, -, -⟩ := honly ht
    exact absurd hb (by show ¬ _ < levels; omega)
  · intro b p t ht
    obtain ⟨rfl, rfl, -⟩ := honly ht
    exact ⟨Nat.sub_lt hlevels Nat.one_pos, Nat.zero_div _⟩
  · intro b p t ht
    obtain ⟨-, -, rfl⟩ := honly ht
    exact ⟨hpage, hmark⟩

/-- A new domain has one table. -/
theorem ok_start {fa0 : FrameAlloc} {mem0 : Tables} {addrWidthBits : Nat} {fmt : PteFmt}
    (hnew : Domain.new fa0 mem0 addrWidthBits fmt = .ok (d, fa, mem))
    (hmemory : fa0.frames * frameSize ≤ 2 ^ 52) (hzero : 0 < fa0.marked 0) :
    (start fa0 d fa mem).Ok := by
  unfold Domain.new at hnew
  split at hnew
  · cases hnew
  · dsimp only at hnew
    split at hnew
    · cases hnew
    · split at hnew
      · cases hnew
      · rename_i hlevels
        unfold allocTable at hnew
        cases halloc : fa0.alloc with
        | error e =>
          rw [halloc] at hnew
          cases hnew
        | ok q =>
          obtain ⟨root, fa₁⟩ := q
          rw [halloc] at hnew
          dsimp only at hnew
          obtain ⟨rfl, rfl, rfl⟩ := Prod.mk.inj (Except.ok.inj hnew) |>.imp id Prod.mk.inj
          obtain ⟨hpage, hfresh, hmark, hframes, -⟩ := alloc_frame halloc hmemory
          obtain ⟨-, hmarked, -⟩ := fa0.alloc_marked halloc
          have hpos : 0 < (addrWidthBits - pageShift) / indexBits := by omega
          have hmemory₁ : fa₁.frames * frameSize ≤ 2 ^ 52 := by
            rw [hframes]
            exact hmemory
          refine ⟨hpos, ?_, _, tree_new mem0 fmt hpage hmark hmemory₁ hpos, fun a => ?_⟩
          · intro hroot
            dsimp only [start] at hroot
            rw [hroot] at hfresh
            omega
          · rw [isTable_withTable rfl]
            unfold start
            dsimp only
            rw [Bool.and_eq_true, beq_iff_eq, beq_iff_eq, hmarked]
            constructor
            · rintro ⟨hbefore, hafter⟩
              right
              by_contra hne
              rw [if_neg hne, hbefore] at hafter
              cases hafter
            · rintro (⟨_, _, hnone⟩ | rfl)
              · cases hnone
              · exact ⟨hfresh, by rw [hfresh, if_pos rfl]⟩

/-- Over every sequence of events on a new domain of any width and format, `teardown` gives back to
the allocator exactly the frames that the domain has taken, each of them once. If the mapped frames
are the caller's, none of them is given back. -/
theorem teardown_returns_tables {fa0 : FrameAlloc} {mem0 : Tables} {addrWidthBits : Nat}
    {fmt : PteFmt} (hnew : Domain.new fa0 mem0 addrWidthBits fmt = .ok (d, fa, mem))
    (hmemory : fa0.frames * frameSize ≤ 2 ^ 52) (hzero : 0 < fa0.marked 0) (events : List Event)
    (hhonest : (start fa0 d fa mem).Honest events) :
    ((start fa0 d fa mem).run events).TornDown ∧
      ((start fa0 d fa mem).CallersFrames events →
        ∀ a ∈ ((start fa0 d fa mem).run events).mapped,
          a ∉ ((start fa0 d fa mem).run events).freed) := by
  have hstart := ok_start hnew hmemory hzero
  have htorn := (hstart.run hhonest).tornDown
  refine ⟨htorn, fun hcallers a ha hfreed => ?_⟩
  have hapart : (start fa0 d fa mem).Apart := fun _ h => (by cases h)
  have howned := ((hapart.run hstart hhonest hcallers) a ha).1
  rw [(htorn.exactly a).mp hfreed] at howned
  cases howned

/-- A domain of four levels over 128 frames, of which the first 64 are in use. A caller takes a
frame, maps it and another one, and gives a third one back. -/
theorem teardown_returns_tables_small : ∃ s : Lifetime,
    s = (start ⟨[BitVec.allOnes 64, 0#64], 128, 64, []⟩ ⟨262144, 4, .vtd⟩
        ⟨[BitVec.allOnes 64, 1#64], 128, 63, []⟩
        (Tables.clear (fun _ _ => 0) 262144)).run
      [.take, .map 0x1000 266240 3, .take, .map 0x8000000000 0x2000 1, .unmap 0x1000,
        .give 0x3000] ∧
      s.TornDown ∧ ∀ a ∈ s.mapped, a ∉ s.freed := by
  have hnew : Domain.new ⟨[BitVec.allOnes 64, 0#64], 128, 64, []⟩ (fun _ _ => 0) 48 .vtd =
      .ok (⟨262144, 4, .vtd⟩, ⟨[BitVec.allOnes 64, 1#64], 128, 63, []⟩,
        Tables.clear (fun _ _ => 0) 262144) := rfl
  obtain ⟨htorn, hapart⟩ := teardown_returns_tables hnew (by decide) (by decide)
    [.take, .map 0x1000 266240 3, .take, .map 0x8000000000 0x2000 1, .unmap 0x1000, .give 0x3000]
    ⟨by decide +kernel, trivial⟩
  exact ⟨_, rfl, htorn, hapart ⟨by decide +kernel, by decide +kernel, by decide +kernel,
    by decide +kernel, by decide +kernel, trivial⟩⟩

end Lifetime

end Plinth.Iommu
