import Plinth.Iommu.Tables

/-!
# `Plinth.Iommu.Rep`: the tables represent a map

`Rep` says that the tables of a domain represent a map of pages. It names the tables by what they
cover: `tab b p` is the table with `b` levels below it whose addresses have the page-number prefix
`p`. No frame is two tables, so a write to one of them concerns its addresses only.

There are two changes: a new table without pages (`Rep.grow`), and a new leaf (`Rep.setLeaf`). The
walks read the map (`Rep.translate`, `Rep.hwWalk`).
-/

set_option autoImplicit false

namespace Plinth.Iommu

/-- The entry of a link that may be missing. -/
def linkEntry (fmt : PteFmt) (child : Option Nat) (nextLevel : Nat) : Nat :=
  match child with
  | some c => fmt.encodeLink c nextLevel
  | none => 0

/-- The entry of a page that may be missing. -/
def leafEntry (fmt : PteFmt) (page : Option (Nat × Nat)) : Nat :=
  match page with
  | some (phys, perms) => fmt.encodeLeaf phys perms
  | none => 0

/-- The tables in `mem` represent `pages`. -/
structure Rep (d : Domain) (fa : FrameAlloc) (mem : Tables) (tab : Nat → Nat → Option Nat)
    (pages : PageMap) : Prop where
  root : tab (d.levels - 1) 0 = some d.root
  inj : ∀ {b p b' p' t}, tab b p = some t → tab b' p' = some t → b = b' ∧ p = p'
  link : ∀ {b p t}, tab (b + 1) p = some t → ∀ idx < 512,
    mem t idx = linkEntry d.fmt (tab b (p * 512 + idx)) (b + 1)
  leaf : ∀ {p t}, tab 0 p = some t → ∀ idx < 512,
    mem t idx = leafEntry d.fmt (pages (p * 512 + idx))
  orphan : ∀ {n page}, pages n = some page → ∃ t, tab 0 (n / 512) = some t
  parent : ∀ {b p t}, tab b p = some t → b + 1 < d.levels → ∃ t', tab (b + 1) (p / 512) = some t'
  frames : ∀ {b p t}, tab b p = some t → PageAddr t ∧ 0 < fa.marked t
  valid : ∀ {n phys perms}, pages n = some (phys, perms) → PageAddr phys ∧ perms &&& slPresent ≠ 0
  memory : fa.frames * frameSize ≤ 2 ^ 52

variable {d : Domain} {fa fa' : FrameAlloc} {mem mem' : Tables} {tab : Nat → Nat → Option Nat}
  {pages : PageMap} {iova n b p t c idx : Nat}

/-! ### Indices -/

/-- The index at a level, from the page number. -/
theorem index_eq (iova b : Nat) : index iova b = iova / 4096 / 512 ^ b % 512 := by
  have hpow : 2 ^ (pageShift + b * indexBits) = 4096 * 512 ^ b := by
    unfold pageShift indexBits
    rw [Nat.pow_add, Nat.mul_comm b 9, Nat.pow_mul]
  unfold index
  rw [show entries - 1 = 2 ^ 9 - 1 from rfl, Nat.and_two_pow_sub_one_eq_mod,
    Nat.shiftRight_eq_div_pow, hpow, Nat.div_div_eq_div_mul]

/-- The index depends on the address below the width only. -/
theorem index_mod {levels : Nat} (hb : b < levels) (iova : Nat) :
    index iova b = iova / 4096 % 512 ^ levels / 512 ^ b % 512 := by
  have hsplit : 512 ^ levels = 512 ^ b * 512 ^ (levels - b) := by
    rw [← Nat.pow_add]
    congr 1
    omega
  have hdvd : 512 ∣ 512 ^ (levels - b) := dvd_pow_self 512 (by omega)
  rw [index_eq, hsplit, Nat.mod_mul_right_div_self, Nat.mod_mod_of_dvd _ hdvd]

/-- The prefix of a child is that of its parent with the index. -/
theorem prefix_child (n b : Nat) : n / 512 ^ (b + 1) * 512 + n / 512 ^ b % 512 = n / 512 ^ b := by
  rw [Nat.pow_succ, ← Nat.div_div_eq_div_mul]
  exact Nat.div_add_mod' _ _

/-! ### Reading -/

theorem decode_linkEntry (fmt : PteFmt) {child : Option Nat} (h : ∀ c, child = some c → PageAddr c)
    (nl : Nat) : fmt.decode (linkEntry fmt child nl) = (child.isSome, child.getD 0) := by
  cases child with
  | none => exact decode_zero fmt
  | some c => exact decode_encodeLink fmt (h c rfl) nl

theorem decode_leafEntry (fmt : PteFmt) {page : Option (Nat × Nat)}
    (h : ∀ phys perms, page = some (phys, perms) → PageAddr phys ∧ perms &&& slPresent ≠ 0) :
    fmt.decode (leafEntry fmt page) = (page.isSome, (page.map Prod.fst).getD 0) := by
  cases page with
  | none => exact decode_zero fmt
  | some page =>
    obtain ⟨hphys, hperms⟩ := h page.1 page.2 rfl
    exact decode_encodeLeaf fmt hphys hperms

/-! ### One step of the hardware walk -/

theorem hwWalk_absent {fuel table : Nat} {read write : Bool} (h : mem table (index iova b) = 0) :
    hwWalk mem iova (fuel + 1) (b + 1) table read write = none := by
  unfold Iommu.hwWalk
  rw [Nat.add_sub_cancel, h, if_pos (by rfl)]

theorem hwWalk_leaf {fuel table phys perms : Nat} (hphys : PageAddr phys)
    (hperms : perms &&& slPresent ≠ 0)
    (h : mem table (index iova 0) = PteFmt.amdVi.encodeLeaf phys perms) (read write : Bool) :
    hwWalk mem iova (fuel + 1) 1 table read write =
      some (phys ||| (iova &&& (2 ^ pageShift - 1)), read && perms.testBit 0,
        write && perms.testBit 1) := by
  have hdecode := decode_encodeLeaf .amdVi hphys hperms
  have hpresent : (PteFmt.amdVi.encodeLeaf phys perms &&& amdPr != 0) = true :=
    congrArg Prod.fst hdecode
  have haddr : PteFmt.amdVi.encodeLeaf phys perms &&& slAddrMask = phys :=
    congrArg Prod.snd hdecode
  obtain ⟨hread, hwrite⟩ := perms_leaf hphys perms
  unfold Iommu.hwWalk
  dsimp only
  rw [Nat.sub_self, h, hpresent, if_neg (fun hne => nomatch hne),
    if_pos (nextLevel_leaf hphys perms), haddr, hread, hwrite, Nat.zero_mul, Nat.add_zero]

theorem hwWalk_link {fuel table : Nat} {read write : Bool} (hc : PageAddr c) (hb : b + 1 < 8)
    (h : mem table (index iova (b + 1)) = PteFmt.amdVi.encodeLink c (b + 1)) :
    hwWalk mem iova (fuel + 1) (b + 2) table read write =
      hwWalk mem iova fuel (b + 1) c read write := by
  have hdecode := decode_encodeLink .amdVi hc (b + 1)
  have hpresent : (PteFmt.amdVi.encodeLink c (b + 1) &&& amdPr != 0) = true :=
    congrArg Prod.fst hdecode
  have haddr : PteFmt.amdVi.encodeLink c (b + 1) &&& slAddrMask = c := congrArg Prod.snd hdecode
  obtain ⟨hread, hwrite⟩ := perms_link hc (b + 1)
  have hskip : iova / 2 ^ (pageShift + (b + 1) * indexBits) %
      2 ^ ((b + 2 - 1 - (b + 1)) * indexBits) = 0 := by
    rw [show b + 2 - 1 - (b + 1) = 0 by omega, Nat.zero_mul, Nat.pow_zero, Nat.mod_one]
  rw [Iommu.hwWalk]
  rw [show b + 2 - 1 = b + 1 from rfl, h, nextLevel_link hc hb, hpresent,
    if_neg (fun hne => nomatch hne), if_neg (Nat.succ_ne_zero b), if_neg (by omega),
    if_neg (fun hne => hne hskip), haddr, hread, hwrite, Bool.and_true, Bool.and_true]

section
variable (h : Rep d fa mem tab pages)
include h

/-- The entry of the walk for page `n` in the table with `b + 1` levels below it. -/
theorem Rep.link_at (ht : tab (b + 1) (n / 512 ^ (b + 2)) = some t) :
    mem t (n / 512 ^ (b + 1) % 512) = linkEntry d.fmt (tab b (n / 512 ^ (b + 1))) (b + 1) := by
  rw [h.link ht _ (Nat.mod_lt _ (by decide)), prefix_child n (b + 1)]

theorem Rep.decode_link (ht : tab (b + 1) (n / 512 ^ (b + 2)) = some t) :
    d.fmt.decode (mem t (n / 512 ^ (b + 1) % 512)) =
      ((tab b (n / 512 ^ (b + 1))).isSome, (tab b (n / 512 ^ (b + 1))).getD 0) := by
  rw [h.link_at ht]
  exact decode_linkEntry d.fmt (fun c hc => (h.frames hc).1) _

/-- The entry of the walk for page `n` in the last table. -/
theorem Rep.leaf_at (ht : tab 0 (n / 512 ^ 1) = some t) :
    mem t (n / 512 ^ 0 % 512) = leafEntry d.fmt (pages n) := by
  have hchild := prefix_child n 0
  rw [h.leaf ht _ (Nat.mod_lt _ (by decide)), hchild]
  congr 2
  exact Nat.div_one n

theorem Rep.decode_leaf (ht : tab 0 (n / 512 ^ 1) = some t) :
    d.fmt.decode (mem t (n / 512 ^ 0 % 512)) =
      ((pages n).isSome, ((pages n).map Prod.fst).getD 0) := by
  rw [h.leaf_at ht]
  exact decode_leafEntry d.fmt (fun phys perms hpage => h.valid hpage)

/-- A page that is mapped has a table at every level. -/
theorem Rep.path {page : Nat × Nat} (hn : pages n = some page) (hb : b < d.levels) :
    ∃ t, tab b (n / 512 ^ (b + 1)) = some t := by
  induction b with
  | zero => exact h.orphan hn
  | succ b ih =>
    obtain ⟨t, ht⟩ := ih (by omega)
    obtain ⟨t', ht'⟩ := h.parent ht hb
    rw [Nat.div_div_eq_div_mul, ← Nat.pow_succ] at ht'
    exact ⟨t', ht'⟩

/-- Without a table at some level there is no page. -/
theorem Rep.none_of_tab (hb : b < d.levels) (ht : tab b (n / 512 ^ (b + 1)) = none) :
    pages n = none := by
  cases hn : pages n with
  | none => rfl
  | some page =>
    obtain ⟨t, ht'⟩ := h.path hn hb
    rw [ht] at ht'
    cases ht'

/-- `translate` reads the map. -/
theorem Rep.translateFrom (hidx : ∀ b < d.levels, index iova b = n / 512 ^ b % 512)
    (hb : b < d.levels) (ht : tab b (n / 512 ^ (b + 1)) = some t) :
    translateFrom d.fmt mem iova b t =
      (pages n).map fun page => page.1 ||| (iova &&& (2 ^ pageShift - 1)) := by
  induction b generalizing t with
  | zero =>
    unfold Iommu.translateFrom
    rw [hidx 0 hb, h.decode_leaf ht]
    cases hn : pages n with
    | none => rfl
    | some page => rfl
  | succ b ih =>
    unfold Iommu.translateFrom
    rw [hidx (b + 1) hb, h.decode_link ht]
    cases hc : tab b (n / 512 ^ (b + 1)) with
    | none =>
      rw [h.none_of_tab (by omega) hc]
      rfl
    | some c => exact ih (by omega) hc

/-- So does the walk of the hardware, with the permissions of the leaf. -/
theorem Rep.hwWalk (hfmt : d.fmt = .amdVi) (hlevels : d.levels ≤ 5)
    (hidx : ∀ b < d.levels, index iova b = n / 512 ^ b % 512) (hb : b < d.levels)
    (ht : tab b (n / 512 ^ (b + 1)) = some t) (read write : Bool) :
    hwWalk mem iova (b + 1) (b + 1) t read write =
      (pages n).map fun page => (page.1 ||| (iova &&& (2 ^ pageShift - 1)),
        read && page.2.testBit 0, write && page.2.testBit 1) := by
  induction b generalizing t read write with
  | zero =>
    have hentry := h.leaf_at ht
    rw [← hidx 0 hb, hfmt] at hentry
    cases hn : pages n with
    | none =>
      rw [hn] at hentry
      rw [hwWalk_absent hentry]
      rfl
    | some page =>
      obtain ⟨hphys, hperms⟩ := h.valid (show pages n = some (page.1, page.2) from hn)
      rw [hn] at hentry
      exact hwWalk_leaf hphys hperms hentry read write
  | succ b ih =>
    have hentry := h.link_at ht
    rw [← hidx (b + 1) hb, hfmt] at hentry
    cases hc : tab b (n / 512 ^ (b + 1)) with
    | none =>
      rw [hc] at hentry
      rw [hwWalk_absent hentry, h.none_of_tab (by omega) hc]
      rfl
    | some c =>
      rw [hc] at hentry
      rw [hwWalk_link (h.frames hc).1 (by omega) hentry]
      exact ih (by omega) hc read write

end

/-! ### Changes -/

/-- `alloc` gives a page frame that is no table yet. -/
theorem alloc_frame (h : fa.alloc = .ok (c, fa')) (hmemory : fa.frames * frameSize ≤ 2 ^ 52) :
    PageAddr c ∧ fa.marked c = 0 ∧ 0 < fa'.marked c ∧ fa'.frames = fa.frames ∧
      ∀ t, 0 < fa.marked t → 0 < fa'.marked t := by
  obtain ⟨hfree, hmarked, -⟩ := fa.alloc_marked h
  have hframes : fa'.frames = fa.frames := by
    unfold FrameAlloc.alloc at h
    split at h
    · obtain ⟨-, rfl⟩ := Prod.mk.inj (Except.ok.inj h)
      rfl
    · cases h
  have hset : fa'.marked c = 1 := by rw [hmarked, hfree, if_pos rfl]
  refine ⟨?_, hfree, by rw [hset]; exact Nat.one_pos, hframes, fun t ht => ?_⟩
  · unfold FrameAlloc.marked at hset
    split at hset
    · rename_i hin
      obtain ⟨haligned, hbelow, -⟩ := hin
      rw [hframes] at hbelow
      unfold frameSize at *
      exact ⟨haligned, by omega⟩
    · cases hset
  · rw [hmarked]
    omega

/-- The names with one more table. -/
def withTable (tab : Nat → Nat → Option Nat) (b p c : Nat) : Nat → Nat → Option Nat :=
  fun b' p' => if b' = b ∧ p' = p then some c else tab b' p'

theorem withTable_self (tab : Nat → Nat → Option Nat) (b p c : Nat) :
    withTable tab b p c b p = some c := if_pos ⟨rfl, rfl⟩

theorem withTable_other {b' p' : Nat} (h : ¬ (b' = b ∧ p' = p)) :
    withTable tab b p c b' p' = tab b' p' := if_neg h

/-- A table of the extended names: the new one, or one from before. -/
theorem withTable_cases {b' p' t : Nat} (h : withTable tab b p c b' p' = some t) :
    (b' = b ∧ p' = p ∧ t = c) ∨ (¬ (b' = b ∧ p' = p) ∧ tab b' p' = some t) := by
  unfold withTable at h
  by_cases hnew : b' = b ∧ p' = p
  · rw [if_pos hnew] at h
    exact Or.inl ⟨hnew.1, hnew.2, (Option.some.inj h).symm⟩
  · rw [if_neg hnew] at h
    exact Or.inr ⟨hnew, h⟩

/-- What was a table stays one. -/
theorem withTable_mono {b' p' : Nat} (hnone : tab b p = none) (h : tab b' p' = some t) :
    withTable tab b p c b' p' = some t := by
  rw [withTable_other, h]
  rintro ⟨rfl, rfl⟩
  rw [hnone] at h
  cases h

/-- A new table, cleared and linked, is a table without pages. -/
theorem Rep.grow (h : Rep d fa mem tab pages) (hb : b + 1 < d.levels)
    (ht : tab (b + 1) p = some t) (hidx : idx < 512) (hnone : tab b (p * 512 + idx) = none)
    (halloc : fa.alloc = .ok (c, fa')) :
    Rep d fa' ((mem.clear c).set t idx (d.fmt.encodeLink c (b + 1)))
      (withTable tab b (p * 512 + idx) c) pages := by
  obtain ⟨hpage, hfresh, hmark, hframes, hkeep⟩ := alloc_frame halloc h.memory
  -- The new frame is none of the tables.
  have hne : ∀ {b' p' t'}, tab b' p' = some t' → t' ≠ c := by
    rintro b' p' t' ht' rfl
    have hmarked := (h.frames ht').2
    omega
  have hclear : ∀ i, ((mem.clear c).set t idx (d.fmt.encodeLink c (b + 1))) c i = 0 := by
    intro i
    unfold Tables.set Tables.clear
    rw [if_neg (fun hand => hne ht hand.1.symm), if_pos rfl]
  have hold : ∀ {t' i}, t' ≠ c → ¬ (t' = t ∧ i = idx) →
      ((mem.clear c).set t idx (d.fmt.encodeLink c (b + 1))) t' i = mem t' i := by
    intro t' i hc hnot
    unfold Tables.set Tables.clear
    rw [if_neg hnot, if_neg hc]
  refine ⟨withTable_mono hnone h.root, ?_, ?_, ?_, ?_, ?_, ?_, h.valid,
    by rw [hframes]; exact h.memory⟩
  · intro b₁ p₁ b₂ p₂ t' h₁ h₂
    rcases withTable_cases h₁ with ⟨rfl, rfl, rfl⟩ | ⟨-, ho₁⟩
    · rcases withTable_cases h₂ with ⟨rfl, rfl, -⟩ | ⟨-, ho₂⟩
      · exact ⟨rfl, rfl⟩
      · exact absurd rfl (hne ho₂)
    · rcases withTable_cases h₂ with ⟨-, -, rfl⟩ | ⟨-, ho₂⟩
      · exact absurd rfl (hne ho₁)
      · exact h.inj ho₁ ho₂
  · intro b' p' t' ht' i hi
    rcases withTable_cases ht' with ⟨rfl, rfl, rfl⟩ | ⟨-, ho⟩
    · -- The new table has no links, and no table has it as its parent.
      have hchild : tab b' ((p * 512 + idx) * 512 + i) = none := by
        cases hsome : tab b' ((p * 512 + idx) * 512 + i) with
        | none => rfl
        | some t'' =>
          obtain ⟨u, hu⟩ := h.parent hsome (by omega)
          have hdiv : ((p * 512 + idx) * 512 + i) / 512 = p * 512 + idx := by omega
          rw [hdiv, hnone] at hu
          cases hu
      rw [hclear, withTable_other (fun hand => absurd hand.1 (by omega)), hchild]
      rfl
    · by_cases hhere : t' = t ∧ i = idx
      · obtain ⟨rfl, rfl⟩ := hhere
        obtain ⟨hbb, rfl⟩ := h.inj ho ht
        obtain rfl : b' = b := by omega
        rw [withTable_self]
        unfold Tables.set
        rw [if_pos ⟨rfl, rfl⟩]
        rfl
      · rw [hold (hne ho) hhere, h.link ho i hi, withTable_other]
        rintro ⟨rfl, hprefix⟩
        obtain rfl : p' = p := by omega
        obtain rfl : i = idx := by omega
        exact hhere ⟨Option.some.inj (ho.symm.trans ht), rfl⟩
  · intro p' t' ht' i hi
    rcases withTable_cases ht' with ⟨rfl, rfl, rfl⟩ | ⟨-, ho⟩
    · have hpages : pages ((p * 512 + idx) * 512 + i) = none := by
        cases hsome : pages ((p * 512 + idx) * 512 + i) with
        | none => rfl
        | some page =>
          obtain ⟨u, hu⟩ := h.orphan hsome
          have hdiv : ((p * 512 + idx) * 512 + i) / 512 = p * 512 + idx := by omega
          rw [hdiv, hnone] at hu
          cases hu
      rw [hclear, hpages]
      rfl
    · rw [hold (hne ho), h.leaf ho i hi]
      rintro ⟨rfl, -⟩
      exact absurd (h.inj ho ht).1 (by omega)
  · intro n page hn
    obtain ⟨u, hu⟩ := h.orphan hn
    exact ⟨u, withTable_mono hnone hu⟩
  · intro b' p' t' ht' hb'
    rcases withTable_cases ht' with ⟨rfl, rfl, -⟩ | ⟨-, ho⟩
    · have hdiv : (p * 512 + idx) / 512 = p := by omega
      rw [hdiv]
      exact ⟨t, withTable_mono hnone ht⟩
    · obtain ⟨u, hu⟩ := h.parent ho hb'
      exact ⟨u, withTable_mono hnone hu⟩
  · intro b' p' t' ht'
    rcases withTable_cases ht' with ⟨-, -, rfl⟩ | ⟨-, ho⟩
    · exact ⟨hpage, hmark⟩
    · exact ⟨(h.frames ho).1, hkeep t' (h.frames ho).2⟩

/-- A new leaf, or none. -/
theorem Rep.setLeaf (h : Rep d fa mem tab pages) (ht : tab 0 (n / 512 ^ 1) = some t)
    (page : Option (Nat × Nat))
    (hvalid : ∀ phys perms, page = some (phys, perms) → PageAddr phys ∧ perms &&& slPresent ≠ 0) :
    Rep d fa (mem.set t (n / 512 ^ 0 % 512) (leafEntry d.fmt page)) tab
      (Function.update pages n page) := by
  have hn0 : n / 512 ^ 0 = n := Nat.div_one n
  have hn1 : n / 512 ^ 1 = n / 512 := rfl
  rw [hn1] at ht
  rw [hn0]
  refine ⟨h.root, h.inj, ?_, ?_, ?_, h.parent, h.frames, ?_, h.memory⟩
  · intro b p t' ht' i hi
    unfold Tables.set
    rw [if_neg, h.link ht' i hi]
    rintro ⟨rfl, -⟩
    exact absurd (h.inj ht' ht).1 (by omega)
  · intro p t' ht' i hi
    unfold Tables.set
    by_cases hhere : t' = t ∧ i = n % 512
    · obtain ⟨rfl, rfl⟩ := hhere
      obtain ⟨-, rfl⟩ := h.inj ht' ht
      rw [if_pos ⟨rfl, rfl⟩, Nat.div_add_mod', Function.update_self]
    · rw [if_neg hhere, h.leaf ht' i hi, Function.update_of_ne]
      intro hpn
      have hp : p = n / 512 := by omega
      have hin : i = n % 512 := by omega
      subst hp
      exact hhere ⟨Option.some.inj (ht'.symm.trans ht), hin⟩
  · intro n' page' hn'
    by_cases hsame : n' = n
    · subst hsame
      exact ⟨t, ht⟩
    · rw [Function.update_of_ne hsame] at hn'
      exact h.orphan hn'
  · intro n' phys perms hn'
    by_cases hsame : n' = n
    · subst hsame
      rw [Function.update_self] at hn'
      exact hvalid phys perms hn'
    · rw [Function.update_of_ne hsame] at hn'
      exact h.valid hn'

end Plinth.Iommu
