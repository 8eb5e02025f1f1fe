import Plinth.Iommu.Rep

/-!
# `Plinth.Iommu.Refines`: a domain is a partial map

The calls of a domain keep the representation of its map. `map` adds the page, or it fails and adds
empty tables at most. `unmap` clears a leaf, or it fails.

`domain_refines` is about every sequence of calls on a new domain: `translate` and the walk of the
AMD hardware answer from the map, and a call that fails changes no translation.
-/

set_option autoImplicit false

namespace Plinth.Iommu

variable {d : Domain} {fa fa' : FrameAlloc} {mem mem' : Tables} {tab : Nat → Nat → Option Nat}
  {pages : PageMap} {iova phys perms n b t : Nat} {s s' : System}

/-! ### The loops -/

/-- The loop of `map`: the page joins the map, or the map stays. -/
theorem Rep.mapFrom {r : Except DomainError Unit} (h : Rep d fa mem tab pages)
    (hidx : ∀ b < d.levels, index iova b = n / 512 ^ b % 512) (hphys : PageAddr phys)
    (hperms : perms &&& slPresent ≠ 0) (hb : b < d.levels)
    (ht : tab b (n / 512 ^ (b + 1)) = some t)
    (hrun : mapFrom d.fmt iova phys perms b t fa mem = (r, fa', mem')) :
    (r = .ok () ∧ pages n = none ∧
      ∃ tab', Rep d fa' mem' tab' (Function.update pages n (some (phys, perms)))) ∨
    (∃ e, r = .error e ∧ (e = .alreadyMapped ∧ pages n ≠ none ∨ e = .exhausted ∧ pages n = none) ∧
      ∃ tab', Rep d fa' mem' tab' pages) := by
  induction b generalizing t fa mem tab with
  | zero =>
    have hdecode := h.decode_leaf ht
    unfold Iommu.mapFrom at hrun
    dsimp only at hrun
    rw [hidx 0 hb, hdecode] at hrun
    cases hn : pages n with
    | some page =>
      rw [hn, if_pos (show (some page).isSome = true from rfl)] at hrun
      injection hrun with hr hrest
      injection hrest with hfa hmem
      subst hr hfa hmem
      exact Or.inr ⟨_, rfl, Or.inl ⟨rfl, (nomatch ·)⟩, tab, h⟩
    | none =>
      rw [hn, if_neg (fun hne => nomatch hne)] at hrun
      injection hrun with hr hrest
      injection hrest with hfa hmem
      subst hr hfa hmem
      refine Or.inl ⟨rfl, rfl, tab, ?_⟩
      refine h.setLeaf ht (some (phys, perms)) fun phys' perms' heq => ?_
      obtain ⟨rfl, rfl⟩ := Prod.mk.inj (Option.some.inj heq)
      exact ⟨hphys, hperms⟩
  | succ b ih =>
    have hdecode := h.decode_link ht
    unfold Iommu.mapFrom at hrun
    dsimp only at hrun
    rw [hidx (b + 1) hb, hdecode] at hrun
    cases hc : tab b (n / 512 ^ (b + 1)) with
    | some c =>
      rw [hc] at hrun
      exact ih h (by omega) hc hrun
    | none =>
      rw [hc] at hrun
      dsimp only [Option.isSome_none] at hrun
      unfold allocTable at hrun
      cases halloc : fa.alloc with
      | error e =>
        rw [halloc] at hrun
        injection hrun with hr hrest
        injection hrest with hfa hmem
        subst hr hfa hmem
        exact Or.inr ⟨_, rfl, Or.inr ⟨rfl, h.none_of_tab (by omega) hc⟩, tab, h⟩
      | ok q =>
        obtain ⟨c, fa1⟩ := q
        rw [halloc] at hrun
        dsimp only at hrun
        have hchild := prefix_child n (b + 1)
        have hgrow := h.grow hb ht (Nat.mod_lt (n / 512 ^ (b + 1)) (by decide))
          (by rw [hchild]; exact hc) halloc
        exact ih hgrow (by omega) (by rw [hchild]; exact withTable_self _ _ _ _) hrun

/-- The loop of `unmap`. -/
theorem Rep.unmapFrom {r : Except DomainError Unit} (h : Rep d fa mem tab pages)
    (hidx : ∀ b < d.levels, index iova b = n / 512 ^ b % 512) (hb : b < d.levels)
    (ht : tab b (n / 512 ^ (b + 1)) = some t)
    (hrun : unmapFrom d.fmt mem iova b t = (r, mem')) :
    (r = .ok () ∧ pages n ≠ none ∧ Rep d fa mem' tab (Function.update pages n none)) ∨
    (r = .error .notMapped ∧ pages n = none ∧ Rep d fa mem' tab pages) := by
  induction b generalizing t with
  | zero =>
    have hdecode := h.decode_leaf ht
    unfold Iommu.unmapFrom at hrun
    dsimp only at hrun
    rw [hidx 0 hb, hdecode] at hrun
    cases hn : pages n with
    | none =>
      rw [hn] at hrun
      injection hrun with hr hmem
      subst hr hmem
      exact Or.inr ⟨rfl, rfl, h⟩
    | some page =>
      rw [hn] at hrun
      injection hrun with hr hmem
      subst hr hmem
      refine Or.inl ⟨rfl, (nomatch ·), ?_⟩
      exact h.setLeaf ht none fun phys perms heq => nomatch heq
  | succ b ih =>
    have hdecode := h.decode_link ht
    unfold Iommu.unmapFrom at hrun
    rw [hidx (b + 1) hb, hdecode] at hrun
    cases hc : tab b (n / 512 ^ (b + 1)) with
    | none =>
      rw [hc] at hrun
      injection hrun with hr hmem
      subst hr hmem
      exact Or.inr ⟨rfl, h.none_of_tab (by omega) hc, h⟩
    | some c =>
      rw [hc] at hrun
      exact ih (by omega) hc hrun

/-! ### The calls -/

/-- The IOVAs of the allocator lie below the width. -/
def IovaAllocator.Within (width : Nat) (a : IovaAllocator) : Prop :=
  a.limit ≤ 2 ^ width ∧ ∀ iova ∈ a.free, iova < 2 ^ width

/-- The system holds its map. -/
structure System.Ok (s : System) : Prop where
  levels : 3 ≤ s.domain.levels ∧ s.domain.levels ≤ 5
  rep : ∃ tab, Rep s.domain s.fa s.mem tab s.pages
  iovas : s.iovas.Within s.domain.width

theorem two_pow_width (d : Domain) : 2 ^ d.width = 4096 * 512 ^ d.levels := by
  unfold Domain.width pageShift indexBits
  rw [Nat.pow_add, Nat.mul_comm d.levels 9, Nat.pow_mul]

/-- Below the width, the root covers the page. -/
theorem prefix_root (hlevels : 0 < d.levels) (hiova : iova < 2 ^ d.width) :
    iova / 4096 / 512 ^ (d.levels - 1 + 1) = 0 := by
  rw [two_pow_width] at hiova
  rw [Nat.sub_add_cancel hlevels]
  exact Nat.div_eq_of_lt (Nat.div_lt_of_lt_mul hiova)

/-- `map`: the page joins the map, or the call fails and the map stays. -/
theorem System.Ok.map (hok : s.Ok) (hiova : iova < 2 ^ s.domain.width) (hphys : phys < 2 ^ 52)
    (hperms : perms &&& slPresent ≠ 0) {r : Except DomainError Unit}
    (hrun : s.map iova phys perms = (r, s')) :
    s'.Ok ∧ s'.domain = s.domain ∧ s'.iovas = s.iovas ∧
      ((r = .ok () ∧ s.pages (iova / 4096) = none ∧
        s'.pages = Function.update s.pages (iova / 4096) (some (phys, perms))) ∨
       (∃ e, r = .error e ∧ s'.pages = s.pages ∧
        (e = .alreadyMapped → s.pages (iova / 4096) ≠ none))) := by
  obtain ⟨hlevels, ⟨tab, hrep⟩, hiovas⟩ := hok
  unfold System.map Domain.map at hrun
  by_cases halign : iova % 2 ^ pageShift ≠ 0 ∨ phys % 2 ^ pageShift ≠ 0
  · rw [if_pos halign] at hrun
    injection hrun with hr hs
    subst hr hs
    exact ⟨⟨hlevels, ⟨tab, hrep⟩, hiovas⟩, rfl, rfl, Or.inr ⟨_, rfl, rfl, (nomatch ·)⟩⟩
  · rw [if_neg halign] at hrun
    rw [not_or, not_not, not_not] at halign
    have hroot : tab (s.domain.levels - 1) (iova / 4096 / 512 ^ (s.domain.levels - 1 + 1)) =
        some s.domain.root := by
      rw [prefix_root (by omega) hiova]
      exact hrep.root
    cases hmap : mapFrom s.domain.fmt iova phys perms (s.domain.levels - 1) s.domain.root s.fa
        s.mem with
    | mk r1 rest =>
      obtain ⟨fa1, mem1⟩ := rest
      rw [hmap] at hrun
      rcases hrep.mapFrom (fun b _ => index_eq iova b) ⟨halign.2, hphys⟩ hperms (by omega) hroot
        hmap with ⟨rfl, hnone, hrep'⟩ | ⟨e, rfl, hwhy, hrep'⟩
      · injection hrun with hr hs
        subst hr hs
        exact ⟨⟨hlevels, hrep', hiovas⟩, rfl, rfl, Or.inl ⟨rfl, hnone, rfl⟩⟩
      · injection hrun with hr hs
        subst hr hs
        refine ⟨⟨hlevels, hrep', hiovas⟩, rfl, rfl, Or.inr ⟨e, rfl, rfl, fun hmapped => ?_⟩⟩
        rcases hwhy with ⟨-, hsome⟩ | ⟨rfl, -⟩
        · exact hsome
        · cases hmapped

/-- `unmap`: the page leaves the map, or the call fails and the map stays. -/
theorem System.Ok.unmap (hok : s.Ok) (hiova : iova < 2 ^ s.domain.width)
    {r : Except DomainError Unit} (hrun : s.unmap iova = (r, s')) :
    s'.Ok ∧ s'.domain = s.domain ∧ s'.iovas = s.iovas ∧
      ((r = .ok () ∧ s.pages (iova / 4096) ≠ none ∧
        s'.pages = Function.update s.pages (iova / 4096) none) ∨
       (∃ e, r = .error e ∧ s'.pages = s.pages ∧
        (e = .notMapped → s.pages (iova / 4096) = none))) := by
  obtain ⟨hlevels, ⟨tab, hrep⟩, hiovas⟩ := hok
  unfold System.unmap Domain.unmap at hrun
  by_cases halign : iova % 2 ^ pageShift ≠ 0
  · rw [if_pos halign] at hrun
    injection hrun with hr hs
    subst hr hs
    exact ⟨⟨hlevels, ⟨tab, hrep⟩, hiovas⟩, rfl, rfl, Or.inr ⟨_, rfl, rfl, (nomatch ·)⟩⟩
  · rw [if_neg halign] at hrun
    have hroot : tab (s.domain.levels - 1) (iova / 4096 / 512 ^ (s.domain.levels - 1 + 1)) =
        some s.domain.root := by
      rw [prefix_root (by omega) hiova]
      exact hrep.root
    cases hunmap : unmapFrom s.domain.fmt s.mem iova (s.domain.levels - 1) s.domain.root with
    | mk r1 mem1 =>
      rw [hunmap] at hrun
      rcases hrep.unmapFrom (fun b _ => index_eq iova b) (by omega) hroot hunmap with
        ⟨rfl, hsome, hrep'⟩ | ⟨rfl, hnone, hrep'⟩
      · injection hrun with hr hs
        subst hr hs
        exact ⟨⟨hlevels, ⟨tab, hrep'⟩, hiovas⟩, rfl, rfl, Or.inl ⟨rfl, hsome, rfl⟩⟩
      · injection hrun with hr hs
        subst hr hs
        exact ⟨⟨hlevels, ⟨tab, hrep'⟩, hiovas⟩, rfl, rfl, Or.inr ⟨_, rfl, rfl, fun _ => hnone⟩⟩

theorem IovaAllocator.Within.alloc {width : Nat} {a : IovaAllocator} (h : a.Within width) :
    a.alloc.2.Within width ∧ ∀ iova, a.alloc.1 = some iova → iova < 2 ^ width := by
  obtain ⟨hlimit, hfree⟩ := h
  unfold IovaAllocator.alloc
  cases hstack : a.free with
  | cons iova rest =>
    rw [hstack] at hfree
    refine ⟨⟨hlimit, fun i hi => hfree i (List.mem_cons_of_mem _ hi)⟩, fun i hi => ?_⟩
    obtain rfl := Option.some.inj hi
    exact hfree _ List.mem_cons_self
  | nil =>
    rw [hstack] at hfree
    dsimp only
    by_cases hlt : a.next < a.limit
    · rw [if_pos hlt]
      refine ⟨⟨hlimit, hfree⟩, fun i hi => ?_⟩
      obtain rfl := Option.some.inj hi
      exact Nat.lt_of_lt_of_le hlt hlimit
    · rw [if_neg hlt]
      exact ⟨⟨hlimit, by rw [hstack]; exact hfree⟩, fun i hi => nomatch hi⟩

theorem IovaAllocator.Within.release {width : Nat} {a : IovaAllocator} (h : a.Within width)
    (hiova : iova < 2 ^ width) : (a.release iova).Within width := by
  unfold IovaAllocator.release
  split
  · refine ⟨h.1, fun i hi => ?_⟩
    rcases List.mem_cons.mp hi with rfl | hi
    · exact hiova
    · exact h.2 i hi
  · exact h

/-- A change of the IOVA allocator. -/
theorem System.Ok.with_iovas {iovas : IovaAllocator} (hok : s.Ok)
    (hiovas : iovas.Within s.domain.width) : System.Ok { s with iovas } :=
  ⟨hok.levels, hok.rep, hiovas⟩

/-- One call. A call that fails leaves the map. -/
theorem System.Ok.step {call : Call} (hok : s.Ok) (hlegal : call.Legal s.domain.width)
    {r : Except DomainError Unit} (hrun : s.step call = (r, s')) :
    s'.Ok ∧ s'.domain = s.domain ∧ (∀ e, r = .error e → s'.pages = s.pages) := by
  cases call with
  | map iova phys perms =>
    obtain ⟨hiova, hphys, hperms⟩ := hlegal
    obtain ⟨hok', hdomain, -, ⟨rfl, -, -⟩ | ⟨e, rfl, hpages, -⟩⟩ :=
      hok.map hiova hphys hperms hrun
    · exact ⟨hok', hdomain, fun e he => nomatch he⟩
    · exact ⟨hok', hdomain, fun _ _ => hpages⟩
  | unmap iova =>
    obtain ⟨hok', hdomain, -, ⟨rfl, -, -⟩ | ⟨e, rfl, hpages, -⟩⟩ := hok.unmap hlegal hrun
    · exact ⟨hok', hdomain, fun e he => nomatch he⟩
    · exact ⟨hok', hdomain, fun _ _ => hpages⟩
  | mapBuffer phys perms =>
    obtain ⟨hphys, hperms⟩ := hlegal
    obtain ⟨hwithin, hgiven⟩ := hok.iovas.alloc
    unfold System.step System.mapBuffer at hrun
    cases halloc : s.iovas.alloc with
    | mk o iovas =>
      rw [halloc] at hwithin hgiven
      cases o with
      | none =>
        dsimp only at hrun
        rw [halloc] at hrun
        injection hrun with hr hs
        subst hr hs
        exact ⟨hok.with_iovas hwithin, rfl, fun _ _ => rfl⟩
      | some iova =>
        have hiova := hgiven iova rfl
        dsimp only at hrun
        rw [halloc] at hrun
        dsimp only at hrun
        cases hmap : System.map { s with iovas } iova phys perms with
        | mk r1 s1 =>
          rw [hmap] at hrun
          obtain ⟨hok', hdomain, hsame, ⟨rfl, -, -⟩ | ⟨e, rfl, hpages, -⟩⟩ :=
            (hok.with_iovas hwithin).map hiova hphys hperms hmap
          · injection hrun with hr hs
            subst hr hs
            exact ⟨hok', hdomain, fun e he => nomatch he⟩
          · injection hrun with hr hs
            subst hr hs
            refine ⟨hok'.with_iovas (hok'.iovas.release ?_), hdomain, fun _ _ => hpages⟩
            rw [hdomain]
            exact hiova
  | unmapBuffer iova =>
    unfold System.step System.unmapBuffer at hrun
    cases hunmap : s.unmap iova with
    | mk r1 s1 =>
      dsimp only at hrun
      rw [hunmap] at hrun
      obtain ⟨hok', hdomain, -, ⟨rfl, -, -⟩ | ⟨e, rfl, hpages, -⟩⟩ := hok.unmap hlegal hunmap
      · injection hrun with hr hs
        subst hr hs
        refine ⟨hok'.with_iovas (hok'.iovas.release ?_), hdomain, fun e he => nomatch he⟩
        rw [hdomain]
        exact hlegal
      · injection hrun with hr hs
        subst hr hs
        exact ⟨hok', hdomain, fun _ _ => hpages⟩

/-- Every sequence of calls. -/
theorem System.Ok.run (hok : s.Ok) {calls : List Call}
    (hlegal : ∀ call ∈ calls, call.Legal s.domain.width) :
    (s.run calls).Ok ∧ (s.run calls).domain = s.domain := by
  induction calls generalizing s with
  | nil => exact ⟨hok, rfl⟩
  | cons call rest ih =>
    obtain ⟨hok', hdomain, -⟩ := hok.step (hlegal call List.mem_cons_self) rfl
    have hrest := ih hok' fun c hc => by
      rw [hdomain]
      exact hlegal c (List.mem_cons_of_mem _ hc)
    exact ⟨hrest.1, hrest.2.trans hdomain⟩

/-! ### Translations -/

/-- The page with the offset. -/
theorem or_offset (hphys : PageAddr phys) (iova : Nat) :
    phys ||| (iova &&& (2 ^ pageShift - 1)) = phys + iova % 2 ^ pageShift := by
  have hpage : phys = 2 ^ 12 * (phys / 2 ^ 12) := by
    have hmod := hphys.1
    omega
  have hlow : iova % 2 ^ pageShift < 2 ^ 12 := Nat.mod_lt _ (by decide)
  rw [Nat.and_two_pow_sub_one_eq_mod]
  conv_lhs => rw [hpage]
  rw [← Nat.two_pow_add_eq_or_of_lt hlow, ← hpage]

/-- `translate` of an address that reaches page `n`. -/
theorem System.Ok.translate_page (hok : s.Ok)
    (hidx : ∀ b < s.domain.levels, index iova b = n / 512 ^ b % 512)
    (hn : n / 512 ^ s.domain.levels = 0) :
    s.domain.translate s.mem iova = (s.pages n).map fun page => page.1 + iova % 2 ^ pageShift := by
  obtain ⟨hlevels, ⟨tab, hrep⟩, -⟩ := hok
  have hroot : tab (s.domain.levels - 1) (n / 512 ^ (s.domain.levels - 1 + 1)) =
      some s.domain.root := by
    rw [Nat.sub_add_cancel (by omega), hn]
    exact hrep.root
  unfold Domain.translate
  rw [hrep.translateFrom hidx (by omega) hroot]
  cases hpage : s.pages n with
  | none => rfl
  | some page =>
    obtain ⟨hphys, -⟩ := hrep.valid (show s.pages n = some (page.1, page.2) from hpage)
    exact congrArg some (or_offset hphys iova)

/-- The hardware walk from the root. -/
theorem System.Ok.hwWalk_page (hok : s.Ok) (hfmt : s.domain.fmt = .amdVi)
    (hiova : iova < 2 ^ s.domain.width) :
    hwWalk s.mem iova s.domain.levels s.domain.levels s.domain.root true true =
      (s.pages (iova / 4096)).map fun page =>
        (page.1 + iova % 2 ^ pageShift, page.2.testBit 0, page.2.testBit 1) := by
  obtain ⟨hlevels, ⟨tab, hrep⟩, -⟩ := hok
  have hroot : tab (s.domain.levels - 1) (iova / 4096 / 512 ^ (s.domain.levels - 1 + 1)) =
      some s.domain.root := by
    rw [prefix_root (by omega) hiova]
    exact hrep.root
  have hwalk := hrep.hwWalk hfmt hlevels.2 (fun b _ => index_eq iova b) (by omega) hroot true true
  rw [Nat.sub_add_cancel (by omega)] at hwalk
  rw [hwalk]
  cases hpage : s.pages (iova / 4096) with
  | none => rfl
  | some page =>
    obtain ⟨hphys, -⟩ := hrep.valid (show s.pages _ = some (page.1, page.2) from hpage)
    rw [Option.map_some, Option.map_some, or_offset hphys, Bool.true_and, Bool.true_and]

/-! ### The refinement -/

/-- A domain answers as its map does. The address bits above the width play no part. -/
structure System.Refines (s : System) : Prop where
  translate : ∀ iova < 2 ^ s.domain.width,
    s.domain.translate s.mem iova = s.pages.lookup iova
  beyond : ∀ iova, s.domain.translate s.mem iova =
    s.domain.translate s.mem (iova % 2 ^ s.domain.width)
  hardware : s.domain.fmt = .amdVi → ∀ iova < 2 ^ s.domain.width,
    hwWalk s.mem iova s.domain.levels s.domain.levels s.domain.root true true =
      (s.pages (iova / 2 ^ pageShift)).map fun page =>
        (page.1 + iova % 2 ^ pageShift, page.2.testBit 0, page.2.testBit 1)

theorem System.Ok.refines (hok : s.Ok) : s.Refines := by
  have hbelow : ∀ iova < 2 ^ s.domain.width,
      s.domain.translate s.mem iova = s.pages.lookup iova := by
    intro iova hiova
    have hlevels := hok.levels
    have hn := prefix_root (by omega) hiova
    rw [Nat.sub_add_cancel (by omega)] at hn
    exact hok.translate_page (fun b _ => index_eq iova b) hn
  refine ⟨hbelow, fun iova => ?_, fun hfmt iova hiova => hok.hwWalk_page hfmt hiova⟩
  -- Both sides reach the page of the low bits.
  have hpos : 0 < 2 ^ s.domain.width := Nat.two_pow_pos _
  have hpage : iova % 2 ^ s.domain.width / 4096 = iova / 4096 % 512 ^ s.domain.levels := by
    rw [two_pow_width, Nat.mod_mul_right_div_self]
  have hoffset : iova % 2 ^ s.domain.width % 2 ^ pageShift = iova % 2 ^ pageShift := by
    rw [two_pow_width]
    exact Nat.mod_mul_right_mod iova 4096 _
  rw [hbelow _ (Nat.mod_lt _ hpos), hok.translate_page (fun b hb => index_mod hb iova)
    (Nat.div_eq_of_lt (Nat.mod_lt _ (Nat.pow_pos (by decide))))]
  unfold PageMap.lookup
  rw [hoffset, show iova % 2 ^ s.domain.width / 2 ^ pageShift = _ from hpage]

/-- A call that fails changes no translation. -/
theorem System.Ok.unchanged (hok : s.Ok) {call : Call} (hlegal : call.Legal s.domain.width)
    {e : DomainError} (hrun : s.step call = (.error e, s')) (iova : Nat) :
    s'.domain.translate s'.mem iova = s.domain.translate s.mem iova := by
  obtain ⟨hok', hdomain, hfail⟩ := hok.step hlegal hrun
  have hlt : iova % 2 ^ s.domain.width < 2 ^ s.domain.width := Nat.mod_lt _ (Nat.two_pow_pos _)
  have hafter := hok'.refines.translate (iova % 2 ^ s.domain.width) (by rw [hdomain]; exact hlt)
  have hbefore := hok.refines.translate (iova % 2 ^ s.domain.width) hlt
  rw [hok'.refines.beyond, hok.refines.beyond, hbefore, ← hfail e rfl, ← hafter, hdomain]

/-- A new domain, with a window of IOVAs and no pages. -/
def System.start (d : Domain) (mem : Tables) (fa : FrameAlloc) (iovas : IovaAllocator) : System :=
  ⟨d, mem, fa, iovas, fun _ => none⟩

/-- A cleared root alone represents the empty map. -/
theorem rep_new {root levels : Nat} (mem : Tables) (fmt : PteFmt) (hpage : PageAddr root)
    (hmark : 0 < fa.marked root) (hmemory : fa.frames * frameSize ≤ 2 ^ 52)
    (hlevels : 3 ≤ levels) :
    Rep ⟨root, levels, fmt⟩ fa (mem.clear root)
      (withTable (fun _ _ => none) (levels - 1) 0 root) (fun _ => none) := by
  have hclear : ∀ i, mem.clear root root i = 0 := fun i => if_pos rfl
  have honly : ∀ {b p t}, withTable (fun _ _ => none) (levels - 1) 0 root b p = some t →
      b = levels - 1 ∧ p = 0 ∧ t = root := by
    intro b p t ht
    rcases withTable_cases ht with hnew | ⟨-, hold⟩
    · exact hnew
    · cases hold
  refine ⟨withTable_self _ _ _ _, ?_, ?_, ?_, (nomatch ·), ?_, ?_, (nomatch ·), hmemory⟩
  · intro b p b' p' t ht ht'
    obtain ⟨rfl, rfl, -⟩ := honly ht
    obtain ⟨rfl, rfl, -⟩ := honly ht'
    exact ⟨rfl, rfl⟩
  · intro b p t ht i hi
    obtain ⟨hb, rfl, rfl⟩ := honly ht
    rw [hclear, withTable_other (fun hand => absurd hand.1 (by omega))]
    rfl
  · intro p t ht i hi
    obtain ⟨-, -, rfl⟩ := honly ht
    exact hclear i
  · intro b p t ht hb
    obtain ⟨rfl, -, -⟩ := honly ht
    exact absurd hb (by show ¬ _ < levels; omega)
  · intro b p t ht
    obtain ⟨-, -, rfl⟩ := honly ht
    exact ⟨hpage, hmark⟩

/-- A new domain holds the empty map. -/
theorem ok_start {fa0 : FrameAlloc} {mem0 : Tables} {addrWidthBits base count : Nat} {fmt : PteFmt}
    (hnew : Domain.new fa0 mem0 addrWidthBits fmt = .ok (d, fa, mem))
    (hmemory : fa0.frames * frameSize ≤ 2 ^ 52)
    (hwindow : base + count * 2 ^ pageShift ≤ 2 ^ addrWidthBits) :
    (System.start d mem fa (.new base count)).Ok ∧ d.width = addrWidthBits ∧ d.fmt = fmt := by
  unfold Domain.new at hnew
  split at hnew
  · cases hnew
  · rename_i hshift
    dsimp only at hnew
    split at hnew
    · cases hnew
    · rename_i hspan
      rw [not_or, not_not] at hspan
      split at hnew
      · cases hnew
      · rename_i hlevels
        rw [not_not] at hlevels
        unfold allocTable at hnew
        cases halloc : fa0.alloc with
        | error e =>
          rw [halloc] at hnew
          cases hnew
        | ok q =>
          obtain ⟨root, fa1⟩ := q
          rw [halloc] at hnew
          injection hnew with hnew
          injection hnew with hd hrest
          injection hrest with hfa hmem
          subst hd hfa hmem
          obtain ⟨hpage, -, hmark, hframes, -⟩ := alloc_frame halloc hmemory
          have hwidth : pageShift + (addrWidthBits - pageShift) / indexBits * indexBits =
              addrWidthBits := by
            unfold pageShift indexBits at *
            omega
          have hrep := rep_new mem0 fmt hpage hmark (by rw [hframes]; exact hmemory)
            hlevels.1
          refine ⟨⟨hlevels, ⟨_, hrep⟩, ?_, (nomatch ·, ·)⟩, hwidth, rfl⟩
          show base + count * 2 ^ pageShift ≤
            2 ^ (pageShift + (addrWidthBits - pageShift) / indexBits * indexBits)
          rw [hwidth]
          exact hwindow

end Plinth.Iommu
