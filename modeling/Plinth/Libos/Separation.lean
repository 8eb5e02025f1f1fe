import Mathlib.Data.List.Perm.Basic
import Plinth.Libos.Allocators

/-!
# `Plinth.Libos.Separation`: live blocks do not overlap

`Heap.Separated` is what a program expects of its blocks: they are aligned, they lie in mapped
memory, and no two of them share a byte, nor does one with the free list.

The invariant `Heap.Ok` is about the spans that are handed out or kept (`Heap.owned`): they lie
below `next` and apart. A call whose request, rounded up, still fits behind `next` in 64 bits keeps
it (`Heap.Ok.step`). Any other request gets a block that is not there (`not_separated_of_wrap`).

`separated_iff` puts the two together for every run.
-/

set_option autoImplicit false

namespace Plinth.Alloc

variable {r r' : Region} {pages pages' : List Nat} {size limit addr : Nat} {answers : List Answer}
  {s t x : Span} {l l' : List Span} {spans spans' : List (Option Span)}

/-! ### Spans -/

/-- The byte `b` belongs to the span. -/
def Span.Has (s : Span) (b : Nat) : Prop := s.addr ≤ b ∧ b < s.addr + s.len

/-- Two spans share no byte. -/
def Apart (s t : Span) : Prop := ∀ b, s.Has b → ¬ t.Has b

theorem Apart.symm (h : Apart s t) : Apart t s := fun b ht hs => h b hs ht

/-- The span lies in another. -/
def Within (s t : Span) : Prop := t.addr ≤ s.addr ∧ s.addr + s.len ≤ t.addr + t.len

theorem Apart.within (h : Apart s t) (hin : Within x s) : Apart x t := by
  intro b hx ht
  obtain ⟨hlow, hhigh⟩ := hx
  exact h b ⟨Nat.le_trans hin.1 hlow, Nat.lt_of_lt_of_le hhigh hin.2⟩ ht

/-- A span of whole granules between `mapBase` and `limit`. -/
def Placed (limit : Nat) (s : Span) : Prop :=
  mapBase ≤ s.addr ∧ s.addr + s.len ≤ limit ∧ s.addr % 8 = 0 ∧ s.len % 8 = 0

/-- Spans below `limit` that lie apart. -/
def Packed (limit : Nat) (l : List Span) : Prop := (∀ s ∈ l, Placed limit s) ∧ l.Pairwise Apart

theorem Packed.perm (h : Packed limit l) (hp : l.Perm l') : Packed limit l' :=
  ⟨fun s hs => h.1 s (hp.mem_iff.mpr hs), (hp.pairwise_iff Apart.symm).mp h.2⟩

theorem Packed.tail (h : Packed limit (s :: l)) : Packed limit l :=
  ⟨fun t ht => h.1 t (List.mem_cons_of_mem _ ht), (List.pairwise_cons.mp h.2).2⟩

/-- One more span, at the end. -/
theorem Packed.fresh (h : Packed limit l) (hbase : mapBase ≤ limit) (hlimit : limit % 8 = 0)
    (hsize : size % 8 = 0) : Packed (limit + size) (⟨limit, size⟩ :: l) := by
  refine ⟨?_, List.pairwise_cons.mpr ⟨?_, h.2⟩⟩
  · intro s hs
    rcases List.mem_cons.mp hs with rfl | hs
    · exact ⟨hbase, Nat.le_refl _, hlimit, hsize⟩
    · obtain ⟨hlow, hhigh, haddr, hlen⟩ := h.1 s hs
      exact ⟨hlow, by omega, haddr, hlen⟩
  · intro s hs b hnew hold
    obtain ⟨-, hhigh, -⟩ := h.1 s hs
    have hlow : limit ≤ b := hnew.1
    have hb : b < s.addr + s.len := hold.2
    omega

/-- A span becomes two of its parts. -/
theorem Packed.split (h : Packed limit (x :: l)) (hs : Placed limit s) (ht : Placed limit t)
    (hsx : Within s x) (htx : Within t x) (hst : Apart s t) : Packed limit (s :: t :: l) := by
  obtain ⟨hplaced, hapart⟩ := h
  obtain ⟨hx, hl⟩ := List.pairwise_cons.mp hapart
  refine ⟨?_, List.pairwise_cons.mpr ⟨?_, List.pairwise_cons.mpr ⟨?_, hl⟩⟩⟩
  · intro y hy
    rcases List.mem_cons.mp hy with rfl | hy
    · exact hs
    · rcases List.mem_cons.mp hy with rfl | hy
      · exact ht
      · exact hplaced y (List.mem_cons_of_mem _ hy)
  · intro y hy
    rcases List.mem_cons.mp hy with rfl | hy
    · exact hst
    · exact (hx y hy).within hsx
  · intro y hy
    exact (hx y hy).within htx

/-! ### The region -/

/-- The mapped pages are those from `mapBase` to `mappedEnd`. -/
def Mapped (r : Region) (pages : List Nat) : Prop :=
  mapBase ≤ r.mappedEnd ∧ r.mappedEnd ≤ mapEnd ∧ r.mappedEnd % pageSize = 0 ∧
    ∀ p, p ∈ pages ↔ p % pageSize = 0 ∧ mapBase ≤ p ∧ p < r.mappedEnd

/-- One page more. -/
theorem Mapped.push (h : Mapped r pages) (haccept : acceptsVa r.mappedEnd = true) :
    (r.mappedEnd + pageSize) % 2 ^ 64 = r.mappedEnd + pageSize ∧
      Mapped { r with mappedEnd := r.mappedEnd + pageSize, frames := r.frames + 1 }
        (r.mappedEnd :: pages) := by
  obtain ⟨hlow, hhigh, hpage, hpages⟩ := h
  unfold acceptsVa at haccept
  rw [Bool.and_eq_true, Bool.and_eq_true, decide_eq_true_eq, decide_eq_true_eq,
    decide_eq_true_eq] at haccept
  obtain ⟨-, hin⟩ := haccept
  unfold mapBase mapEnd pageSize at *
  refine ⟨Nat.mod_eq_of_lt (by omega), by show 0x10000000 ≤ r.mappedEnd + 4096; omega,
    by show r.mappedEnd + 4096 ≤ 0x20000000; omega,
    by show (r.mappedEnd + 4096) % 4096 = 0; omega, ?_⟩
  intro p
  show p ∈ r.mappedEnd :: pages ↔ p % 4096 = 0 ∧ _ ≤ p ∧ p < r.mappedEnd + 4096
  rw [List.mem_cons, hpages p]
  constructor
  · rintro (rfl | ⟨hp, hpl, hph⟩)
    · exact ⟨hpage, hlow, by omega⟩
    · exact ⟨hp, hpl, by omega⟩
  · rintro ⟨hp, hpl, hph⟩
    by_cases heq : p = r.mappedEnd
    · exact Or.inl heq
    · exact Or.inr ⟨hp, hpl, by omega⟩

/-- The growth loop. It maps the pages from `mappedEnd` on, and on success it reaches `limit`. -/
theorem grow_spec {ok : Bool} (h : Mapped r pages)
    (hgrow : Region.grow limit answers r pages = (ok, r', pages')) :
    Mapped r' pages' ∧ r'.next = r.next ∧ r.mappedEnd ≤ r'.mappedEnd ∧
      (ok = true → limit ≤ r'.mappedEnd) := by
  induction answers generalizing r pages with
  | nil =>
    obtain ⟨rfl, rfl, rfl⟩ : _ ∧ _ ∧ _ := by
      have heq := Prod.mk.inj hgrow
      exact ⟨heq.1, (Prod.mk.inj heq.2).1, (Prod.mk.inj heq.2).2⟩
    refine ⟨h, rfl, Nat.le_refl _, fun hok => ?_⟩
    rw [Bool.not_eq_true', decide_eq_false_iff_not] at hok
    exact Nat.le_of_not_lt hok
  | cons a rest ih =>
    unfold Region.grow at hgrow
    by_cases hlt : r.mappedEnd < limit
    · rw [if_pos hlt] at hgrow
      have hrefuse : (false, r, pages) = (ok, r', pages') → Mapped r' pages' ∧ r'.next = r.next ∧
          r.mappedEnd ≤ r'.mappedEnd ∧ (ok = true → limit ≤ r'.mappedEnd) := by
        intro heq
        injection heq with hok heq
        injection heq with hr hpages
        subst hr hpages hok
        exact ⟨h, rfl, Nat.le_refl _, fun hok => nomatch hok⟩
      cases a with
      | noFrame => exact hrefuse hgrow
      | noMap => exact hrefuse hgrow
      | granted =>
        dsimp only at hgrow
        by_cases haccept : acceptsVa r.mappedEnd = true
        · obtain ⟨hword, hmapped⟩ := h.push haccept
          rw [if_pos haccept, hword] at hgrow
          obtain ⟨hmapped', hnext, hmore, hend⟩ := ih hmapped hgrow
          have hmore : r.mappedEnd + pageSize ≤ r'.mappedEnd := hmore
          exact ⟨hmapped', hnext, by omega, hend⟩
        · rw [if_neg haccept] at hgrow
          exact hrefuse hgrow
    · rw [if_neg hlt] at hgrow
      obtain ⟨rfl, heq⟩ := Prod.mk.inj hgrow
      obtain ⟨rfl, rfl⟩ := Prod.mk.inj heq
      exact ⟨h, rfl, Nat.le_refl _, fun _ => Nat.le_of_not_lt hlt⟩

/-- The region with its mapped pages. -/
structure Region.Ok (r : Region) (pages : List Nat) : Prop where
  base : mapBase ≤ r.next
  reached : r.next ≤ r.mappedEnd
  aligned : r.next % 8 = 0
  mapped : Mapped r pages

/-- `carve` of a request that fits behind `next`: a failure leaves `next`, and a success moves it
behind the block. -/
theorem carve_spec (h : r.Ok pages) (hsize : size % 8 = 0) (hfits : r.next + size < 2 ^ 64)
    (hcarve : r.carve pages size answers = (addr, r', pages')) :
    r'.Ok pages' ∧ (addr = 0 ∧ r'.next = r.next ∨ addr = r.next ∧ r'.next = r.next + size) := by
  unfold Region.carve at hcarve
  rw [Nat.mod_eq_of_lt hfits] at hcarve
  cases hgrow : Region.grow (r.next + size) answers r pages with
  | mk ok rest =>
    obtain ⟨r1, pages1⟩ := rest
    dsimp only at hcarve
    rw [hgrow] at hcarve
    obtain ⟨hmapped, hnext, hmore, hend⟩ := grow_spec h.mapped hgrow
    have hreached := h.reached
    cases ok with
    | false =>
      obtain ⟨rfl, heq⟩ := Prod.mk.inj hcarve
      obtain ⟨rfl, rfl⟩ := Prod.mk.inj heq
      exact ⟨⟨by rw [hnext]; exact h.base, by omega, by rw [hnext]; exact h.aligned, hmapped⟩,
        Or.inl ⟨rfl, hnext⟩⟩
    | true =>
      obtain ⟨rfl, heq⟩ := Prod.mk.inj hcarve
      obtain ⟨rfl, rfl⟩ := Prod.mk.inj heq
      have hbase := h.base
      have haligned := h.aligned
      refine ⟨⟨?_, hend rfl, ?_, hmapped⟩, Or.inr ⟨rfl, rfl⟩⟩
      · show mapBase ≤ r.next + size
        omega
      · show (r.next + size) % 8 = 0
        omega

/-- `carve` when the end that it computes is mapped already: the loop does not run. -/
theorem carve_mapped (pages : List Nat) (answers : List Answer)
    (hle : (r.next + size) % 2 ^ 64 ≤ r.mappedEnd) :
    (r.carve pages size answers).1 = r.next ∧ (r.carve pages size answers).2.2 = pages := by
  have hlow : ¬ r.mappedEnd < (r.next + size) % 2 ^ 64 := by omega
  have hgrow : Region.grow ((r.next + size) % 2 ^ 64) answers r pages = (true, r, pages) := by
    cases answers with
    | nil =>
      show (!decide (r.mappedEnd < _), r, pages) = _
      rw [decide_eq_false hlow]
      rfl
    | cons a rest =>
      unfold Region.grow
      rw [if_neg hlow]
  unfold Region.carve
  dsimp only
  rw [hgrow]
  exact ⟨rfl, rfl⟩

/-! ### The free list -/

/-- The span that is taken, and what stays of it. -/
theorem takeSpan_spec (h : takeSpan size spans = some (addr, spans')) :
    ∃ l₁ l₂ len, size ≤ len ∧ spans.filterMap id = l₁ ++ ⟨addr, len⟩ :: l₂ ∧
      spans'.filterMap id = l₁ ++ ((if align ≤ len - size then
        [⟨(addr + size) % 2 ^ 64, len - size⟩] else []) ++ l₂) := by
  induction spans generalizing spans' with
  | nil => cases h
  | cons o rest ih =>
    -- A place that is passed over stays in front.
    have hpass : ∀ {rest'}, takeSpan size rest = some (addr, rest') → spans' = o :: rest' →
        ∃ l₁ l₂ len, size ≤ len ∧ (o :: rest).filterMap id = l₁ ++ ⟨addr, len⟩ :: l₂ ∧
          spans'.filterMap id = l₁ ++ ((if align ≤ len - size then
            [⟨(addr + size) % 2 ^ 64, len - size⟩] else []) ++ l₂) := by
      intro rest' hrest hspans
      obtain ⟨l₁, l₂, len, hlen, hbefore, hafter⟩ := ih hrest
      subst hspans
      cases o with
      | none => exact ⟨l₁, l₂, len, hlen, hbefore, hafter⟩
      | some s =>
        refine ⟨s :: l₁, l₂, len, hlen, ?_, ?_⟩
        · show s :: rest.filterMap id = _
          rw [hbefore, List.cons_append]
        · show s :: rest'.filterMap id = _
          rw [hafter, List.cons_append]
    cases o with
    | none =>
      obtain ⟨q, hq, heq⟩ := Option.map_eq_some_iff.mp h
      obtain ⟨rfl, hspans⟩ := Prod.mk.inj heq
      exact hpass hq hspans.symm
    | some s =>
      unfold takeSpan at h
      by_cases hfit : size ≤ s.len
      · rw [if_pos hfit] at h
        obtain ⟨rfl, rfl⟩ := Prod.mk.inj (Option.some.inj h)
        refine ⟨[], rest.filterMap id, s.len, hfit, rfl, ?_⟩
        by_cases hleft : align ≤ s.len - size
        · rw [if_pos hleft, if_pos hleft]
          rfl
        · rw [if_neg hleft, if_neg hleft]
          rfl
      · rw [if_neg hfit] at h
        obtain ⟨q, hq, heq⟩ := Option.map_eq_some_iff.mp h
        obtain ⟨rfl, hspans⟩ := Prod.mk.inj heq
        exact hpass hq hspans.symm

/-- The list with the span, or the same list. -/
theorem putSpan_spec (s : Span) (spans : List (Option Span)) :
    ((putSpan s spans).filterMap id).Perm (s :: spans.filterMap id) ∨
      (putSpan s spans).filterMap id = spans.filterMap id := by
  induction spans with
  | nil => exact Or.inr rfl
  | cons o rest ih =>
    cases o with
    | none => exact Or.inl (List.Perm.refl _)
    | some x =>
      show (x :: (putSpan s rest).filterMap id).Perm (s :: x :: rest.filterMap id) ∨
        x :: (putSpan s rest).filterMap id = x :: rest.filterMap id
      rcases ih with hput | hsame
      · exact Or.inl ((hput.cons x).trans (List.Perm.swap s x _))
      · exact Or.inr (by rw [hsame])

/-- A span of the list becomes a block and a rest. -/
theorem Packed.take (hplaced : Packed limit (l ++ spans.filterMap id)) (hlimit : limit ≤ mapEnd)
    (hsize : size % 8 = 0) (h : takeSpan size spans = some (addr, spans')) :
    Packed limit (⟨addr, size⟩ :: (l ++ spans'.filterMap id)) := by
  obtain ⟨l₁, l₂, len, hlen, hbefore, hafter⟩ := takeSpan_spec h
  have hend : limit ≤ 0x20000000 := hlimit
  rw [hbefore] at hplaced
  have hfirst : Packed limit (⟨addr, len⟩ :: (l ++ (l₁ ++ l₂))) := by
    refine hplaced.perm ?_
    rw [← List.append_assoc, ← List.append_assoc]
    exact List.perm_middle
  obtain ⟨hlow, hhigh, haddr, hmod⟩ := hfirst.1 ⟨addr, len⟩ List.mem_cons_self
  have hhigh : addr + len ≤ limit := hhigh
  have haddr : addr % 8 = 0 := haddr
  have hmod : len % 8 = 0 := hmod
  have hblock : Placed limit ⟨addr, size⟩ :=
    ⟨hlow, by show addr + size ≤ limit; omega, haddr, hsize⟩
  have hinside : Within ⟨addr, size⟩ ⟨addr, len⟩ :=
    ⟨Nat.le_refl _, by show addr + size ≤ addr + len; omega⟩
  rw [hafter]
  by_cases hleft : align ≤ len - size
  · have hword : (addr + size) % 2 ^ 64 = addr + size := Nat.mod_eq_of_lt (by omega)
    have hrest : Placed limit ⟨addr + size, len - size⟩ := by
      have hbase : mapBase ≤ addr := hlow
      refine ⟨by show mapBase ≤ addr + size; omega, ?_, ?_, ?_⟩
      · show addr + size + (len - size) ≤ limit
        omega
      · show (addr + size) % 8 = 0
        omega
      · show (len - size) % 8 = 0
        omega
    rw [if_pos hleft, hword]
    refine (hfirst.split hblock hrest hinside ⟨?_, ?_⟩ ?_).perm (List.Perm.cons _ ?_)
    · show addr ≤ addr + size
      omega
    · show addr + size + (len - size) ≤ addr + len
      omega
    · intro b hb hb'
      have hb : b < addr + size := hb.2
      have hb' : addr + size ≤ b := hb'.1
      omega
    · rw [← List.append_assoc, ← List.append_assoc]
      exact List.perm_middle.symm
  · rw [if_neg hleft, List.nil_append]
    refine ⟨?_, List.pairwise_cons.mpr ⟨?_, hfirst.tail.2⟩⟩
    · intro s hs
      rcases List.mem_cons.mp hs with rfl | hs
      · exact hblock
      · exact hfirst.tail.1 s hs
    · intro s hs
      exact ((List.pairwise_cons.mp hfirst.2).1 s hs).within hinside

/-! ### The statement -/

/-- The blocks of the program are aligned and mapped, and lie apart from each other and from the
free list. A block without bytes has none to share. -/
structure Heap.Separated (h : Heap) : Prop where
  aligned : ∀ b ∈ h.live, 0 < b.len → b.addr % 8 = 0
  mapped : ∀ b ∈ h.live, ∀ x, b.Has x → x / pageSize * pageSize ∈ h.pages
  apart : h.live.Pairwise Apart
  unlisted : ∀ b ∈ h.live, ∀ s ∈ h.allocator.spans, Apart b s

/-- The request, rounded up without wrapping, fits behind `next` in 64 bits. -/
def Heap.Fits (h : Heap) : Action → Prop
  | .alloc size _ => h.allocator.region.next + (size.toNat + 7) / 8 * 8 < 2 ^ 64
  | .free _ => True

instance (h : Heap) (action : Action) : Decidable (h.Fits action) :=
  match action with
  | .alloc size _ =>
    inferInstanceAs (Decidable (h.allocator.region.next + (size.toNat + 7) / 8 * 8 < 2 ^ 64))
  | .free _ => inferInstanceAs (Decidable True)

/-! ### The invariant -/

/-- A block with its rounded size. -/
def rounded (b : Span) : Span := ⟨b.addr, roundUp b.len⟩

/-- What is handed out or kept. -/
def Heap.owned (h : Heap) : List Span := h.live.map rounded ++ h.allocator.spans

/-- The invariant. -/
structure Heap.Ok (h : Heap) : Prop where
  region : h.allocator.region.Ok h.pages
  sizes : ∀ b ∈ h.live, b.len ≤ roundUp b.len
  packed : Packed h.allocator.region.next h.owned

variable {h : Heap} {a a' : Allocator}

theorem roundUp_mod (size : Nat) : roundUp size % 8 = 0 := by
  unfold roundUp
  omega

theorem within_rounded {b : Span} (hsize : b.len ≤ roundUp b.len) : Within b (rounded b) :=
  ⟨Nat.le_refl _, Nat.add_le_add_left hsize _⟩

/-- The invariant gives the statement. -/
theorem Heap.Ok.separated (hok : h.Ok) : h.Separated := by
  obtain ⟨hregion, hsizes, hplaced, hapart⟩ := hok
  obtain ⟨hlive, -, hcross⟩ := List.pairwise_append.mp hapart
  refine ⟨?_, ?_, ?_, ?_⟩
  · intro b hb _
    exact (hplaced (rounded b) (List.mem_append_left _ (List.mem_map_of_mem hb))).2.2.1
  · intro b hb x hx
    obtain ⟨hlow, hhigh, -⟩ := hplaced (rounded b) (List.mem_append_left _ (List.mem_map_of_mem hb))
    obtain ⟨-, -, -, hpages⟩ := hregion.mapped
    have hlow : mapBase ≤ b.addr := hlow
    have hhigh : b.addr + roundUp b.len ≤ h.allocator.region.next := hhigh
    have hsize := hsizes b hb
    have hreached := hregion.reached
    obtain ⟨hxl, hxh⟩ := hx
    have hend : x < h.allocator.region.mappedEnd := by omega
    rw [hpages]
    unfold mapBase pageSize at *
    exact ⟨by omega, by omega, by omega⟩
  · refine (List.pairwise_map.mp hlive).imp_of_mem fun {b c} hb hc hbc => ?_
    exact ((hbc.within (within_rounded (hsizes b hb))).symm.within
      (within_rounded (hsizes c hc))).symm
  · intro b hb s hs
    exact (hcross _ (List.mem_map_of_mem hb) s hs).within (within_rounded (hsizes b hb))

/-- What a request does that fits: it fails and keeps the spans, or the block joins them. -/
theorem alloc_spec {l : List Span} {size : Nat} (hregion : a.region.Ok pages)
    (hpacked : Packed a.region.next (l ++ a.spans)) (hfits : a.region.next + roundUp size < 2 ^ 64)
    (h : a.alloc pages size answers = (addr, a', pages')) :
    a'.region.Ok pages' ∧ (addr = 0 ∧ Packed a'.region.next (l ++ a'.spans) ∨
      addr ≠ 0 ∧ Packed a'.region.next (⟨addr, roundUp size⟩ :: (l ++ a'.spans))) := by
  have hbase := hregion.base
  have hpos : 0 < mapBase := by decide
  cases a with
  | bump r =>
    unfold Allocator.alloc at h
    cases hcarve : r.carve pages (roundUp size) answers with
    | mk addr1 rest =>
      obtain ⟨r1, pages1⟩ := rest
      dsimp only at h
      rw [hcarve] at h
      injection h with haddr h
      injection h with ha hpages
      subst haddr ha hpages
      obtain ⟨hok, ⟨haddr, hnext⟩ | ⟨haddr, hnext⟩⟩ :=
        carve_spec hregion (roundUp_mod size) hfits hcarve
      · refine ⟨hok, Or.inl ⟨haddr, ?_⟩⟩
        show Packed r1.next (l ++ [])
        rw [hnext]
        exact hpacked
      · refine ⟨hok, Or.inr ⟨?_, ?_⟩⟩
        · have hbase : mapBase ≤ r.next := hbase
          omega
        · show Packed r1.next (_ :: (l ++ []))
          rw [hnext, haddr]
          exact hpacked.fresh hbase hregion.aligned (roundUp_mod size)
  | freeList r spans =>
    unfold Allocator.alloc at h
    cases htake : takeSpan (roundUp size) spans with
    | some q =>
      obtain ⟨addr1, spans1⟩ := q
      dsimp only at h
      rw [htake] at h
      injection h with haddr h
      injection h with ha hpages
      subst haddr ha hpages
      have htaken : Packed r.next (⟨addr1, roundUp size⟩ :: (l ++ spans1.filterMap id)) :=
        Packed.take hpacked (Nat.le_trans hregion.reached hregion.mapped.2.1) (roundUp_mod size)
          htake
      have hlow : mapBase ≤ addr1 := (htaken.1 _ List.mem_cons_self).1
      exact ⟨hregion, Or.inr ⟨by omega, htaken⟩⟩
    | none =>
      cases hcarve : r.carve pages (roundUp size) answers with
      | mk addr1 rest =>
        obtain ⟨r1, pages1⟩ := rest
        dsimp only at h
        rw [htake] at h
        dsimp only at h
        rw [hcarve] at h
        injection h with haddr h
        injection h with ha hpages
        subst haddr ha hpages
        obtain ⟨hok, ⟨haddr, hnext⟩ | ⟨haddr, hnext⟩⟩ :=
          carve_spec hregion (roundUp_mod size) hfits hcarve
        · refine ⟨hok, Or.inl ⟨haddr, ?_⟩⟩
          show Packed r1.next (l ++ spans.filterMap id)
          rw [hnext]
          exact hpacked
        · refine ⟨hok, Or.inr ⟨?_, ?_⟩⟩
          · have hbase : mapBase ≤ r.next := hbase
            omega
          · show Packed r1.next (_ :: (l ++ spans.filterMap id))
            rw [hnext, haddr]
            exact hpacked.fresh hbase hregion.aligned (roundUp_mod size)

/-- What `free` does: the span joins the free list, or it is dropped. -/
theorem free_spec {l : List Span} {size : Nat}
    (hpacked : Packed a.region.next (⟨addr, roundUp size⟩ :: (l ++ a.spans))) :
    (a.free addr size).region = a.region ∧
      Packed a.region.next (l ++ (a.free addr size).spans) := by
  cases a with
  | bump r => exact ⟨rfl, hpacked.tail⟩
  | freeList r spans =>
    refine ⟨rfl, ?_⟩
    show Packed r.next (l ++ (putSpan ⟨addr, roundUp size⟩ spans).filterMap id)
    rcases putSpan_spec ⟨addr, roundUp size⟩ spans with hput | hsame
    · refine hpacked.perm ?_
      exact List.perm_middle.symm.trans (List.Perm.append_left l hput.symm)
    · rw [hsame]
      exact hpacked.tail

/-- A call that fits keeps the invariant. -/
theorem Heap.Ok.step (hok : h.Ok) {action : Action} (hfits : h.Fits action) :
    (h.step action).Ok := by
  obtain ⟨hregion, hsizes, hpacked⟩ := hok
  cases action with
  | alloc size answers =>
    have hfits : h.allocator.region.next + (size.toNat + 7) / 8 * 8 < 2 ^ 64 := hfits
    have hround : roundUp size.toNat = (size.toNat + 7) / 8 * 8 := by
      unfold roundUp
      omega
    cases halloc : h.allocator.alloc h.pages size.toNat answers with
    | mk addr rest =>
      obtain ⟨a, pages⟩ := rest
      obtain ⟨hregion', hcase⟩ := alloc_spec hregion hpacked (by rw [hround]; exact hfits) halloc
      have hstep : h.step (.alloc size answers) =
          ⟨a, pages, if addr = 0 then h.live else ⟨addr, size.toNat⟩ :: h.live⟩ := by
        unfold Heap.step
        dsimp only
        rw [halloc]
      rw [hstep]
      rcases hcase with ⟨hnull, hpacked'⟩ | ⟨haddr, hpacked'⟩
      · rw [if_pos hnull]
        exact ⟨hregion', hsizes, hpacked'⟩
      · rw [if_neg haddr]
        refine ⟨hregion', ?_, hpacked'⟩
        intro b hb
        rcases List.mem_cons.mp hb with rfl | hb
        · show size.toNat ≤ roundUp size.toNat
          omega
        · exact hsizes b hb
  | free i =>
    unfold Heap.step
    dsimp only
    cases hlive : h.live[i]? with
    | none => exact ⟨hregion, hsizes, hpacked⟩
    | some b =>
      obtain ⟨hi, hb⟩ := List.getElem?_eq_some_iff.mp hlive
      have hperm : (b :: h.live.eraseIdx i).Perm h.live := by
        rw [← hb]
        exact List.getElem_cons_eraseIdx_perm hi
      have hfirst : Packed h.allocator.region.next
          (⟨b.addr, roundUp b.len⟩ :: ((h.live.eraseIdx i).map rounded ++ h.allocator.spans)) :=
        hpacked.perm ((hperm.symm.map rounded).append_right _)
      obtain ⟨hsame, hpacked'⟩ := free_spec hfirst
      refine ⟨?_, ?_, ?_⟩
      · show (h.allocator.free b.addr b.len).region.Ok h.pages
        rw [hsame]
        exact hregion
      · intro c hc
        exact hsizes c (List.mem_of_mem_eraseIdx hc)
      · show Packed (h.allocator.free b.addr b.len).region.next _
        rw [hsame]
        exact hpacked'

/-! ### A request that wraps -/

/-- A request that does not fit is answered with an address, and nothing is mapped for it. -/
theorem alloc_wrap {l : List Span} {size : Nat} (hregion : a.region.Ok pages)
    (hpacked : Packed a.region.next (l ++ a.spans)) (hsize : size < 2 ^ 64)
    (hwrap : 2 ^ 64 ≤ a.region.next + (size + 7) / 8 * 8)
    (h : a.alloc pages size answers = (addr, a', pages')) : mapBase ≤ addr ∧ pages' = pages := by
  have hbase := hregion.base
  have hreached := hregion.reached
  have hend : a.region.mappedEnd ≤ 0x20000000 := hregion.mapped.2.1
  -- The end that `carve` computes lies before `next`, or at it.
  have hmapped : (a.region.next + roundUp size) % 2 ^ 64 ≤ a.region.mappedEnd := by
    unfold roundUp
    omega
  have hcarve := carve_mapped pages answers hmapped
  cases a with
  | bump r =>
    unfold Allocator.alloc at h
    injection h with haddr h
    injection h with ha hpages
    rw [← haddr, ← hpages]
    exact ⟨Nat.le_trans hbase (Nat.le_of_eq hcarve.1.symm), hcarve.2⟩
  | freeList r spans =>
    unfold Allocator.alloc at h
    cases htake : takeSpan (roundUp size) spans with
    | some q =>
      obtain ⟨addr1, spans1⟩ := q
      dsimp only at h
      rw [htake] at h
      injection h with haddr h
      injection h with ha hpages
      subst haddr hpages
      obtain ⟨l₁, l₂, len, -, hbefore, -⟩ := takeSpan_spec htake
      have hspans : spans.filterMap id = l₁ ++ ⟨addr1, len⟩ :: l₂ := hbefore
      have hmem : (⟨addr1, len⟩ : Span) ∈ l ++ spans.filterMap id := by
        rw [hspans]
        exact List.mem_append_right _ (List.mem_append_right _ List.mem_cons_self)
      exact ⟨(hpacked.1 _ hmem).1, rfl⟩
    | none =>
      dsimp only at h
      rw [htake] at h
      injection h with haddr h
      injection h with ha hpages
      rw [← haddr, ← hpages]
      exact ⟨Nat.le_trans hbase (Nat.le_of_eq hcarve.1.symm), hcarve.2⟩

/-- After a call that does not fit, a block reaches behind the mapped pages. -/
theorem Heap.Ok.not_separated (hok : h.Ok) {action : Action} (hfits : ¬ h.Fits action) :
    ¬ (h.step action).Separated := by
  obtain ⟨hregion, -, hpacked⟩ := hok
  cases action with
  | free i => exact absurd trivial hfits
  | alloc size answers =>
    have hwrap : 2 ^ 64 ≤ h.allocator.region.next + (size.toNat + 7) / 8 * 8 :=
      Nat.le_of_not_lt hfits
    cases halloc : h.allocator.alloc h.pages size.toNat answers with
    | mk addr rest =>
      obtain ⟨a, pages⟩ := rest
      obtain ⟨hbase, hsame⟩ := alloc_wrap hregion hpacked size.toNat_lt hwrap halloc
      have hbase : 0x10000000 ≤ addr := hbase
      have hstep : h.step (.alloc size answers) = ⟨a, pages, ⟨addr, size.toNat⟩ :: h.live⟩ := by
        unfold Heap.step
        dsimp only
        rw [halloc]
        dsimp only
        rw [if_neg (by omega)]
      intro hsep
      rw [hstep] at hsep
      have hend : h.allocator.region.mappedEnd ≤ 0x20000000 := hregion.mapped.2.1
      have hreached := hregion.reached
      have hlast : Span.Has ⟨addr, size.toNat⟩ (addr + size.toNat - 1) :=
        ⟨by show addr ≤ _; omega, by show _ < addr + size.toNat; omega⟩
      have hpage := hsep.mapped _ List.mem_cons_self _ hlast
      have hpage : (addr + size.toNat - 1) / pageSize * pageSize ∈ h.pages := hsame ▸ hpage
      have hlow := ((hregion.mapped.2.2.2 _).mp hpage).2.2
      unfold pageSize at hlow
      omega

/-! ### Runs -/

/-- An allocator as `new` leaves it. -/
def Allocator.Fresh (a : Allocator) : Prop := a = .newBump ∨ a = .newFreeList

theorem ok_new (hfresh : a.Fresh) : (Heap.new a).Ok := by
  have hregion : Region.new.Ok [] := by
    refine ⟨Nat.le_refl _, Nat.le_refl _, by decide, Nat.le_refl _, by decide, by decide, ?_⟩
    intro p
    constructor
    · intro hp
      cases hp
    · rintro ⟨-, hlow, hhigh⟩
      exact absurd hhigh (Nat.not_lt.mpr hlow)
  have hnone : Packed mapBase [] := ⟨fun s hs => (nomatch hs), List.Pairwise.nil⟩
  rcases hfresh with rfl | rfl
  · exact ⟨hregion, fun b hb => (nomatch hb), hnone⟩
  · exact ⟨hregion, fun b hb => (nomatch hb), hnone⟩

theorem Heap.Ok.separated_runs (hok : h.Ok) (actions : List Action) :
    (∀ k ≤ actions.length, (h.run (actions.take k)).Separated) ↔
      ∀ k action, actions[k]? = some action → (h.run (actions.take k)).Fits action := by
  induction actions generalizing h with
  | nil =>
    constructor
    · intro _ k action hk
      cases hk
    · intro _ k _
      rw [List.take_nil]
      exact hok.separated
  | cons first rest ih =>
    constructor
    · intro hsep
      have hfirst : h.Fits first := by
        by_contra hfits
        exact hok.not_separated hfits (hsep 1 (Nat.le_add_left 1 _))
      have hrest := (ih (hok.step hfirst)).mp fun k hk =>
        hsep (k + 1) (Nat.succ_le_succ hk)
      intro k action hk
      cases k with
      | zero =>
        obtain rfl := Option.some.inj hk
        exact hfirst
      | succ k => exact hrest k action hk
    · intro hfits
      have hfirst : h.Fits first := hfits 0 first rfl
      have hrest := (ih (hok.step hfirst)).mpr fun k action hk =>
        hfits (k + 1) action hk
      intro k hk
      cases k with
      | zero => exact hok.separated
      | succ k => exact hrest k (Nat.le_of_succ_le_succ hk)

/-- In a run of either policy, with any answers of the kernel, the blocks stay apart exactly if
every request, rounded up, fits behind `next` in 64 bits. -/
theorem separated_iff {a : Allocator} (hfresh : a.Fresh) (actions : List Action) :
    (∀ k ≤ actions.length, ((Heap.new a).run (actions.take k)).Separated) ↔
      ∀ k action, actions[k]? = some action →
        ((Heap.new a).run (actions.take k)).Fits action :=
  (ok_new hfresh).separated_runs actions

/-- A run of the free list with a block that is split and one that the kernel refuses. -/
theorem separated_smallRun :
    ((Heap.new .newFreeList).run
      [.alloc 24 [.granted], .free 0, .alloc 8 [],
        .alloc 8192 [.granted, .noFrame]]).Separated := by
  refine (separated_iff (Or.inr rfl) [.alloc 24 [.granted], .free 0, .alloc 8 [],
    .alloc 8192 [.granted, .noFrame]]).mpr ?_ 4 (Nat.le_refl _)
  intro k action hk
  rcases k with _ | _ | _ | _ | k
  · obtain rfl := Option.some.inj hk
    decide
  · obtain rfl := Option.some.inj hk
    exact trivial
  · obtain rfl := Option.some.inj hk
    decide
  · obtain rfl := Option.some.inj hk
    decide
  · cases hk

/-- The largest request is rounded up to nothing: the kernel refuses, and the block is handed out
all the same. -/
theorem not_separated_largest :
    ¬ ((Heap.new .newBump).run [.alloc 18446744073709551615 [.noFrame]]).Separated := by
  intro hsep
  have hpage := hsep.mapped ⟨mapBase, 18446744073709551615⟩ (by decide) mapBase
    ⟨by decide, by decide⟩
  have hnone : ((Heap.new .newBump).run [.alloc 18446744073709551615 [.noFrame]]).pages = [] := by
    decide
  rw [hnone] at hpage
  cases hpage

end Plinth.Alloc
