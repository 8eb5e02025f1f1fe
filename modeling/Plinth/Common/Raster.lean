import Mathlib.Algebra.GroupWithZero.Nat
import Mathlib.Data.List.Basic

/-!
# `Plinth.Common.Raster`: pixels in memory

A raster is a screen in memory: rows of pixels, with `stride` pixels from one row to the next, and
`bpp` bytes for a pixel. A row can be longer than what is shown, so the bytes behind its width are
padding. The memory is the bytes from the first one.

The bytes of a pixel on the screen are of no other pixel (`covers_unique`). `paint` draws the pixels
of a list, and it ignores those off the screen. `pixel_paint` says what is shown afterwards.
-/

set_option autoImplicit false

/-- A screen in memory. -/
structure Raster where
  width : Nat
  height : Nat
  stride : Nat
  bpp : Nat
  wide : width ≤ stride

namespace Raster

/-- The bytes from the first one. -/
abbrev Memory := Nat → UInt8

variable {r : Raster} {x y x' y' a off : Nat} {m m' : Memory} {bs : List UInt8}

/-! ### Places -/

/-- The first byte of a pixel. -/
def offset (r : Raster) (x y : Nat) : Nat := (y * r.stride + x) * r.bpp

/-- The number of bytes. -/
def size (r : Raster) : Nat := r.stride * r.height * r.bpp

/-- The pixel is on the screen. -/
def On (r : Raster) (x y : Nat) : Prop := x < r.width ∧ y < r.height

instance (r : Raster) (x y : Nat) : Decidable (r.On x y) := inferInstanceAs (Decidable (_ ∧ _))

/-- The byte is one of the pixel. -/
def Covers (r : Raster) (x y a : Nat) : Prop := r.offset x y ≤ a ∧ a < r.offset x y + r.bpp

/-- The bytes of a pixel on the screen end before the raster does. -/
theorem offset_add_le (hon : r.On x y) : r.offset x y + r.bpp ≤ r.size := by
  obtain ⟨hx, hy⟩ := hon
  have hwide := r.wide
  have hrow : (y + 1) * r.stride ≤ r.height * r.stride := Nat.mul_le_mul_right _ hy
  have hcells : y * r.stride + x + 1 ≤ r.stride * r.height := by
    rw [Nat.succ_mul, Nat.mul_comm r.height] at hrow
    omega
  calc r.offset x y + r.bpp = (y * r.stride + x + 1) * r.bpp := (Nat.succ_mul ..).symm
    _ ≤ r.size := Nat.mul_le_mul_right _ hcells

/-- A byte is of one pixel only. -/
theorem covers_unique (hon : r.On x y) (hon' : r.On x' y') (h : r.Covers x y a)
    (h' : r.Covers x' y' a) : x = x' ∧ y = y' := by
  have hwide := r.wide
  have hcell : ∀ u v, r.Covers u v a → a / r.bpp = v * r.stride + u := by
    intro u v huv
    have hbpp : 0 < r.bpp := by
      have hlow := huv.1
      have hhigh := huv.2
      omega
    refine (Nat.div_eq_iff hbpp).mpr ?_
    have hlow := huv.1
    have hhigh := huv.2
    unfold offset at hlow hhigh
    omega
  have heq : y * r.stride + x = y' * r.stride + x' := by rw [← hcell x y h, ← hcell x' y' h']
  have hstride : 0 < r.stride := Nat.lt_of_lt_of_le (Nat.zero_lt_of_lt hon.1) hwide
  have hx : x < r.stride := Nat.lt_of_lt_of_le hon.1 hwide
  have hx' : x' < r.stride := Nat.lt_of_lt_of_le hon'.1 hwide
  have hmod : x = x' := by
    have h1 : (y * r.stride + x) % r.stride = x := by
      rw [Nat.mul_comm, Nat.mul_add_mod, Nat.mod_eq_of_lt hx]
    have h2 : (y' * r.stride + x') % r.stride = x' := by
      rw [Nat.mul_comm, Nat.mul_add_mod, Nat.mod_eq_of_lt hx']
    rw [← h1, heq, h2]
  subst hmod
  refine ⟨rfl, Nat.eq_of_mul_eq_mul_right hstride ?_⟩
  omega

/-! ### Bytes that are written -/

/-- Write the bytes from an address, the first one first. -/
def poke (m : Memory) : Nat → List UInt8 → Memory
  | _, [] => m
  | off, b :: bs => poke (Function.update m off b) (off + 1) bs

theorem poke_outside (h : a < off ∨ off + bs.length ≤ a) : poke m off bs a = m a := by
  induction bs generalizing m off with
  | nil => rfl
  | cons b bs ih =>
    rw [List.length_cons] at h
    show poke (Function.update m off b) (off + 1) bs a = m a
    rw [ih (by omega), Function.update_of_ne (by omega)]

theorem poke_inside {i : Nat} (h : i < bs.length) : poke m off bs (off + i) = bs[i] := by
  induction bs generalizing m off i with
  | nil => cases h
  | cons b bs ih =>
    show poke (Function.update m off b) (off + 1) bs (off + i) = _
    cases i with
    | zero =>
        rw [poke_outside (by omega), Nat.add_zero, Function.update_self, List.getElem_cons_zero]
    | succ i =>
      rw [List.getElem_cons_succ, show off + (i + 1) = off + 1 + i by omega]
      exact ih (Nat.lt_of_succ_lt_succ h)

/-! ### Pixels -/

/-- The bytes of a pixel. -/
def pixel (r : Raster) (m : Memory) (x y : Nat) : List UInt8 :=
  (List.range r.bpp).map fun i => m (r.offset x y + i)

theorem covers_add {i : Nat} (h : i < r.bpp) : r.Covers x y (r.offset x y + i) :=
  ⟨Nat.le_add_right .., Nat.add_lt_add_left h _⟩

theorem pixel_congr (h : ∀ a, r.Covers x y a → m a = m' a) : r.pixel m x y = r.pixel m' x y := by
  refine List.map_congr_left fun i hi => h _ (covers_add (List.mem_range.mp hi))

theorem pixel_poke_same (hlen : bs.length = r.bpp) :
    r.pixel (poke m (r.offset x y) bs) x y = bs := by
  refine List.ext_getElem (by simp [pixel, hlen]) fun i hi hbs => ?_
  simp only [pixel, List.getElem_map, List.getElem_range]
  exact poke_inside hbs

theorem pixel_poke_other (hlen : bs.length ≤ r.bpp) (hon : r.On x y) (hon' : r.On x' y')
    (hne : (x', y') ≠ (x, y)) : r.pixel (poke m (r.offset x y) bs) x' y' = r.pixel m x' y' := by
  refine pixel_congr fun a ha => poke_outside ?_
  by_contra hin
  obtain ⟨hx, hy⟩ := covers_unique hon' hon ha ⟨by omega, by omega⟩
  exact hne (by rw [hx, hy])

/-! ### Pictures -/

/-- Draw the pixels of a list. `f` gives the bytes of a pixel. -/
def paint (r : Raster) (f : Nat × Nat → List UInt8) (m : Memory) (l : List (Nat × Nat)) : Memory :=
  l.foldl (fun m p => if r.On p.1 p.2 then poke m (r.offset p.1 p.2) (f p) else m) m

/-- The places that are written, with their sizes. -/
def painted (r : Raster) (f : Nat × Nat → List UInt8) (l : List (Nat × Nat)) : List (Nat × Nat) :=
  (l.filter fun p => r.On p.1 p.2).map fun p => (r.offset p.1 p.2, (f p).length)

section

variable {f : Nat × Nat → List UInt8} {l : List (Nat × Nat)}

theorem paint_cons (p : Nat × Nat) : r.paint f m (p :: l) =
    r.paint f (if r.On p.1 p.2 then poke m (r.offset p.1 p.2) (f p) else m) l := rfl

theorem painted_cons (p : Nat × Nat) : r.painted f (p :: l) =
    (if r.On p.1 p.2 then [(r.offset p.1 p.2, (f p).length)] else []) ++ r.painted f l := by
  unfold painted
  by_cases hon : r.On p.1 p.2
  · simp [hon]
  · simp [hon]

/-- A pixel of the list shows its bytes, any other is as before. The induction is on the list: a
pixel that is drawn twice is drawn with the same bytes. -/
theorem pixel_paint (hf : ∀ p ∈ l, (f p).length = r.bpp) (hon : r.On x y) :
    r.pixel (r.paint f m l) x y = if (x, y) ∈ l then f (x, y) else r.pixel m x y := by
  induction l generalizing m with
  | nil => rfl
  | cons p l ih =>
    obtain ⟨hp, hl⟩ := List.forall_mem_cons.mp hf
    rw [paint_cons, ih hl]
    by_cases hmem : (x, y) ∈ l
    · rw [if_pos hmem, if_pos (List.mem_cons_of_mem _ hmem)]
    · rw [if_neg hmem]
      by_cases heq : (x, y) = p
      · subst heq
        rw [if_pos hon, pixel_poke_same hp, if_pos (List.mem_cons_self ..)]
      · have hnot : (x, y) ∉ p :: l := fun h => (List.mem_cons.mp h).elim heq hmem
        rw [if_neg hnot]
        by_cases honp : r.On p.1 p.2
        · rw [if_pos honp, pixel_poke_other (Nat.le_of_eq hp) honp hon heq]
        · rw [if_neg honp]

/-- All that is written is inside of the raster. -/
theorem painted_inside (hf : ∀ p ∈ l, (f p).length ≤ r.bpp) :
    ∀ w ∈ r.painted f l, w.1 + w.2 ≤ r.size := by
  intro w hw
  obtain ⟨p, hp, rfl⟩ := List.mem_map.mp hw
  obtain ⟨hmem, hon⟩ := List.mem_filter.mp hp
  have hend := offset_add_le (of_decide_eq_true hon)
  have hlen := hf p hmem
  show r.offset p.1 p.2 + (f p).length ≤ r.size
  omega

end

/-! ### Rectangles -/

/-- The pixels of a rectangle, row by row. -/
def grid (x0 y0 w h : Nat) : List (Nat × Nat) :=
  (List.range h).flatMap fun dy => (List.range w).map fun dx => (x0 + dx, y0 + dy)

theorem mem_grid {x0 y0 w h : Nat} :
    (x, y) ∈ grid x0 y0 w h ↔ (x0 ≤ x ∧ x < x0 + w) ∧ y0 ≤ y ∧ y < y0 + h := by
  unfold grid
  simp only [List.mem_flatMap, List.mem_map, List.mem_range, Prod.mk.injEq]
  constructor
  · rintro ⟨dy, hdy, dx, hdx, rfl, rfl⟩
    omega
  · rintro ⟨⟨hx0, hx⟩, hy0, hy⟩
    exact ⟨y - y0, by omega, x - x0, by omega, by omega, by omega⟩

end Raster
