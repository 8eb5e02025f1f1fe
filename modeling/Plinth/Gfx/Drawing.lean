import Plinth.Console.Surface

/-!
# `Plinth.Gfx.Drawing`: drawing and clipping

The primitives of `libgfx`. Coordinates are words of 32 bits, and user code is built without
overflow checks, so sums and products wrap. `put_pixel` ignores what is off the screen, and a
rectangle is filled up to a sum that does not wrap. But a glyph takes its coordinates from sums that
do.

A drawing is the list of its pixels. `Draws` says that its bytes are those of a shape, as far as it
is on the screen. `drawing_exact` says when the primitives draw the shapes that they name: a
rectangle always, a text if it does not wrap onto the screen, and a border if its far edges do not.
-/

set_option autoImplicit false

namespace Plinth

namespace Gfx

open Fbcon (Colour Font Format fontW fontH)
open Raster (Memory)

/-! ### The framebuffer -/

/-- The bytes that `put_pixel` writes before the padding. -/
def channels : Format → Nat
  | .rgb => 3
  | .bgr => 3
  | .u8 => 1
  | .other => 1

/-- `Framebuffer`. It is mapped, so its bytes are in the address space. -/
structure Framebuffer extends Raster where
  /-- The address of its first byte. -/
  base : Nat
  format : Format
  width_lt : width < 2 ^ 32
  height_lt : height < 2 ^ 32
  /-- A pixel has room for the channels, and not more than four bytes. -/
  bpp_range : channels format ≤ bpp ∧ bpp ≤ 4
  mapped : base + toRaster.size ≤ 2 ^ 64

/-- The bytes of the channels. -/
def channelBytes : Format → Colour → List UInt8
  | .rgb, c => [c.r, c.g, c.b]
  | .bgr, c => [c.b, c.g, c.r]
  | .u8, c => [UInt8.ofNat ((c.r.toNat + c.g.toNat + c.b.toNat) / 3)]
  | .other, c => [c.r]

/-- The bytes of a pixel: the channels, and zero for the rest. -/
def Framebuffer.bytes (fb : Framebuffer) (c : Colour) : List UInt8 :=
  channelBytes fb.format c ++ List.replicate (fb.bpp - channels fb.format) 0

/-- A pixel that is put. -/
structure Put where
  x : UInt32
  y : UInt32
  colour : Colour
  deriving DecidableEq, Repr

/-- The pixel is on the screen. -/
def Framebuffer.Sees (fb : Framebuffer) (p : Put) : Prop := fb.On p.x.toNat p.y.toNat

instance (fb : Framebuffer) (p : Put) : Decidable (fb.Sees p) :=
  inferInstanceAs (Decidable (_ ∧ _))

/-- The address of a pixel. Its sums and products wrap at 64 bits. -/
def Framebuffer.address (fb : Framebuffer) (x y : UInt32) : Nat :=
  (fb.base + fb.offset x.toNat y.toNat) % 2 ^ 64

/-- `put_pixel`. -/
def Framebuffer.putPixel (fb : Framebuffer) (m : Memory) (p : Put) : Memory :=
  if fb.Sees p then Raster.poke m (fb.address p.x p.y) (fb.bytes p.colour) else m

/-- A drawing: the pixels in order. -/
def Framebuffer.draw (fb : Framebuffer) (m : Memory) (puts : List Put) : Memory :=
  puts.foldl fb.putPixel m

/-- The ranges of bytes that a drawing writes. -/
def Framebuffer.touched (fb : Framebuffer) (puts : List Put) : List (Nat × Nat) :=
  (puts.filter fun p => fb.Sees p).map fun p =>
    (fb.address p.x p.y, (fb.bytes p.colour).length)

/-! ### Primitives -/

/-- The values of a counter that goes up while it is below a limit. -/
def countUp (a limit : UInt32) : List UInt32 :=
  if a < limit then a :: countUp (a + 1) limit else []
termination_by limit.toNat - a.toNat
decreasing_by
  rename_i h
  have hlt : a.toNat < limit.toNat := UInt32.lt_iff_toNat_lt.mp h
  have hlimit := limit.toNat_lt
  have hsucc : (a + 1).toNat = a.toNat + 1 := by
    rw [UInt32.toNat_add]
    exact Nat.mod_eq_of_lt (by show a.toNat + 1 < 2 ^ 32; omega)
  omega

/-- `saturating_add`. -/
def satAdd (a b : UInt32) : UInt32 :=
  if a.toNat + b.toNat < 2 ^ 32 then a + b else 0xFFFFFFFF

/-- `fill_rect`. -/
def fillRect (x y w h : UInt32) (c : Colour) : List Put :=
  (countUp y (satAdd y h)).flatMap fun yy =>
    (countUp x (satAdd x w)).map fun xx => ⟨xx, yy, c⟩

/-- `FONT_W` and `FONT_H` as words. -/
def cell : UInt32 := 8

/-- `draw_char`. -/
def drawChar (font : Font) (x y : UInt32) (c : UInt8) (fg bg : Colour) (scale : UInt32) :
    List Put :=
  (countUp 0 cell).flatMap fun ry =>
    (countUp 0 cell).flatMap fun rx =>
      let colour := if Fbcon.FbConsole.bitOn font c rx.toNat ry.toNat then fg else bg
      (countUp 0 scale).flatMap fun sy =>
        (countUp 0 scale).map fun sx => ⟨x + rx * scale + sx, y + ry * scale + sy, colour⟩

/-- `draw_text`. -/
def drawText (font : Font) (x y : UInt32) (text : List UInt8) (fg bg : Colour) (scale : UInt32) :
    List Put :=
  match text with
  | [] => []
  | c :: rest =>
    drawChar font x y c fg bg scale ++ drawText font (x + cell * scale) y rest fg bg scale

/-- `draw_border`. -/
def drawBorder (x y w h thickness : UInt32) (c : Colour) : List Put :=
  if w = 0 ∨ h = 0 then []
  else
    let t := min (min thickness w) h
    fillRect x y w t c ++ fillRect x (y + h - t) w t c ++ fillRect x y t h c ++
      fillRect (x + w - t) y t h c

/-! ### What a drawing writes -/

variable {fb : Framebuffer} {puts puts' : List Put} {m : Memory} {a px py : Nat}

/-- The byte at an address is one of the pixel. -/
def Framebuffer.Holds (fb : Framebuffer) (px py a : Nat) : Prop :=
  fb.base ≤ a ∧ fb.Covers px py (a - fb.base)

/-- A drawing writes the bytes of a shape, as far as the shape is on the screen, and no other byte.
All of them are inside of the framebuffer. -/
def Draws (fb : Framebuffer) (puts : List Put) (shape : Nat → Nat → Prop) : Prop :=
  (∀ r ∈ fb.touched puts, fb.base ≤ r.1 ∧ r.1 + r.2 ≤ fb.base + fb.size) ∧
    ∀ a, (∃ r ∈ fb.touched puts, r.1 ≤ a ∧ a < r.1 + r.2) ↔
      ∃ px py, shape px py ∧ fb.On px py ∧ fb.Holds px py a

/-- A pixel of these coordinates is put. -/
def Lights (puts : List Put) (px py : Nat) : Prop := ∃ p ∈ puts, p.x.toNat = px ∧ p.y.toNat = py

theorem length_channelBytes (format : Format) (c : Colour) :
    (channelBytes format c).length = channels format := by
  cases format with
  | rgb => rfl
  | bgr => rfl
  | u8 => rfl
  | other => rfl

@[simp] theorem Framebuffer.length_bytes (fb : Framebuffer) (c : Colour) :
    (fb.bytes c).length = fb.bpp := by
  have hroom := fb.bpp_range.1
  rw [Framebuffer.bytes, List.length_append, length_channelBytes, List.length_replicate]
  omega

theorem Framebuffer.bpp_pos (fb : Framebuffer) : 0 < fb.bpp := by
  have hroom := fb.bpp_range.1
  have hchannels : 0 < channels fb.format := by
    cases fb.format with
    | rgb => decide
    | bgr => decide
    | u8 => decide
    | other => decide
  omega

/-- The address of a pixel on the screen does not wrap. -/
theorem Framebuffer.address_eq {x y : UInt32} (hon : fb.On x.toNat y.toNat) :
    fb.address x y = fb.base + fb.offset x.toNat y.toNat := by
  have hend := Raster.offset_add_le hon
  have hmapped := fb.mapped
  have hpos := fb.bpp_pos
  exact Nat.mod_eq_of_lt (by omega)

/-- The bytes of a pixel of a drawing are written, if it is on the screen. -/
theorem written_iff : (∃ r ∈ fb.touched puts, r.1 ≤ a ∧ a < r.1 + r.2) ↔
    ∃ px py, Lights puts px py ∧ fb.On px py ∧ fb.Holds px py a := by
  constructor
  · rintro ⟨r, hr, hlow, hhigh⟩
    obtain ⟨p, hp, rfl⟩ := List.mem_map.mp hr
    obtain ⟨hmem, hsees⟩ := List.mem_filter.mp hp
    have hon : fb.On p.x.toNat p.y.toNat := of_decide_eq_true hsees
    rw [Framebuffer.address_eq hon] at hlow hhigh
    rw [Framebuffer.length_bytes] at hhigh
    exact ⟨_, _, ⟨p, hmem, rfl, rfl⟩, hon, by omega, by omega, by omega⟩
  · rintro ⟨px, py, ⟨p, hmem, rfl, rfl⟩, hon, hbase, hlow, hhigh⟩
    refine ⟨_, List.mem_map.mpr ⟨p, List.mem_filter.mpr ⟨hmem, decide_eq_true hon⟩, rfl⟩, ?_⟩
    rw [Framebuffer.address_eq hon, Framebuffer.length_bytes]
    omega

theorem touched_inside : ∀ r ∈ fb.touched puts, fb.base ≤ r.1 ∧ r.1 + r.2 ≤ fb.base + fb.size := by
  intro r hr
  obtain ⟨p, hp, rfl⟩ := List.mem_map.mp hr
  have hon : fb.On p.x.toNat p.y.toNat := of_decide_eq_true (List.mem_filter.mp hp).2
  have hend := Raster.offset_add_le hon
  rw [Framebuffer.address_eq hon, Framebuffer.length_bytes]
  omega

/-- Bytes are those of the shape if pixels are. The first byte of a pixel tells it from the
others. -/
theorem draws_iff {shape : Nat → Nat → Prop} :
    Draws fb puts shape ↔ ∀ px py, fb.On px py → (Lights puts px py ↔ shape px py) := by
  have hfirst : ∀ px py, fb.Holds px py (fb.base + fb.offset px py) := fun px py =>
    ⟨Nat.le_add_right .., by
      rw [Nat.add_sub_cancel_left]
      exact ⟨Nat.le_refl _, Nat.lt_add_of_pos_right fb.bpp_pos⟩⟩
  have hunique : ∀ px py qx qy, fb.On px py → fb.On qx qy →
      fb.Holds qx qy (fb.base + fb.offset px py) → qx = px ∧ qy = py :=
        fun px py qx qy hon hon' h =>
    Raster.covers_unique hon' hon h.2 (hfirst px py).2
  constructor
  · rintro ⟨-, hbytes⟩ px py hon
    have hbyte := (written_iff.symm.trans (hbytes (fb.base + fb.offset px py)))
    constructor
    · intro hlights
      obtain ⟨qx, qy, hshape, hon', h⟩ := hbyte.mp ⟨px, py, hlights, hon, hfirst px py⟩
      obtain ⟨rfl, rfl⟩ := hunique px py qx qy hon hon' h
      exact hshape
    · intro hshape
      obtain ⟨qx, qy, hlights, hon', h⟩ := hbyte.mpr ⟨px, py, hshape, hon, hfirst px py⟩
      obtain ⟨rfl, rfl⟩ := hunique px py qx qy hon hon' h
      exact hlights
  · intro hpixels
    refine ⟨touched_inside, fun a => written_iff.trans ?_⟩
    constructor
    · rintro ⟨px, py, hlights, hon, h⟩
      exact ⟨px, py, (hpixels px py hon).mp hlights, hon, h⟩
    · rintro ⟨px, py, hshape, hon, h⟩
      exact ⟨px, py, (hpixels px py hon).mpr hshape, hon, h⟩

@[simp] theorem not_lights_nil : ¬ Lights [] px py := fun ⟨_, hp, _⟩ => nomatch hp

theorem lights_append : Lights (puts ++ puts') px py ↔ Lights puts px py ∨ Lights puts' px py := by
  simp only [Lights, List.mem_append, or_and_right, exists_or]

/-! ### The pixels of a rectangle -/

theorem mem_countUp {v b limit : UInt32} :
    v ∈ countUp b limit ↔ b.toNat ≤ v.toNat ∧ v.toNat < limit.toNat := by
  fun_induction countUp b limit with
  | case1 b hlt ih =>
    have hlt' : b.toNat < limit.toNat := UInt32.lt_iff_toNat_lt.mp hlt
    have hlimit := limit.toNat_lt
    have hsucc : (b + 1).toNat = b.toNat + 1 := by
      rw [UInt32.toNat_add]
      exact Nat.mod_eq_of_lt (by show b.toNat + 1 < 2 ^ 32; omega)
    rw [List.mem_cons, ih, hsucc, ← UInt32.toNat_inj]
    omega
  | case2 b hnot =>
    have hge : ¬ b.toNat < limit.toNat := fun h => hnot (UInt32.lt_iff_toNat_lt.mpr h)
    refine ⟨nofun, fun h => ?_⟩
    omega

theorem toNat_satAdd (b c : UInt32) :
    (satAdd b c).toNat = min (b.toNat + c.toNat) (2 ^ 32 - 1) := by
  unfold satAdd
  by_cases h : b.toNat + c.toNat < 2 ^ 32
  · rw [if_pos h, UInt32.toNat_add, Nat.mod_eq_of_lt h]
    omega
  · rw [if_neg h]
    show 2 ^ 32 - 1 = _
    omega

/-- A rectangle, without wrapping. -/
def Rect (x y w h px py : Nat) : Prop := (x ≤ px ∧ px < x + w) ∧ y ≤ py ∧ py < y + h

/-- A pixel on the screen is filled if it is of the rectangle. That the sum saturates costs the last
column only, and no screen has it. -/
theorem lights_fillRect {x y w h : UInt32} {c : Colour} (hon : fb.On px py) :
    Lights (fillRect x y w h c) px py ↔ Rect x.toNat y.toNat w.toNat h.toNat px py := by
  have hwidth := fb.width_lt
  have hheight := fb.height_lt
  obtain ⟨hx, hy⟩ := hon
  simp only [Lights, fillRect, List.mem_flatMap, List.mem_map, mem_countUp, toNat_satAdd,
    Nat.lt_min,
    Rect]
  constructor
  · rintro ⟨p, ⟨yy, hyy, xx, hxx, rfl⟩, rfl, rfl⟩
    exact ⟨⟨hxx.1, hxx.2.1⟩, hyy.1, hyy.2.1⟩
  · rintro ⟨hpx, hpy⟩
    have hfits : ∀ v < 2 ^ 32, (UInt32.ofNat v).toNat = v := fun v hv =>
      UInt32.toNat_ofNat_of_lt' hv
    refine ⟨⟨UInt32.ofNat px, UInt32.ofNat py, c⟩,
      ⟨UInt32.ofNat py, ?_, UInt32.ofNat px, ?_, rfl⟩, hfits px (by omega), hfits py (by omega)⟩
    · rw [hfits py (by omega)]
      omega
    · rw [hfits px (by omega)]
      omega

/-! ### Spans that wrap -/

/-- A coordinate of the form `x + k` for `k < n`, as it comes out of 32 bits. -/
def Wrapped (x n p : Nat) : Prop := ∃ k < n, p = (x + k) % 2 ^ 32

/-- The span ends before the coordinates do, or it goes around from the first one. -/
def Straight (x n : Nat) : Prop := x + n ≤ 2 ^ 32 ∨ x = 0

/-- The span has no coordinate below `w`, the wrapped ones included. -/
def Missed (x n w : Nat) : Prop := n = 0 ∨ w = 0 ∨ (w ≤ x ∧ x + n ≤ 2 ^ 32)

section

variable {x y n k w h p : Nat}

theorem wrapped_of_span (hp : p < 2 ^ 32) (hspan : x ≤ p ∧ p < x + n) : Wrapped x n p :=
  ⟨p - x, by omega, by rw [Nat.add_sub_cancel' hspan.1, Nat.mod_eq_of_lt hp]⟩

/-- A straight span has its own coordinates only. -/
theorem Straight.span (hstraight : Straight x n) (hp : Wrapped x n p) (hx : x < 2 ^ 32) :
    x ≤ p ∧ p < x + n := by
  obtain ⟨k, hk, rfl⟩ := hp
  rcases hstraight with hroom | rfl
  · rw [Nat.mod_eq_of_lt (by omega)]
    omega
  · have hle := Nat.mod_le (0 + k) (2 ^ 32)
    omega

/-- Any other span has the coordinate zero, and does not name it. -/
theorem wrapped_zero (hnot : ¬ Straight x n) (hx : x < 2 ^ 32) : Wrapped x n 0 ∧ 0 < x := by
  have hlong : 2 ^ 32 < x + n := Nat.lt_of_not_le fun h => hnot (.inl h)
  refine ⟨⟨2 ^ 32 - x, by omega, ?_⟩, Nat.pos_of_ne_zero fun h => hnot (.inr h)⟩
  rw [Nat.add_sub_cancel' (Nat.le_of_lt hx), Nat.mod_self]

theorem missed_iff (hx : x < 2 ^ 32) : Missed x n w ↔ ∀ p < w, ¬ Wrapped x n p := by
  constructor
  · rintro hmissed p hp ⟨k, hk, rfl⟩
    rcases hmissed with rfl | rfl | ⟨hfar, hroom⟩
    · cases hk
    · cases hp
    · rw [Nat.mod_eq_of_lt (by omega)] at hp
      omega
  · intro hnone
    by_contra hhit
    unfold Missed at hhit
    by_cases hnear : x < w
    · exact hnone x hnear ⟨0, by omega, (Nat.mod_eq_of_lt hx).symm⟩
    · exact hnone 0 (by omega) (wrapped_zero (by unfold Straight; omega) hx).1

/-- A block of wrapped coordinates shows the rectangle that it names. -/
def Lands (x y n k w h : Nat) : Prop :=
  Missed x n w ∨ Missed y k h ∨ (Straight x n ∧ Straight y k)

/-- When a block is the rectangle, as far as a screen goes. If a side is not straight, the block has
pixels at the coordinate zero, so it must not reach the screen on the other side. -/
theorem lands_iff (hx : x < 2 ^ 32) (hy : y < 2 ^ 32) (hw : w < 2 ^ 32) (hh : h < 2 ^ 32) :
    (∀ px py, px < w → py < h → (Wrapped x n px ∧ Wrapped y k py ↔ Rect x y n k px py)) ↔
      Lands x y n k w h := by
  constructor
  · intro hsame
    by_cases hmx : Missed x n w
    · exact .inl hmx
    by_cases hmy : Missed y k h
    · exact .inr (.inl hmy)
    -- both sides reach the screen
    rw [missed_iff hx] at hmx
    rw [missed_iff hy] at hmy
    push Not at hmx hmy
    obtain ⟨px, hpx, hwx⟩ := hmx
    obtain ⟨py, hpy, hwy⟩ := hmy
    refine .inr (.inr ⟨?_, ?_⟩)
    · by_contra hnot
      obtain ⟨hzero, hpos⟩ := wrapped_zero hnot hx
      have hin := ((hsame 0 py (by omega) hpy).mp ⟨hzero, hwy⟩).1
      omega
    · by_contra hnot
      obtain ⟨hzero, hpos⟩ := wrapped_zero hnot hy
      have hin := ((hsame px 0 hpx (by omega)).mp ⟨hwx, hzero⟩).2
      omega
  · intro hlands px py hpx hpy
    refine ⟨fun hwrapped => ?_, fun hrect =>
      ⟨wrapped_of_span (by omega) hrect.1, wrapped_of_span (by omega) hrect.2⟩⟩
    rcases hlands with hmx | hmy | ⟨hsx, hsy⟩
    · exact absurd hwrapped.1 ((missed_iff hx).mp hmx px hpx)
    · exact absurd hwrapped.2 ((missed_iff hy).mp hmy py hpy)
    · exact ⟨hsx.span hwrapped.1 hx, hsy.span hwrapped.2 hy⟩

/-- A span is that of its first part and of what follows. -/
theorem wrapped_add : Wrapped x (n + k) p ↔ Wrapped x n p ∨ Wrapped ((x + n) % 2 ^ 32) k p := by
  constructor
  · rintro ⟨i, hi, rfl⟩
    by_cases hfirst : i < n
    · exact .inl ⟨i, hfirst, rfl⟩
    · refine .inr ⟨i - n, by omega, ?_⟩
      rw [Nat.mod_add_mod, Nat.add_assoc, Nat.add_sub_cancel' (by omega)]
  · rintro (⟨i, hi, rfl⟩ | ⟨i, hi, rfl⟩)
    · exact ⟨i, by omega, rfl⟩
    · exact ⟨n + i, by omega, by rw [Nat.mod_add_mod, Nat.add_assoc]⟩

end

/-! ### Glyphs and texts -/

/-- The coordinate of a pixel of a magnified glyph. -/
theorem toNat_magnified (x r scale s : UInt32) :
    (x + r * scale + s).toNat = (x.toNat + (r.toNat * scale.toNat + s.toNat)) % 2 ^ 32 := by
  rw [UInt32.toNat_add, UInt32.toNat_add, UInt32.toNat_mul, Nat.add_mod_mod, Nat.mod_add_mod,
    Nat.add_assoc]

/-- A span is that of the eight blocks of a magnified row. -/
theorem wrapped_magnified {x scale : UInt32} {p : Nat} : Wrapped x.toNat (8 * scale.toNat) p ↔
    ∃ r ∈ countUp 0 cell, ∃ s ∈ countUp 0 scale, (x + r * scale + s).toNat = p := by
  simp only [mem_countUp, toNat_magnified]
  constructor
  · rintro ⟨k, hk, rfl⟩
    have hscale := scale.toNat_lt
    have hpos : 0 < scale.toNat := by omega
    have hr : k / scale.toNat < 8 := Nat.div_lt_of_lt_mul (by rw [Nat.mul_comm]; exact hk)
    have hs : k % scale.toNat < scale.toNat := Nat.mod_lt _ hpos
    refine ⟨UInt32.ofNat (k / scale.toNat), ⟨Nat.zero_le _, ?_⟩, UInt32.ofNat (k % scale.toNat),
      ⟨Nat.zero_le _, ?_⟩, ?_⟩
    · rw [UInt32.toNat_ofNat_of_lt' (by show _ < 2 ^ 32; omega)]
      exact hr
    · rw [UInt32.toNat_ofNat_of_lt' (by show _ < 2 ^ 32; omega)]
      exact hs
    · rw [UInt32.toNat_ofNat_of_lt' (by show _ < 2 ^ 32; omega),
        UInt32.toNat_ofNat_of_lt' (by show _ < 2 ^ 32; omega), Nat.mul_comm,
        Nat.div_add_mod]
  · rintro ⟨r, ⟨-, hr⟩, s, ⟨-, hs⟩, rfl⟩
    refine ⟨_, ?_, rfl⟩
    have hr' : r.toNat + 1 ≤ 8 := hr
    calc r.toNat * scale.toNat + s.toNat < (r.toNat + 1) * scale.toNat := by
          rw [Nat.succ_mul]
          omega
      _ ≤ 8 * scale.toNat := Nat.mul_le_mul_right _ hr'

theorem lights_drawChar {font : Font} {x y : UInt32} {c : UInt8} {fg bg : Colour}
    {scale : UInt32} : Lights (drawChar font x y c fg bg scale) px py ↔
      Wrapped x.toNat (8 * scale.toNat) px ∧ Wrapped y.toNat (8 * scale.toNat) py := by
  simp only [Lights, drawChar, List.mem_flatMap, List.mem_map, wrapped_magnified]
  constructor
  · rintro ⟨p, ⟨ry, hry, rx, hrx, sy, hsy, sx, hsx, rfl⟩, rfl, rfl⟩
    exact ⟨⟨rx, hrx, sx, hsx, rfl⟩, ry, hry, sy, hsy, rfl⟩
  · rintro ⟨⟨rx, hrx, sx, hsx, rfl⟩, ry, hry, sy, hsy, rfl⟩
    exact ⟨_, ⟨ry, hry, rx, hrx, sy, hsy, sx, hsx, rfl⟩, rfl, rfl⟩

/-- The cells of a text are one block. The induction is on the text: the next cell begins where the
wrapped span of this one ends. -/
theorem lights_drawText {font : Font} {x y : UInt32} {text : List UInt8} {fg bg : Colour}
    {scale : UInt32} : Lights (drawText font x y text fg bg scale) px py ↔
      Wrapped x.toNat (8 * scale.toNat * text.length) px ∧
        Wrapped y.toNat (8 * scale.toNat) py := by
  induction text generalizing x with
  | nil => exact ⟨fun h => absurd h not_lights_nil, fun ⟨⟨_, hk, _⟩, _⟩ => nomatch hk⟩
  | cons c rest ih =>
    have hnext : (x + cell * scale).toNat = (x.toNat + 8 * scale.toNat) % 2 ^ 32 := by
      rw [UInt32.toNat_add, UInt32.toNat_mul, Nat.add_mod_mod]
      rfl
    rw [drawText, lights_append, lights_drawChar, ih, hnext, List.length_cons, Nat.mul_succ,
      Nat.add_comm (8 * scale.toNat * rest.length), wrapped_add, or_and_right]

/-! ### Borders -/

/-- The pixels of a rectangle that are near one of its edges. -/
def Border (x y w h thickness px py : Nat) : Prop :=
  Rect x y w h px py ∧ (px < x + thickness ∨ x + w ≤ px + thickness ∨ py < y + thickness ∨
    y + h ≤ py + thickness)

/-- The far edge of a border does not wrap onto the screen, or it is not seen on the other side. -/
def EdgeLands (x w t width : Nat) (y height : Nat) : Prop :=
  x + w - t < 2 ^ 32 ∨ width ≤ x + w - t - 2 ^ 32 ∨ height ≤ y

/-- Both far edges of a border land where they should, if there is a border at all. -/
def BorderLands (x y w h thickness width height : Nat) : Prop :=
  w = 0 ∨ h = 0 ∨ thickness = 0 ∨
    (EdgeLands x w (min (min thickness w) h) width y height ∧
      EdgeLands y h (min (min thickness w) h) height x width)

theorem toNat_min (b c : UInt32) : (min b c).toNat = min b.toNat c.toNat := by
  by_cases h : b ≤ c
  · rw [show min b c = b from if_pos h, Nat.min_eq_left (UInt32.le_iff_toNat_le.mp h)]
  · have hle : c.toNat ≤ b.toNat := by
      have hnot := mt UInt32.le_iff_toNat_le.mpr h
      omega
    rw [show min b c = c from if_neg h, Nat.min_eq_right hle]

/-- The far edge, as it comes out of 32 bits. -/
theorem toNat_far {x w t : UInt32} (h : t.toNat ≤ w.toNat) :
    (x + w - t).toNat = (x.toNat + w.toNat - t.toNat) % 2 ^ 32 := by
  have ht := t.toNat_lt
  rw [UInt32.toNat_sub, UInt32.toNat_add]
  omega

/-- The four edges of a border. -/
theorem lights_drawBorder {x y w h thickness : UInt32} {c : Colour} (hon : fb.On px py)
    (hw : w ≠ 0) (hh : h ≠ 0) : Lights (drawBorder x y w h thickness c) px py ↔
      ∃ t, t = min (min thickness.toNat w.toNat) h.toNat ∧
        (Rect x.toNat y.toNat w.toNat t px py ∨
          Rect x.toNat ((y.toNat + h.toNat - t) % 2 ^ 32) w.toNat t px py ∨
          Rect x.toNat y.toNat t h.toNat px py ∨
          Rect ((x.toNat + w.toNat - t) % 2 ^ 32) y.toNat t h.toNat px py) := by
  have ht : (min (min thickness w) h).toNat = min (min thickness.toNat w.toNat) h.toNat := by
    rw [toNat_min, toNat_min]
  rw [drawBorder, if_neg (not_or.mpr ⟨hw, hh⟩), exists_eq_left]
  simp only [lights_append, lights_fillRect hon, or_assoc]
  rw [toNat_far (by rw [ht]; omega), toNat_far (by rw [ht]; omega), ht]

/-- The pixels that are put are those of the border exactly if no far edge wraps onto the screen. A
far edge that wraps begins before the near one, so it is not of the border. -/
theorem border_iff {x y w h thickness width height : Nat} (hx : x < 2 ^ 32) (hy : y < 2 ^ 32)
    (hw : 0 < w) (hh : 0 < h) (hw' : w < 2 ^ 32) (hh' : h < 2 ^ 32) (hwidth : width < 2 ^ 32)
    (hheight : height < 2 ^ 32) :
    (∀ px py, px < width → py < height →
      ((∃ t, t = min (min thickness w) h ∧
        (Rect x y w t px py ∨ Rect x ((y + h - t) % 2 ^ 32) w t px py ∨ Rect x y t h px py ∨
          Rect ((x + w - t) % 2 ^ 32) y t h px py)) ↔ Border x y w h thickness px py)) ↔
      BorderLands x y w h thickness width height := by
  simp only [exists_eq_left]
  generalize ht : min (min thickness w) h = t
  have htw : t ≤ w := by omega
  have hth : t ≤ h := by omega
  unfold BorderLands
  rw [ht]
  constructor
  · intro hsame
    by_cases hnone : thickness = 0
    · exact .inr (.inr (.inl hnone))
    have hpos : 0 < t := by omega
    refine .inr (.inr (.inr ⟨?_, ?_⟩))
    · by_contra hwraps
      unfold EdgeLands at hwraps
      -- the corner of the wrapped right edge is left of the rectangle
      have hcorner := (hsame ((x + w - t) % 2 ^ 32) y (by omega) (by omega)).mp
        (.inr (.inr (.inr ⟨⟨Nat.le_refl _, by omega⟩, Nat.le_refl _, by omega⟩)))
      have hin := hcorner.1.1.1
      omega
    · by_contra hwraps
      unfold EdgeLands at hwraps
      have hcorner := (hsame x ((y + h - t) % 2 ^ 32) (by omega) (by omega)).mp
        (.inr (.inl ⟨⟨Nat.le_refl _, by omega⟩, Nat.le_refl _, by omega⟩))
      have hin := hcorner.1.2.1
      omega
  · intro hlands px py hpx hpy
    unfold Border
    constructor
    · -- an edge that is drawn on the screen is one of the border
      rintro (⟨hcol, hrow⟩ | ⟨hcol, hrow⟩ | ⟨hcol, hrow⟩ | ⟨hcol, hrow⟩)
      · exact ⟨⟨hcol, by omega⟩, .inr (.inr (.inl (by omega)))⟩
      · have hfar : (y + h - t) % 2 ^ 32 = y + h - t := by
          unfold EdgeLands at hlands
          omega
        exact ⟨⟨hcol, by omega⟩, .inr (.inr (.inr (by omega)))⟩
      · exact ⟨⟨by omega, hrow⟩, .inl (by omega)⟩
      · have hfar : (x + w - t) % 2 ^ 32 = x + w - t := by
          unfold EdgeLands at hlands
          omega
        exact ⟨⟨by omega, hrow⟩, .inr (.inl (by omega))⟩
    · rintro ⟨⟨hcol, hrow⟩, hnear⟩
      -- a border thicker than the rectangle is all of it
      by_cases hfull : t = w
      · exact .inr (.inr (.inl ⟨by omega, hrow⟩))
      by_cases hfull' : t = h
      · exact .inl ⟨hcol, by omega⟩
      have hthick : t = thickness := by omega
      rcases hnear with hleft | hright | htop | hbottom
      · exact .inr (.inr (.inl ⟨by omega, hrow⟩))
      · have hfar : (x + w - t) % 2 ^ 32 = x + w - t := Nat.mod_eq_of_lt (by omega)
        exact .inr (.inr (.inr ⟨by omega, hrow⟩))
      · exact .inl ⟨hcol, by omega⟩
      · have hfar : (y + h - t) % 2 ^ 32 = y + h - t := Nat.mod_eq_of_lt (by omega)
        exact .inr (.inl ⟨hcol, by omega⟩)

/-! ### When the drawings are right -/

/-- A rectangle is drawn for every argument. A glyph and a text are drawn exactly if their blocks
land where they should, and a border if its far edges do. -/
theorem drawing_exact (fb : Framebuffer) (font : Font) (x y : UInt32) :
    (∀ w h c, Draws fb (fillRect x y w h c) (Rect x.toNat y.toNat w.toNat h.toNat)) ∧
    (∀ c fg bg scale, Draws fb (drawChar font x y c fg bg scale)
        (Rect x.toNat y.toNat (8 * scale.toNat) (8 * scale.toNat)) ↔
      Lands x.toNat y.toNat (8 * scale.toNat) (8 * scale.toNat) fb.width fb.height) ∧
    (∀ text fg bg scale, Draws fb (drawText font x y text fg bg scale)
        (Rect x.toNat y.toNat (8 * scale.toNat * text.length) (8 * scale.toNat)) ↔
      Lands x.toNat y.toNat (8 * scale.toNat * text.length) (8 * scale.toNat) fb.width fb.height) ∧
    ∀ w h thickness c, Draws fb (drawBorder x y w h thickness c)
        (Border x.toNat y.toNat w.toNat h.toNat thickness.toNat) ↔
      BorderLands x.toNat y.toNat w.toNat h.toNat thickness.toNat fb.width fb.height := by
  refine ⟨fun w h c => draws_iff.mpr fun px py hon => lights_fillRect hon,
    fun c fg bg scale => ?_, fun text fg bg scale => ?_, fun w h thickness c => ?_⟩
  · rw [draws_iff, ← lands_iff x.toNat_lt y.toNat_lt fb.width_lt fb.height_lt]
    simp only [lights_drawChar, Raster.On, and_imp]
  · rw [draws_iff, ← lands_iff x.toNat_lt y.toNat_lt fb.width_lt fb.height_lt]
    simp only [lights_drawText, Raster.On, and_imp]
  · by_cases hw : w = 0
    · subst hw
      refine iff_of_true (draws_iff.mpr fun px py hon => ?_) (.inl rfl)
      exact iff_of_false not_lights_nil fun hin => absurd hin.1.1.2 (Nat.not_lt.mpr hin.1.1.1)
    by_cases hh : h = 0
    · subst hh
      refine iff_of_true (draws_iff.mpr fun px py hon => ?_) (.inr (.inl rfl))
      rw [drawBorder, if_pos (.inr rfl)]
      exact iff_of_false not_lights_nil fun hin => absurd hin.1.2.2 (Nat.not_lt.mpr hin.1.2.1)
    have hw' : 0 < w.toNat := Nat.pos_of_ne_zero fun h0 => hw (UInt32.toNat_inj.mp h0)
    have hh' : 0 < h.toNat := Nat.pos_of_ne_zero fun h0 => hh (UInt32.toNat_inj.mp h0)
    rw [draws_iff, ← border_iff x.toNat_lt y.toNat_lt hw' hh' w.toNat_lt h.toNat_lt fb.width_lt
      fb.height_lt]
    refine forall_congr' fun px => forall_congr' fun py => ?_
    rw [Raster.On, and_imp]
    exact forall_congr' fun hpx => forall_congr' fun hpy => by
      rw [lights_drawBorder ⟨hpx, hpy⟩ hw hh]

/-- A small screen. -/
def smallScreen : Framebuffer where
  width := 8
  height := 8
  stride := 8
  bpp := 4
  wide := by decide
  base := 0x400000
  format := .rgb
  width_lt := by decide
  height_lt := by decide
  bpp_range := by decide
  mapped := by decide

/-- A glyph four pixels before the end of the coordinates wraps onto the screen: its right half is
drawn at the left. -/
theorem glyph_wraps : ¬ Draws smallScreen
    (drawChar (fun _ _ => 0) 0xFFFFFFFC 0 65 ⟨255, 255, 255⟩ ⟨0, 0, 0⟩ 1)
    (Rect 0xFFFFFFFC 0 8 8) := by
  intro hdraws
  have hzero := (draws_iff.mp hdraws 0 0 (by decide)).mp
    (lights_drawChar.mpr ⟨⟨4, by decide, by decide⟩, 0, by decide, by decide⟩)
  exact absurd hzero.1.1 (by decide)

end Gfx

end Plinth
