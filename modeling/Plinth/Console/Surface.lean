import Plinth.Common.Raster

/-!
# `Plinth.Console.Surface`: the framebuffer console

The console of `kernel/src/fbcon.rs`. It draws text on a surface: a raster with a pixel format. It
keeps a cursor, it breaks a line at the right edge, and it scrolls at the bottom. The font is a
parameter: eight rows of a byte for a character.

The console keeps its memory accesses and the places of its glyphs, so that they can be spoken of.
`Bounded.write` is the step of its invariant: the cursor has room for a glyph below it, and every
access so far is inside of the surface.
-/

set_option autoImplicit false

namespace Plinth

namespace Fbcon

open Raster (Memory grid)

/-- `FONT_W`. -/
def fontW : Nat := 8

/-- `FONT_H`. -/
def fontH : Nat := 8

/-- `FMT_RGB` and so on. -/
inductive Format where
  | rgb
  | bgr
  | u8
  | other
  deriving DecidableEq, Repr

/-- A colour: red, green and blue. -/
structure Colour where
  r : UInt8
  g : UInt8
  b : UInt8
  deriving DecidableEq, Repr

/-- `FG`. -/
def fg : Colour := ⟨0xAA, 0xAA, 0xAA⟩

/-- `BG`. -/
def bg : Colour := ⟨0x00, 0x00, 0x00⟩

/-- The rows of a glyph. -/
abbrev Font := UInt8 → Nat → UInt8

/-- `Surface`. The bytes are mapped, so their number is that of an object in memory. -/
structure Surface extends Raster where
  format : Format
  mapped : toRaster.size ≤ 2 ^ 63

/-- The bytes of a colour, for a format that is known. -/
def px : Format → Colour → Option (List UInt8)
  | .rgb, c => some [c.r, c.g, c.b, 0]
  | .bgr, c => some [c.b, c.g, c.r, 0]
  | .u8, c =>
    some [UInt8.ofNat ((c.r.toNat * 77 + c.g.toNat * 150 + c.b.toNat * 29) / 2 ^ 8), 0, 0, 0]
  | .other, _ => none

/-- `FbConsole`, with the memory of its surface. -/
structure FbConsole where
  surface : Surface
  cx : Nat
  cy : Nat
  mem : Memory
  /-- The ranges of bytes that were read or written. -/
  accesses : List (Nat × Nat)
  /-- Where glyphs were drawn. -/
  glyphs : List (Nat × Nat)

namespace FbConsole

/-- `put_pixel`. -/
def putPixel (con : FbConsole) (x y : Nat) (c : Colour) : FbConsole :=
  if x ≥ con.surface.width ∨ y ≥ con.surface.height then con
  else
    match px con.surface.format c with
    | none => con
    | some bytes =>
      let offset := (y * con.surface.stride + x) * con.surface.bpp
      let bytes := bytes.take con.surface.bpp
      { con with
        mem := Raster.poke con.mem offset bytes
        accesses := con.accesses ++ [(offset, bytes.length)] }

/-- `put_pixel` for the pixels of a list. -/
def putPixels (con : FbConsole) (colour : Nat × Nat → Colour) (l : List (Nat × Nat)) : FbConsole :=
  l.foldl (fun con p => con.putPixel p.1 p.2 (colour p)) con

/-- `with_cursor`, over a memory. -/
def withCursor (surface : Surface) (mem : Memory) (cx cy : Nat) : FbConsole :=
  ⟨surface, cx, cy, mem, [], []⟩

/-- `clear`. -/
def clear (con : FbConsole) : FbConsole :=
  { con.putPixels (fun _ => bg) (grid 0 0 con.surface.width con.surface.height) with
    cx := 0, cy := 0 }

/-- The pixel of a glyph is set. The highest bit of a row is the leftmost pixel. -/
def bitOn (font : Font) (c : UInt8) (dx dy : Nat) : Bool := (font c dy).toNat.testBit (7 - dx)

/-- The colour of the pixel of a glyph. -/
def glyphColour (font : Font) (c : UInt8) (dx dy : Nat) : Colour :=
  if bitOn font c dx dy then fg else bg

/-- The place of a glyph is noted. -/
def addGlyph (con : FbConsole) (x y : Nat) : FbConsole :=
  { con with glyphs := con.glyphs ++ [(x, y)] }

/-- `blit_glyph`. -/
def blitGlyph (font : Font) (con : FbConsole) (c : UInt8) : FbConsole :=
  let drawn := (grid 0 0 fontW fontH).foldl
    (fun con' d => con'.putPixel (con.cx + d.1) (con.cy + d.2) (glyphColour font c d.1 d.2)) con
  drawn.addGlyph con.cx con.cy

/-- The move of `scroll_line`: the rows of a line and below go up by a line. -/
def moveUp (con : FbConsole) : FbConsole :=
  let rowBytes := con.surface.stride * con.surface.bpp
  let shift := fontH * rowBytes
  let total := con.surface.height * rowBytes
  { con with
    mem := fun a => if a < total - shift then con.mem (a + shift) else con.mem a
    accesses := con.accesses ++ [(shift, total - shift), (0, total - shift)] }

/-- `scroll_line`. -/
def scrollLine (con : FbConsole) : FbConsole :=
  let clearedTop := con.surface.height - fontH
  { con.moveUp.putPixels (fun _ => bg) (grid 0 clearedTop con.surface.width fontH) with
    cy := clearedTop }

/-- `newline`. -/
def newline (con : FbConsole) : FbConsole :=
  let con := { con with cx := 0 }
  if con.cy + 2 * fontH > con.surface.height then con.scrollLine
  else { con with cy := con.cy + fontH }

/-- A new line, if a glyph would straddle the right edge. -/
def wrap (con : FbConsole) : FbConsole :=
  if con.cx + fontW > con.surface.width then con.newline else con

/-- The cursor goes to the next cell. -/
def advance (con : FbConsole) : FbConsole := { con with cx := con.cx + fontW }

/-- A character that is drawn. -/
def writeChar (font : Font) (con : FbConsole) (b : UInt8) : FbConsole :=
  (con.wrap.blitGlyph font b).advance

/-- `write_byte`. -/
def writeByte (font : Font) (con : FbConsole) (b : UInt8) : FbConsole :=
  if b = 10 then con.newline
  else if b = 13 then { con with cx := 0 }
  else con.writeChar font b

/-- `write_str`. -/
def writeStr (font : Font) (con : FbConsole) (text : List UInt8) : FbConsole :=
  text.foldl (writeByte font) con

end FbConsole

/-! ### Surfaces that a console can draw on -/

/-- A surface with room for a glyph, with pixels of one to four bytes in a known format. -/
structure Surface.Usable (s : Surface) : Prop where
  width : 8 ≤ s.width ∧ s.width ≤ 2 ^ 31
  height : 8 ≤ s.height ∧ s.height ≤ 2 ^ 31
  bpp : 1 ≤ s.bpp ∧ s.bpp ≤ 4
  format : s.format ≠ .other

/-- The bytes of a pixel with a colour. -/
def Surface.bytes (s : Surface) (c : Colour) : List UInt8 := ((px s.format c).getD []).take s.bpp

variable {s : Surface} {font : Font} {con : FbConsole} {colour : Nat × Nat → Colour}
  {l : List (Nat × Nat)} {x y : Nat} {b c : UInt8}

theorem Surface.Usable.px_some (hs : s.Usable) (c : Colour) :
    ∃ bytes, px s.format c = some bytes ∧ bytes.length = 4 := by
  have hformat := hs.format
  cases hf : s.format with
  | rgb => exact ⟨_, rfl, rfl⟩
  | bgr => exact ⟨_, rfl, rfl⟩
  | u8 => exact ⟨_, rfl, rfl⟩
  | other => exact absurd hf hformat

theorem Surface.Usable.length_bytes (hs : s.Usable) (c : Colour) :
    (s.bytes c).length = s.bpp := by
  obtain ⟨bytes, hpx, hlen⟩ := hs.px_some c
  unfold Surface.bytes
  rw [hpx, Option.getD_some, List.length_take, hlen]
  exact Nat.min_eq_left hs.bpp.2

/-! ### Pixels -/

namespace FbConsole

/-- A pixel that is put is painted, if it is on the screen. -/
theorem putPixel_eq (hs : con.surface.Usable) (x y : Nat) (c : Colour) :
    con.putPixel x y c =
      if con.surface.On x y then { con with
        mem := Raster.poke con.mem (con.surface.offset x y) (con.surface.bytes c)
        accesses := con.accesses ++ [(con.surface.offset x y, (con.surface.bytes c).length)] }
      else con := by
  obtain ⟨bytes, hpx, -⟩ := hs.px_some c
  have hbytes : con.surface.bytes c = bytes.take con.surface.bpp := by
    unfold Surface.bytes
    rw [hpx, Option.getD_some]
  unfold putPixel
  by_cases hon : con.surface.On x y
  · rw [if_pos hon, if_neg (by unfold Raster.On at hon; omega), hpx, hbytes]
    rfl
  · rw [if_neg hon, if_pos (by unfold Raster.On at hon; omega)]

/-- The pixels of a list are painted, and nothing else changes. -/
theorem putPixels_eq (hs : con.surface.Usable) (colour : Nat × Nat → Colour)
    (l : List (Nat × Nat)) :
    con.putPixels colour l = { con with
      mem := con.surface.paint (fun p => con.surface.bytes (colour p)) con.mem l
      accesses := con.accesses ++
        con.surface.painted (fun p => con.surface.bytes (colour p)) l } := by
  induction l generalizing con with
  | nil =>
    show con = { con with accesses := con.accesses ++ [] }
    rw [List.append_nil]
  | cons p l ih =>
    show (con.putPixel p.1 p.2 (colour p)).putPixels colour l = _
    rw [Raster.paint_cons, Raster.painted_cons, putPixel_eq hs]
    by_cases hon : con.surface.On p.1 p.2
    · rw [if_pos hon, if_pos hon, if_pos hon, ih (by exact hs), ← List.append_assoc]
    · rw [if_neg hon, if_neg hon, if_neg hon, ih hs, List.nil_append]

theorem putPixels_surface (hs : con.surface.Usable) :
    (con.putPixels colour l).surface = con.surface := by
  rw [putPixels_eq hs]

theorem putPixels_cx (hs : con.surface.Usable) : (con.putPixels colour l).cx = con.cx := by
  rw [putPixels_eq hs]

theorem putPixels_cy (hs : con.surface.Usable) : (con.putPixels colour l).cy = con.cy := by
  rw [putPixels_eq hs]

@[simp] theorem addGlyph_cx : (con.addGlyph x y).cx = con.cx := rfl

@[simp] theorem addGlyph_cy : (con.addGlyph x y).cy = con.cy := rfl

@[simp] theorem advance_surface : con.advance.surface = con.surface := rfl

@[simp] theorem advance_cx : con.advance.cx = con.cx + fontW := rfl

@[simp] theorem advance_cy : con.advance.cy = con.cy := rfl

@[simp] theorem advance_mem : con.advance.mem = con.mem := rfl

@[simp] theorem addGlyph_surface : (con.addGlyph x y).surface = con.surface := rfl

@[simp] theorem addGlyph_mem : (con.addGlyph x y).mem = con.mem := rfl

/-- A glyph is the pixels of its cell. -/
theorem blitGlyph_eq (font : Font) (con : FbConsole) (c : UInt8) :
    con.blitGlyph font c =
      (con.putPixels (fun p => glyphColour font c (p.1 - con.cx) (p.2 - con.cy))
        (grid con.cx con.cy fontW fontH)).addGlyph con.cx con.cy := by
  have hgrid : grid con.cx con.cy fontW fontH =
      (grid 0 0 fontW fontH).map fun d => (con.cx + d.1, con.cy + d.2) := by
    unfold grid
    rw [List.map_flatMap]
    refine List.flatMap_congr fun dy _ => ?_
    rw [List.map_map]
    simp only [Function.comp_def, Nat.zero_add]
  unfold blitGlyph putPixels
  rw [hgrid, List.foldl_map]
  simp only [Nat.add_sub_cancel_left]

theorem blitGlyph_surface (hs : con.surface.Usable) :
    (con.blitGlyph font c).surface = con.surface := by
  rw [blitGlyph_eq, addGlyph_surface, putPixels_surface hs]

theorem blitGlyph_cx (hs : con.surface.Usable) : (con.blitGlyph font c).cx = con.cx := by
  rw [blitGlyph_eq, addGlyph_cx, putPixels_cx hs]

theorem blitGlyph_cy (hs : con.surface.Usable) : (con.blitGlyph font c).cy = con.cy := by
  rw [blitGlyph_eq, addGlyph_cy, putPixels_cy hs]

theorem newline_cx (hs : con.surface.Usable) : con.newline.cx = 0 := by
  unfold newline
  dsimp only
  split
  · show (FbConsole.putPixels _ _ _).cx = 0
    rw [putPixels_cx (by exact hs)]
    rfl
  · rfl

end FbConsole

/-! ### Accesses -/

/-- The cursor has room for a glyph below it, each access is inside of the surface, and each glyph
is wholly on it. -/
structure Bounded (s : Surface) (con : FbConsole) : Prop where
  surface : con.surface = s
  cx : con.cx ≤ s.width
  cy : con.cy + fontH ≤ s.height
  accesses : ∀ a ∈ con.accesses, a.1 + a.2 ≤ s.size
  glyphs : ∀ g ∈ con.glyphs, g.1 + fontW ≤ s.width ∧ g.2 + fontH ≤ s.height

namespace Bounded

open FbConsole

theorem putPixels (hs : s.Usable) (h : Bounded s con) (colour : Nat × Nat → Colour)
    (l : List (Nat × Nat)) : Bounded s (con.putPixels colour l) := by
  obtain ⟨rfl, hcx, hcy, haccesses, hglyphs⟩ := h
  rw [putPixels_eq hs]
  refine ⟨rfl, hcx, hcy, List.forall_mem_append.mpr ⟨haccesses, ?_⟩, hglyphs⟩
  exact Raster.painted_inside fun p _ => Nat.le_of_eq (hs.length_bytes _)

theorem cursor {cx cy : Nat} (h : Bounded s con) (hcx : cx ≤ s.width)
    (hcy : cy + fontH ≤ s.height) : Bounded s { con with cx, cy } :=
  ⟨h.surface, hcx, hcy, h.accesses, h.glyphs⟩

/-- Both ranges of the move are inside: a surface has room for a line. -/
theorem moveUp (hs : s.Usable) (h : Bounded s con) : Bounded s con.moveUp := by
  obtain ⟨rfl, hcx, hcy, haccesses, hglyphs⟩ := h
  have htotal : con.surface.height * (con.surface.stride * con.surface.bpp) = con.surface.size := by
    unfold Raster.size
    rw [← Nat.mul_assoc, Nat.mul_comm con.surface.height]
  have hshift : fontH * (con.surface.stride * con.surface.bpp) ≤ con.surface.size := by
    rw [← htotal]
    exact Nat.mul_le_mul_right _ hs.height.1
  refine ⟨rfl, hcx, hcy, List.forall_mem_append.mpr ⟨haccesses, ?_⟩, hglyphs⟩
  rw [htotal]
  intro a ha
  rcases List.mem_pair.mp ha with rfl | rfl
  · show fontH * _ + (con.surface.size - fontH * _) ≤ con.surface.size
    omega
  · show 0 + (con.surface.size - fontH * _) ≤ con.surface.size
    omega

theorem newline (hs : s.Usable) (h : Bounded s con) : Bounded s con.newline := by
  have hheight := hs.height.1
  unfold FbConsole.newline
  dsimp only
  split
  · have hmoved := ((h.cursor (Nat.zero_le _) h.cy).moveUp hs).putPixels hs (fun _ => bg)
      (grid 0 (con.surface.height - fontH) con.surface.width fontH)
    refine hmoved.cursor hmoved.cx ?_
    show con.surface.height - fontH + fontH ≤ s.height
    rw [h.surface]
    unfold fontH
    omega
  · rename_i hroom
    refine h.cursor (Nat.zero_le _) ?_
    rw [h.surface] at hroom
    show con.cy + fontH + fontH ≤ s.height
    have hroom' : ¬ con.cy + 2 * fontH > s.height := hroom
    omega

theorem addGlyph (h : Bounded s con) (hx : x + fontW ≤ s.width) (hy : y + fontH ≤ s.height) :
    Bounded s (con.addGlyph x y) := by
  refine ⟨h.surface, h.cx, h.cy, h.accesses, List.forall_mem_append.mpr ⟨h.glyphs, ?_⟩⟩
  intro g hg
  rw [List.mem_singleton.mp hg]
  exact ⟨hx, hy⟩

theorem blitGlyph (hs : s.Usable) (h : Bounded s con) (hcx : con.cx + fontW ≤ s.width)
    (font : Font) (c : UInt8) : Bounded s (con.blitGlyph font c) := by
  rw [blitGlyph_eq]
  exact (h.putPixels hs _ _).addGlyph hcx h.cy

/-- After the wrap there is room for a glyph at the cursor. -/
theorem wrap (hs : s.Usable) (h : Bounded s con) :
    Bounded s con.wrap ∧ con.wrap.cx + fontW ≤ s.width := by
  have hwidth := hs.width.1
  obtain rfl := h.surface
  unfold FbConsole.wrap
  split
  · refine ⟨h.newline hs, ?_⟩
    rw [newline_cx hs]
    exact hwidth
  · rename_i hroom
    exact ⟨h, Nat.not_lt.mp hroom⟩

theorem writeByte (hs : s.Usable) (h : Bounded s con) (b : UInt8) :
    Bounded s (con.writeByte font b) := by
  unfold FbConsole.writeByte
  split
  · exact h.newline hs
  · split
    · exact h.cursor (Nat.zero_le _) h.cy
    · obtain ⟨hwrap, hroom⟩ := h.wrap hs
      have hblit := hwrap.blitGlyph hs hroom font b
      refine hblit.cursor ?_ hblit.cy
      rw [blitGlyph_cx (by rw [hwrap.surface]; exact hs)]
      exact hroom

/-- The invariant of a run. -/
theorem writeStr (hs : s.Usable) (h : Bounded s con) (text : List UInt8) :
    Bounded s (con.writeStr font text) := by
  induction text generalizing con with
  | nil => exact h
  | cons b text ih => exact ih (h.writeByte hs b)

/-- A cleared console starts at the top left corner. -/
theorem clear (hs : s.Usable) (m : Memory) (cx cy : Nat) :
    Bounded s (withCursor s m cx cy).clear := by
  unfold FbConsole.clear
  rw [putPixels_eq (by exact hs)]
  refine ⟨rfl, Nat.zero_le _, ?_, ?_, nofun⟩
  · show 0 + fontH ≤ s.height
    rw [Nat.zero_add]
    exact hs.height.1
  · dsimp only [withCursor]
    rw [List.nil_append]
    exact Raster.painted_inside fun p _ => Nat.le_of_eq (hs.length_bytes _)

end Bounded

end Fbcon

end Plinth
