import Mathlib.Tactic.Ring
import Plinth.Console.Surface

/-!
# `Plinth.Console.Terminal`: the console shows the end of its text

A terminal is the lines of a text. A line ends at a newline, and before a character that has no
column. A carriage return starts the current line again, so later characters replace earlier ones.
What it shows is the last lines, as many as there are rows.

`Shows` connects a console to a terminal: the cursor is at the end of the text, and each pixel has
the colour of the glyph in its cell. `Shows.write` is the step for a byte. A new line either leaves
the picture, or it scrolls it, and then the first line that was shown is gone from the terminal's
window as well. `console_shows` is the run.
-/

set_option autoImplicit false

namespace Plinth

namespace Fbcon

open Raster (Memory grid mem_grid)
open FbConsole (glyphColour)

/-! ### Terminals -/

/-- The lines of a text: those that have ended, the current one, and the column in it. -/
structure Terminal where
  done : List (List UInt8)
  line : List UInt8
  col : Nat
  deriving DecidableEq, Repr

namespace Terminal

/-- The terminal before the first byte. -/
def empty : Terminal := ⟨[], [], 0⟩

/-- The current line ends. -/
def newline (t : Terminal) : Terminal := ⟨t.done ++ [t.line], [], 0⟩

/-- Put a character at the column. -/
def put (t : Terminal) (b : UInt8) : Terminal :=
  { t with line := t.line.take t.col ++ b :: t.line.drop (t.col + 1), col := t.col + 1 }

/-- The line ends before a character that has no column. -/
def wrap (cols : Nat) (t : Terminal) : Terminal := if t.col < cols then t else t.newline

/-- One byte of the text. -/
def write (cols : Nat) (t : Terminal) (b : UInt8) : Terminal :=
  if b = 10 then t.newline
  else if b = 13 then { t with col := 0 }
  else (t.wrap cols).put b

/-- The terminal after a text. -/
def run (cols : Nat) (text : List UInt8) : Terminal := text.foldl (write cols) empty

/-- All lines. -/
def lines (t : Terminal) : List (List UInt8) := t.done ++ [t.line]

/-- The last lines, as many as there are rows. -/
def shown (rows : Nat) (t : Terminal) : List (List UInt8) :=
  t.lines.drop (t.lines.length - rows)

/-- The character in a cell. -/
def cellAt (rows : Nat) (t : Terminal) (row col : Nat) : Option UInt8 :=
  (t.shown rows)[row]?.bind fun chars => chars[col]?

/-- The colour of a pixel of a cell: that of the glyph, or the background. -/
def cellColour (font : Font) (dx dy : Nat) : Option UInt8 → Colour
  | some c => glyphColour font c dx dy
  | none => bg

/-- The colour of a pixel. -/
def colourAt (font : Font) (rows : Nat) (t : Terminal) (x y : Nat) : Colour :=
  cellColour font (x % fontW) (y % fontH) (t.cellAt rows (y / fontH) (x / fontW))

end Terminal

variable {t : Terminal} {rows cols row col : Nat} {b : UInt8} {font : Font}

/-! ### Cells -/

namespace Terminal

/-- The row of the screen in which the current line is. -/
def lastRow (rows : Nat) (t : Terminal) : Nat := min t.lines.length rows - 1

theorem length_lines (t : Terminal) : t.lines.length = t.done.length + 1 := by
  simp [lines]

theorem cellAt_eq (rows : Nat) (t : Terminal) (row col : Nat) :
    t.cellAt rows row col =
      (t.lines[t.lines.length - rows + row]?).bind fun chars => chars[col]? := by
  unfold cellAt shown
  rw [List.getElem?_drop]

/-- An empty line has no characters, just as a line that is not there. -/
theorem append_nil_line (ls : List (List UInt8)) (i col : Nat) :
    ((ls ++ [[]])[i]?.bind fun chars => chars[col]?) = ls[i]?.bind fun chars => chars[col]? := by
  by_cases hi : i < ls.length
  · rw [List.getElem?_append_left hi]
  · have hout : ls.length ≤ i := by omega
    rw [List.getElem?_append_right (by omega), List.getElem?_eq_none hout]
    cases hsub : i - ls.length with
    | zero => simp
    | succ k => simp

theorem lines_newline (t : Terminal) : t.newline.lines = t.lines ++ [[]] := rfl

/-- A new line in a free row changes no cell. -/
theorem cellAt_newline_room (h : t.lines.length < rows) (row col : Nat) :
    t.newline.cellAt rows row col = t.cellAt rows row col := by
  rw [cellAt_eq, cellAt_eq, lines_newline, append_nil_line]
  simp only [List.length_append, List.length_singleton]
  congr 2
  omega

/-- Without a free row the cells go up. -/
theorem cellAt_newline_full (h : rows ≤ t.lines.length) (row col : Nat) :
    t.newline.cellAt rows row col = t.cellAt rows (row + 1) col := by
  rw [cellAt_eq, cellAt_eq, lines_newline, append_nil_line]
  simp only [List.length_append, List.length_singleton]
  congr 2
  omega

/-- Below the current line there is nothing. -/
theorem cellAt_below (h : t.lastRow rows < row) : t.cellAt rows row col = none := by
  have hlen := t.length_lines
  unfold lastRow at h
  rw [cellAt_eq, List.getElem?_eq_none (by omega)]
  rfl

/-- The cells of the current line. -/
theorem cellAt_last (hrows : 0 < rows) (col : Nat) :
    t.cellAt rows (t.lastRow rows) col = t.line[col]? := by
  have hlen := t.length_lines
  have hindex : t.lines.length - rows + t.lastRow rows = t.done.length := by
    unfold lastRow
    omega
  rw [cellAt_eq, hindex]
  unfold lines
  rw [List.getElem?_append_right (Nat.le_refl _), Nat.sub_self]
  rfl

/-- The cells of other rows do not depend on the current line. -/
theorem cellAt_other (hrows : 0 < rows) (hrow : row ≠ t.lastRow rows) (line : List UInt8)
    (c col : Nat) : ({ t with line := line, col := c } : Terminal).cellAt rows row col =
      t.cellAt rows row col := by
  have hlen := t.length_lines
  have hlen' : ({ t with line := line, col := c } : Terminal).lines.length = t.lines.length := by
    rw [length_lines, length_lines]
  rw [cellAt_eq, cellAt_eq, hlen']
  have hindex : t.lines.length - rows + row ≠ t.done.length := by
    unfold lastRow at hrow
    omega
  generalize t.lines.length - rows + row = i at hindex ⊢
  unfold lines
  by_cases hlt : i < t.done.length
  · rw [List.getElem?_append_left hlt, List.getElem?_append_left hlt]
  · have hout : ∀ line : List UInt8, (t.done ++ [line])[i]? = none := by
      intro line
      refine List.getElem?_eq_none ?_
      rw [List.length_append, List.length_singleton]
      omega
    rw [hout, hout]

/-- A character that is put is at its column. -/
theorem getElem?_put (chars : List UInt8) {c : Nat} (hc : c ≤ chars.length) (b : UInt8)
    (col : Nat) :
    (chars.take c ++ b :: chars.drop (c + 1))[col]? = if col = c then some b else chars[col]? := by
  have hlen : (chars.take c).length = c := by
    rw [List.length_take]
    omega
  by_cases hlt : col < c
  · rw [List.getElem?_append_left (by omega), List.getElem?_take_of_lt hlt, if_neg (by omega)]
  · rw [List.getElem?_append_right (by omega), hlen]
    by_cases heq : col = c
    · rw [if_pos heq, heq, Nat.sub_self]
      rfl
    · obtain ⟨k, hk⟩ : ∃ k, col - c = k + 1 := ⟨col - c - 1, by omega⟩
      rw [if_neg heq, hk, List.getElem?_cons_succ, List.getElem?_drop]
      congr 1
      omega

theorem lastRow_put (rows : Nat) (t : Terminal) (b : UInt8) :
    (t.put b).lastRow rows = t.lastRow rows := by
  unfold lastRow
  rw [length_lines, length_lines]
  rfl

/-- A character changes its own cell. -/
theorem cellAt_put (hrows : 0 < rows) (hcol : t.col ≤ t.line.length) (row col : Nat) :
    (t.put b).cellAt rows row col =
      if row = t.lastRow rows ∧ col = t.col then some b else t.cellAt rows row col := by
  by_cases hrow : row = t.lastRow rows
  · have hput := cellAt_last hrows col (t := t.put b)
    rw [lastRow_put] at hput
    rw [hrow, hput, cellAt_last hrows]
    show (t.line.take t.col ++ b :: t.line.drop (t.col + 1))[col]? = _
    rw [getElem?_put t.line hcol]
    simp only [true_and]
  · rw [if_neg fun h => hrow h.1]
    exact cellAt_other hrows hrow ..

end Terminal

/-! ### Pixels -/

namespace FbConsole

variable {con : FbConsole} {x y : Nat} {c : UInt8}

theorem pixel_putPixels (con : FbConsole) (colour : Nat × Nat → Colour) (l : List (Nat × Nat))
    (hs : con.surface.Usable) (hon : con.surface.On x y) :
    con.surface.pixel (con.putPixels colour l).mem x y =
      if (x, y) ∈ l then con.surface.bytes (colour (x, y)) else con.surface.pixel con.mem x y := by
  rw [putPixels_eq hs]
  exact Raster.pixel_paint (fun p _ => hs.length_bytes _) hon

/-- A pixel of the cell shows the glyph, and all others are as before. -/
theorem pixel_blitGlyph (hs : con.surface.Usable) (hon : con.surface.On x y) :
    con.surface.pixel (con.blitGlyph font c).mem x y =
      if (con.cx ≤ x ∧ x < con.cx + fontW) ∧ con.cy ≤ y ∧ y < con.cy + fontH then
        con.surface.bytes (glyphColour font c (x - con.cx) (y - con.cy))
      else con.surface.pixel con.mem x y := by
  rw [blitGlyph_eq, addGlyph_mem, pixel_putPixels con _ _ hs hon]
  simp only [mem_grid]

/-- A line up, a pixel shows what was below. -/
theorem pixel_moveUp (con : FbConsole) (hon : con.surface.On x (y + fontH)) :
    con.surface.pixel con.moveUp.mem x y = con.surface.pixel con.mem x (y + fontH) := by
  have hend := Raster.offset_add_le hon
  have htotal : con.surface.height * (con.surface.stride * con.surface.bpp) = con.surface.size := by
    unfold Raster.size
    rw [← Nat.mul_assoc, Nat.mul_comm con.surface.height]
  have hbelow : con.surface.offset x (y + fontH) =
      con.surface.offset x y + fontH * (con.surface.stride * con.surface.bpp) := by
    unfold Raster.offset
    ring
  refine List.map_congr_left fun i hi => ?_
  rw [List.mem_range] at hi
  rw [hbelow] at hend ⊢
  show (if _ < con.surface.height * (con.surface.stride * con.surface.bpp) -
    fontH * (con.surface.stride * con.surface.bpp) then _ else _) = _
  rw [htotal, if_pos (by omega)]
  congr 1
  omega

end FbConsole

/-! ### The terminal of a console -/

/-- The console shows the terminal. -/
structure Shows (s : Surface) (font : Font) (con : FbConsole) (t : Terminal) : Prop where
  surface : con.surface = s
  cx : con.cx = fontW * t.col
  cy : con.cy = fontH * t.lastRow (s.height / fontH)
  col : t.col ≤ t.line.length ∧ t.line.length ≤ s.width / fontW
  pixels : ∀ x y, s.On x y →
    s.pixel con.mem x y = s.bytes (t.colourAt font (s.height / fontH) x y)

namespace Shows

variable {s : Surface} {con : FbConsole}

/-- The surface has a row and a column. -/
theorem rows_pos (hs : s.Usable) : 0 < s.height / fontH :=
  Nat.div_pos hs.height.1 (by decide)

theorem cols_pos (hs : s.Usable) : 0 < s.width / fontW :=
  Nat.div_pos hs.width.1 (by decide)

theorem clear (hs : s.Usable) (font : Font) (m : Memory) (cx cy : Nat) :
    Shows s font (FbConsole.withCursor s m cx cy).clear .empty := by
  have hcells : ∀ row col, Terminal.empty.cellAt (s.height / fontH) row col = none := by
    intro row col
    rw [Terminal.cellAt_eq]
    exact Terminal.append_nil_line [] ..
  refine ⟨?_, rfl, ?_, ⟨Nat.le_refl _, Nat.zero_le _⟩, ?_⟩
  · unfold FbConsole.clear
    rw [FbConsole.putPixels_eq (by exact hs)]
    rfl
  · show 0 = fontH * (min 1 (s.height / fontH) - 1)
    have hrows := rows_pos hs
    rw [Nat.min_eq_left hrows]
    rfl
  · intro x y hon
    have hmem : (x, y) ∈ grid 0 0 s.width s.height := by
      rw [mem_grid]
      have hx := hon.1
      have hy := hon.2
      omega
    have hpixel := FbConsole.pixel_putPixels (FbConsole.withCursor s m cx cy) (fun _ => bg)
      (grid 0 0 s.width s.height) hs hon
    rw [if_pos hmem] at hpixel
    unfold Terminal.colourAt
    rw [hcells]
    exact hpixel

/-- There is a free row exactly when the next line does not run past the bottom. -/
theorem scrolls_iff (hs : s.Usable) (hheight : s.height % fontH = 0) (h : Shows s font con t) :
    con.cy + 2 * fontH > s.height ↔ s.height / fontH ≤ t.lines.length := by
  have hrows := rows_pos hs
  have hlen := t.length_lines
  rw [h.cy]
  unfold Terminal.lastRow fontH at *
  omega

/-- A new line goes to the next row, or the picture is scrolled. -/
theorem newline (hs : s.Usable) (hheight : s.height % fontH = 0) (h : Shows s font con t) :
    Shows s font con.newline t.newline := by
  have hrows := rows_pos hs
  have hlen := t.length_lines
  have hscrolls := h.scrolls_iff hs hheight
  obtain ⟨rfl, hcx, hcy, hcol, hpixels⟩ := h
  unfold FbConsole.newline
  dsimp only
  by_cases hfull : con.surface.height / fontH ≤ t.lines.length
  · rw [if_pos (hscrolls.mpr hfull)]
    refine ⟨?_, ?_, ?_, ⟨Nat.le_refl _, Nat.zero_le _⟩, ?_⟩
    · show (FbConsole.putPixels _ _ _).surface = _
      rw [FbConsole.putPixels_eq (by exact hs)]
      rfl
    · show (FbConsole.putPixels _ _ _).cx = _
      rw [FbConsole.putPixels_cx (by exact hs)]
      rfl
    · show con.surface.height - fontH = _
      unfold Terminal.lastRow
      rw [Terminal.lines_newline, List.length_append, List.length_singleton]
      unfold fontH at *
      omega
    · intro x y hon
      have hpixel := FbConsole.pixel_putPixels { con with cx := 0 }.moveUp (fun _ => bg)
        (grid 0 (con.surface.height - fontH) con.surface.width fontH) hs hon
      refine Eq.trans hpixel ?_
      unfold Terminal.colourAt
      rw [Terminal.cellAt_newline_full hfull]
      have hx := hon.1
      have hy := hon.2
      by_cases hbottom : con.surface.height - fontH ≤ y
      · -- The last row is cleared, and the terminal has an empty line there.
        rw [if_pos (by rw [mem_grid]; omega), Terminal.cellAt_below]
        · rfl
        · unfold Terminal.lastRow fontH at *
          omega
      · have hbelow : con.surface.On x (y + fontH) := ⟨hx, by omega⟩
        rw [if_neg (by rw [mem_grid]; omega)]
        refine Eq.trans (FbConsole.pixel_moveUp { con with cx := 0 } hbelow) ?_
        refine Eq.trans (hpixels x (y + fontH) hbelow) ?_
        unfold Terminal.colourAt
        rw [Nat.add_mod_right, Nat.add_div_right _ (by decide)]
  · rw [if_neg (fun h => hfull (hscrolls.mp h))]
    refine ⟨rfl, rfl, ?_, ⟨Nat.le_refl _, Nat.zero_le _⟩, ?_⟩
    · show con.cy + fontH = _
      rw [hcy]
      unfold Terminal.lastRow
      rw [Terminal.lines_newline, List.length_append, List.length_singleton]
      unfold fontH at *
      omega
    · intro x y hon
      unfold Terminal.colourAt
      rw [Terminal.cellAt_newline_room (by omega)]
      exact hpixels x y hon

theorem carriage (h : Shows s font con t) :
    Shows s font { con with cx := 0 } { t with col := 0 } := by
  refine ⟨h.surface, rfl, h.cy, ⟨Nat.zero_le _, h.col.2⟩, h.pixels⟩

/-- The console wraps when the terminal does. -/
theorem wrap (hs : s.Usable) (hheight : s.height % fontH = 0) (h : Shows s font con t) :
    Shows s font con.wrap (t.wrap (s.width / fontW)) ∧
      (t.wrap (s.width / fontW)).col < s.width / fontW := by
  have hwraps : con.cx + fontW > con.surface.width ↔ ¬ t.col < s.width / fontW := by
    rw [h.cx, h.surface]
    unfold fontW
    omega
  unfold FbConsole.wrap Terminal.wrap
  by_cases hcol : t.col < s.width / fontW
  · rw [if_pos hcol, if_neg fun hc => hwraps.mp hc hcol]
    exact ⟨h, hcol⟩
  · rw [if_neg hcol, if_pos (hwraps.mpr hcol)]
    exact ⟨h.newline hs hheight, cols_pos hs⟩

/-- A glyph is drawn in the cell of its character. -/
theorem put (hs : s.Usable) (h : Shows s font con t) (hcol : t.col < s.width / fontW)
    (b : UInt8) :
    Shows s font (con.blitGlyph font b).advance (t.put b) := by
  have hrows := rows_pos hs
  obtain ⟨rfl, hcx, hcy, ⟨hline, hlen⟩, hpixels⟩ := h
  refine ⟨?_, ?_, ?_, ?_, ?_⟩
  · rw [FbConsole.advance_surface, FbConsole.blitGlyph_surface hs]
  · rw [FbConsole.advance_cx, FbConsole.blitGlyph_cx hs, hcx]
    rfl
  · rw [FbConsole.advance_cy, FbConsole.blitGlyph_cy hs, hcy, Terminal.lastRow_put]
  · show t.col + 1 ≤ (t.line.take t.col ++ b :: t.line.drop (t.col + 1)).length ∧
      (t.line.take t.col ++ b :: t.line.drop (t.col + 1)).length ≤ _
    simp only [List.length_append, List.length_take, List.length_cons, List.length_drop]
    omega
  · intro x y hon
    rw [FbConsole.advance_mem, FbConsole.pixel_blitGlyph hs hon]
    have hcell : (con.cx ≤ x ∧ x < con.cx + fontW) ∧ con.cy ≤ y ∧ y < con.cy + fontH ↔
        y / fontH = t.lastRow (con.surface.height / fontH) ∧ x / fontW = t.col := by
      rw [hcx, hcy]
      unfold fontW fontH
      omega
    unfold Terminal.colourAt
    rw [Terminal.cellAt_put hrows hline]
    by_cases hin : y / fontH = t.lastRow (con.surface.height / fontH) ∧ x / fontW = t.col
    · rw [if_pos (hcell.mpr hin), if_pos hin]
      have hdx : x - con.cx = x % fontW := by
        rw [hcx, ← hin.2]
        unfold fontW
        omega
      have hdy : y - con.cy = y % fontH := by
        rw [hcy, ← hin.1]
        unfold fontH
        omega
      rw [hdx, hdy]
      rfl
    · rw [if_neg fun h => hin (hcell.mp h), if_neg hin]
      exact hpixels x y hon

/-- One byte. -/
theorem write (hs : s.Usable) (hheight : s.height % fontH = 0) (h : Shows s font con t)
    (b : UInt8) : Shows s font (con.writeByte font b) (t.write (s.width / fontW) b) := by
  unfold FbConsole.writeByte Terminal.write
  by_cases hnewline : b = 10
  · rw [if_pos hnewline, if_pos hnewline]
    exact h.newline hs hheight
  · rw [if_neg hnewline, if_neg hnewline]
    by_cases hreturn : b = 13
    · rw [if_pos hreturn, if_pos hreturn]
      exact h.carriage
    · rw [if_neg hreturn, if_neg hreturn]
      obtain ⟨hwrap, hcol⟩ := h.wrap hs hheight
      exact hwrap.put hs hcol b

/-- A text, from any terminal. The induction is on the text. -/
theorem writeStr (hs : s.Usable) (hheight : s.height % fontH = 0) (h : Shows s font con t)
    (text : List UInt8) :
    Shows s font (con.writeStr font text) (text.foldl (Terminal.write (s.width / fontW)) t) := by
  induction text generalizing con t with
  | nil => exact h
  | cons b text ih => exact ih (h.write hs hheight b)

end Shows

/-- What a text does to a console that was cleared: each access is inside of the surface, each glyph
is wholly on it, the cursor leaves room for a glyph below it, and on a surface of whole lines the
pixels are those of the last lines of the text. -/
theorem console_shows (s : Surface) (font : Font) (m : Memory) (cx cy : Nat) (text : List UInt8)
    (hs : s.Usable) :
    let con := (FbConsole.withCursor s m cx cy).clear.writeStr font text
    (∀ a ∈ con.accesses, a.1 + a.2 ≤ s.size) ∧
    (∀ g ∈ con.glyphs, g.1 + fontW ≤ s.width ∧ g.2 + fontH ≤ s.height) ∧
    (con.cx ≤ s.width ∧ con.cy + fontH ≤ s.height) ∧
    (s.height % fontH = 0 → ∀ x y, s.On x y → s.pixel con.mem x y =
      s.bytes ((Terminal.run (s.width / fontW) text).colourAt font (s.height / fontH) x y)) := by
  intro con
  have hbounded : Bounded s con := (Bounded.clear hs m cx cy).writeStr hs text
  refine ⟨hbounded.accesses, hbounded.glyphs, ⟨hbounded.cx, hbounded.cy⟩, fun hheight => ?_⟩
  exact ((Shows.clear hs font m cx cy).writeStr hs hheight text).pixels

/-- A surface of two columns and one line, with padding in each row. -/
def strip : Surface where
  width := 16
  height := 8
  stride := 20
  bpp := 2
  wide := by decide
  format := .bgr
  mapped := by decide

/-- The text `ABC`, a carriage return and `D`, with glyphs that are the bits of the character. The
third character scrolls the first two away, and `D` replaces it. -/
theorem console_shows_strip :
    strip.pixel ((FbConsole.withCursor strip (fun _ => 0xFF) 0 0).clear.writeStr (fun c _ => c)
      [65, 66, 67, 13, 68]).mem 1 0 = [0xAA, 0xAA] := by
  have husable : strip.Usable := ⟨by decide, by decide, by decide, by decide⟩
  have hshows := console_shows strip (fun c _ => c) (fun _ => 0xFF) 0 0 [65, 66, 67, 13, 68] husable
  rw [hshows.2.2.2 (by decide) 1 0 (by decide)]
  decide +kernel

end Fbcon

end Plinth
