import Plinth.Gfx.Picture

/-!
# `Plinth.Gfx.Home`: the home screen of the shell

`draw_home` clears the screen and draws the title bar, the four cells of the icons and a line with
hints. When the selection moves, the shell draws two cells only: a full redraw would be seen as a
flash. The comment of `move_selection` says that this leaves the screen as a full `draw_home` would.

`selection_redraw` proves it, byte for byte. At each place it asks which drawing is the last one
there (`Plinth.Gfx.Picture`): the cells are disjoint, and none of them reaches the line with the
hints as long as the screen has the room of `Roomy`. On a screen with fewer rows the line runs
through the lower cells.

`hitTest_iff` says that `hit_test` finds the cell that a point is in.
-/

set_option autoImplicit false

namespace Plinth

namespace Gfx

open Fbcon (Colour Font)
open Raster (Memory)

/-! ### Drawings -/

/-- `BG`. -/
def shellBg : Colour := ⟨0x10, 0x10, 0x20⟩

/-- `saturating_sub`. -/
def satSub (a b : UInt32) : UInt32 := if b ≤ a then a - b else 0

/-- `draw_text_centered`. -/
def drawTextCentered (font : Font) (cx y : UInt32) (text : List UInt8) (fg bg : Colour)
    (scale : UInt32) : List Put :=
  drawText font (satSub cx (textWidth text scale / 2)) y text fg bg scale

/-- `PLINTH HOME`. -/
def homeTitle : List UInt8 := [80, 76, 73, 78, 84, 72, 32, 72, 79, 77, 69]

/-- `ARROWS MOVE   ENTER OPEN   CLICK   Q QUIT`. -/
def homeHint : List UInt8 :=
  [65, 82, 82, 79, 87, 83, 32, 77, 79, 86, 69, 32, 32, 32, 69, 78, 84, 69, 82, 32, 79, 80, 69, 78,
    32, 32, 32, 67, 76, 73, 67, 75, 32, 32, 32, 81, 32, 81, 85, 73, 84]

/-- `draw_home`. -/
def drawHome (font : Font) (w h : UInt32) (sel : Nat) : Option (List Put) := do
  let cells ← (List.range 4).mapM fun i => drawIcon font w h i (i == sel)
  some (fillRect 0 0 w h shellBg ++ fillRect 0 0 w 40 bar ++
    drawText font 8 8 homeTitle shellFg bar 3 ++ cells.flatten ++
    drawTextCentered font (w / 2) (h - 48) homeHint shellFg shellBg 2)

/-- A point is in a cell, by the comparisons of `hit_test`. -/
def inCell (w h : UInt32) (idx : Nat) (x y : UInt32) : Bool :=
  let place := iconRect w h idx
  place.1 ≤ x && x < place.1 + iconW && place.2 ≤ y && y < place.2 + iconH

/-- `hit_test`. -/
def hitTest (w h x y : UInt32) : Option Nat := (List.range 4).find? fun idx => inCell w h idx x y

/-! ### Cells -/

variable {fb : Framebuffer} {font : Font} {m : Memory} {w h : UInt32} {idx px py : Nat}
  {selected : Bool}

/-- The drawing of a cell that has a label. -/
def iconPuts (font : Font) (w h : UInt32) (idx : Nat) (selected : Bool) : List Put :=
  (drawIcon font w h idx selected).getD []

/-- The four cells of the home screen. -/
def cellPuts (font : Font) (w h : UInt32) (sel : Nat) : List Put :=
  (List.range 4).flatMap fun i => iconPuts font w h i (i == sel)

/-- The drawing of the home screen. -/
def homePuts (font : Font) (w h : UInt32) (sel : Nat) : List Put :=
  fillRect 0 0 w h shellBg ++ fillRect 0 0 w 40 bar ++
    drawText font 8 8 homeTitle shellFg bar 3 ++ cellPuts font w h sel ++
    drawTextCentered font (w / 2) (h - 48) homeHint shellFg shellBg 2

/-- Each of the four icons has a label. -/
theorem iconLabels_length : iconLabels.length = 4 := rfl

/-- No icon panics. -/
theorem drawIcon_eq (hidx : idx < 4) :
    drawIcon font w h idx selected = some (iconPuts font w h idx selected) := by
  have hlt : idx < iconLabels.length := by rw [iconLabels_length]; exact hidx
  have hlabel : iconLabels[idx]? = some iconLabels[idx] := List.getElem?_eq_getElem hlt
  rw [iconPuts, drawIcon, hlabel]
  rfl

/-- The home screen is drawn for every selection. -/
theorem drawHome_eq (sel : Nat) : drawHome font w h sel = some (homePuts font w h sel) := by
  have hcells : (List.range 4).mapM (fun i => drawIcon font w h i (i == sel)) =
      some ((List.range 4).map fun i => iconPuts font w h i (i == sel)) := by
    simp [List.range_succ, drawIcon_eq]
  rw [drawHome, hcells]
  rfl

/-! ### Where a cell is -/

/-- The screen has room for the cells, and for the line with the hints below them. -/
structure Roomy (fb : Framebuffer) : Prop where
  wide : 448 ≤ fb.width
  high : 443 ≤ fb.height

/-- The width of the screen as a word. -/
def Framebuffer.w32 (fb : Framebuffer) : UInt32 := UInt32.ofNat fb.width

/-- The height of the screen as a word. -/
def Framebuffer.h32 (fb : Framebuffer) : UInt32 := UInt32.ofNat fb.height

@[simp] theorem Framebuffer.toNat_w32 (fb : Framebuffer) : fb.w32.toNat = fb.width :=
  UInt32.toNat_ofNat_of_lt' fb.width_lt

@[simp] theorem Framebuffer.toNat_h32 (fb : Framebuffer) : fb.h32.toNat = fb.height :=
  UInt32.toNat_ofNat_of_lt' fb.height_lt

/-- Half of what is left of a side after the cells. -/
theorem toNat_margin {side used : UInt32} (hroom : used.toNat ≤ side.toNat) :
    ((side - used) / 2).toNat = (side.toNat - used.toNat) / 2 := by
  rw [UInt32.toNat_div, UInt32.toNat_sub_of_le _ _ (UInt32.le_iff_toNat_le.mpr hroom)]
  rfl

/-- A step of `n` cells, without wrapping. -/
theorem toNat_cellStep {start step : UInt32} {n : Nat} (hn : n < 2)
    (hfits : start.toNat + step.toNat < 2 ^ 32) :
    (start + UInt32.ofNat n * step).toNat = start.toNat + n * step.toNat := by
  have hle : n * step.toNat ≤ step.toNat := by
    calc n * step.toNat ≤ 1 * step.toNat := Nat.mul_le_mul_right _ (by omega)
      _ = step.toNat := Nat.one_mul _
  rw [UInt32.toNat_add, UInt32.toNat_mul, UInt32.toNat_ofNat_of_lt' (by show n < 2 ^ 32; omega),
    Nat.add_mod_mod, Nat.mod_eq_of_lt (by omega)]

/-- The place of a cell on a screen with room for all of them. -/
theorem iconRect_place (hroom : Roomy fb) (hidx : idx < 4) :
    (iconRect fb.w32 fb.h32 idx).1.toNat = (fb.width - 448) / 2 + idx % 2 * 248 ∧
      (iconRect fb.w32 fb.h32 idx).2.toNat = (fb.height - 288) / 2 + 30 + idx / 2 * 168 := by
  obtain ⟨hwide, hhigh⟩ := hroom
  have hw := fb.width_lt
  have hh := fb.height_lt
  have hgridW : (iconW * 2 + iconGap).toNat = 448 := rfl
  have hgridH : (iconH * 2 + iconGap).toNat = 288 := rfl
  have hstepW : (iconW + iconGap).toNat = 248 := rfl
  have hstepH : (iconH + iconGap).toNat = 168 := rfl
  have hx : ((fb.w32 - (iconW * 2 + iconGap)) / 2).toNat = (fb.width - 448) / 2 := by
    rw [toNat_margin (by rw [hgridW, fb.toNat_w32]; exact hwide), hgridW, fb.toNat_w32]
  have hy : ((fb.h32 - (iconH * 2 + iconGap)) / 2 + 30).toNat = (fb.height - 288) / 2 + 30 := by
    rw [UInt32.toNat_add,
      toNat_margin (by rw [hgridH, fb.toNat_h32]; omega), hgridH, fb.toNat_h32]
    exact Nat.mod_eq_of_lt (by show _ + 30 < 2 ^ 32; omega)
  constructor
  · show (_ + UInt32.ofNat (idx % 2) * (iconW + iconGap)).toNat = _
    rw [toNat_cellStep (Nat.mod_lt _ (by decide)) (by rw [hx, hstepW]; omega), hx, hstepW]
  · show (_ + UInt32.ofNat (idx / 2) * (iconH + iconGap)).toNat = _
    rw [toNat_cellStep (by omega) (by rw [hy, hstepH]; omega), hy, hstepH]

/-- A place is in the cell of an icon. -/
def InCell (fb : Framebuffer) (idx px py : Nat) : Prop :=
  Rect ((fb.width - 448) / 2 + idx % 2 * 248) ((fb.height - 288) / 2 + 30 + idx / 2 * 168) 200 120
    px py

instance : Decidable (InCell fb idx px py) := inferInstanceAs (Decidable ((_ ∧ _) ∧ _ ∧ _))

/-- No place is in two cells. -/
theorem InCell.unique {idx' : Nat} (hidx : idx < 4) (hidx' : idx' < 4) (hin : InCell fb idx px py)
    (hin' : InCell fb idx' px py) : idx = idx' := by
  unfold InCell Rect at hin hin'
  omega

/-- A cell of the screen is the pixels of its drawing: the border and the label are inside. -/
theorem lights_iconPuts (hroom : Roomy fb) (hidx : idx < 4) (hon : fb.On px py) :
    Lights (iconPuts font fb.w32 fb.h32 idx selected) px py ↔ InCell fb idx px py := by
  obtain ⟨hx, hy⟩ := iconRect_place hroom hidx
  obtain ⟨hwide, hhigh⟩ := hroom
  have hw := fb.width_lt
  have hh := fb.height_lt
  obtain ⟨hroomx, hroomy⟩ := @iconRect_room fb.w32 fb.h32 idx hidx
  have hW : iconW.toNat = 200 := rfl
  have hH : iconH.toNat = 120 := rfl
  have hlt : idx < iconLabels.length := by rw [iconLabels_length]; exact hidx
  have hlen : iconLabels[idx].length ≤ 5 := by
    have hall : ∀ label ∈ iconLabels, label.length ≤ 5 := by decide
    exact hall _ (List.getElem_mem _)
  generalize hlabel : iconLabels[idx] = label at hlen
  have hputs : iconPuts font fb.w32 fb.h32 idx selected =
      fillRect (iconRect fb.w32 fb.h32 idx).1 (iconRect fb.w32 fb.h32 idx).2 iconW iconH bar ++
      drawBorder (iconRect fb.w32 fb.h32 idx).1 (iconRect fb.w32 fb.h32 idx).2 iconW iconH
        (if selected then 4 else 2) (if selected then selBorder else iconBorder) ++
      drawText font ((iconRect fb.w32 fb.h32 idx).1 + (iconW - textWidth label 3) / 2)
        ((iconRect fb.w32 fb.h32 idx).2 + iconH / 2 - 12) label shellFg bar 3 := by
    rw [iconPuts, drawIcon, List.getElem?_eq_getElem hlt, hlabel]
    rfl
  rw [hputs, lights_append, lights_append, lights_fillRect hon, hx, hy, hW, hH]
  constructor
  · rintro ((hfill | hborder) | htext)
    · exact hfill
    · have hfill := (lights_fillRect (c := bar) hon).mp
        (lights_border_rect hroomx hroomy hon hborder)
      rw [hx, hy, hW, hH] at hfill
      exact hfill
    · -- the text begins inside of the cell, and five letters end there too
      have hwidth : (textWidth label 3).toNat = label.length * 24 := by
        rw [textWidth, UInt32.toNat_mul, UInt32.toNat_mul,
          UInt32.toNat_ofNat_of_lt' (by show _ < 2 ^ 32; omega)]
        show label.length * 8 % 2 ^ 32 * 3 % 2 ^ 32 = _
        omega
      have hleft : ((iconRect fb.w32 fb.h32 idx).1 + (iconW - textWidth label 3) / 2).toNat =
          (fb.width - 448) / 2 + idx % 2 * 248 + (200 - label.length * 24) / 2 := by
        rw [UInt32.toNat_add, toNat_margin (by rw [hwidth, hW]; omega), hwidth, hW, hx]
        exact Nat.mod_eq_of_lt (by omega)
      have htop : ((iconRect fb.w32 fb.h32 idx).2 + iconH / 2 - 12).toNat =
          (fb.height - 288) / 2 + 30 + idx / 2 * 168 + 48 := by
        rw [UInt32.toNat_sub, UInt32.toNat_add, hy]
        show (2 ^ 32 - 12 + (_ + 60) % 2 ^ 32) % 2 ^ 32 = _
        omega
      obtain ⟨⟨i, hi, hpx⟩, ⟨j, hj, hpy⟩⟩ := lights_drawText.mp htext
      have hscale : (3 : UInt32).toNat = 3 := rfl
      rw [hscale] at hi hj
      rw [hleft] at hpx
      rw [htop] at hpy
      have hi' : i < 24 * label.length := hi
      show InCell fb idx px py
      unfold InCell Rect
      omega
  · exact fun hfill => .inl (.inl hfill)

/-- The line with the hints is below every cell. -/
theorem hint_below (hroom : Roomy fb) (hidx : idx < 4) (hin : InCell fb idx px py) :
    ¬ Lights (drawTextCentered font (fb.w32 / 2) (fb.h32 - 48) homeHint shellFg shellBg 2) px
      py := by
  obtain ⟨hwide, hhigh⟩ := hroom
  have hh := fb.height_lt
  have htop : (fb.h32 - 48).toNat = fb.height - 48 := by
    rw [UInt32.toNat_sub_of_le _ _ (UInt32.le_iff_toNat_le.mpr (by
      rw [fb.toNat_h32]
      show 48 ≤ fb.height
      omega)), fb.toNat_h32]
    rfl
  intro hlights
  obtain ⟨-, ⟨j, hj, hpy⟩⟩ := lights_drawText.mp hlights
  rw [htop] at hpy
  unfold InCell Rect at hin
  have hscale : (2 : UInt32).toNat = 2 := rfl
  rw [hscale] at hj
  omega

/-! ### A redraw of two cells -/

/-- In a cell the picture is that of its icon. -/
theorem lastAt_cellPuts (hroom : Roomy fb) (hidx : idx < 4) (hon : fb.On px py)
    (hin : InCell fb idx px py) (sel : Nat) :
    lastAt px py (cellPuts font fb.w32 fb.h32 sel) =
      lastAt px py (iconPuts font fb.w32 fb.h32 idx (idx == sel)) := by
  have hother : ∀ k < 4, k ≠ idx → ∀ b, lastAt px py (iconPuts font fb.w32 fb.h32 k b) = none :=
    fun k hk hne b => lastAt_eq_none.mpr fun hlights =>
      hne (((lights_iconPuts hroom hk hon).mp hlights).unique hk hidx hin)
  have hcells : cellPuts font fb.w32 fb.h32 sel =
      iconPuts font fb.w32 fb.h32 0 (0 == sel) ++ iconPuts font fb.w32 fb.h32 1 (1 == sel) ++
      iconPuts font fb.w32 fb.h32 2 (2 == sel) ++ iconPuts font fb.w32 fb.h32 3 (3 == sel) := by
    simp [cellPuts, List.range_succ]
  rw [hcells]
  simp only [lastAt_append]
  obtain rfl | rfl | rfl | rfl : idx = 0 ∨ idx = 1 ∨ idx = 2 ∨ idx = 3 := by omega
  · simp [hother]
  · simp [hother]
  · simp [hother]
  · simp [hother]

/-- Outside of the cells there is nothing of them. -/
theorem lastAt_cellPuts_outside (hroom : Roomy fb) (hon : fb.On px py)
    (hout : ∀ k < 4, ¬ InCell fb k px py) (sel : Nat) :
    lastAt px py (cellPuts font fb.w32 fb.h32 sel) = none := by
  refine lastAt_eq_none.mpr fun ⟨p, hp, hat⟩ => ?_
  obtain ⟨k, hk, hmem⟩ := List.mem_flatMap.mp hp
  have hk := List.mem_range.mp hk
  exact hout k hk ((lights_iconPuts hroom hk hon).mp ⟨p, hmem, hat⟩)

/-- What shows after the two cells of a move are drawn on a home screen is what a home screen with
the new selection shows. The cases are: in the new cell, in the old one, in another one, in
none. -/
theorem lastAt_selection (hroom : Roomy fb) {prev sel : Nat} (hprev : prev < 4) (hsel : sel < 4)
    (hon : fb.On px py) :
    lastAt px py (homePuts font fb.w32 fb.h32 prev ++
      (iconPuts font fb.w32 fb.h32 prev false ++ iconPuts font fb.w32 fb.h32 sel true)) =
      lastAt px py (homePuts font fb.w32 fb.h32 sel) := by
  have hshown : ∀ k < 4, ∀ b, lastAt px py (iconPuts font fb.w32 fb.h32 k b) = none ↔
      ¬ InCell fb k px py := fun k hk b =>
    lastAt_eq_none.trans (not_congr (lights_iconPuts hroom hk hon))
  have hhint : ∀ k < 4, InCell fb k px py → lastAt px py
      (drawTextCentered font (fb.w32 / 2) (fb.h32 - 48) homeHint shellFg shellBg 2) = none :=
    fun k hk hin => lastAt_eq_none.mpr (hint_below hroom hk hin)
  simp only [homePuts, lastAt_append]
  by_cases hnew : InCell fb sel px py
  · obtain ⟨c, hc⟩ := Option.ne_none_iff_exists'.mp
      (mt (hshown sel hsel true).mp (not_not.mpr hnew))
    rw [hhint sel hsel hnew, lastAt_cellPuts hroom hsel hon hnew sel, beq_self_eq_true, hc]
    simp only [Option.some_or, Option.none_or]
  rw [(hshown sel hsel true).mpr hnew, Option.none_or]
  by_cases hold : InCell fb prev px py
  · obtain ⟨c, hc⟩ := Option.ne_none_iff_exists'.mp
      (mt (hshown prev hprev false).mp (not_not.mpr hold))
    have hne : prev ≠ sel := fun heq => hnew (heq ▸ hold)
    rw [hhint prev hprev hold, lastAt_cellPuts hroom hprev hon hold sel, beq_false_of_ne hne, hc]
    simp only [Option.some_or, Option.none_or]
  rw [(hshown prev hprev false).mpr hold, Option.none_or]
  have hcells : lastAt px py (cellPuts font fb.w32 fb.h32 prev) =
      lastAt px py (cellPuts font fb.w32 fb.h32 sel) := by
    by_cases hsome : ∃ k < 4, InCell fb k px py
    · obtain ⟨k, hk, hin⟩ := hsome
      have hkp : k ≠ prev := fun heq => hold (heq ▸ hin)
      have hks : k ≠ sel := fun heq => hnew (heq ▸ hin)
      rw [lastAt_cellPuts hroom hk hon hin, lastAt_cellPuts hroom hk hon hin,
        beq_false_of_ne hkp, beq_false_of_ne hks]
    · push Not at hsome
      rw [lastAt_cellPuts_outside hroom hon hsome, lastAt_cellPuts_outside hroom hon hsome]
  rw [hcells]

/-- The two cells of a move turn the home screen of the old selection into that of the new one:
every byte is as after a full redraw. -/
theorem selection_redraw (hroom : Roomy fb) (font : Font) (m : Memory) {prev sel : Nat}
    (hprev : prev < 4) (hsel : sel < 4) :
    ∃ before cells after, drawHome font fb.w32 fb.h32 prev = some before ∧
      drawCells fb font prev sel = some cells ∧ drawHome font fb.w32 fb.h32 sel = some after ∧
      fb.draw (fb.draw m before) cells = fb.draw m after := by
  refine ⟨_, iconPuts font fb.w32 fb.h32 prev false ++ iconPuts font fb.w32 fb.h32 sel true, _,
    drawHome_eq prev, ?_, drawHome_eq sel, ?_⟩
  · show (drawIcon font fb.w32 fb.h32 prev false >>= fun old =>
      drawIcon font fb.w32 fb.h32 sel true >>= fun new => some (old ++ new)) = _
    rw [drawIcon_eq hprev, drawIcon_eq hsel]
    rfl
  · rw [← draw_append]
    exact draw_ext fun px py hon => lastAt_selection hroom hprev hsel hon

/-- A screen of 640 by 480 pixels, at the start of the window for mappings. -/
def roomyScreen : Framebuffer where
  width := 640
  height := 480
  stride := 640
  bpp := 4
  wide := by decide
  base := 0x10000000
  format := .bgr
  width_lt := by decide
  height_lt := by decide
  bpp_range := by decide
  mapped := by decide

theorem roomy_roomyScreen : Roomy roomyScreen := ⟨by decide, by decide⟩

/-- The selection moves from the first icon to the last one. -/
theorem selection_redraw_corner : ∃ before cells after,
    drawHome (fun _ _ => 0) roomyScreen.w32 roomyScreen.h32 0 = some before ∧
      drawCells roomyScreen (fun _ _ => 0) 0 3 = some cells ∧
      drawHome (fun _ _ => 0) roomyScreen.w32 roomyScreen.h32 3 = some after ∧
      roomyScreen.draw (roomyScreen.draw (fun _ => 0) before) cells =
        roomyScreen.draw (fun _ => 0) after :=
  selection_redraw roomy_roomyScreen (fun _ _ => 0) (fun _ => 0) (by decide) (by decide)

/-! ### Points -/

/-- `hit_test` finds the cell that a point is in. -/
theorem hitTest_iff (hroom : Roomy fb) {x y : UInt32} :
    hitTest fb.w32 fb.h32 x y = some idx ↔ idx < 4 ∧ InCell fb idx x.toNat y.toNat := by
  have hcell : ∀ k < 4, (inCell fb.w32 fb.h32 k x y = true ↔ InCell fb k x.toNat y.toNat) := by
    intro k hk
    obtain ⟨hx, hy⟩ := iconRect_place hroom hk
    obtain ⟨hroomx, hroomy⟩ := @iconRect_room fb.w32 fb.h32 k hk
    have hendx : ((iconRect fb.w32 fb.h32 k).1 + iconW).toNat =
        (fb.width - 448) / 2 + k % 2 * 248 + 200 := by
      rw [UInt32.toNat_add, Nat.mod_eq_of_lt hroomx, hx]
      rfl
    have hendy : ((iconRect fb.w32 fb.h32 k).2 + iconH).toNat =
        (fb.height - 288) / 2 + 30 + k / 2 * 168 + 120 := by
      rw [UInt32.toNat_add, Nat.mod_eq_of_lt hroomy, hy]
      rfl
    simp only [inCell, Bool.and_eq_true, decide_eq_true_eq, UInt32.le_iff_toNat_le,
      UInt32.lt_iff_toNat_lt, hendx, hendy, hx, hy, InCell, Rect, and_assoc]
  unfold hitTest
  constructor
  · intro hfound
    have hmem := List.mem_range.mp (List.mem_of_find?_eq_some hfound)
    have hat := List.find?_some hfound
    exact ⟨hmem, (hcell idx hmem).mp hat⟩
  · rintro ⟨hidx, hin⟩
    -- the first cell with the point is the only one
    cases hfound : (List.range 4).find? fun k => inCell fb.w32 fb.h32 k x y with
    | none =>
      have hnot := List.find?_eq_none.mp hfound idx (List.mem_range.mpr hidx)
      exact absurd ((hcell idx hidx).mpr hin) hnot
    | some k =>
      have hmem := List.mem_range.mp (List.mem_of_find?_eq_some hfound)
      have hat := List.find?_some hfound
      have hin' := (hcell k hmem).mp hat
      rw [hin'.unique hmem hidx hin]

end Gfx

end Plinth
