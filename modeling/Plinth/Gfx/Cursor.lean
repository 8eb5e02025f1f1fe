import Plinth.Gfx.Drawing

/-!
# `Plinth.Gfx.Cursor`: the mouse cursor of the shell

The shell draws its cursor onto the picture. Before that it saves the raw pixels below, and it
writes them back to hide the cursor. In between nothing else may paint.

`Scene.Over` is the invariant: the bytes are those of a picture without a cursor, but for the block
of a cursor that is shown, and there the picture is what was saved. Each operation keeps it, with
the picture of the run in which the cursor is never shown. `cursor_leaves_no_trace` is this for a
run.
-/

set_option autoImplicit false

namespace Plinth

namespace Gfx

open Fbcon (Colour Font)
open Raster (Memory)

/-! ### Raw pixels -/

/-- A byte of a raw pixel. -/
def rawByte (raw : UInt32) (i : Nat) : UInt8 := (raw >>> UInt32.ofNat (i * 8)).toUInt8

/-- `read_pixel_raw`. -/
def Framebuffer.readPixelRaw (fb : Framebuffer) (m : Memory) (x y : UInt32) : UInt32 :=
  if fb.On x.toNat y.toNat then
    (List.range (min fb.bpp 4)).foldl
      (fun raw i => raw ||| (m (fb.address x y + i)).toUInt32 <<< UInt32.ofNat (i * 8)) 0
  else 0

/-- `write_pixel_raw`. -/
def Framebuffer.writePixelRaw (fb : Framebuffer) (m : Memory) (x y raw : UInt32) : Memory :=
  if fb.On x.toNat y.toNat then
    Raster.poke m (fb.address x y) ((List.range (min fb.bpp 4)).map (rawByte raw))
  else m

/-! ### The cursor -/

/-- `CURSOR_SIDE`. -/
def cursorSide : UInt32 := 8

/-- `CURSOR_FG`. -/
def cursorFg : Colour := ⟨0xFF, 0xFF, 0xFF⟩

/-- `Cursor`. -/
structure Cursor where
  x : UInt32
  y : UInt32
  shown : Bool
  save : Nat → UInt32

/-- `Cursor::new`. -/
def Cursor.new : Cursor := ⟨0, 0, false, fun _ => 0⟩

/-- The steps of the loops over the block, row by row. -/
def block : List (UInt32 × UInt32) :=
  (countUp 0 cursorSide).flatMap fun dy => (countUp 0 cursorSide).map fun dx => (dx, dy)

/-- The place in `save` of a pixel of the block. -/
def saveIndex (d : UInt32 × UInt32) : Nat := (d.2 * cursorSide + d.1).toNat

/-- The bytes and the cursor. -/
structure Scene where
  mem : Memory
  cursor : Cursor

/-- One pixel of `show`: it is saved and drawn. -/
def capture (fb : Framebuffer) (x y : UInt32) (s : Memory × (Nat → UInt32))
    (d : UInt32 × UInt32) : Memory × (Nat → UInt32) :=
  (fb.putPixel s.1 ⟨x + d.1, y + d.2, cursorFg⟩,
    Function.update s.2 (saveIndex d) (fb.readPixelRaw s.1 (x + d.1) (y + d.2)))

/-- One pixel of `hide`: it is written back. -/
def restore (fb : Framebuffer) (cursor : Cursor) (m : Memory) (d : UInt32 × UInt32) : Memory :=
  fb.writePixelRaw m (cursor.x + d.1) (cursor.y + d.2) (cursor.save (saveIndex d))

namespace Scene

/-- `Cursor::show`. -/
def showCursor (fb : Framebuffer) (s : Scene) : Scene :=
  if s.cursor.shown then s
  else
    let captured := block.foldl (capture fb s.cursor.x s.cursor.y) (s.mem, s.cursor.save)
    ⟨captured.1, { s.cursor with shown := true, save := captured.2 }⟩

/-- `Cursor::hide`. -/
def hideCursor (fb : Framebuffer) (s : Scene) : Scene :=
  if s.cursor.shown then
    ⟨block.foldl (restore fb s.cursor) s.mem, { s.cursor with shown := false }⟩
  else s

/-- `Cursor::refresh`. -/
def refreshCursor (fb : Framebuffer) (s : Scene) : Scene :=
  if s.cursor.shown then
    { s with mem := fb.draw s.mem (block.map fun d =>
        ⟨s.cursor.x + d.1, s.cursor.y + d.2, cursorFg⟩) }
  else s

end Scene

/-! ### The icons -/

/-- `ICON_LABELS`: `INFO`, `BARS`, `CRASH` and `APP`. -/
def iconLabels : List (List UInt8) :=
  [[73, 78, 70, 79], [66, 65, 82, 83], [67, 82, 65, 83, 72], [65, 80, 80]]

/-- `ICON_W`, `ICON_H` and `ICON_GAP`. -/
def iconW : UInt32 := 200

def iconH : UInt32 := 120

def iconGap : UInt32 := 48

/-- `FG`, `BAR`, `ICON_BORDER` and `SEL_BORDER`. -/
def shellFg : Colour := ⟨0xE0, 0xE0, 0xF0⟩

def bar : Colour := ⟨0x28, 0x28, 0x40⟩

def iconBorder : Colour := ⟨0x60, 0x60, 0x80⟩

def selBorder : Colour := ⟨0xF0, 0xC0, 0x40⟩

/-- `icon_rect`: the place of a cell. Its size is `iconW` by `iconH`. -/
def iconRect (w h : UInt32) (idx : Nat) : UInt32 × UInt32 :=
  let gridW := iconW * 2 + iconGap
  let gridH := iconH * 2 + iconGap
  let ox := (w - gridW) / 2
  let oy := (h - gridH) / 2 + 30
  let col := UInt32.ofNat (idx % 2)
  let row := UInt32.ofNat (idx / 2)
  (ox + col * (iconW + iconGap), oy + row * (iconH + iconGap))

/-- `text_width`. -/
def textWidth (text : List UInt8) (scale : UInt32) : UInt32 :=
  UInt32.ofNat text.length * cell * scale

/-- `draw_icon`. There is no drawing for an index that has no label: the access to it panics. -/
def drawIcon (font : Font) (sw sh : UInt32) (idx : Nat) (selected : Bool) : Option (List Put) :=
  (iconLabels[idx]?).map fun label =>
    let place := iconRect sw sh idx
    let border := if selected then selBorder else iconBorder
    let t := if selected then 4 else 2
    let lw := textWidth label 3
    fillRect place.1 place.2 iconW iconH bar ++
      drawBorder place.1 place.2 iconW iconH t border ++
      drawText font (place.1 + (iconW - lw) / 2) (place.2 + iconH / 2 - 12) label shellFg bar 3

/-- The two cells of `move_selection`, the one after the other. -/
def drawCells (fb : Framebuffer) (font : Font) (prev sel : Nat) : Option (List Put) := do
  let sw := UInt32.ofNat fb.width
  let sh := UInt32.ofNat fb.height
  let old ← drawIcon font sw sh prev false
  let new ← drawIcon font sw sh sel true
  some (old ++ new)

/-- `move_selection`. -/
def moveSelection (fb : Framebuffer) (font : Font) (s : Scene) (prev sel : Nat) : Option Scene :=
  if prev = sel then some s
  else (drawCells fb font prev sel).map fun cells =>
    let hidden := s.hideCursor fb
    { hidden with mem := fb.draw hidden.mem cells }.showCursor fb

/-! ### Runs -/

/-- An operation on the screen. A cursor that is shown forbids to move it and to paint. -/
inductive Op where
  | showCursor
  | hideCursor
  | refreshCursor
  | move (x y : UInt32)
  /-- Anything that changes the bytes. -/
  | repaint (paint : Memory → Memory)
  /-- The two cells, without a cursor. -/
  | redraw (prev sel : Nat)
  | moveSelection (prev sel : Nat)

/-- One operation. -/
def Op.step (fb : Framebuffer) (font : Font) : Op → Scene → Option Scene
  | .showCursor, s => some (s.showCursor fb)
  | .hideCursor, s => some (s.hideCursor fb)
  | .refreshCursor, s => some (s.refreshCursor fb)
  | .move x y, s =>
    if s.cursor.shown then none else some { s with cursor := { s.cursor with x := x, y := y } }
  | .repaint paint, s => if s.cursor.shown then none else some { s with mem := paint s.mem }
  | .redraw prev sel, s =>
    if s.cursor.shown then none
    else (drawCells fb font prev sel).map fun cells => { s with mem := fb.draw s.mem cells }
  | .moveSelection prev sel, s => Gfx.moveSelection fb font s prev sel

/-- The operations of a run. -/
def runOps (fb : Framebuffer) (font : Font) : List Op → Scene → Option Scene
  | [], s => some s
  | op :: ops, s => (op.step fb font s).bind (runOps fb font ops)

/-- What is left of an operation if the cursor is never shown. -/
def Op.unshown : Op → List Op
  | .showCursor => []
  | .moveSelection prev sel => if prev = sel then [] else [.redraw prev sel]
  | .hideCursor => [.hideCursor]
  | .refreshCursor => [.refreshCursor]
  | .move x y => [.move x y]
  | .repaint paint => [.repaint paint]
  | .redraw prev sel => [.redraw prev sel]

/-- The scene at the start. -/
def Scene.start (m : Memory) : Scene := ⟨m, Cursor.new⟩

/-! ### Bytes of raw pixels -/

variable {fb : Framebuffer} {font : Font} {m m' : Memory} {a i k : Nat} {x y x' y' raw : UInt32}

theorem testBit_rawByte (hi : i < 4) (hk : k < 8) :
    (rawByte raw i).toBitVec.getLsbD k = raw.toBitVec.getLsbD (i * 8 + k) := by
  have hshift : i * 8 % 32 = i * 8 := Nat.mod_eq_of_lt (by omega)
  simp [rawByte, hk, hshift, -UInt32.ofNat_mul]

/-- A byte that is set at its place. The others are as before. -/
theorem rawByte_or {j : Nat} {b : UInt8} (hi : i < 4) (hj : j < 4) :
    rawByte (raw ||| b.toUInt32 <<< UInt32.ofNat (j * 8)) i =
      if i = j then rawByte raw i ||| b else rawByte raw i := by
  have hshift : j * 8 % 32 = j * 8 := Nat.mod_eq_of_lt (by omega)
  refine UInt8.toBitVec_inj.mp (BitVec.eq_of_getLsbD_eq fun k hk => ?_)
  rw [testBit_rawByte hi hk]
  by_cases heq : i = j
  · subst heq
    have hin : i * 8 + k < 32 := by omega
    have hnot : ¬ i * 8 + k < i * 8 := by omega
    rw [if_pos rfl]
    simp [testBit_rawByte hi hk, hshift, hin, hnot, -UInt32.ofNat_mul]
  · rw [if_neg heq, testBit_rawByte hi hk]
    simp [hshift, -UInt32.ofNat_mul]
    -- a bit of another byte is not one of the eight
    intro _ hfrom _ hbit
    rw [BitVec.getLsbD_of_ge _ _ (by omega)] at hbit
    cases hbit

/-- The loop of `read_pixel_raw`: the bytes so far are at their places, and the next ones are
zero. -/
theorem rawByte_foldl {f : Nat → UInt8} {n : Nat} (hn : n ≤ 4) (hi : i < 4) :
    rawByte ((List.range n).foldl
      (fun raw j => raw ||| (f j).toUInt32 <<< UInt32.ofNat (j * 8)) 0) i =
        if i < n then f i else 0 := by
  induction n with
  | zero =>
    show rawByte 0 i = 0
    simp [rawByte]
  | succ n ih =>
    rw [List.range_succ, List.foldl_append]
    show rawByte (_ ||| (f n).toUInt32 <<< UInt32.ofNat (n * 8)) i = _
    rw [rawByte_or hi (by omega), ih (by omega)]
    by_cases heq : i = n
    · subst heq
      rw [if_pos rfl, if_neg (Nat.lt_irrefl i), if_pos (Nat.lt_succ_self i), UInt8.zero_or]
    · rw [if_neg heq]
      by_cases hlt : i < n
      · rw [if_pos hlt, if_pos (by omega)]
      · rw [if_neg hlt, if_neg (by omega)]

/-- A raw pixel has the bytes of the memory. -/
theorem rawByte_read (hon : fb.On x.toNat y.toNat) (hi : i < fb.bpp) :
    rawByte (fb.readPixelRaw m x y) i = m (fb.address x y + i) := by
  have hbpp := fb.bpp_range.2
  unfold Framebuffer.readPixelRaw
  rw [if_pos hon, rawByte_foldl (Nat.min_le_right ..) (by omega), if_pos (by omega)]

/-! ### Pixels that are written and read -/

/-- Address and pixel of a byte. -/
theorem holds_iff (hon : fb.On x.toNat y.toNat) : fb.Holds x.toNat y.toNat a ↔
    fb.address x y ≤ a ∧ a < fb.address x y + fb.bpp := by
  rw [Framebuffer.address_eq hon]
  constructor
  · rintro ⟨hbase, hlow, hhigh⟩
    omega
  · rintro ⟨hlow, hhigh⟩
    exact ⟨by omega, by omega, by omega⟩

/-- `put_pixel` changes the bytes of its pixel only. -/
theorem putPixel_outside {p : Put} (h : fb.Sees p → ¬ fb.Holds p.x.toNat p.y.toNat a) :
    fb.putPixel m p a = m a := by
  unfold Framebuffer.putPixel
  by_cases hsees : fb.Sees p
  · have hout := mt (holds_iff hsees).mpr (h hsees)
    rw [if_pos hsees, Raster.poke_outside]
    rw [Framebuffer.length_bytes]
    omega
  · rw [if_neg hsees]

theorem draw_outside {puts : List Put}
    (h : ∀ p ∈ puts, fb.Sees p → ¬ fb.Holds p.x.toNat p.y.toNat a) : fb.draw m puts a = m a := by
  induction puts generalizing m with
  | nil => rfl
  | cons p puts ih =>
    obtain ⟨hp, hputs⟩ := List.forall_mem_cons.mp h
    show fb.draw (fb.putPixel m p) puts a = m a
    rw [ih hputs, putPixel_outside hp]

/-- `write_pixel_raw` changes the bytes of its pixel only. -/
theorem writePixelRaw_outside (h : fb.On x.toNat y.toNat → ¬ fb.Holds x.toNat y.toNat a) :
    fb.writePixelRaw m x y raw a = m a := by
  unfold Framebuffer.writePixelRaw
  by_cases hon : fb.On x.toNat y.toNat
  · have hout := mt (holds_iff hon).mpr (h hon)
    rw [if_pos hon, Raster.poke_outside]
    rw [List.length_map, List.length_range]
    omega
  · rw [if_neg hon]

/-- What was read raw is written back as it was. -/
theorem writePixelRaw_read (hon : fb.On x.toNat y.toNat) (h : fb.Holds x.toNat y.toNat a) :
    fb.writePixelRaw m x y (fb.readPixelRaw m' x y) a = m' a := by
  obtain ⟨hlow, hhigh⟩ := (holds_iff hon).mp h
  have hbpp := fb.bpp_range.2
  obtain ⟨i, rfl⟩ := Nat.exists_eq_add_of_le hlow
  have hi : i < fb.bpp := by omega
  unfold Framebuffer.writePixelRaw
  rw [if_pos hon, Raster.poke_inside (by rw [List.length_map, List.length_range]; omega),
    List.getElem_map, List.getElem_range, rawByte_read hon hi]

/-- A pixel is read from its bytes. -/
theorem readPixelRaw_congr
    (h : fb.On x.toNat y.toNat → ∀ a, fb.Holds x.toNat y.toNat a → m a = m' a) :
    fb.readPixelRaw m x y = fb.readPixelRaw m' x y := by
  unfold Framebuffer.readPixelRaw
  by_cases hon : fb.On x.toNat y.toNat
  · rw [if_pos hon, if_pos hon]
    refine List.foldl_ext _ _ _ fun raw i hi => ?_
    have hlt := List.mem_range.mp hi
    rw [h hon _ ((holds_iff hon).mpr ⟨by omega, by omega⟩)]
  · rw [if_neg hon, if_neg hon]

/-- Another pixel that is put is not read. -/
theorem readPixelRaw_putPixel {p : Put} (hne : (p.x, p.y) ≠ (x, y)) :
    fb.readPixelRaw (fb.putPixel m p) x y = fb.readPixelRaw m x y := by
  refine readPixelRaw_congr fun hon a hholds => putPixel_outside fun hsees hholds' => ?_
  obtain ⟨hx, hy⟩ := Raster.covers_unique hsees hon hholds'.2 hholds.2
  exact hne (by rw [UInt32.toNat_inj.mp hx, UInt32.toNat_inj.mp hy])

/-! ### The block -/

/-- The byte is one of the block at a place, as far as that is on the screen. -/
def InBlock (fb : Framebuffer) (x y : UInt32) (a : Nat) : Prop :=
  ∃ d ∈ block, fb.On (x + d.1).toNat (y + d.2).toNat ∧
    fb.Holds (x + d.1).toNat (y + d.2).toNat a

/-- Each pixel of the block has its own place in `save`. -/
theorem nodup_saveIndex : (block.map saveIndex).Nodup := by decide +kernel

/-- The loop of `show`. No pixel of the block is drawn before it is saved: the coordinates wrap, but
they are different all the same. -/
theorem captured {ds : List (UInt32 × UInt32)} {save : Nat → UInt32}
    (hnodup : (ds.map saveIndex).Nodup) :
    (∀ a, (∀ d ∈ ds, fb.On (x + d.1).toNat (y + d.2).toNat →
        ¬ fb.Holds (x + d.1).toNat (y + d.2).toNat a) →
      (ds.foldl (capture fb x y) (m, save)).1 a = m a) ∧
    (∀ d ∈ ds, (ds.foldl (capture fb x y) (m, save)).2 (saveIndex d) =
      fb.readPixelRaw m (x + d.1) (y + d.2)) ∧
    ∀ i ∉ ds.map saveIndex, (ds.foldl (capture fb x y) (m, save)).2 i = save i := by
  induction ds generalizing m save with
  | nil => exact ⟨fun _ _ => rfl, nofun, fun _ _ => rfl⟩
  | cons d ds ih =>
    rw [List.map_cons, List.nodup_cons] at hnodup
    obtain ⟨hfresh, hnodup⟩ := hnodup
    obtain ⟨hmem, hsaved, hrest⟩ :=
      @ih (capture fb x y (m, save) d).1 (capture fb x y (m, save) d).2 hnodup
    rw [List.foldl_cons]
    refine ⟨fun a hout => ?_, ?_, fun i hi => ?_⟩
    · obtain ⟨hd, hds⟩ := List.forall_mem_cons.mp hout
      rw [hmem a hds]
      exact putPixel_outside hd
    · refine List.forall_mem_cons.mpr ⟨?_, fun e he => ?_⟩
      · rw [hrest _ hfresh]
        exact Function.update_self ..
      · -- `e` is read after `d` was drawn
        rw [hsaved e he]
        refine readPixelRaw_putPixel fun heq => hfresh ?_
        obtain ⟨h1, h2⟩ := Prod.mk.inj heq
        have hde : d = e :=
          Prod.ext ((UInt32.add_right_inj _).mp h1) ((UInt32.add_right_inj _).mp h2)
        exact hde ▸ List.mem_map_of_mem he
    · rw [List.map_cons, List.mem_cons, not_or] at hi
      rw [hrest i hi.2]
      exact Function.update_of_ne hi.1 ..

/-- The loop of `hide` gives back the memory that was saved, if nothing but the block is
different. -/
theorem restored {ds : List (UInt32 × UInt32)} {cursor : Cursor}
    (hsaved : ∀ d ∈ ds, cursor.save (saveIndex d) =
      fb.readPixelRaw m' (cursor.x + d.1) (cursor.y + d.2))
    (hout : ∀ a, (∀ d ∈ ds, fb.On (cursor.x + d.1).toNat (cursor.y + d.2).toNat →
        ¬ fb.Holds (cursor.x + d.1).toNat (cursor.y + d.2).toNat a) → m a = m' a) :
    ds.foldl (restore fb cursor) m = m' := by
  induction ds generalizing m with
  | nil => exact funext fun a => hout a nofun
  | cons d ds ih =>
    obtain ⟨hd, hds⟩ := List.forall_mem_cons.mp hsaved
    rw [List.foldl_cons]
    refine ih hds fun a hrest => ?_
    unfold restore
    rw [hd]
    by_cases hin : fb.On (cursor.x + d.1).toNat (cursor.y + d.2).toNat ∧
        fb.Holds (cursor.x + d.1).toNat (cursor.y + d.2).toNat a
    · exact writePixelRaw_read hin.1 hin.2
    · have hnot := not_and.mp hin
      rw [writePixelRaw_outside hnot]
      exact hout a (List.forall_mem_cons.mpr ⟨hnot, hrest⟩)

/-! ### The picture below the cursor -/

/-- The scene shows a picture: but for the block of a cursor that is shown, and there the picture is
what was saved. -/
structure Scene.Over (fb : Framebuffer) (s : Scene) (m : Memory) : Prop where
  outside : ∀ a, ¬ (s.cursor.shown = true ∧ InBlock fb s.cursor.x s.cursor.y a) → s.mem a = m a
  saved : s.cursor.shown = true → ∀ d ∈ block, s.cursor.save (saveIndex d) =
    fb.readPixelRaw m (s.cursor.x + d.1) (s.cursor.y + d.2)

section

variable {s s' : Scene}

theorem not_inBlock (h : ¬ InBlock fb x y a) : ∀ d ∈ block,
    fb.On (x + d.1).toNat (y + d.2).toNat → ¬ fb.Holds (x + d.1).toNat (y + d.2).toNat a :=
  fun d hd hon hholds => h ⟨d, hd, hon, hholds⟩

/-- Without a cursor the bytes are those of the picture. -/
theorem Scene.Over.mem_eq (hover : s.Over fb m) (hhidden : s.cursor.shown = false) : s.mem = m :=
  funext fun a => hover.outside a fun h => nomatch hhidden.symm.trans h.1

theorem Scene.over_of_hidden (hhidden : s.cursor.shown = false) : s.Over fb s.mem :=
  ⟨fun _ _ => rfl, fun h => nomatch hhidden.symm.trans h⟩

theorem Scene.Over.showCursor (hover : s.Over fb m) : (s.showCursor fb).Over fb m := by
  cases hshown : s.cursor.shown with
  | true =>
    rw [Scene.showCursor, if_pos hshown]
    exact hover
  | false =>
    obtain ⟨hmem, hsaved, -⟩ :=
      @captured fb s.mem s.cursor.x s.cursor.y block s.cursor.save nodup_saveIndex
    rw [hover.mem_eq hshown] at hmem hsaved
    rw [Scene.showCursor, if_neg (by rw [hshown]; nofun), hover.mem_eq hshown]
    exact ⟨fun a hout => hmem a (not_inBlock fun hin => hout ⟨rfl, hin⟩), fun _ => hsaved⟩

theorem Scene.Over.hideCursor (hover : s.Over fb m) : (s.hideCursor fb).Over fb m := by
  cases hshown : s.cursor.shown with
  | true =>
    have hback : block.foldl (restore fb s.cursor) s.mem = m :=
      restored (hover.saved hshown) fun a hout => hover.outside a fun ⟨_, d, hd, hon, hholds⟩ =>
        hout d hd hon hholds
    rw [Scene.hideCursor, if_pos hshown, hback]
    exact Scene.over_of_hidden rfl
  | false =>
    rw [Scene.hideCursor, if_neg (by rw [hshown]; nofun)]
    exact hover

theorem Scene.hidden_hideCursor : (s.hideCursor fb).cursor.shown = false := by
  unfold Scene.hideCursor
  cases hshown : s.cursor.shown with
  | true => rfl
  | false => exact hshown

theorem Scene.Over.refreshCursor (hover : s.Over fb m) : (s.refreshCursor fb).Over fb m := by
  cases hshown : s.cursor.shown with
  | true =>
    rw [Scene.refreshCursor, if_pos hshown]
    refine ⟨fun a hout => ?_, hover.saved⟩
    -- the cursor is drawn on its own block
    show fb.draw s.mem _ a = m a
    rw [draw_outside, hover.outside a hout]
    intro p hp
    obtain ⟨d, hd, rfl⟩ := List.mem_map.mp hp
    exact not_inBlock (fun hin => hout ⟨hshown, hin⟩) d hd
  | false =>
    rw [Scene.refreshCursor, if_neg (by rw [hshown]; nofun)]
    exact hover

theorem Scene.hideCursor_of_hidden (hhidden : s.cursor.shown = false) : s.hideCursor fb = s := by
  rw [Scene.hideCursor, if_neg (by rw [hhidden]; nofun)]

theorem Scene.refreshCursor_of_hidden (hhidden : s.cursor.shown = false) :
    s.refreshCursor fb = s := by
  rw [Scene.refreshCursor, if_neg (by rw [hhidden]; nofun)]

end

/-! ### The run without a cursor -/

/-- A scene and the one of the run in which the cursor is never shown. -/
structure Shadows (fb : Framebuffer) (s t : Scene) : Prop where
  hidden : t.cursor.shown = false
  covers : s.Over fb t.mem

section

variable {s s' t : Scene} {ops ops' : List Op} {op : Op}

theorem runOps_append :
    runOps fb font (ops ++ ops') s = (runOps fb font ops s).bind (runOps fb font ops') := by
  induction ops generalizing s with
  | nil => rfl
  | cons op ops ih =>
    rw [List.cons_append, runOps, runOps, Option.bind_assoc]
    exact congrArg _ (funext fun s => ih)

/-- What paints without a cursor paints the same bytes. -/
theorem Shadows.paint (hshadows : Shadows fb s t) (hshown : s.cursor.shown = false)
    (f : Memory → Memory) :
    Shadows fb { s with mem := f s.mem } { t with mem := f t.mem } := by
  refine ⟨hshadows.hidden, ?_⟩
  show Scene.Over fb _ (f t.mem)
  rw [← hshadows.covers.mem_eq hshown]
  exact Scene.over_of_hidden hshown

/-- One operation, one case for each. An operation that paints finds the cursor hidden, so the bytes
are those of the picture. -/
theorem Shadows.step (hshadows : Shadows fb s t) (hstep : op.step fb font s = some s') :
    ∃ t', runOps fb font op.unshown t = some t' ∧ Shadows fb s' t' := by
  obtain ⟨hhidden, hover⟩ := hshadows
  cases op with
  | showCursor =>
    cases hstep
    exact ⟨t, rfl, hhidden, hover.showCursor⟩
  | hideCursor =>
    cases hstep
    refine ⟨t, ?_, hhidden, hover.hideCursor⟩
    show some (t.hideCursor fb) = some t
    rw [Scene.hideCursor_of_hidden hhidden]
  | refreshCursor =>
    cases hstep
    refine ⟨t, ?_, hhidden, hover.refreshCursor⟩
    show some (t.refreshCursor fb) = some t
    rw [Scene.refreshCursor_of_hidden hhidden]
  | move x y =>
    simp only [Op.step] at hstep
    split at hstep
    · cases hstep
    rename_i hnot
    cases hstep
    have hshown : s.cursor.shown = false := Bool.not_eq_true _ ▸ hnot
    refine ⟨{ t with cursor := { t.cursor with x := x, y := y } }, ?_, hhidden, ?_⟩
    · show ((if t.cursor.shown then none else some _).bind _ : Option Scene) = _
      rw [if_neg (by rw [hhidden]; nofun)]
      rfl
    · show Scene.Over fb _ t.mem
      rw [← hover.mem_eq hshown]
      exact Scene.over_of_hidden hshown
  | repaint paint =>
    simp only [Op.step] at hstep
    split at hstep
    · cases hstep
    rename_i hnot
    cases hstep
    have hshown : s.cursor.shown = false := Bool.not_eq_true _ ▸ hnot
    refine ⟨_, ?_, Shadows.paint ⟨hhidden, hover⟩ hshown paint⟩
    show ((if t.cursor.shown then none else some _).bind _ : Option Scene) = _
    rw [if_neg (by rw [hhidden]; nofun)]
    rfl
  | redraw prev sel =>
    simp only [Op.step] at hstep
    split at hstep
    · cases hstep
    rename_i hnot
    obtain ⟨cells, hcells, rfl⟩ := Option.map_eq_some_iff.mp hstep
    have hshown : s.cursor.shown = false := Bool.not_eq_true _ ▸ hnot
    refine ⟨_, ?_, Shadows.paint ⟨hhidden, hover⟩ hshown fun m => fb.draw m cells⟩
    show ((if t.cursor.shown then none else Option.map _ _).bind _ : Option Scene) = _
    rw [if_neg (by rw [hhidden]; nofun), hcells]
    rfl
  | moveSelection prev sel =>
    simp only [Op.step, moveSelection] at hstep
    split at hstep
    · rename_i heq
      cases hstep
      exact ⟨t, by rw [Op.unshown, if_pos heq]; rfl, hhidden, hover⟩
    · rename_i hne
      obtain ⟨cells, hcells, rfl⟩ := Option.map_eq_some_iff.mp hstep
      -- it hides the cursor, paints and shows it again
      have hpainted := Shadows.paint ⟨hhidden, hover.hideCursor⟩ Scene.hidden_hideCursor
        fun m => fb.draw m cells
      refine ⟨_, ?_, hpainted.hidden, hpainted.covers.showCursor⟩
      rw [Op.unshown, if_neg hne]
      show ((if t.cursor.shown then none else Option.map _ _).bind _ : Option Scene) = _
      rw [if_neg (by rw [hhidden]; nofun), hcells]
      rfl

/-- A run. The induction is on its operations. -/
theorem Shadows.run (hshadows : Shadows fb s t) (hrun : runOps fb font ops s = some s') :
    ∃ t', runOps fb font (ops.flatMap Op.unshown) t = some t' ∧ Shadows fb s' t' := by
  induction ops generalizing s t with
  | nil =>
    cases hrun
    exact ⟨t, rfl, hshadows⟩
  | cons op ops ih =>
    obtain ⟨s₁, hstep, hrest⟩ := Option.bind_eq_some_iff.mp hrun
    obtain ⟨t₁, ht₁, hshadows₁⟩ := hshadows.step hstep
    obtain ⟨t', ht', hshadows'⟩ := ih hshadows₁ hrest
    refine ⟨t', ?_, hshadows'⟩
    rw [List.flatMap_cons, runOps_append, ht₁]
    exact ht'

end

/-! ### A cell that is selected already -/

theorem poke_congr {off : Nat} {bs : List UInt8} (h : a < off ∨ off + bs.length ≤ a → m a = m' a) :
    Raster.poke m off bs a = Raster.poke m' off bs a := by
  by_cases hout : a < off ∨ off + bs.length ≤ a
  · rw [Raster.poke_outside hout, Raster.poke_outside hout, h hout]
  · obtain ⟨i, rfl⟩ := Nat.exists_eq_add_of_le (show off ≤ a by omega)
    rw [Raster.poke_inside (by omega), Raster.poke_inside (by omega)]

/-- Where a drawing puts a pixel it does not matter what was there. -/
theorem draw_congr {puts : List Put}
    (h : ∀ a, (∀ p ∈ puts, fb.Sees p → ¬ fb.Holds p.x.toNat p.y.toNat a) → m a = m' a) :
    fb.draw m puts = fb.draw m' puts := by
  induction puts generalizing m m' with
  | nil => exact funext fun a => h a nofun
  | cons p puts ih =>
    show fb.draw (fb.putPixel m p) puts = fb.draw (fb.putPixel m' p) puts
    refine ih fun a hrest => ?_
    unfold Framebuffer.putPixel
    by_cases hsees : fb.Sees p
    · rw [if_pos hsees, if_pos hsees]
      refine poke_congr fun hout => h a (List.forall_mem_cons.mpr ⟨fun _ hholds => ?_, hrest⟩)
      have hin := (holds_iff hsees).mp hholds
      rw [Framebuffer.length_bytes] at hout
      omega
    · rw [if_neg hsees, if_neg hsees]
      exact h a (List.forall_mem_cons.mpr ⟨fun hs => absurd hs hsees, hrest⟩)

/-- A drawing is lost under one that has all of its pixels. -/
theorem draw_under {puts puts' : List Put}
    (h : ∀ px py, fb.On px py → Lights puts px py → Lights puts' px py) :
    fb.draw (fb.draw m puts) puts' = fb.draw m puts' := by
  refine draw_congr fun a hout => draw_outside fun p hp hsees hholds => ?_
  obtain ⟨q, hq, hx, hy⟩ := h _ _ hsees ⟨p, hp, rfl, rfl⟩
  refine hout q hq ?_ ?_
  · show fb.On q.x.toNat q.y.toNat
    rw [hx, hy]
    exact hsees
  · rw [hx, hy]
    exact hholds

/-- A cell ends before the coordinates do. -/
theorem iconRect_room {w h : UInt32} {idx : Nat} (hidx : idx < 4) :
    (iconRect w h idx).1.toNat + iconW.toNat < 2 ^ 32 ∧
      (iconRect w h idx).2.toNat + iconH.toNat < 2 ^ 32 := by
  have hhalf : ∀ v : UInt32, (v / 2).toNat < 2 ^ 31 := fun v => by
    have hv := v.toNat_lt
    rw [UInt32.toNat_div]
    exact Nat.div_lt_of_lt_mul hv
  have hcell : ∀ (b gap : UInt32) (n : Nat), n < 2 → b.toNat < 2 ^ 31 + 100 → gap.toNat < 300 →
      (b + UInt32.ofNat n * gap).toNat < 2 ^ 31 + 400 := by
    intro b gap n hn hb hgap
    have hstep : n * gap.toNat < 300 := by
      calc n * gap.toNat ≤ 1 * gap.toNat := Nat.mul_le_mul_right _ (by omega)
        _ < 300 := by omega
    rw [UInt32.toNat_add, UInt32.toNat_mul, UInt32.toNat_ofNat_of_lt' (by show n < 2 ^ 32; omega),
      Nat.add_mod_mod]
    exact Nat.lt_of_le_of_lt (Nat.mod_le ..) (by omega)
  have hx := hcell ((w - (iconW * 2 + iconGap)) / 2) (iconW + iconGap) (idx % 2) (by omega)
    (by have hlt := hhalf (w - (iconW * 2 + iconGap)); omega) (by decide)
  have htop : ((h - (iconH * 2 + iconGap)) / 2 + 30).toNat < 2 ^ 31 + 100 := by
    have hlt := hhalf (h - (iconH * 2 + iconGap))
    rw [UInt32.toNat_add]
    exact Nat.lt_of_le_of_lt (Nat.mod_le ..) (by show _ + 30 < _; omega)
  have hy :=
    hcell ((h - (iconH * 2 + iconGap)) / 2 + 30) (iconH + iconGap) (idx / 2) (by omega) htop
    (by decide)
  have hw' : iconW.toNat = 200 := rfl
  have hh' : iconH.toNat = 120 := rfl
  exact ⟨by rw [hw']; exact Nat.lt_of_lt_of_le (Nat.add_lt_add_right hx _) (by decide),
    by rw [hh']; exact Nat.lt_of_lt_of_le (Nat.add_lt_add_right hy _) (by decide)⟩

/-- A border is in its rectangle, if the rectangle ends before the coordinates do. -/
theorem lights_border_rect {px py : Nat} {w h thickness : UInt32} {c c' : Colour}
    (hx : x.toNat + w.toNat < 2 ^ 32) (hy : y.toNat + h.toNat < 2 ^ 32) (hon : fb.On px py)
    (hlights : Lights (drawBorder x y w h thickness c) px py) :
    Lights (fillRect x y w h c') px py := by
  by_cases hw : w = 0
  · rw [drawBorder, if_pos (.inl hw)] at hlights
    exact absurd hlights not_lights_nil
  by_cases hh : h = 0
  · rw [drawBorder, if_pos (.inr hh)] at hlights
    exact absurd hlights not_lights_nil
  obtain ⟨t, ht, hedges⟩ := (lights_drawBorder hon hw hh).mp hlights
  rw [Nat.mod_eq_of_lt (by omega), Nat.mod_eq_of_lt (by omega)] at hedges
  unfold Rect at hedges
  exact (lights_fillRect hon).mpr ⟨by omega, by omega⟩

/-- The picture of a cell that is selected has all of the pixels of the one that is not. -/
theorem lights_drawIcon {sw sh : UInt32} {idx : Nat} {old new : List Put}
    (hold : drawIcon font sw sh idx false = some old)
    (hnew : drawIcon font sw sh idx true = some new) :
    ∀ px py, fb.On px py → Lights old px py → Lights new px py := by
  obtain ⟨label, hlabel, rfl⟩ := Option.map_eq_some_iff.mp hold
  obtain ⟨label', hlabel', rfl⟩ := Option.map_eq_some_iff.mp hnew
  cases hlabel.symm.trans hlabel'
  have hidx : idx < 4 := (List.getElem?_eq_some_iff.mp hlabel).1
  obtain ⟨hroomx, hroomy⟩ := @iconRect_room sw sh idx hidx
  intro px py hon hlights
  simp only [lights_append] at hlights ⊢
  rcases hlights with (hfill | hborder) | htext
  · exact .inl (.inl hfill)
  · exact .inl (.inl (lights_border_rect hroomx hroomy hon hborder))
  · exact .inr htext

/-! ### No trace -/

/-- The bytes of a run are those of the run in which the cursor is never shown: all of them if the
cursor is hidden, and those off its block if it is shown. There `move_selection` redraws the two
cells. If they are the same cell, it draws nothing, and where that cell is shown as selected it
would not have changed anything. -/
theorem cursor_leaves_no_trace (fb : Framebuffer) (font : Font) :
    (∀ (m : Memory) (ops : List Op) (s : Scene), runOps fb font ops (Scene.start m) = some s →
      ∃ t, runOps fb font (ops.flatMap Op.unshown) (Scene.start m) = some t ∧
        t.cursor.shown = false ∧ (s.cursor.shown = false → s.mem = t.mem) ∧
        (s.hideCursor fb).mem = t.mem ∧
        ∀ a, ¬ InBlock fb s.cursor.x s.cursor.y a → s.mem a = t.mem a) ∧
    ∀ (m : Memory) (idx : Nat) (old new : List Put),
      drawIcon font (UInt32.ofNat fb.width) (UInt32.ofNat fb.height) idx false = some old →
      drawIcon font (UInt32.ofNat fb.width) (UInt32.ofNat fb.height) idx true = some new →
      fb.draw m new = m → fb.draw m (old ++ new) = m := by
  refine ⟨fun m ops s hrun => ?_, fun m idx old new hold hnew hselected => ?_⟩
  · obtain ⟨t, ht, hhidden, hover⟩ := Shadows.run ⟨rfl, Scene.over_of_hidden rfl⟩ hrun
    exact ⟨t, ht, hhidden, hover.mem_eq, hover.hideCursor.mem_eq Scene.hidden_hideCursor,
      fun a hout => hover.outside a fun hin => hout hin.2⟩
  · calc fb.draw m (old ++ new) = fb.draw (fb.draw m old) new := List.foldl_append
      _ = fb.draw m new := draw_under (lights_drawIcon hold hnew)
      _ = m := hselected

/-- A run with a cursor that is partly off the screen when the selection moves. -/
theorem cursor_leaves_no_trace_corner :
    ∃ s t, runOps smallScreen (fun _ _ => 0)
        [.move 5 0xFFFFFFFE, .showCursor, .refreshCursor, .moveSelection 0 3, .hideCursor]
        (Scene.start fun _ => 0) = some s ∧
      runOps smallScreen (fun _ _ => 0)
        [.move 5 0xFFFFFFFE, .refreshCursor, .redraw 0 3, .hideCursor]
        (Scene.start fun _ => 0) = some t ∧
      s.mem = t.mem := by
  obtain ⟨t, ht, -, hmem, -⟩ := (cursor_leaves_no_trace smallScreen fun _ _ => 0).1 (fun _ => 0)
    [.move 5 0xFFFFFFFE, .showCursor, .refreshCursor, .moveSelection 0 3, .hideCursor] _ rfl
  exact ⟨_, t, rfl, ht, hmem rfl⟩

end Gfx

end Plinth
