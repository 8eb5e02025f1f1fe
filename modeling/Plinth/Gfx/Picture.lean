import Plinth.Gfx.Cursor

/-!
# `Plinth.Gfx.Picture`: the picture that a drawing leaves

A drawing writes its pixels in order, so at each place the last pixel that was put there is what
shows. `lastAt` is this colour. Two drawings with the same `lastAt` on the screen leave the same
bytes (`draw_ext`), whatever they put there in between.

`lastAt_append` is the rule for drawings one after the other. `lastAt_eq_none` leads back to the
pixels that a drawing has.
-/

set_option autoImplicit false

namespace Plinth

namespace Gfx

open Fbcon (Colour Font)
open Raster (Memory)

variable {fb : Framebuffer} {puts puts' : List Put} {m m' : Memory} {px py i a : Nat}

/-! ### The last pixel at a place -/

/-- The colour of the last pixel that a drawing puts at a place. -/
def lastAt (px py : Nat) : List Put → Option Colour
  | [] => none
  | p :: puts =>
    (lastAt px py puts).or (if p.x.toNat = px ∧ p.y.toNat = py then some p.colour else none)

@[simp] theorem lastAt_nil : lastAt px py [] = none := rfl

/-- The later drawing is on top. -/
@[simp] theorem lastAt_append :
    lastAt px py (puts ++ puts') = (lastAt px py puts').or (lastAt px py puts) := by
  induction puts with
  | nil => simp
  | cons p puts ih =>
    rw [List.cons_append, lastAt, ih, lastAt, Option.or_assoc]

/-- Nothing shows where no pixel is put. -/
theorem lastAt_eq_none : lastAt px py puts = none ↔ ¬ Lights puts px py := by
  induction puts with
  | nil => simp
  | cons p puts ih =>
    have hcons : Lights (p :: puts) px py ↔
        (p.x.toNat = px ∧ p.y.toNat = py) ∨ Lights puts px py := by
      simp only [Lights, List.mem_cons, exists_eq_or_imp]
    rw [lastAt, Option.or_eq_none_iff, ih, hcons, not_or, and_comm]
    by_cases hhere : p.x.toNat = px ∧ p.y.toNat = py
    · simp [hhere]
    · simp [hhere]

/-! ### Bytes -/

/-- The byte of a pixel after one more pixel is put. -/
theorem putPixel_byte {p : Put} (hon : fb.On px py) (hi : i < fb.bpp) :
    fb.putPixel m p (fb.base + fb.offset px py + i) =
      if p.x.toNat = px ∧ p.y.toNat = py then (fb.bytes p.colour).getD i 0
      else m (fb.base + fb.offset px py + i) := by
  have hholds : fb.Holds px py (fb.base + fb.offset px py + i) := by
    refine ⟨by omega, ?_⟩
    rw [Nat.add_assoc, Nat.add_sub_cancel_left]
    exact Raster.covers_add hi
  by_cases hhere : p.x.toNat = px ∧ p.y.toNat = py
  · obtain ⟨rfl, rfl⟩ := hhere
    have hlen : i < (fb.bytes p.colour).length := by rw [Framebuffer.length_bytes]; exact hi
    rw [if_pos ⟨rfl, rfl⟩, Framebuffer.putPixel, if_pos (show fb.Sees p from hon),
      Framebuffer.address_eq hon,
      Raster.poke_inside hlen, List.getD_eq_getElem?_getD, List.getElem?_eq_getElem hlen,
      Option.getD_some]
  · rw [if_neg hhere]
    refine putPixel_outside fun hsees hholds' => hhere ?_
    exact Raster.covers_unique hsees hon hholds'.2 hholds.2

/-- The byte of a pixel after a drawing is that of the last colour there, or the one from before if
no pixel is put there. The induction is on the drawing. -/
theorem draw_byte (hon : fb.On px py) (hi : i < fb.bpp) :
    fb.draw m puts (fb.base + fb.offset px py + i) =
      ((lastAt px py puts).map fun c => (fb.bytes c).getD i 0).getD
        (m (fb.base + fb.offset px py + i)) := by
  induction puts generalizing m with
  | nil => rfl
  | cons p puts ih =>
    show fb.draw (fb.putPixel m p) puts _ = _
    rw [ih, putPixel_byte hon hi, lastAt]
    cases lastAt px py puts with
    | some c => rfl
    | none =>
      by_cases hhere : p.x.toNat = px ∧ p.y.toNat = py
      · simp [hhere]
      · simp [hhere]

/-- A byte of a pixel on the screen is the byte of one pixel, at a place below `bpp`. -/
theorem Framebuffer.Holds.place (h : fb.Holds px py a) :
    ∃ i < fb.bpp, a = fb.base + fb.offset px py + i := by
  obtain ⟨hbase, hlow, hhigh⟩ := h
  exact ⟨a - (fb.base + fb.offset px py), by omega, by omega⟩

/-- Drawings that show the same leave the same bytes. -/
theorem draw_ext (h : ∀ px py, fb.On px py → lastAt px py puts = lastAt px py puts') :
    fb.draw m puts = fb.draw m puts' := by
  refine funext fun a => ?_
  by_cases hin : ∃ px py, fb.On px py ∧ fb.Holds px py a
  · obtain ⟨px, py, hon, hholds⟩ := hin
    obtain ⟨i, hi, rfl⟩ := hholds.place
    rw [draw_byte hon hi, draw_byte hon hi, h px py hon]
  · -- no drawing reaches a byte that is of no pixel
    have hnone : ∀ qs : List Put, fb.draw m qs a = m a := fun qs =>
      draw_outside fun p _ hsees hholds => hin ⟨_, _, hsees, hholds⟩
    rw [hnone, hnone]

theorem draw_append : fb.draw m (puts ++ puts') = fb.draw (fb.draw m puts) puts' :=
  List.foldl_append

end Gfx

end Plinth
