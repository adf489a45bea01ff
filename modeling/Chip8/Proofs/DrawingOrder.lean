import Chip8.Proofs.SpriteCoverage

/-!
# The order of drawing

Sprites drawn one after the other toggle the cells of all their footprints. How often a cell is
toggled does not depend on the order, so neither does the picture. Which of the sprites report a hit
may well depend on it, but whether any of them does is settled by the counts again. A sprite cut in
two between its rows is drawn by drawing the parts.
-/
namespace Chip8.Raster

structure Stamp where
  x : UInt8
  y : UInt8
  rows : List UInt8

def Stamp.cells (s : Stamp) : List Cell := footprint s.x.toNat s.y.toNat s.rows

def drawAll (r : Raster) : List Stamp → Raster × List Bool
  | [] => (r, [])
  | s :: ss =>
      let (picture, hit) := r.draw s.x s.y s.rows
      let (last, hits) := picture.drawAll ss
      (last, hit :: hits)

theorem toggleAll_hit (cs : List Cell) (r : Raster) (hit : Bool) :
    toggleAll cs (r, hit) =
      ((toggleAll cs (r, false)).1, hit || (toggleAll cs (r, false)).2) := by
  induction cs generalizing r hit with
  | nil => simp [toggleAll]
  | cons c cs ih =>
    rw [toggleAll, toggleAll, ih, ih (r.toggle c) (false || r.isLit c), Bool.false_or,
      Bool.or_assoc]

/-- Cells may be toggled in any order. -/
theorem toggleAll_perm {cs ds : List Cell} (h : cs.Perm ds) (r : Raster) (hit : Bool) :
    toggleAll cs (r, hit) = toggleAll ds (r, hit) := by
  have hpicture : (toggleAll cs (r, hit)).1 = (toggleAll ds (r, hit)).1 := by
    apply eq_of_isLit
    intro c
    rw [isLit_toggleAll, isLit_toggleAll, h.count_eq]
  have hhit : (toggleAll cs (r, hit)).2 = (toggleAll ds (r, hit)).2 := by
    rw [Bool.eq_iff_iff, hit_toggleAll_iff, hit_toggleAll_iff]
    simp only [tally, h.count_eq]
  exact Prod.ext hpicture hhit

theorem drawAll_eq (r : Raster) (ss : List Stamp) :
    ((r.drawAll ss).1, (r.drawAll ss).2.or) = toggleAll (ss.flatMap Stamp.cells) (r, false) := by
  induction ss generalizing r with
  | nil => rfl
  | cons s ss ih =>
    rw [List.flatMap_cons, toggleAll_append, toggleAll_hit, ← ih]
    rfl

theorem drawAll_perm {ss ts : List Stamp} (h : ss.Perm ts) (r : Raster) :
    (r.drawAll ss).1 = (r.drawAll ts).1 ∧ (r.drawAll ss).2.or = (r.drawAll ts).2.or := by
  have hcells := toggleAll_perm (h.flatMap_right Stamp.cells) r false
  rw [← drawAll_eq, ← drawAll_eq] at hcells
  exact Prod.mk.inj hcells

theorem footprint_of_mod {y z : Nat} (h : y % 32 = z % 32) (x : Nat) (rows : List UInt8) :
    footprint x y rows = footprint x z rows := by
  induction rows generalizing y z with
  | nil => rfl
  | cons bits rows ih =>
    have hcell : ∀ a, cell a y = cell a z := fun a => by simp only [cell, h]
    have hnext : (y + 1) % 32 = (z + 1) % 32 := by omega
    rw [footprint, footprint, ih hnext]
    simp only [hcell]

/-- The rows below a cut are drawn as a sprite of their own, as many rows further down. A coordinate
is a byte, and going round it goes round the picture a whole number of times. -/
theorem draw_append (r : Raster) (x y : UInt8) (upper lower : List UInt8) :
    let first := r.draw x y upper
    let second := first.1.draw x (.ofNat ((y.toNat + upper.length) % 256)) lower
    r.draw x y (upper ++ lower) = (second.1, first.2 || second.2) := by
  intro first second
  have hbyte : (UInt8.ofNat ((y.toNat + upper.length) % 256)).toNat % 32 =
      (y.toNat + upper.length) % 32 := by
    rw [UInt8.toNat_ofNat']
    omega
  have hbelow := footprint_of_mod hbyte x.toNat lower
  rw [draw, footprint_append, toggleAll_append, toggleAll_hit, ← hbelow]
  rfl

/-- Sprites of any number of rows leave the same picture in whatever order they are drawn, and some
of them reports a hit in one order if and only if one does in the other. A sprite drawn twice at the
same place leaves the picture as it was. A sprite can be cut between two rows and its parts drawn
one after the other; it reports a hit if and only if one of them does. -/
theorem drawing_order_has_no_effect (r : Raster) :
    (∀ ss ts : List Stamp, ss.Perm ts →
        (r.drawAll ss).1 = (r.drawAll ts).1 ∧ (r.drawAll ss).2.or = (r.drawAll ts).2.or) ∧
      (∀ x y rows, ((r.draw x y rows).1.draw x y rows).1 = r) ∧
      ∀ x y upper lower,
        let first := r.draw x y upper
        let second := first.1.draw x (.ofNat ((y.toNat + upper.length) % 256)) lower
        r.draw x y (upper ++ lower) = (second.1, first.2 || second.2) :=
  ⟨fun _ _ h => drawAll_perm h r, r.draw_draw, r.draw_append⟩

/-- A bar of two cells and the dots it is made of: the bar hits what was drawn before it, and what is
drawn after it hits the bar. -/
theorem drawing_order_has_no_effect_on_bar :
    let left : Stamp := ⟨0, 0, [0x80]⟩
    let right : Stamp := ⟨1, 0, [0x80]⟩
    let bar : Stamp := ⟨0, 0, [0xC0]⟩
    (blank.drawAll [left, right, bar]).2 = [false, false, true] ∧
      (blank.drawAll [left, bar, right]).2 = [false, true, true] ∧
      (blank.drawAll [left, right, bar]).1 = (blank.drawAll [left, bar, right]).1 ∧
      (blank.drawAll [left, right, bar]).2.or = (blank.drawAll [left, bar, right]).2.or := by
  intro left right bar
  have hswap : [left, right, bar].Perm [left, bar, right] := (List.Perm.swap bar right []).cons left
  refine ⟨by decide +kernel, by decide +kernel, ?_⟩
  exact (drawing_order_has_no_effect blank).1 _ _ hswap

end Chip8.Raster
