/-!
# The picture

A raster is a picture of 64 by 32 cells, each lit or dark, kept row by row. Coordinates outside the
picture come back in on the other side, on each axis on its own.

A sprite is a list of bytes, one for each row of eight cells with the leftmost in the highest bit.
Drawing toggles every cell under a set bit, one after the other, and reports a hit if one of them
was lit at its turn. A sprite of more than 32 rows therefore passes over its own cells again.
-/
namespace Chip8

namespace Raster

def width : Nat := 64

def height : Nat := 32

/-- A place in the picture, counted row by row from the upper left corner. -/
abbrev Cell := Fin 2048

def cell (x y : Nat) : Cell := ⟨64 * (y % 32) + x % 64, by omega⟩

end Raster

structure Raster where
  cells : Vector Bool 2048
  deriving DecidableEq

namespace Raster

def blank : Raster := ⟨Vector.replicate 2048 false⟩

def isLit (r : Raster) (c : Cell) : Bool := r.cells[c]

def get (r : Raster) (x y : Nat) : Bool := r.isLit (cell x y)

def toggle (r : Raster) (c : Cell) : Raster := ⟨r.cells.set c.val (!r.isLit c) c.isLt⟩

def light (r : Raster) (c : Cell) : Raster := ⟨r.cells.set c.val true c.isLt⟩

/-- The columns of a sprite row whose bit is set, from left to right. -/
def columns (bits : UInt8) : List Nat :=
  (List.range 8).filter fun k => bits.toNat.testBit (7 - k)

/-- The cells under the set bits of a sprite with its upper left corner at `(x, y)`. -/
def footprint (x y : Nat) : List UInt8 → List Cell
  | [] => []
  | bits :: rows => (columns bits).map (fun k => cell (x + k) y) ++ footprint x (y + 1) rows

/-- Toggles the cells in turn, keeping note of whether one was lit when its turn came. -/
def toggleAll : List Cell → Raster × Bool → Raster × Bool
  | [], state => state
  | c :: cs, (r, hit) => toggleAll cs (r.toggle c, hit || r.isLit c)

def draw (r : Raster) (x y : UInt8) (rows : List UInt8) : Raster × Bool :=
  toggleAll (footprint x.toNat y.toNat rows) (r, false)

/-- The lit cells, row by row. -/
def lit (r : Raster) : List Cell := (List.finRange 2048).filter r.isLit

theorem isLit_toggle (r : Raster) (c d : Cell) :
    (r.toggle c).isLit d = if c = d then !r.isLit d else r.isLit d := by
  by_cases h : c = d
  · subst h
    simp [isLit, toggle]
  · have hv : c.val ≠ d.val := fun e => h (Fin.ext e)
    simp [isLit, toggle, hv, h]

theorem toggleAll_append (cs ds : List Cell) (s : Raster × Bool) :
    toggleAll (cs ++ ds) s = toggleAll ds (toggleAll cs s) := by
  induction cs generalizing s with
  | nil => rfl
  | cons c cs ih => exact ih _

theorem footprint_append (x y : Nat) (r s : List UInt8) :
    footprint x y (r ++ s) = footprint x y r ++ footprint x (y + r.length) s := by
  induction r generalizing y with
  | nil => rfl
  | cons b r ih =>
    simp only [List.cons_append, footprint, ih, List.length_cons, List.append_assoc]
    congr 3
    omega

end Raster

end Chip8
