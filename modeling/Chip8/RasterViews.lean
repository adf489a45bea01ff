import Chip8.Raster

/-!
# Views of the picture

The picture can be read as text, one line a row with `#` for a lit cell and `.` for a dark one, as
one 64-bit number a row with the leftmost cell in the highest bit, and as the strokes that paint it
on a canvas ten times its size. `ofText` and `ofBoxes` read the picture back from the first and the
last.
-/
namespace Chip8.Raster

/-- A row, cut out of the cells. -/
def row (r : Raster) (y : Nat) : List Bool :=
  (r.cells.toArray.extract (64 * y) (64 * y + 64)).toList

def rows (r : Raster) : List (List Bool) := (List.range 32).map r.row

def mark (on : Bool) : Char := if on then '#' else '.'

def characters (r : Raster) : List Char :=
  r.rows.flatMap fun cells => cells.map mark ++ ['\n']

def text (r : Raster) : String := String.ofList r.characters

/-- The picture whose lit cells are the `#` of a text, line ends not counted. -/
def ofText (s : String) : Raster :=
  let marks := (s.toList.filter (· ≠ '\n')).toArray
  ⟨Vector.ofFn fun c => marks.getD c.val '.' == '#'⟩

def rowWord (r : Raster) (y : Nat) : Nat :=
  (r.row y).foldl (fun w on => 2 * w + on.toNat) 0

/-- The rows of `r` that differ from those of `before`, each with its number. -/
def changedRows (before r : Raster) : List (Nat × Nat) :=
  ((List.range 32).map fun y => (y, r.rowWord y)).filter fun p => before.rowWord p.1 ≠ p.2

/-- How many canvas points a cell is wide and high. -/
def zoom : Nat := 10

structure Box where
  x : Nat
  y : Nat
  width : Nat
  height : Nat
  deriving DecidableEq, Repr

def Box.ofCell (c : Cell) : Box where
  x := c.val % 64 * zoom
  y := c.val / 64 * zoom
  width := zoom
  height := zoom

structure Color where
  red : UInt8
  green : UInt8
  blue : UInt8
  opacity : UInt8
  deriving DecidableEq, Repr

def Color.black : Color := ⟨0, 0, 0, 255⟩

def Color.white : Color := ⟨255, 255, 255, 255⟩

inductive Stroke where
  | color (c : Color)
  | clear
  | fill (b : Box)
  deriving DecidableEq, Repr

/-- One box for each lit cell, row by row. -/
def boxes (r : Raster) : List Box := r.lit.map Box.ofCell

/-- A black canvas, then the boxes of the lit cells in white. -/
def strokes (r : Raster) : List Stroke :=
  [.color .black, .clear, .color .white] ++ r.boxes.map .fill

def Box.toCell (b : Box) : Cell := cell (b.x / zoom) (b.y / zoom)

/-- The picture whose lit cells are those under the given boxes. -/
def ofBoxes (bs : List Box) : Raster :=
  bs.foldl (fun r b => r.light b.toCell) blank

def Stroke.box? : Stroke → Option Box
  | .fill b => some b
  | _ => none

theorem row_eq (r : Raster) (y : Nat) : r.row y = (r.cells.toList.drop (64 * y)).take 64 := by
  rw [row, Array.toList_extract, List.extract_eq_take_drop, Nat.add_sub_cancel_left]
  rfl

theorem flatten_upper_rows (r : Raster) (n : Nat) :
    ((List.range n).map r.row).flatten = r.cells.toList.take (64 * n) := by
  induction n with
  | zero => simp
  | succ n ih =>
    rw [List.range_succ, List.map_append, List.flatten_append, ih, Nat.mul_succ, List.take_add]
    simp [row_eq]

/-- The rows one after the other are all the cells. -/
theorem flatten_rows (r : Raster) : r.rows.flatten = r.cells.toList := by
  rw [rows, flatten_upper_rows, List.take_of_length_le]
  simp

/-- The cells of a row are those with its number, from left to right. -/
theorem row_eq_get (r : Raster) {y : Nat} (hy : y < 32) :
    r.row y = (List.range 64).map fun x => r.get x y := by
  rw [row_eq]
  apply List.ext_getElem
  · simp
    omega
  · intro x hx hx'
    simp only [List.length_map, List.length_range] at hx'
    have hcell : cell x y = ⟨64 * y + x, by omega⟩ := by
      simp only [cell, Fin.mk.injEq]
      omega
    simp [get, hcell, isLit]

theorem Box.ofCell_injective {c d : Cell} (h : Box.ofCell c = Box.ofCell d) : c = d := by
  simp only [Box.ofCell, zoom, Box.mk.injEq] at h
  apply Fin.ext
  omega

theorem filterMap_box?_strokes (r : Raster) : r.strokes.filterMap Stroke.box? = r.boxes := by
  have hcolors : [.color .black, .clear, .color .white].filterMap Stroke.box? = [] := rfl
  have hfill : Stroke.box? ∘ Stroke.fill = some := rfl
  rw [strokes, List.filterMap_append, hcolors, List.nil_append, List.filterMap_map, hfill,
    List.filterMap_some]

end Chip8.Raster
