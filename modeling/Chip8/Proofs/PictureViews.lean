import Chip8.Proofs.SpriteCoverage
import Chip8.RasterViews

/-!
# Views of the picture agree

A picture is read cell by cell, as text and as boxes on a canvas. All three go through the cells row
by row, so what stands at a column and row in one of them stands there in the others. Text and boxes
lose nothing: the picture can be read back from either.
-/
namespace Chip8.Raster

def places : List (Nat × Nat) :=
  (List.range 32).flatMap fun q => (List.range 64).map fun p => (p, q)

theorem mem_places {p q : Nat} : (p, q) ∈ places ↔ p < 64 ∧ q < 32 := by
  simp only [places, List.mem_flatMap, List.mem_map, List.mem_range, Prod.mk.injEq]
  constructor
  · rintro ⟨_, hq, _, hp, rfl, rfl⟩
    exact ⟨hp, hq⟩
  · rintro ⟨hp, hq⟩
    exact ⟨q, hq, p, hp, rfl, rfl⟩

/-- Counting up to a product is counting through rows of equal length. -/
theorem range_mul (height width : Nat) :
    List.range (height * width) =
      (List.range height).flatMap fun q => (List.range width).map fun p => width * q + p := by
  induction height with
  | zero => simp
  | succ height ih =>
    rw [Nat.succ_mul, List.range_add, ih, List.range_succ, List.flatMap_append, Nat.mul_comm]
    simp

theorem range_eq_places : List.range 2048 = places.map fun (p, q) => 64 * q + p := by
  rw [places, List.map_flatMap]
  simp only [List.map_map]
  exact range_mul 32 64

theorem finRange_eq_places : List.finRange 2048 = places.map fun (p, q) => cell p q := by
  have hval : (List.finRange 2048).map Fin.val = List.range 2048 := by
    apply List.ext_getElem
    · simp
    · simp
  have hcells : (places.map fun (p, q) => cell p q).map Fin.val =
      places.map fun (p, q) => 64 * q + p := by
    rw [List.map_map]
    apply List.map_congr_left
    rintro ⟨p, q⟩ hpq
    obtain ⟨hp, hq⟩ := mem_places.1 hpq
    simp only [Function.comp_apply, cell]
    omega
  apply (List.map_inj_right fun _ _ => Fin.ext).1
  rw [hval, hcells, range_eq_places]

theorem lit_eq (r : Raster) :
    r.lit = (places.filter fun (p, q) => r.get p q).map fun (p, q) => cell p q := by
  rw [lit, finRange_eq_places, List.filter_map]
  rfl

theorem ofCell_cell {p q : Nat} (hp : p < 64) (hq : q < 32) :
    Box.ofCell (cell p q) = ⟨10 * p, 10 * q, 10, 10⟩ := by
  simp only [Box.ofCell, cell, zoom, Box.mk.injEq, and_true]
  omega

theorem boxes_eq (r : Raster) :
    r.boxes = (places.filter fun (p, q) => r.get p q).map
      fun (p, q) => ⟨10 * p, 10 * q, 10, 10⟩ := by
  rw [boxes, lit_eq, List.map_map]
  apply List.map_congr_left
  rintro ⟨p, q⟩ hpq
  obtain ⟨hp, hq⟩ := mem_places.1 (List.mem_filter.1 hpq).1
  exact ofCell_cell hp hq

def Box.Contains (b : Box) (u v : Nat) : Prop :=
  b.x ≤ u ∧ u < b.x + b.width ∧ b.y ≤ v ∧ v < b.y + b.height

def Box.Apart (b c : Box) : Prop := ∀ u v, ¬ (b.Contains u v ∧ c.Contains u v)

theorem nodup_lit (r : Raster) : r.lit.Nodup := (List.nodup_finRange 2048).filter r.isLit

/-- A point tells the cell whose box it lies in. -/
theorem apart_ofCell {c d : Cell} (h : c ≠ d) : (Box.ofCell c).Apart (Box.ofCell d) := by
  rintro u v ⟨hc, hd⟩
  apply h
  apply Fin.ext
  simp only [Box.Contains, Box.ofCell, zoom] at hc hd
  omega

theorem pairwise_apart_boxes (r : Raster) : r.boxes.Pairwise Box.Apart :=
  List.pairwise_map.2 (r.nodup_lit.imp apart_ofCell)

theorem nodup_boxes (r : Raster) : r.boxes.Nodup :=
  List.pairwise_map.2 (r.nodup_lit.imp fun hne h => hne (Box.ofCell_injective h))

theorem boxes_inside (r : Raster) {b : Box} (h : b ∈ r.boxes) :
    b.x + b.width ≤ 640 ∧ b.y + b.height ≤ 320 := by
  obtain ⟨c, _, rfl⟩ := List.mem_map.1 h
  have hc := c.isLt
  simp only [Box.ofCell, zoom]
  omega

theorem isLit_light_iff (r : Raster) (c d : Cell) :
    (r.light c).isLit d = true ↔ c = d ∨ r.isLit d = true := by
  by_cases h : c = d
  · subst h
    simp [isLit, light]
  · have hv : c.val ≠ d.val := fun e => h (Fin.ext e)
    simp [isLit, light, hv, h]

theorem isLit_blank (c : Cell) : blank.isLit c = false := Vector.getElem_replicate c.isLt

theorem lit_blank_light (c : Cell) : (blank.light c).lit = [c] := by
  have hlit : ∀ d, (blank.light c).isLit d = (d == c) := by
    intro d
    rw [Bool.eq_iff_iff, isLit_light_iff, isLit_blank, beq_iff_eq]
    simp [eq_comm]
  have hcount : (List.finRange 2048).count c = 1 :=
    Nat.le_antisymm (List.nodup_iff_count.1 (List.nodup_finRange 2048) c)
      (List.count_pos_iff.2 (List.mem_finRange c))
  rw [lit, List.filter_congr fun d _ => hlit d, List.filter_beq, hcount]
  rfl

theorem isLit_foldl_light_iff (bs : List Box) (r : Raster) (c : Cell) :
    (bs.foldl (fun r b => r.light b.toCell) r).isLit c = true ↔
      (∃ b ∈ bs, b.toCell = c) ∨ r.isLit c = true := by
  induction bs generalizing r with
  | nil => simp
  | cons b bs ih =>
    rw [List.foldl_cons, ih, isLit_light_iff]
    simp only [List.mem_cons, exists_eq_or_imp, or_assoc]
    exact or_left_comm

theorem isLit_ofBoxes_iff (bs : List Box) (c : Cell) :
    (ofBoxes bs).isLit c = true ↔ ∃ b ∈ bs, b.toCell = c := by
  rw [ofBoxes, isLit_foldl_light_iff, isLit_blank]
  simp

theorem toCell_ofCell (c : Cell) : (Box.ofCell c).toCell = c := by
  have hc := c.isLt
  apply Fin.ext
  simp only [Box.toCell, Box.ofCell, zoom, cell]
  omega

theorem ofBoxes_boxes (r : Raster) : ofBoxes r.boxes = r := by
  apply eq_of_isLit
  intro c
  rw [Bool.eq_iff_iff, isLit_ofBoxes_iff]
  constructor
  · rintro ⟨b, hb, rfl⟩
    obtain ⟨d, hd, rfl⟩ := List.mem_map.1 hb
    rw [toCell_ofCell]
    exact (List.mem_filter.1 hd).2
  · intro hlit
    have hc : c ∈ r.lit := List.mem_filter.2 ⟨List.mem_finRange c, hlit⟩
    exact ⟨_, List.mem_map_of_mem hc, toCell_ofCell c⟩

def lines (r : Raster) : List (List Char) := r.rows.map (List.map mark)

theorem toList_text (r : Raster) : r.text.toList = r.lines.flatMap (· ++ ['\n']) := by
  rw [text, String.toList_ofList, lines, List.flatMap_map]
  rfl

theorem mark_ne_newline (on : Bool) : mark on ≠ '\n' := by
  cases on <;> decide

theorem get_mod (r : Raster) (x y : Nat) : r.get (x % 64) (y % 32) = r.get x y := by
  simp only [get, cell, Nat.mod_mod]

theorem of_mem_lines {r : Raster} {marks : List Char} (h : marks ∈ r.lines) :
    marks.length = 64 ∧ '\n' ∉ marks := by
  obtain ⟨cells, hcells, rfl⟩ := List.mem_map.1 h
  obtain ⟨y, hy, rfl⟩ := List.mem_map.1 hcells
  refine ⟨by simp [row_eq_get r (List.mem_range.1 hy)], fun hmem => ?_⟩
  obtain ⟨on, _, hon⟩ := List.mem_map.1 hmem
  exact mark_ne_newline on hon

theorem getElem?_lines (r : Raster) (x y : Nat) :
    (r.lines[y % 32]?.bind fun marks => marks[x % 64]?) = some (mark (r.get x y)) := by
  have hx : x % 64 < 64 := Nat.mod_lt _ (by decide)
  have hy : y % 32 < 32 := Nat.mod_lt _ (by decide)
  simp [lines, rows, row_eq_get r hy, hx, hy, get_mod]

/-- The characters of the text but for the line ends are the marks of the cells. -/
theorem filter_text (r : Raster) :
    r.text.toList.filter (· ≠ '\n') = r.cells.toList.map mark := by
  -- No mark is a line end, so of each line only its end is dropped.
  have hline : ∀ cells : List Bool,
      (cells.map mark ++ ['\n']).filter (· ≠ '\n') = cells.map mark := by
    intro cells
    rw [List.filter_append, List.filter_eq_self.2]
    · simp
    · intro c hc
      obtain ⟨on, _, rfl⟩ := List.mem_map.1 hc
      simpa using mark_ne_newline on
  rw [toList_text, lines, List.flatMap_map, List.filter_flatMap]
  simp only [hline]
  rw [List.flatMap_def, ← List.map_flatten, flatten_rows]

theorem ofText_text (r : Raster) : ofText r.text = r := by
  apply eq_of_isLit
  intro c
  have hmark : ∀ on : Bool, (mark on == '#') = on := by decide
  simp only [ofText, filter_text]
  simp [isLit, hmark]

/-- Every column and row, taken round the picture, names a cell, and all views show it alike. It
stands at its place in the list of cells, counted row by row. The text has 32 lines of 64
characters, with a `#` where the cell is lit and a `.` where it is dark. The boxes that are filled
are those of the lit cells, row by row, ten times as far out and ten wide and high; they are all
different, do not overlap and lie on a canvas of 640 by 320. The picture can be read back from the
text and from the boxes. -/
theorem views_agree (r : Raster) :
    let boxes := r.strokes.filterMap Stroke.box?
    (∀ x y, r.cells.toList[64 * (y % 32) + x % 64]? = some (r.get x y)) ∧
      (∃ lines : List (List Char), r.text.toList = lines.flatMap (· ++ ['\n']) ∧
        lines.length = 32 ∧ (∀ marks ∈ lines, marks.length = 64 ∧ '\n' ∉ marks) ∧
        ∀ x y, (lines[y % 32]?.bind fun marks => marks[x % 64]?) =
          some (if r.get x y then '#' else '.')) ∧
      boxes = (places.filter fun (p, q) => r.get p q).map (fun (p, q) => ⟨10 * p, 10 * q, 10, 10⟩) ∧
      boxes.Nodup ∧ boxes.Pairwise Box.Apart ∧
      (∀ b ∈ boxes, b.x + b.width ≤ 640 ∧ b.y + b.height ≤ 320) ∧
      ofText r.text = r ∧ ofBoxes boxes = r := by
  intro boxes
  have hboxes : boxes = r.boxes := r.filterMap_box?_strokes
  rw [hboxes]
  refine ⟨fun x y => ?_, ⟨r.lines, r.toList_text, ?_, fun _ => of_mem_lines, r.getElem?_lines⟩,
    r.boxes_eq, r.nodup_boxes, r.pairwise_apart_boxes, fun _ => r.boxes_inside, r.ofText_text,
    r.ofBoxes_boxes⟩
  · have hlt : 64 * (y % 32) + x % 64 < 2048 := (cell x y).isLt
    simp [get, isLit, cell, hlt]
  · simp [lines, rows]

/-- The box of the last cell ends where the canvas ends. -/
theorem views_agree_on_last_cell :
    let r := blank.light (cell 63 31)
    let boxes := r.strokes.filterMap Stroke.box?
    ⟨630, 310, 10, 10⟩ ∈ boxes ∧ 630 + 10 ≤ 640 ∧ 310 + 10 ≤ 320 ∧ ofBoxes boxes = r := by
  intro r boxes
  obtain ⟨_, _, hboxes, _, _, hinside, _, hback⟩ := views_agree r
  have hlit : r.get 63 31 = true := (isLit_light_iff _ _ _).2 (.inl rfl)
  have hplace : (63, 31) ∈ places := mem_places.2 ⟨by decide, by decide⟩
  have hmem : ⟨630, 310, 10, 10⟩ ∈ r.strokes.filterMap Stroke.box? := by
    rw [hboxes]
    exact List.mem_map.2 ⟨(63, 31), List.mem_filter.2 ⟨hplace, hlit⟩, rfl⟩
  obtain ⟨hright, hbottom⟩ := hinside _ hmem
  exact ⟨hmem, hright, hbottom, hback⟩

end Chip8.Raster
