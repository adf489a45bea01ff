import Chip8.Raster

/-!
# Sprites by how often they cover a cell

A sprite covers a cell once for each of its set bits that lies over it, and a sprite of more than 32
rows may do so several times. A cell is changed by a sprite if and only if it is covered an odd
number of times. A hit is counted when a cell is found lit at its turn; for that a cell that was lit
must be covered once, and one that was dark twice.
-/
namespace Chip8.Raster

/-- One if the cell is lit now, and one for each turn it is yet to have. -/
def tally (r : Raster) (cs : List Cell) (c : Cell) : Nat := (r.isLit c).toNat + cs.count c

theorem tally_nil_lt (r : Raster) (c : Cell) : r.tally [] c < 2 := by
  have hlit := Bool.toNat_lt (r.isLit c)
  simpa [tally] using hlit

/-- Lighting a dark cell spends one of its turns. -/
theorem tally_toggle_of_dark {r : Raster} {d : Cell} (hd : r.isLit d = false) (cs : List Cell)
    (c : Cell) : (r.toggle d).tally cs c = r.tally (d :: cs) c := by
  rw [tally, tally, isLit_toggle, List.count_cons]
  by_cases h : d = c
  · subst h
    simp only [hd, if_true, beq_self_eq_true, Bool.not_false, Bool.toNat_true, Bool.toNat_false]
    omega
  · simp [h]

theorem isLit_toggleAll (cs : List Cell) (s : Raster × Bool) (c : Cell) :
    (toggleAll cs s).1.isLit c = (s.1.isLit c ^^ decide (cs.count c % 2 = 1)) := by
  induction cs generalizing s with
  | nil => simp [toggleAll]
  | cons d cs ih =>
    obtain ⟨r, hit⟩ := s
    rw [toggleAll, ih, isLit_toggle, List.count_cons]
    by_cases h : d = c
    · have hparity : decide ((cs.count c + 1) % 2 = 1) = !decide (cs.count c % 2 = 1) := by
        rw [← decide_not, decide_eq_decide]
        omega
      simp only [h, if_true, beq_self_eq_true, hparity, Bool.not_xor, Bool.xor_not]
    · simp [h]

/-- Some turn finds its cell lit if and only if some cell is lit and toggled, or toggled twice. -/
theorem hit_toggleAll_iff (cs : List Cell) (r : Raster) (hit : Bool) :
    (toggleAll cs (r, hit)).2 = true ↔ hit = true ∨ ∃ c, 2 ≤ r.tally cs c := by
  induction cs generalizing r hit with
  | nil =>
    have hnone : ¬ ∃ c, 2 ≤ r.tally [] c := fun ⟨c, hc⟩ => Nat.not_lt.2 hc (r.tally_nil_lt c)
    simp [toggleAll, hnone]
  | cons d cs ih =>
    rw [toggleAll, ih]
    -- A lit cell is a hit at once; a dark one only has one of its turns turned into light.
    cases hd : r.isLit d with
    | true =>
      have hsome : ∃ c, 2 ≤ r.tally (d :: cs) c := by
        refine ⟨d, ?_⟩
        simp only [tally, hd, Bool.toNat_true, List.count_cons_self]
        omega
      simp [hsome]
    | false => simp [tally_toggle_of_dark hd]

/-- Bit `k` from the left of sprite row `r` is set and lies over column `p` of row `q`. -/
def covers (x y : Nat) (rows : List UInt8) (p q : Nat) : Nat × Nat → Bool
  | (r, k) => (rows.getD r 0).toNat.testBit (7 - k) && (x + k) % 64 == p && (y + r) % 32 == q

def bitPlaces (n : Nat) : List (Nat × Nat) :=
  (List.range n).flatMap fun r => (List.range 8).map fun k => (r, k)

def coverage (x y : Nat) (rows : List UInt8) (p q : Nat) : Nat :=
  (bitPlaces rows.length).countP (covers x y rows p q)

theorem bitPlaces_succ (n : Nat) :
    bitPlaces (n + 1) = (List.range 8).map (fun k => (0, k)) ++
      (bitPlaces n).map (fun rk => (rk.1 + 1, rk.2)) := by
  simp [bitPlaces, List.range_succ_eq_map, List.flatMap_map, List.map_flatMap]

theorem coverage_cons (x y : Nat) (bits : UInt8) (rows : List UInt8) (p q : Nat) :
    coverage x y (bits :: rows) p q =
      (List.range 8).countP
          (fun k => bits.toNat.testBit (7 - k) && (x + k) % 64 == p && y % 32 == q) +
        coverage x (y + 1) rows p q := by
  have hrest : covers x y (bits :: rows) p q ∘ (fun rk => (rk.1 + 1, rk.2)) =
      covers x (y + 1) rows p q := by
    funext ⟨r, k⟩
    simp only [Function.comp_apply, covers, List.getD_cons_succ, Nat.add_right_comm y 1 r,
      Nat.add_assoc y r 1]
  rw [coverage, List.length_cons, bitPlaces_succ, List.countP_append, List.countP_map,
    List.countP_map, hrest]
  rfl

theorem cell_eq_cell_iff {a b : Nat} (p : Fin 64) (q : Fin 32) :
    cell a b = cell p q ↔ a % 64 = p.val ∧ b % 32 = q.val := by
  have hp := p.isLt
  have hq := q.isLt
  simp only [cell, Fin.mk.injEq]
  omega

theorem exists_cell_eq (c : Cell) : ∃ (p : Fin 64) (q : Fin 32), c = cell p q := by
  have hc := c.isLt
  refine ⟨⟨c.val % 64, by omega⟩, ⟨c.val / 64, by omega⟩, Fin.ext ?_⟩
  simp only [cell]
  omega

theorem eq_of_isLit {r s : Raster} (h : ∀ c, r.isLit c = s.isLit c) : r = s := by
  have hcells : r.cells = s.cells := Vector.ext fun k hk => h ⟨k, hk⟩
  exact congrArg Raster.mk hcells

/-- Each cell is toggled as often the second time as the first. -/
theorem draw_draw (r : Raster) (x y : UInt8) (rows : List UInt8) :
    ((r.draw x y rows).1.draw x y rows).1 = r := by
  apply eq_of_isLit
  intro c
  rw [draw, draw, isLit_toggleAll, isLit_toggleAll, Bool.xor_assoc, Bool.xor_self, Bool.xor_false]

/-- A cell comes up in a sprite's footprint as often as the sprite covers it. -/
theorem count_footprint (x y : Nat) (rows : List UInt8) (p : Fin 64) (q : Fin 32) :
    (footprint x y rows).count (cell p q) = coverage x y rows p q := by
  induction rows generalizing y with
  | nil => rfl
  | cons bits rows ih =>
    have hrow : ((columns bits).map fun k => cell (x + k) y).count (cell p q) =
        (List.range 8).countP
          (fun k => bits.toNat.testBit (7 - k) && (x + k) % 64 == p.val && y % 32 == q.val) := by
      rw [List.count_eq_countP, List.countP_map, columns, List.countP_filter]
      apply List.countP_congr
      intro k _
      simp only [Function.comp_apply, Bool.and_eq_true, beq_iff_eq, cell_eq_cell_iff]
      rw [and_comm, and_assoc]
    rw [footprint, List.count_append, hrow, ih, coverage_cons]

theorem tally_footprint (r : Raster) (x y : Nat) (rows : List UInt8) (p : Fin 64) (q : Fin 32) :
    r.tally (footprint x y rows) (cell p q) = (r.get p q).toNat + coverage x y rows p q := by
  rw [tally, count_footprint, get]

/-- A sprite of any number of rows changes the cells that it covers an odd number of times, and it
reports a hit if and only if it covers some lit cell, or some cell twice. -/
theorem draw_by_coverage (r : Raster) (x y : UInt8) (rows : List UInt8) :
    (∀ (p : Fin 64) (q : Fin 32),
        (r.draw x y rows).1.get p q =
          (r.get p q ^^ decide (coverage x.toNat y.toNat rows p q % 2 = 1))) ∧
      ((r.draw x y rows).2 = true ↔
        ∃ (p : Fin 64) (q : Fin 32),
          2 ≤ (r.get p q).toNat + coverage x.toNat y.toNat rows p q) := by
  constructor
  · intro p q
    rw [draw, get, isLit_toggleAll, count_footprint, get]
  · rw [draw, hit_toggleAll_iff]
    constructor
    · rintro (hfalse | ⟨c, hc⟩)
      · cases hfalse
      · obtain ⟨p, q, rfl⟩ := exists_cell_eq c
        exact ⟨p, q, by rwa [← tally_footprint]⟩
    · rintro ⟨p, q, hpq⟩
      exact .inr ⟨cell p q, by rwa [tally_footprint]⟩

-- The last of 33 rows lies over the first.
example : coverage 60 31 (List.replicate 33 0xFF) 1 31 = 2 := by decide +kernel

end Chip8.Raster
