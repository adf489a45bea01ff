import Mathlib.Data.List.Nodup
import Chip8.Proofs.Footprint
import Chip8.Proofs.SpriteCoverage

/-!
# Drawing a sprite from memory

The instruction `DXYN` draws the `N` bytes from the index on. A sprite of so few rows does not reach
round the picture, so it covers each cell at most once: drawing toggles the cells that are covered,
and the flag tells whether one of them was lit. Drawing the same sprite again at the same place
brings the picture back, and the flag then tells whether one of them was dark.
-/
namespace Chip8

namespace Raster

def isCovered (x y : Nat) (rows : List UInt8) (p q : Nat) : Bool :=
  (bitPlaces rows.length).any (covers x y rows p q)

variable {x y p q : Nat} {rows : List UInt8}

theorem mem_bitPlaces {n r k : Nat} : (r, k) ∈ bitPlaces n ↔ r < n ∧ k < 8 := by
  simp [bitPlaces]

theorem nodup_bitPlaces (n : Nat) : (bitPlaces n).Nodup :=
  List.nodup_range.product List.nodup_range

theorem covers_iff {r k : Nat} :
    covers x y rows p q (r, k) = true ↔
      (rows.getD r 0).toNat.testBit (7 - k) = true ∧ (x + k) % 64 = p ∧ (y + r) % 32 = q := by
  simp [covers, and_assoc]

theorem eq_of_covers (h : rows.length ≤ 32) {a b : Nat × Nat} (ha : a ∈ bitPlaces rows.length)
    (hb : b ∈ bitPlaces rows.length) (hpa : covers x y rows p q a = true)
    (hpb : covers x y rows p q b = true) : a = b := by
  obtain ⟨r, k⟩ := a
  obtain ⟨s, l⟩ := b
  obtain ⟨hr, hk⟩ := mem_bitPlaces.1 ha
  obtain ⟨hs, hl⟩ := mem_bitPlaces.1 hb
  obtain ⟨_, hcolumn, hrow⟩ := covers_iff.1 hpa
  obtain ⟨_, hcolumn', hrow'⟩ := covers_iff.1 hpb
  have hrs : r = s := by omega
  have hkl : k = l := by omega
  rw [hrs, hkl]

theorem coverage_of_short (h : rows.length ≤ 32) :
    coverage x y rows p q = (isCovered x y rows p q).toNat := by
  cases hc : isCovered x y rows p q with
  | false =>
    rw [Bool.toNat_false, coverage, List.countP_eq_zero]
    exact fun a ha => (List.any_eq_false.1 hc) a ha
  | true =>
    obtain ⟨a, ha, hpa⟩ := List.any_eq_true.1 hc
    have honly : ∀ b ∈ bitPlaces rows.length, covers x y rows p q b = true ↔ (b == a) = true := by
      intro b hb
      rw [beq_iff_eq]
      constructor
      · exact fun hpb => eq_of_covers h hb ha hpb hpa
      · rintro rfl
        exact hpa
    rw [Bool.toNat_true, coverage, List.countP_congr honly]
    exact List.count_eq_one_of_mem (nodup_bitPlaces _) ha

theorem isCovered_under (h : rows.length ≤ 32) {r k : Nat} (hr : r < rows.length) (hk : k < 8) :
    isCovered x y rows ((x + k) % 64) ((y + r) % 32) = (rows.getD r 0).toNat.testBit (7 - k) := by
  rw [Bool.eq_iff_iff, isCovered, List.any_eq_true]
  constructor
  · rintro ⟨⟨s, l⟩, hplace, hcovers⟩
    obtain ⟨hs, hl⟩ := mem_bitPlaces.1 hplace
    obtain ⟨hbit, hcolumn, hrow⟩ := covers_iff.1 hcovers
    have hsr : s = r := by omega
    have hlk : l = k := by omega
    rwa [hsr, hlk] at hbit
  · intro hbit
    exact ⟨(r, k), mem_bitPlaces.2 ⟨hr, hk⟩, covers_iff.2 ⟨hbit, rfl, rfl⟩⟩

theorem get_draw_of_short (h : rows.length ≤ 32) (r : Raster) (x y : UInt8) (p : Fin 64)
    (q : Fin 32) :
    (r.draw x y rows).1.get p q = (r.get p q ^^ isCovered x.toNat y.toNat rows p q) := by
  rw [draw, get, isLit_toggleAll, count_footprint, coverage_of_short h, get]
  cases isCovered x.toNat y.toNat rows p q <;> rfl

theorem hit_draw_of_short (h : rows.length ≤ 32) (r : Raster) (x y : UInt8) :
    (r.draw x y rows).2 = true ↔
      ∃ (p : Fin 64) (q : Fin 32),
        isCovered x.toNat y.toNat rows p q = true ∧ r.get p q = true := by
  have htwo : ∀ a b : Bool, 2 ≤ a.toNat + b.toNat ↔ b = true ∧ a = true := by decide
  rw [draw, hit_toggleAll_iff]
  constructor
  · rintro (hfalse | ⟨c, hc⟩)
    · cases hfalse
    · obtain ⟨p, q, rfl⟩ := exists_cell_eq c
      rw [tally_footprint, coverage_of_short h, htwo] at hc
      exact ⟨p, q, hc⟩
  · rintro ⟨p, q, hpq⟩
    refine .inr ⟨cell p q, ?_⟩
    rwa [tally_footprint, coverage_of_short h, htwo]

/-- The second time the covered cells that were dark are lit. -/
theorem hit_draw_draw_of_short (h : rows.length ≤ 32) (r : Raster) (x y : UInt8) :
    ((r.draw x y rows).1.draw x y rows).2 = true ↔
      ∃ (p : Fin 64) (q : Fin 32),
        isCovered x.toNat y.toNat rows p q = true ∧ r.get p q = false := by
  rw [hit_draw_of_short h]
  apply exists_congr
  intro p
  apply exists_congr
  intro q
  apply and_congr_right
  intro hcovered
  rw [get_draw_of_short h, hcovered, Bool.xor_true, Bool.not_eq_true']

end Raster

namespace Machine

open Instruction (wordXYN)
open Raster (isCovered)

def Flags (m : Machine) (statement : Prop) : Prop :=
  (statement → m.register flag = 1) ∧ (¬ statement → m.register flag = 0)

theorem flags_of_hit {m : Machine} {hit : Bool} {statement : Prop}
    (hflag : m.register flag = hit.toUInt8) (h : hit = true ↔ statement) : m.Flags statement := by
  rw [Flags, ← h, hflag]
  cases hit with
  | false => exact ⟨fun hfalse => absurd hfalse Bool.false_ne_true, fun _ => rfl⟩
  | true => exact ⟨fun _ => rfl, fun hne => absurd rfl hne⟩

variable {m : Machine} {x y : Register} {n : Fin 16}

def sprite (m : Machine) (n : Nat) : List UInt8 :=
  (List.range n).map fun k => m.memory.read (.ofNat (m.index.toNat + k))

theorem window_cursor (m : Machine) (n : Nat) : m.memory.window m.cursor n = m.sprite n := by
  apply List.map_congr_left
  intro k _
  congr 1
  exact Fin.ext (m.val_cursor_advance k)

theorem length_sprite (m : Machine) (n : Nat) : (m.sprite n).length = n := by
  rw [sprite, List.length_map, List.length_range]

theorem getD_sprite (m : Machine) {n k : Nat} (h : k < n) :
    (m.sprite n).getD k 0 = m.memory.read (.ofNat (m.index.toNat + k)) := by
  simp [sprite, h]

theorem length_sprite_le (m : Machine) (n : Fin 16) : (m.sprite n.val).length ≤ 32 := by
  rw [length_sprite]
  exact Nat.le_trans (Nat.le_of_lt n.isLt) (by decide)

theorem raster_run_draw (m : Machine) (x y : Register) (n : Fin 16) :
    (m.run (.draw x y n)).raster =
      (m.raster.draw (m.register x) (m.register y) (m.sprite n.val)).1 := by
  rw [← window_cursor]
  rfl

theorem register_run_draw (m : Machine) (x y : Register) (n : Fin 16) (z : Register) :
    (m.run (.draw x y n)).register z =
      if flag = z then
        (m.raster.draw (m.register x) (m.register y) (m.sprite n.val)).2.toUInt8
      else m.register z := by
  rw [← window_cursor, ← register_setRegister]
  rfl

/-- A machine that does not wait draws the sprite of `n` bytes from the index on, its corner at the
column and row that the registers `x` and `y` hold. A cell under one of its bits is covered if that
bit is set, the covered cells change, and the flag tells whether one of them was lit. If neither
register is the flag register, the same instruction run once more brings the picture back, and the
flag tells whether a covered cell was dark at first. -/
theorem draw_from_memory (hw : m.awaiting = none) (hword : m.word = wordXYN 0xD x y n.val) :
    let x₀ := (m.register x).toNat
    let y₀ := (m.register y).toNat
    let covered := isCovered x₀ y₀ (m.sprite n.val)
    (∀ r c, r < n.val → c < 8 → covered ((x₀ + c) % 64) ((y₀ + r) % 32) =
        (m.memory.read (.ofNat (m.index.toNat + r))).toNat.testBit (7 - c)) ∧
      ∃ m', m.step = .ok m' ∧
        (∀ (p : Fin 64) (q : Fin 32), m'.raster.get p q = (m.raster.get p q ^^ covered p q)) ∧
        m'.Flags (∃ (p : Fin 64) (q : Fin 32), covered p q = true ∧ m.raster.get p q = true) ∧
        (x ≠ flag → y ≠ flag →
          ∃ m'', ({ m' with pc := m.pc } : Machine).step = .ok m'' ∧ m''.raster = m.raster ∧
            m''.Flags
              (∃ (p : Fin 64) (q : Fin 32), covered p q = true ∧ m.raster.get p q = false)) := by
  intro x₀ y₀ covered
  have hshort := m.length_sprite_le n
  refine ⟨?_, m.run (.draw x y n), step_of_encode (i := .draw x y n) hw hword rfl, ?_, ?_, ?_⟩
  · intro r c hr hc
    rw [← m.getD_sprite hr]
    exact Raster.isCovered_under hshort (by rwa [length_sprite]) hc
  · intro p q
    rw [raster_run_draw, Raster.get_draw_of_short hshort]
  · refine flags_of_hit ?_ (Raster.hit_draw_of_short hshort _ _ _)
    rw [register_run_draw, if_pos rfl]
  · intro hx hy
    let again : Machine := { m.run (.draw x y n) with pc := m.pc }
    have hsprite : again.sprite n.val = m.sprite n.val := rfl
    have hraster : again.raster = _ := raster_run_draw m x y n
    have hvx : again.register x = m.register x :=
      (register_run_draw m x y n x).trans (if_neg (Ne.symm hx))
    have hvy : again.register y = m.register y :=
      (register_run_draw m x y n y).trans (if_neg (Ne.symm hy))
    refine ⟨again.run (.draw x y n), step_of_encode (i := .draw x y n) hw hword rfl, ?_, ?_⟩
    · rw [raster_run_draw, hsprite, hraster, hvx, hvy, Raster.draw_draw]
    · refine flags_of_hit ?_ (Raster.hit_draw_draw_of_short hshort _ _ _)
      rw [register_run_draw, if_pos rfl, hsprite, hraster, hvx, hvy]

/-- Two rows of the digit zero, drawn over the lower right corner, come in again at the left and at
the top. -/
theorem draw_from_memory_over_corner :
    let fresh := start ⟨#[0xD0, 0x12], by decide⟩ .modern (.seeded 0)
    let m := (fresh.setRegister ⟨0, by decide⟩ 62).setRegister ⟨1, by decide⟩ 31
    ∃ m' m'', m.step = .ok m' ∧ m'.raster.get 0 31 = true ∧ m'.raster.get 1 0 = true ∧
      m'.register flag = 0 ∧ ({ m' with pc := m.pc } : Machine).step = .ok m'' ∧
      m''.raster = m.raster ∧ m''.register flag = 1 := by
  intro fresh m
  have hfresh : fresh.word = wordXYN 0xD ⟨0, by decide⟩ ⟨1, by decide⟩ 2 := word_start _ _ _
  have hword : m.word = wordXYN 0xD ⟨0, by decide⟩ ⟨1, by decide⟩ 2 := hfresh
  have hidle : m.awaiting = none := rfl
  have hx : m.register ⟨0, by decide⟩ = 62 := by simp [m, register_setRegister]
  have hy : m.register ⟨1, by decide⟩ = 31 := by simp [m, register_setRegister]
  have hdark : ∀ p q, m.raster.get p q = false := fun p q =>
    Vector.getElem_replicate (Raster.cell p q).isLt
  have hindex : m.index.toNat = 0 := rfl
  have hmemory : m.memory = Rom.image _ := rfl
  have hzero : m.memory.read (.ofNat 0) = 0xF0 := by
    rw [hmemory, Rom.read_image]
    rfl
  have hone : m.memory.read (.ofNat 1) = 0x90 := by
    rw [hmemory, Rom.read_image]
    rfl
  clear_value m fresh
  obtain ⟨hcovered, m', hstep, hget, hflag, hagain⟩ :=
    draw_from_memory (n := ⟨2, by decide⟩) hidle hword
  obtain ⟨m'', hstep', hraster, hflag'⟩ := hagain (by decide) (by decide)
  rw [hx, hy] at hcovered hget hflag'
  rw [hindex] at hcovered
  have hleft : isCovered 62 31 (m.sprite 2) 0 31 = true := by
    have hbit := hcovered 0 2 (by decide) (by decide)
    rw [Nat.zero_add, hzero] at hbit
    exact hbit
  have htop : isCovered 62 31 (m.sprite 2) 1 0 = true := by
    have hbit := hcovered 1 3 (by decide) (by decide)
    rw [Nat.zero_add, hone] at hbit
    exact hbit
  refine ⟨m', m'', hstep, ?_, ?_, hflag.2 ?_, hstep', hraster, hflag'.1 ?_⟩
  · have hcell := hget ⟨0, by decide⟩ ⟨31, by decide⟩
    rw [hdark, Bool.false_xor] at hcell
    exact hcell.trans hleft
  · have hcell := hget ⟨1, by decide⟩ ⟨0, by decide⟩
    rw [hdark, Bool.false_xor] at hcell
    exact hcell.trans htop
  · rintro ⟨p, q, _, hlit⟩
    rw [hdark] at hlit
    cases hlit
  · exact ⟨⟨0, by decide⟩, ⟨31, by decide⟩, hleft, hdark _ _⟩

end Machine

end Chip8
