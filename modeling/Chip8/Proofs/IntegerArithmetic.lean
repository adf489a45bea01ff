import Chip8.Proofs.Footprint

/-!
# Arithmetic in integers

The bytes that an arithmetic instruction computes are described by equations between integers. The
value `r` and the flag `f` of an addition are the low and the high part of a sum, those of a
subtraction tell whether 256 was borrowed, and those of a shift are the bits that stay and the one
that falls out. As `r` is a byte and `f` a bit, an equation leaves no choice of them. The bitwise
operations are described bit by bit.

The value goes to the first register and then the flag to the flag register, so the flag stands when
these are the same.
-/
namespace Chip8

namespace Arithmetic

def Solves (op : Arithmetic) (d : Dialect) (vx vy : UInt8) (equation : Int → Int → Prop) : Prop :=
  ∃ r f : UInt8, op.eval d vx vy = (r, some f) ∧ f.toNat ≤ 1 ∧ equation r.toNat f.toNat

theorem toNat_bit (p : Prop) [Decidable p] : (bit p).toNat = if p then 1 else 0 := by
  unfold bit
  split <;> rfl

theorem toNat_bit_le (p : Prop) [Decidable p] : (bit p).toNat ≤ 1 := by
  rw [toNat_bit]
  split <;> decide

theorem solves_add (d : Dialect) (vx vy : UInt8) :
    add.Solves d vx vy fun r f => r + 256 * f = vx.toNat + vy.toNat := by
  have hx := vx.toNat_lt
  have hy := vy.toNat_lt
  refine ⟨_, _, rfl, toNat_bit_le _, ?_⟩
  rw [toNat_bit, UInt8.toNat_add]
  split <;> omega

theorem solves_subtract (d : Dialect) (vx vy : UInt8) :
    subtract.Solves d vx vy fun r f => r + vy.toNat = vx.toNat + 256 * (1 - f) := by
  have hx := vx.toNat_lt
  have hy := vy.toNat_lt
  have hle : vy ≤ vx ↔ vy.toNat ≤ vx.toNat := UInt8.le_iff_toNat_le
  refine ⟨_, _, rfl, toNat_bit_le _, ?_⟩
  rw [toNat_bit, UInt8.toNat_sub]
  by_cases h : vy ≤ vx
  · have hnat := hle.1 h
    rw [if_pos h]
    omega
  · have hnat := mt hle.2 h
    rw [if_neg h]
    omega

/-- The other subtraction is the same with the registers exchanged. -/
theorem solves_subtractFrom (d : Dialect) (vx vy : UInt8) :
    subtractFrom.Solves d vx vy fun r f => r + vx.toNat = vy.toNat + 256 * (1 - f) :=
  solves_subtract d vy vx

def source (d : Dialect) (vx vy : UInt8) : UInt8 := if d.shiftsSecond then vy else vx

theorem solves_shiftRight (d : Dialect) (vx vy : UInt8) :
    shiftRight.Solves d vx vy fun r f => 2 * r + f = (source d vx vy).toNat := by
  have htwo : (2 : UInt8).toNat = 2 := rfl
  refine ⟨source d vx vy / 2, source d vx vy % 2, rfl, ?_, ?_⟩
  · rw [UInt8.toNat_mod, htwo]
    omega
  · rw [UInt8.toNat_div, UInt8.toNat_mod, htwo]
    omega

theorem solves_shiftLeft (d : Dialect) (vx vy : UInt8) :
    shiftLeft.Solves d vx vy fun r f => r + 256 * f = 2 * (source d vx vy).toNat := by
  have hsource := (source d vx vy).toNat_lt
  have hhalf : (128 : UInt8).toNat = 128 := rfl
  refine ⟨source d vx vy + source d vx vy, source d vx vy / 128, rfl, ?_, ?_⟩
  · rw [UInt8.toNat_div, hhalf]
    omega
  · rw [UInt8.toNat_div, UInt8.toNat_add, hhalf]
    omega

end Arithmetic

namespace Machine

open Instruction (wordXYN)

/-- From `m` to `m'` the register `x` takes `r` and then the flag register `f`; no other changes. -/
structure Takes (x : Register) (r f : UInt8) (m m' : Machine) : Prop where
  flag : m'.register flag = f
  value : x ≠ Machine.flag → m'.register x = r
  others : ∀ z, z ≠ x → z ≠ Machine.flag → m'.register z = m.register z

def StepSolves (m : Machine) (x : Register) (equation : Int → Int → Prop) : Prop :=
  ∃ (m' : Machine) (r f : UInt8), m.step = .ok m' ∧ f.toNat ≤ 1 ∧ equation r.toNat f.toNat ∧
    m.Takes x r f m'

/-- A step succeeds, and the register `x` takes a value each of whose bits combines the bits of the
registers `x` and `y` at its place. The flag register is cleared after that or left alone, as the
dialect says. -/
def StepCombines (m : Machine) (x y : Register) (combine : Bool → Bool → Bool) : Prop :=
  ∃ (m' : Machine) (r : UInt8), m.step = .ok m' ∧
    (∀ k, r.toNat.testBit k =
      combine ((m.register x).toNat.testBit k) ((m.register y).toNat.testBit k)) ∧
    (m.dialect.clearsFlag = true → m.Takes x r 0 m') ∧
    (m.dialect.clearsFlag = false →
      m'.register x = r ∧ ∀ z, z ≠ x → m'.register z = m.register z)

theorem takes_setRegister (m : Machine) (x : Register) (r f : UInt8) :
    m.Takes x r f ((m.setRegister x r).setRegister flag f) where
  flag := by rw [register_setRegister, if_pos rfl]
  value hx := by
    rw [register_setRegister, if_neg (Ne.symm hx), register_setRegister, if_pos rfl]
  others z hx hf := by
    rw [register_setRegister, if_neg (Ne.symm hf), register_setRegister, if_neg (Ne.symm hx)]

variable {m : Machine} {x y : Register}

theorem takes_run_compute {op : Arithmetic} {r f : UInt8}
    (heval : op.eval m.dialect (m.register x) (m.register y) = (r, some f)) :
    m.Takes x r f (m.run (.compute op x y)) := by
  have hcompute : m.compute op x y = (m.setRegister x r).setRegister flag f := by
    rw [compute, heval]
  have htakes := m.takes_setRegister x r f
  rw [← hcompute] at htakes
  exact { htakes with }

theorem register_run_compute {op : Arithmetic} {r : UInt8}
    (heval : op.eval m.dialect (m.register x) (m.register y) = (r, none)) (z : Register) :
    (m.run (.compute op x y)).register z = if x = z then r else m.register z := by
  have hcompute : m.compute op x y = m.setRegister x r := by rw [compute, heval]
  rw [← register_setRegister, ← hcompute]
  rfl

theorem step_of_compute {op : Arithmetic} (hw : m.awaiting = none)
    (hword : m.word = wordXYN 0x8 x y op.digit) : m.step = .ok (m.run (.compute op x y)) :=
  step_of_encode (i := .compute op x y) hw hword rfl

theorem stepSolves_of_solves (op : Arithmetic) {equation : Int → Int → Prop}
    (hw : m.awaiting = none) (hword : m.word = wordXYN 0x8 x y op.digit)
    (h : op.Solves m.dialect (m.register x) (m.register y) equation) :
    m.StepSolves x equation := by
  obtain ⟨r, f, heval, hf, hequation⟩ := h
  exact ⟨_, r, f, step_of_compute hw hword, hf, hequation, takes_run_compute heval⟩

theorem stepCombines_of_eval (op : Arithmetic) {combine : Bool → Bool → Bool} {r : UInt8}
    (hw : m.awaiting = none) (hword : m.word = wordXYN 0x8 x y op.digit)
    (heval : op.eval m.dialect (m.register x) (m.register y) =
      (r, if m.dialect.clearsFlag then some 0 else none))
    (hbits : ∀ k, r.toNat.testBit k =
      combine ((m.register x).toNat.testBit k) ((m.register y).toNat.testBit k)) :
    m.StepCombines x y combine := by
  refine ⟨_, r, step_of_compute hw hword, hbits, ?_, ?_⟩
  · intro hclears
    rw [hclears, if_pos rfl] at heval
    exact takes_run_compute heval
  · intro hkeeps
    rw [hkeeps, if_neg Bool.false_ne_true] at heval
    refine ⟨?_, fun z hz => ?_⟩
    · rw [register_run_compute heval, if_pos rfl]
    · rw [register_run_compute heval, if_neg (Ne.symm hz)]

/-- A machine that does not wait runs the arithmetic instructions. Addition, both subtractions and
the shifts put a value into the register `X` and then a flag into the flag register; these solve an
equation between the integers that the registers held before. The bitwise operations combine the
registers bit by bit, and clear the flag register afterwards if the dialect says so. -/
theorem arithmetic_in_integers {m : Machine} (hw : m.awaiting = none) (x y : Register) :
    let vx : Int := (m.register x).toNat
    let vy : Int := (m.register y).toNat
    let source := if m.dialect.shiftsSecond then vy else vx
    (m.word = wordXYN 0x8 x y 0x4 → m.StepSolves x fun r f => r + 256 * f = vx + vy) ∧
      (m.word = wordXYN 0x8 x y 0x5 → m.StepSolves x fun r f => r + vy = vx + 256 * (1 - f)) ∧
      (m.word = wordXYN 0x8 x y 0x7 → m.StepSolves x fun r f => r + vx = vy + 256 * (1 - f)) ∧
      (m.word = wordXYN 0x8 x y 0x6 → m.StepSolves x fun r f => 2 * r + f = source) ∧
      (m.word = wordXYN 0x8 x y 0xE → m.StepSolves x fun r f => r + 256 * f = 2 * source) ∧
      (m.word = wordXYN 0x8 x y 0x1 → m.StepCombines x y or) ∧
      (m.word = wordXYN 0x8 x y 0x2 → m.StepCombines x y and) ∧
      (m.word = wordXYN 0x8 x y 0x3 → m.StepCombines x y xor) := by
  intro vx vy source
  have hsource : ((Arithmetic.source m.dialect (m.register x) (m.register y)).toNat : Int) =
      source := by
    simp only [source, Arithmetic.source]
    split <;> rfl
  refine ⟨?_, ?_, ?_, ?_, ?_, ?_, ?_, ?_⟩
  · intro hword
    exact stepSolves_of_solves .add hw hword (Arithmetic.solves_add _ _ _)
  · intro hword
    exact stepSolves_of_solves .subtract hw hword (Arithmetic.solves_subtract _ _ _)
  · intro hword
    exact stepSolves_of_solves .subtractFrom hw hword (Arithmetic.solves_subtractFrom _ _ _)
  · intro hword
    rw [← hsource]
    exact stepSolves_of_solves .shiftRight hw hword (Arithmetic.solves_shiftRight _ _ _)
  · intro hword
    rw [← hsource]
    exact stepSolves_of_solves .shiftLeft hw hword (Arithmetic.solves_shiftLeft _ _ _)
  · intro hword
    refine stepCombines_of_eval .or hw hword rfl fun k => ?_
    rw [UInt8.toNat_or, Nat.testBit_or]
  · intro hword
    refine stepCombines_of_eval .and hw hword rfl fun k => ?_
    rw [UInt8.toNat_and, Nat.testBit_and]
  · intro hword
    refine stepCombines_of_eval .xor hw hword rfl fun k => ?_
    rw [UInt8.toNat_xor, Nat.testBit_xor]

/-- When the flag register is itself added to, the carry stands in place of the sum. -/
theorem arithmetic_in_integers_of_flag_register :
    let fresh := start ⟨#[0x8F, 0x14], by decide⟩ .modern (.seeded 0)
    let m := (fresh.setRegister flag 200).setRegister ⟨1, by decide⟩ 100
    ∃ m', m.step = .ok m' ∧ m'.register flag = 1 ∧ m'.register ⟨1, by decide⟩ = 100 := by
  intro fresh m
  have hfresh : fresh.word = wordXYN 0x8 flag ⟨1, by decide⟩ 0x4 := word_start _ _ _
  have hword : m.word = wordXYN 0x8 flag ⟨1, by decide⟩ 0x4 := hfresh
  have hidle : m.awaiting = none := rfl
  have hx : m.register flag = 200 := by simp [m, register_setRegister, flag]
  have hy : m.register ⟨1, by decide⟩ = 100 := by simp [m, register_setRegister]
  clear_value m fresh
  obtain ⟨hadd, _⟩ := arithmetic_in_integers hidle flag ⟨1, by decide⟩
  obtain ⟨m', r, f, hstep, _, hsum, htakes⟩ := hadd hword
  refine ⟨m', hstep, ?_, ?_⟩
  · have hr := r.toNat_lt
    rw [hx, hy] at hsum
    have hcarry : f.toNat = 1 := by
      have h200 : (200 : UInt8).toNat = 200 := rfl
      have h100 : (100 : UInt8).toNat = 100 := rfl
      omega
    rw [htakes.flag]
    exact UInt8.toNat_inj.1 hcarry
  · rw [htakes.others _ (by decide) (by decide), hy]

end Machine

end Chip8
