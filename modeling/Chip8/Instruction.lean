import Chip8.Dialect
import Chip8.Word

/-!
# Instructions

An instruction word stands for one of the instructions below or for none. `decode` reads a word and
`encode` writes one; each instruction has exactly one word.

The arithmetic instructions compute a new value for the first register and possibly one for the
flag register `VF`. The flag is written after the value, so it wins when the first register is
`VF`.
-/
namespace Chip8

/-- The conditions under which the next instruction is skipped. -/
inductive Test where
  | eqByte (x : Register) (b : UInt8)
  | neByte (x : Register) (b : UInt8)
  | eqRegister (x y : Register)
  | neRegister (x y : Register)
  | keyDown (x : Register)
  | keyUp (x : Register)
  deriving DecidableEq, Repr

inductive Arithmetic where
  | copy
  | or
  | and
  | xor
  | add
  | subtract
  | shiftRight
  | subtractFrom
  | shiftLeft
  deriving DecidableEq, Repr

namespace Arithmetic

def ofDigit? : Nat → Option Arithmetic
  | 0x0 => some .copy
  | 0x1 => some .or
  | 0x2 => some .and
  | 0x3 => some .xor
  | 0x4 => some .add
  | 0x5 => some .subtract
  | 0x6 => some .shiftRight
  | 0x7 => some .subtractFrom
  | 0xE => some .shiftLeft
  | _ => none

def digit : Arithmetic → Nat
  | .copy => 0x0
  | .or => 0x1
  | .and => 0x2
  | .xor => 0x3
  | .add => 0x4
  | .subtract => 0x5
  | .shiftRight => 0x6
  | .subtractFrom => 0x7
  | .shiftLeft => 0xE

theorem digit_lt (op : Arithmetic) : op.digit < 16 := by cases op <;> decide

theorem ofDigit?_digit (op : Arithmetic) : ofDigit? op.digit = some op := by cases op <;> rfl

def bit (p : Prop) [Decidable p] : UInt8 := if p then 1 else 0

/-- The value for the first register and, if it is to be written, the one for the flag register. -/
def eval (d : Dialect) (vx vy : UInt8) : Arithmetic → UInt8 × Option UInt8
  | .copy => (vy, none)
  | .or => (vx ||| vy, if d.clearsFlag then some 0 else none)
  | .and => (vx &&& vy, if d.clearsFlag then some 0 else none)
  | .xor => (vx ^^^ vy, if d.clearsFlag then some 0 else none)
  | .add => (vx + vy, some (bit (256 ≤ vx.toNat + vy.toNat)))
  | .subtract => (vx - vy, some (bit (vy ≤ vx)))
  | .subtractFrom => (vy - vx, some (bit (vx ≤ vy)))
  | .shiftRight =>
      let v := if d.shiftsSecond then vy else vx
      (v / 2, some (v % 2))
  | .shiftLeft =>
      let v := if d.shiftsSecond then vy else vx
      (v + v, some (v / 128))

end Arithmetic

inductive Instruction where
  | clear
  | ret
  | jump (a : Address)
  | call (a : Address)
  | skipIf (t : Test)
  | setByte (x : Register) (b : UInt8)
  | addByte (x : Register) (b : UInt8)
  | compute (op : Arithmetic) (x y : Register)
  | setIndex (a : Address)
  | jumpFrom (a : Address)
  | random (x : Register) (b : UInt8)
  | draw (x y : Register) (n : Fin 16)
  | readDelay (x : Register)
  | awaitKey (x : Register)
  | setDelay (x : Register)
  | setSound (x : Register)
  | addIndex (x : Register)
  | glyph (x : Register)
  | decimal (x : Register)
  | save (x : Register)
  | restore (x : Register)
  deriving DecidableEq, Repr

namespace Instruction

/-- The instructions of family `E`, told apart by the low byte. -/
def ofKeyCode? (x : Register) : Nat → Option Instruction
  | 0x9E => some (.skipIf (.keyDown x))
  | 0xA1 => some (.skipIf (.keyUp x))
  | _ => none

/-- The instructions of family `F`, told apart by the low byte. -/
def ofMiscCode? (x : Register) : Nat → Option Instruction
  | 0x07 => some (.readDelay x)
  | 0x0A => some (.awaitKey x)
  | 0x15 => some (.setDelay x)
  | 0x18 => some (.setSound x)
  | 0x1E => some (.addIndex x)
  | 0x29 => some (.glyph x)
  | 0x33 => some (.decimal x)
  | 0x55 => some (.save x)
  | 0x65 => some (.restore x)
  | _ => none

def decode (w : UInt16) : Option Instruction :=
  let x := Word.x w
  let y := Word.y w
  let b := Word.low w
  let a := Word.target w
  match Word.family w with
  | 0x0 => if w = 0x00E0 then some .clear else if w = 0x00EE then some .ret else none
  | 0x1 => some (.jump a)
  | 0x2 => some (.call a)
  | 0x3 => some (.skipIf (.eqByte x b))
  | 0x4 => some (.skipIf (.neByte x b))
  | 0x5 => if (Word.last w).val = 0 then some (.skipIf (.eqRegister x y)) else none
  | 0x6 => some (.setByte x b)
  | 0x7 => some (.addByte x b)
  | 0x8 => (Arithmetic.ofDigit? (Word.last w).val).map (.compute · x y)
  | 0x9 => if (Word.last w).val = 0 then some (.skipIf (.neRegister x y)) else none
  | 0xA => some (.setIndex a)
  | 0xB => some (.jumpFrom a)
  | 0xC => some (.random x b)
  | 0xD => some (.draw x y (Word.last w))
  | 0xE => ofKeyCode? x b.toNat
  | 0xF => ofMiscCode? x b.toNat
  | _ => none

/-- The word `FNNN`. -/
def wordA (family : Nat) (a : Address) : UInt16 := UInt16.ofNat (4096 * family + a.val)

/-- The word `FXNN`. -/
def wordXB (family : Nat) (x : Register) (b : UInt8) : UInt16 :=
  UInt16.ofNat (4096 * family + 256 * x.val + b.toNat)

/-- The word `FXYN`. -/
def wordXYN (family : Nat) (x y : Register) (n : Nat) : UInt16 :=
  UInt16.ofNat (4096 * family + 256 * x.val + 16 * y.val + n)

def encode : Instruction → UInt16
  | .clear => 0x00E0
  | .ret => 0x00EE
  | .jump a => wordA 0x1 a
  | .call a => wordA 0x2 a
  | .skipIf (.eqByte x b) => wordXB 0x3 x b
  | .skipIf (.neByte x b) => wordXB 0x4 x b
  | .skipIf (.eqRegister x y) => wordXYN 0x5 x y 0
  | .setByte x b => wordXB 0x6 x b
  | .addByte x b => wordXB 0x7 x b
  | .compute op x y => wordXYN 0x8 x y op.digit
  | .skipIf (.neRegister x y) => wordXYN 0x9 x y 0
  | .setIndex a => wordA 0xA a
  | .jumpFrom a => wordA 0xB a
  | .random x b => wordXB 0xC x b
  | .draw x y n => wordXYN 0xD x y n.val
  | .skipIf (.keyDown x) => wordXB 0xE x 0x9E
  | .skipIf (.keyUp x) => wordXB 0xE x 0xA1
  | .readDelay x => wordXB 0xF x 0x07
  | .awaitKey x => wordXB 0xF x 0x0A
  | .setDelay x => wordXB 0xF x 0x15
  | .setSound x => wordXB 0xF x 0x18
  | .addIndex x => wordXB 0xF x 0x1E
  | .glyph x => wordXB 0xF x 0x29
  | .decimal x => wordXB 0xF x 0x33
  | .save x => wordXB 0xF x 0x55
  | .restore x => wordXB 0xF x 0x65

theorem toNat_wordA {family : Nat} (h : family < 16) (a : Address) :
    (wordA family a).toNat = 4096 * family + a.val := by
  have := a.isLt
  simp only [wordA, UInt16.toNat_ofNat']
  omega

theorem toNat_wordXB {family : Nat} (h : family < 16) (x : Register) (b : UInt8) :
    (wordXB family x b).toNat = 4096 * family + 256 * x.val + b.toNat := by
  have := x.isLt
  have := b.toNat_lt
  simp only [wordXB, UInt16.toNat_ofNat']
  omega

theorem toNat_wordXYN {family n : Nat} (h : family < 16) (x y : Register) (hn : n < 16) :
    (wordXYN family x y n).toNat = 4096 * family + 256 * x.val + 16 * y.val + n := by
  have := x.isLt
  have := y.isLt
  simp only [wordXYN, UInt16.toNat_ofNat']
  omega

theorem parts_wordA {family : Nat} (h : family < 16) (a : Address) :
    Word.family (wordA family a) = family ∧ Word.target (wordA family a) = a := by
  have := a.isLt
  refine ⟨?_, Fin.ext ?_⟩
  · simp only [Word.family, toNat_wordA h]
    omega
  · simp only [Word.target, Address.ofNat, toNat_wordA h]
    omega

theorem parts_wordXB {family : Nat} (h : family < 16) (x : Register) (b : UInt8) :
    Word.family (wordXB family x b) = family ∧ Word.x (wordXB family x b) = x ∧
      Word.low (wordXB family x b) = b := by
  have := x.isLt
  have := b.toNat_lt
  refine ⟨?_, Fin.ext ?_, UInt8.toNat_inj.1 ?_⟩
  · simp only [Word.family, toNat_wordXB h]
    omega
  · simp only [Word.x, toNat_wordXB h]
    omega
  · simp only [Word.low, toNat_wordXB h, UInt8.toNat_ofNat']
    omega

theorem parts_wordXYN {family n : Nat} (h : family < 16) (x y : Register) (hn : n < 16) :
    Word.family (wordXYN family x y n) = family ∧ Word.x (wordXYN family x y n) = x ∧
      Word.y (wordXYN family x y n) = y ∧ Word.last (wordXYN family x y n) = ⟨n, hn⟩ := by
  have := x.isLt
  have := y.isLt
  refine ⟨?_, Fin.ext ?_, Fin.ext ?_, Fin.ext ?_⟩
  · simp only [Word.family, toNat_wordXYN h _ _ hn]
    omega
  · simp only [Word.x, toNat_wordXYN h _ _ hn]
    omega
  · simp only [Word.y, toNat_wordXYN h _ _ hn]
    omega
  · simp only [Word.last, toNat_wordXYN h _ _ hn]
    omega

/-- Reading a written word gives back the instruction. -/
theorem decode_encode (i : Instruction) : decode i.encode = some i := by
  cases i with
  | clear => rfl
  | ret => rfl
  | jump a => simp [encode, decode, parts_wordA]
  | call a => simp [encode, decode, parts_wordA]
  | skipIf t => cases t <;> simp [encode, decode, parts_wordXB, parts_wordXYN, ofKeyCode?]
  | setByte x b => simp [encode, decode, parts_wordXB]
  | addByte x b => simp [encode, decode, parts_wordXB]
  | compute op x y =>
    simp [encode, decode, parts_wordXYN, Arithmetic.digit_lt, Arithmetic.ofDigit?_digit]
  | setIndex a => simp [encode, decode, parts_wordA]
  | jumpFrom a => simp [encode, decode, parts_wordA]
  | random x b => simp [encode, decode, parts_wordXB]
  | draw x y n => simp [encode, decode, parts_wordXYN]
  | _ x => simp [encode, decode, parts_wordXB, ofMiscCode?]

end Instruction

end Chip8
