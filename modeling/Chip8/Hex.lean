/-!
# Hexadecimal text

Numbers are written in base sixteen with at least a given number of digits and never cut. Machine
messages use capital digits and mark an address with `0x`; strings of bytes use small digits, two
to a byte, and are read back in either case.
-/
namespace Chip8.Hex

/-- The base-sixteen digits of `n` in small letters, at least `width` of them. -/
def digits (width n : Nat) : List Char :=
  (Nat.toDigits 16 n).leftpad width '0'

def lower (width n : Nat) : String :=
  String.ofList (digits width n)

def upper (width n : Nat) : String :=
  String.ofList ((digits width n).map Char.toUpper)

/-- Capital digits behind the mark `0x`, which does not count towards the width. -/
def marked (width n : Nat) : String :=
  "0x" ++ upper width n

/-- Two small digits to a byte, with nothing between the bytes. -/
def ofBytes (bytes : List UInt8) : String :=
  String.ofList (bytes.flatMap fun b => digits 2 b.toNat)

def digit? (c : Char) : Option Nat :=
  if '0' ≤ c ∧ c ≤ '9' then some (c.toNat - '0'.toNat)
  else if 'a' ≤ c ∧ c ≤ 'f' then some (c.toNat - 'a'.toNat + 10)
  else if 'A' ≤ c ∧ c ≤ 'F' then some (c.toNat - 'A'.toNat + 10)
  else none

def pairs? : List Char → Option (List UInt8)
  | [] => some []
  | [_] => none
  | h :: l :: rest => do
      let high ← digit? h
      let low ← digit? l
      let bytes ← pairs? rest
      some (UInt8.ofNat (16 * high + low) :: bytes)

/-- Reads a string of digit pairs; anything else has no bytes. -/
def toBytes? (text : String) : Option (List UInt8) :=
  pairs? text.toList

end Chip8.Hex
