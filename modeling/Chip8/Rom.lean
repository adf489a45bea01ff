import Chip8.Memory

/-!
# Program images

A program is loaded at address 512 and has at most the 3584 bytes from there to the end of memory.
The font of the sixteen hexadecimal digits, five bytes each, stands at address zero, and every
other byte is zero.

An image may come in pieces. The pieces are joined; an interruption between them is passed over,
and a failure makes the whole image unreadable, whatever its size would have been.
-/
namespace Chip8

def font : Vector UInt8 80 :=
  #v[0xF0, 0x90, 0x90, 0x90, 0xF0,
     0x20, 0x60, 0x20, 0x20, 0x70,
     0xF0, 0x10, 0xF0, 0x80, 0xF0,
     0xF0, 0x10, 0xF0, 0x10, 0xF0,
     0x90, 0x90, 0xF0, 0x10, 0x10,
     0xF0, 0x80, 0xF0, 0x10, 0xF0,
     0xF0, 0x80, 0xF0, 0x90, 0xF0,
     0xF0, 0x10, 0x20, 0x40, 0x40,
     0xF0, 0x90, 0xF0, 0x90, 0xF0,
     0xF0, 0x90, 0xF0, 0x10, 0xF0,
     0xF0, 0x90, 0xF0, 0x90, 0x90,
     0xE0, 0x90, 0xE0, 0x90, 0xE0,
     0xF0, 0x80, 0x80, 0x80, 0xF0,
     0xE0, 0x90, 0x90, 0x90, 0xE0,
     0xF0, 0x80, 0xF0, 0x80, 0xF0,
     0xF0, 0x80, 0xF0, 0x80, 0x80]

namespace Rom

def origin : Nat := 512

def capacity : Nat := 3584

end Rom

structure Rom where
  bytes : Array UInt8
  size_le : bytes.size ≤ Rom.capacity

inductive RomError where
  | tooLarge (size : Nat)
  | unreadable (reason : String)
  deriving DecidableEq, Repr

namespace RomError

def message : RomError → String
  | .tooLarge size => s!"ROM too large: {size} bytes (maximum is {Rom.capacity})"
  | .unreadable reason => s!"IO Error: {reason}"

end RomError

namespace Rom

def empty : Rom := ⟨#[], by decide⟩

def ofBytes (bytes : Array UInt8) : Except RomError Rom :=
  if h : bytes.size ≤ capacity then .ok ⟨bytes, h⟩ else .error (.tooLarge bytes.size)

/-- Memory with the font and the program in their places. -/
def image (rom : Rom) : Memory :=
  Vector.ofFn fun a =>
    if h : a.val < 80 then font[a.val]
    else if a.val < origin then 0
    else rom.bytes.getD (a.val - origin) 0

theorem read_image (rom : Rom) (a : Address) :
    rom.image.read a =
      if h : a.val < 80 then font[a.val]
      else if a.val < origin then 0
      else rom.bytes.getD (a.val - origin) 0 := by
  simp [image, Memory.read]

inductive Delivery where
  | piece (bytes : List UInt8)
  | interruption
  | failure (reason : String)
  deriving DecidableEq, Repr

/-- Joins the pieces that come before the end of the deliveries. -/
def gather : List Delivery → Except RomError (List UInt8)
  | [] => .ok []
  | .piece bytes :: rest => do
      let more ← gather rest
      return bytes ++ more
  | .interruption :: rest => gather rest
  | .failure reason :: _ => .error (.unreadable reason)

def receive (deliveries : List Delivery) : Except RomError Rom := do
  let bytes ← gather deliveries
  ofBytes bytes.toArray

end Rom

end Chip8
