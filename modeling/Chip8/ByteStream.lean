/-!
# Sources of random bytes

A `Wyrand` generator turns a 64-bit state into one 64-bit draw at a time. A byte stream hands bytes
to the machine: from any given sequence, from the first byte of each draw, or from all eight bytes
of a draw before the next one is made.
-/
namespace Chip8

structure Wyrand where
  state : UInt64
  deriving DecidableEq, Repr

namespace Wyrand

def increment : UInt64 := 0xa0761d6478bd642f

def mask : UInt64 := 0xe7037ed1a0b428db

/-- The halves of the 128-bit product of a state with its masked form, folded by exclusive or. -/
def fold (s : UInt64) : UInt64 :=
  let product := s.toNat * (s ^^^ mask).toNat
  UInt64.ofNat (product >>> 64) ^^^ UInt64.ofNat product

def draw (g : Wyrand) : UInt64 × Wyrand :=
  let s := g.state + increment
  (fold s, ⟨s⟩)

/-- Byte `k` of a draw, counted from the least significant one. -/
def byte (w : UInt64) (k : Nat) : UInt8 := UInt8.ofNat (w.toNat >>> (8 * k))

end Wyrand

inductive ByteStream where
  /-- The values of a sequence, from a position on. -/
  | sequence (bytes : Nat → UInt8) (position : Nat)
  /-- The lowest byte of each draw; the other seven are dropped. -/
  | sparse (g : Wyrand)
  /-- The bytes that are left of the current draw, then those of the next ones. -/
  | buffered (g : Wyrand) (left : List UInt8)

namespace ByteStream

/-- The given bytes over and over; without any, zeros. -/
def cyclic (bytes : Array UInt8) : ByteStream :=
  .sequence (fun k => bytes.getD (k % bytes.size) 0) 0

def seeded (seed : UInt64) : ByteStream := .buffered ⟨seed⟩ []

def next : ByteStream → UInt8 × ByteStream
  | .sequence bytes position => (bytes position, .sequence bytes (position + 1))
  | .sparse g =>
      let (w, g) := g.draw
      (Wyrand.byte w 0, .sparse g)
  | .buffered g (b :: left) => (b, .buffered g left)
  | .buffered g [] =>
      let (w, g) := g.draw
      (Wyrand.byte w 0, .buffered g ((List.range' 1 7).map (Wyrand.byte w)))

/-- The next `n` bytes, in order. -/
def take : Nat → ByteStream → List UInt8
  | 0, _ => []
  | n + 1, s => s.next.1 :: take n s.next.2

end ByteStream

end Chip8
