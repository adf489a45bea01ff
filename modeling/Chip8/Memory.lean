import Chip8.Word

/-!
# Memory

Memory is a ring of 4096 bytes: a window read or written past the last address goes on at the
first.
-/
namespace Chip8

abbrev Memory := Vector UInt8 4096

namespace Memory

def read (m : Memory) (a : Address) : UInt8 := m[a]

def put (m : Memory) (a : Address) (b : UInt8) : Memory := m.set a.val b a.isLt

/-- The `n` bytes from address `a` on. -/
def window (m : Memory) (a : Address) (n : Nat) : List UInt8 :=
  (List.range n).map fun k => m.read (a.advance k)

/-- Writes the bytes one after the other from address `a` on. -/
def write (m : Memory) (a : Address) : List UInt8 → Memory
  | [] => m
  | b :: bs => write (m.put a b) (a.advance 1) bs

theorem read_put (m : Memory) (a b : Address) (v : UInt8) :
    (m.put a v).read b = if a = b then v else m.read b := by
  simp only [read, put, Fin.getElem_fin, Vector.getElem_set, Fin.ext_iff]

/-- Puts a byte in front of the runs of bytes found at higher addresses. -/
def extendRuns (a : Nat) (b : UInt8) : List (Nat × List UInt8) → List (Nat × List UInt8)
  | [] => [(a, [b])]
  | (start, bytes) :: runs =>
      if start = a + 1 then (a, b :: bytes) :: runs else (a, [b]) :: (start, bytes) :: runs

/-- The bytes of `m` that differ from those of `before`, as maximal runs of addresses. -/
def changes (before m : Memory) : List (Nat × List UInt8) :=
  (List.finRange 4096).foldr
    (fun a runs => if before.read a = m.read a then runs else extendRuns a.val (m.read a) runs) []

end Memory

end Chip8
