/-!
# The call stack

The stack has sixteen slots for return addresses. A slot keeps its value when the address is taken
off and is overwritten by the next call at that depth. Pushing onto a full stack changes nothing.
-/
namespace Chip8

structure CallStack where
  slots : Vector UInt16 16
  depth : Nat
  deriving DecidableEq, Repr

namespace CallStack

def limit : Nat := 16

def empty : CallStack := ⟨Vector.replicate 16 0, 0⟩

def push (s : CallStack) (w : UInt16) : CallStack :=
  if h : s.depth < 16 then ⟨s.slots.set s.depth w h, s.depth + 1⟩ else s

def pop (s : CallStack) : CallStack := { s with depth := s.depth - 1 }

/-- The address pushed last; zero on a stack without one. -/
def top (s : CallStack) : UInt16 := s.slots[s.depth - 1]?.getD 0

theorem depth_push {s : CallStack} (h : s.depth < 16) (w : UInt16) :
    (s.push w).depth = s.depth + 1 := by
  simp [push, h]

end CallStack

end Chip8
