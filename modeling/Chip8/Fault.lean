import Chip8.Hex
import Chip8.Word

/-!
# Faults

A fault is the reason why an instruction cannot run: its word is none, or the call stack is full or
empty. Each names the address of the instruction.
-/
namespace Chip8

inductive Fault where
  | invalidInstruction (w : UInt16) (a : Address)
  | stackOverflow (a : Address)
  | stackUnderflow (a : Address)
  deriving DecidableEq, Repr

namespace Fault

def message : Fault → String
  | .invalidInstruction w a =>
      "Invalid instruction at address " ++ Hex.marked 3 a.val ++ ": " ++ Hex.upper 4 w.toNat
  | .stackOverflow a => "Stack overflow on instruction at address " ++ Hex.marked 3 a.val
  | .stackUnderflow a => "Stack underflow on instruction at address " ++ Hex.marked 3 a.val

end Fault

end Chip8
