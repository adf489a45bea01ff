/-!
# Dialects of the instruction set

Interpreters disagree on three points, and a dialect settles each of them. The modern dialect is
the one recent programs expect; the other named one is that of the COSMAC VIP.
-/
namespace Chip8

structure Dialect where
  /-- A shift moves the bits of the second register instead of those of the first. -/
  shiftsSecond : Bool
  /-- Saving and restoring registers leaves the index behind the last byte. -/
  movesIndex : Bool
  /-- The bitwise operations put zero into the flag register. -/
  clearsFlag : Bool
  deriving DecidableEq, Repr

namespace Dialect

def modern : Dialect where
  shiftsSecond := false
  movesIndex := true
  clearsFlag := false

def cosmac : Dialect where
  shiftsSecond := true
  movesIndex := true
  clearsFlag := true

end Dialect

end Chip8
