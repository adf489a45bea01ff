import Chip8.Session

/-!
# Frames as text

A line of a script is one frame: its nanoseconds, then its events, divided by blanks. `+Q` presses
the key named `Q`, `*Q` presses it again by auto-repeat, `-Q` releases it, and `quit` closes the
window.
-/
namespace Chip8.Script

def event? (text : String) : Option Event :=
  match text.toList with
  | '+' :: name => some (.keyDown (some (.ofName (String.ofList name))) false)
  | '*' :: name => some (.keyDown (some (.ofName (String.ofList name))) true)
  | '-' :: name => some (.keyUp (some (.ofName (String.ofList name))))
  | _ => if text = "quit" then some .quit else none

def words (line : String) : List String :=
  (line.splitOn " ").filter (· ≠ "")

def frame? (line : String) : Option Frame :=
  match words line with
  | [] => none
  | nanos :: events => do
      let nanos ← nanos.toNat?
      let events ← events.mapM event?
      some ⟨nanos, events⟩

/-- The frames of a script; lines that are none are passed over. -/
def frames (text : String) : List Frame :=
  (text.splitOn "\n").filterMap frame?

end Chip8.Script
