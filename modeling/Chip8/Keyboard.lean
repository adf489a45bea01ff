/-!
# The keyboard

The left-hand block of a keyboard stands for the keypad of the machine:

    1 2 3 4      1 2 3 C
    Q W E R      4 5 6 D
    A S D F      7 8 9 E
    Z X C V      A 0 B F

Pressing and releasing one of these keys, also by auto-repeat, moves the keypad key. Space pauses
and resumes, F5 restarts the program and Escape quits; these act once a press, so not on
auto-repeat.
-/
namespace Chip8

inductive KeyCode where
  | digit1 | digit2 | digit3 | digit4
  | q | w | e | r
  | a | s | d | f
  | z | x | c | v
  | space | f5 | escape
  | other (name : String)
  deriving DecidableEq, Repr

namespace KeyCode

def ofName : String → KeyCode
  | "Num1" => .digit1
  | "Num2" => .digit2
  | "Num3" => .digit3
  | "Num4" => .digit4
  | "Q" => .q
  | "W" => .w
  | "E" => .e
  | "R" => .r
  | "A" => .a
  | "S" => .s
  | "D" => .d
  | "F" => .f
  | "Z" => .z
  | "X" => .x
  | "C" => .c
  | "V" => .v
  | "Space" => .space
  | "F5" => .f5
  | "Escape" => .escape
  | name => .other name

/-- The keypad key in the place of a keyboard key. -/
def pad? : KeyCode → Option (Fin 16)
  | .digit1 => some 0x1
  | .digit2 => some 0x2
  | .digit3 => some 0x3
  | .digit4 => some 0xC
  | .q => some 0x4
  | .w => some 0x5
  | .e => some 0x6
  | .r => some 0xD
  | .a => some 0x7
  | .s => some 0x8
  | .d => some 0x9
  | .f => some 0xE
  | .z => some 0xA
  | .x => some 0x0
  | .c => some 0xB
  | .v => some 0xF
  | _ => none

end KeyCode

inductive Event where
  | keyDown (code : Option KeyCode) (repeated : Bool)
  | keyUp (code : Option KeyCode)
  | quit
  | other
  deriving DecidableEq, Repr

inductive Request where
  | pad (k : Fin 16) (down : Bool)
  | pauseOrResume
  | restart
  | quit
  deriving DecidableEq, Repr

namespace KeyCode

def control? : KeyCode → Option Request
  | .space => some .pauseOrResume
  | .f5 => some .restart
  | .escape => some .quit
  | _ => none

end KeyCode

namespace Event

/-- What an event of the keyboard asks for. Closing the window is no such event. -/
def request? : Event → Option Request
  | .keyDown (some code) repeated =>
      match code.pad? with
      | some k => some (.pad k true)
      | none => if repeated then none else code.control?
  | .keyUp (some code) => code.pad?.map (.pad · false)
  | _ => none

end Event

end Chip8
