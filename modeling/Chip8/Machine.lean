import Chip8.ByteStream
import Chip8.CallStack
import Chip8.Dialect
import Chip8.Notice
import Chip8.Raster
import Chip8.Rom

/-!
# The machine

The state of a CHIP-8 computer and what can be done to it from outside: starting a program, keys,
the sixty-hertz timers, stepping over an instruction. The dialect and the byte stream belong to the
machine and not to the program, so a restart keeps them.
-/
namespace Chip8

structure Machine where
  pc : UInt16
  index : UInt16
  registers : Vector UInt8 16
  memory : Memory
  stack : CallStack
  delay : UInt8
  sound : UInt8
  raster : Raster
  keypad : Vector Bool 16
  /-- The register that takes the next key pressed; the machine stands still meanwhile. -/
  awaiting : Option Register
  dialect : Dialect
  stream : ByteStream

namespace Machine

/-- The state in which a program begins. -/
def start (rom : Rom) (dialect : Dialect) (stream : ByteStream) : Machine where
  pc := UInt16.ofNat Rom.origin
  index := 0
  registers := Vector.replicate 16 0
  memory := rom.image
  stack := .empty
  delay := 0
  sound := 0
  raster := .blank
  keypad := Vector.replicate 16 false
  awaiting := none
  dialect := dialect
  stream := stream

/-- Starts a program on this machine, whatever it did before. -/
def restart (rom : Rom) (m : Machine) : Machine := start rom m.dialect m.stream

def restartNotices (rom : Rom) : List Notice := [.loaded rom.bytes.size]

def isWaiting (m : Machine) : Bool := m.awaiting.isSome

def isAudible (m : Machine) : Bool := 0 < m.sound

def countDown (m : Machine) : Machine :=
  { m with delay := m.delay - min m.delay 1, sound := m.sound - min m.sound 1 }

/-- The address of the next instruction. -/
def here (m : Machine) : Address := .ofWord m.pc

/-- The address the index register points to. -/
def cursor (m : Machine) : Address := .ofWord m.index

def stepOver (m : Machine) : Machine := { m with pc := (m.here.advance 2).toWord }

def register (m : Machine) (x : Register) : UInt8 := m.registers[x]

def setRegister (m : Machine) (x : Register) (b : UInt8) : Machine :=
  { m with registers := m.registers.set x b }

/-- The number of the flag register. -/
def flag : Register := ⟨15, by decide⟩

/-- The key a byte names by its low four bits. -/
def keyOf (b : UInt8) : Fin 16 := ⟨b.toNat % 16, Nat.mod_lt _ (by decide)⟩

def isDown (m : Machine) (k : Fin 16) : Bool := m.keypad[k]

/-- The lowest key that is down. -/
def pressed? (m : Machine) : Option (Fin 16) := (List.finRange 16).find? m.isDown

def markKey (m : Machine) (k : Fin 16) (down : Bool) : Machine :=
  { m with keypad := m.keypad.set k down }

/-- Hands the key to the register that waits for one, if any. -/
def deliver (m : Machine) (k : Fin 16) : Machine :=
  match m.awaiting with
  | none => m
  | some x => { m.setRegister x (UInt8.ofNat k.val) with awaiting := none }

/-- Takes down the state of a key. Pressing one ends a wait; a number that is no key is ignored. -/
def latch (m : Machine) (key : UInt8) (down : Bool) : Machine :=
  if h : key.toNat < 16 then
    let m := m.markKey ⟨key.toNat, h⟩ down
    if down then m.deliver ⟨key.toNat, h⟩ else m
  else m

def latchNotices (m : Machine) (key : UInt8) (down : Bool) : List Notice :=
  if key.toNat < 16 then
    match down, m.awaiting with
    | true, some x => [.keyArrived key x]
    | _, _ => []
  else [.unknownKey key]

end Machine

end Chip8
