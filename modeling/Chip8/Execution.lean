import Chip8.Instruction
import Chip8.Machine

/-!
# Running one instruction

A step fetches the word at the program counter, decodes it and runs it. What the instruction does
to everything but the program counter is `effect`, and where the machine goes on is `next`; both
are read off the state before the step. A step that meets a fault has no new state, and a machine
that waits for a key stays as it is.
-/
namespace Chip8.Machine

/-- The word of the next instruction. -/
def word (m : Machine) : UInt16 :=
  Word.ofBytes (m.memory.read m.here) (m.memory.read (m.here.advance 1))

/-- The fault an instruction meets in this state, if any. -/
def fault? (m : Machine) : Instruction → Option Fault
  | .ret => if m.stack.depth = 0 then some (.stackUnderflow m.here) else none
  | .call _ => if m.stack.depth = CallStack.limit then some (.stackOverflow m.here) else none
  | _ => none

/-- The next instruction, unless there is none or it cannot run. -/
def fetch (m : Machine) : Except Fault Instruction :=
  match Instruction.decode m.word with
  | none => .error (.invalidInstruction m.word m.here)
  | some i =>
      match m.fault? i with
      | some f => .error f
      | none => .ok i

def holds (m : Machine) : Test → Bool
  | .eqByte x b => m.register x == b
  | .neByte x b => m.register x != b
  | .eqRegister x y => m.register x == m.register y
  | .neRegister x y => m.register x != m.register y
  | .keyDown x => m.isDown (keyOf (m.register x))
  | .keyUp x => !m.isDown (keyOf (m.register x))

def next (m : Machine) : Instruction → Address
  | .ret => (Address.ofWord m.stack.top).advance 2
  | .jump a => a
  | .call a => a
  | .jumpFrom a => a.advance (m.register ⟨0, by decide⟩).toNat
  | .skipIf t => m.here.advance (if m.holds t then 4 else 2)
  | _ => m.here.advance 2

def compute (m : Machine) (op : Arithmetic) (x y : Register) : Machine :=
  match op.eval m.dialect (m.register x) (m.register y) with
  | (v, none) => m.setRegister x v
  | (v, some f) => (m.setRegister x v).setRegister flag f

def drawSprite (m : Machine) (x y : Register) (n : Nat) : Machine :=
  let rows := m.memory.window m.cursor n
  let (raster, hit) := m.raster.draw (m.register x) (m.register y) rows
  { m.setRegister flag hit.toUInt8 with raster := raster }

/-- The decimal digits of a byte: hundreds, tens, ones. -/
def decimalDigits (b : UInt8) : List UInt8 := [b / 100, b / 10 % 10, b % 10]

/-- The index after `n` registers were saved or restored. -/
def indexPast (m : Machine) (n : Nat) : UInt16 :=
  if m.dialect.movesIndex then (m.cursor.advance n).toWord else m.index

def save (m : Machine) (n : Nat) : Machine :=
  { m with
    memory := m.memory.write m.cursor (m.registers.toList.take n)
    index := m.indexPast n }

def restore (m : Machine) (n : Nat) : Machine :=
  { m with
    registers := Vector.ofFn fun r =>
      if r.val < n then m.memory.read (m.cursor.advance r.val) else m.register r
    index := m.indexPast n }

def effect (m : Machine) : Instruction → Machine
  | .clear => { m with raster := .blank }
  | .ret => { m with stack := m.stack.pop }
  | .jump _ => m
  | .call _ => { m with stack := m.stack.push m.here.toWord }
  | .skipIf _ => m
  | .setByte x b => m.setRegister x b
  | .addByte x b => m.setRegister x (m.register x + b)
  | .compute op x y => m.compute op x y
  | .setIndex a => { m with index := a.toWord }
  | .jumpFrom _ => m
  | .random x b =>
      let (r, stream) := m.stream.next
      { m.setRegister x (r &&& b) with stream := stream }
  | .draw x y n => m.drawSprite x y n.val
  | .readDelay x => m.setRegister x m.delay
  | .awaitKey x =>
      match m.pressed? with
      | some k => m.setRegister x (UInt8.ofNat k.val)
      | none => { m with awaiting := some x }
  | .setDelay x => { m with delay := m.register x }
  | .setSound x => { m with sound := m.register x }
  | .addIndex x => { m with index := (m.cursor.advance (m.register x).toNat).toWord }
  | .glyph x => { m with index := UInt16.ofNat (5 * (keyOf (m.register x)).val) }
  | .decimal x => { m with memory := m.memory.write m.cursor (decimalDigits (m.register x)) }
  | .save x => m.save (x.val + 1)
  | .restore x => m.restore (x.val + 1)

def run (m : Machine) (i : Instruction) : Machine :=
  let a := m.next i
  { m.effect i with pc := a.toWord }

def step (m : Machine) : Except Fault Machine :=
  if m.isWaiting then .ok m else m.fetch.map m.run

/-- What there is to remark on a step from this state. -/
def stepNotices (m : Machine) : List Notice :=
  if m.isWaiting then []
  else
    .fetched m.here m.word ::
      match m.fetch with
      | .error (.invalidInstruction w a) => [.invalid a w]
      | .error (.stackUnderflow a) => [.emptyReturn a]
      | .error (.stackOverflow a) => [.fullCall a]
      | .ok (.awaitKey x) => if m.pressed?.isNone then [.awaitingKey x] else []
      | .ok _ => []

end Chip8.Machine
