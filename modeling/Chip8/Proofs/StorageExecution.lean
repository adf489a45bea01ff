import Chip8.Proofs.Storage

/-!
# Execution in storage

The operations on a stored machine, as a host carries them out: in place, one part after the other,
each access and each sum checked. `execute` runs one instruction and `perform` any operation; both
return the state they leave also when they report a failure, so that a failure might leave the state
half changed. `performAll` is a whole run.
-/
namespace Chip8.Storage

def assign (s : Storage) (x : Nat) (b : UInt8) : Option Storage := do
  let registers ← put s.registers x b
  return { s with registers := registers }

def write (s : Storage) (k : Nat) (b : UInt8) : Option Storage := do
  let memory ← put s.memory (← place s.index k) b
  return { s with memory := memory }

def holds (s : Storage) : Test → Option Bool
  | .eqByte x b => do
      let vx ← s.registers[x.val]?
      return vx == b
  | .neByte x b => do
      let vx ← s.registers[x.val]?
      return vx != b
  | .eqRegister x y => do
      let vx ← s.registers[x.val]?
      let vy ← s.registers[y.val]?
      return vx == vy
  | .neRegister x y => do
      let vx ← s.registers[x.val]?
      let vy ← s.registers[y.val]?
      return vx != vy
  | .keyDown x => do
      let vx ← s.registers[x.val]?
      s.keypad[vx.toNat % 16]?
  | .keyUp x => do
      let vx ← s.registers[x.val]?
      let down ← s.keypad[vx.toNat % 16]?
      return !down

def compute (s : Storage) (op : Arithmetic) (x y : Nat) : Option Storage := do
  let vx ← s.registers[x]?
  let vy ← s.registers[y]?
  match op.eval s.dialect vx vy with
  | (v, none) => s.assign x v
  | (v, some f) => do
      let s ← s.assign x v
      s.assign 15 f

def toggleAt (x y : Nat) (p : Vector Bool 2048 × Bool) : Option (Vector Bool 2048 × Bool) := do
  let row ← mulIndex (y % 32) 64
  let k ← addIndex row (x % 64)
  let old ← p.1[k]?
  let cells ← put p.1 k (!old)
  return (cells, p.2 || old)

def paintRow (x y : Nat) : List Nat → Vector Bool 2048 × Bool → Option (Vector Bool 2048 × Bool)
  | [], p => some p
  | column :: columns, p => do
      let p ← toggleAt (← addIndex x column) y p
      paintRow x y columns p

/-- Paints the rows from number `r` on. -/
def paint (x y : Nat) :
    Nat → List UInt8 → Vector Bool 2048 × Bool → Option (Vector Bool 2048 × Bool)
  | _, [], p => some p
  | r, bits :: rows, p => do
      let p ← paintRow x (← addIndex y r) (Raster.columns bits) p
      paint x y (r + 1) rows p

/-- The sprite is collected in a buffer of fifteen rows, of which the first `n` are painted. -/
def drawSprite (s : Storage) (x y n : Nat) : Option Storage := do
  let rows ← (List.range n).mapM fun k => do s.memory[← place s.index k]?
  guard (n ≤ 15)
  let vx ← s.registers[x]?
  let vy ← s.registers[y]?
  let (cells, hit) ← paint vx.toNat vy.toNat 0 rows (s.cells, false)
  let s ← s.assign 15 hit.toUInt8
  return { s with cells := cells }

def moveIndex (s : Storage) (x : Nat) : Option Storage :=
  if s.dialect.movesIndex then do
    let sum ← addWord (← addWord (mask s.index) (UInt16.ofNat x)) 1
    return { s with index := mask sum }
  else some s

def saveOne (s : Storage) (k : Nat) : Option Storage := do
  let a ← place s.index k
  let b ← s.registers[k]?
  let memory ← put s.memory a b
  return { s with memory := memory }

def restoreOne (s : Storage) (k : Nat) : Option Storage := do
  let b ← s.memory[← place s.index k]?
  s.assign k b

/-- Does what an instruction does, and says where to go on; `next` is behind the instruction. -/
def act (s : Storage) (pc next : UInt16) : Instruction → Option (Except Fault UInt16 × Storage)
  | .clear => return (.ok next, { s with cells := Vector.replicate 2048 false })
  | .ret =>
      if s.depth = 0 then return (.error (.stackUnderflow (.ofWord pc)), s)
      else do
        let s := { s with depth := ← subIndex s.depth 1 }
        let next ← addWord (← s.slots[s.depth]?) 2
        return (.ok next, s)
  | .jump a => return (.ok a.toWord, s)
  | .call a =>
      if s.depth = CallStack.limit then return (.error (.stackOverflow (.ofWord pc)), s)
      else do
        let s := { s with slots := ← put s.slots s.depth pc }
        let s := { s with depth := ← addIndex s.depth 1 }
        return (.ok a.toWord, s)
  | .skipIf t => do
      if ← s.holds t then
        let next ← addWord next 2
        return (.ok next, s)
      else return (.ok next, s)
  | .setByte x b => do
      let s ← s.assign x b
      return (.ok next, s)
  | .addByte x b => do
      let vx ← s.registers[x.val]?
      let s ← s.assign x (vx + b)
      return (.ok next, s)
  | .compute op x y => do
      let s ← s.compute op x y
      return (.ok next, s)
  | .setIndex a => return (.ok next, { s with index := a.toWord })
  | .jumpFrom a => do
      let v ← s.registers[0]?
      let next ← addWord a.toWord v.toUInt16
      return (.ok next, s)
  | .random x b => do
      let (r, stream) := s.stream.next
      let s ← assign { s with stream := stream } x (r &&& b)
      return (.ok next, s)
  | .draw x y n => do
      let s ← s.drawSprite x y n
      return (.ok next, s)
  | .readDelay x => do
      let s ← s.assign x s.delay
      return (.ok next, s)
  | .awaitKey x =>
      match (List.finRange 16).find? s.keypad.get with
      | some k => do
          let s ← s.assign x (UInt8.ofNat k.val)
          return (.ok next, s)
      | none => return (.ok next, { s with awaiting := some x.val })
  | .setDelay x => do
      let s := { s with delay := ← s.registers[x.val]? }
      return (.ok next, s)
  | .setSound x => do
      let s := { s with sound := ← s.registers[x.val]? }
      return (.ok next, s)
  | .addIndex x => do
      let vx ← s.registers[x.val]?
      let sum ← addWord (mask s.index) vx.toUInt16
      return (.ok next, { s with index := mask sum })
  | .glyph x => do
      let vx ← s.registers[x.val]?
      let sum ← addWord 0 (← mulWord (vx &&& 0xF).toUInt16 5)
      return (.ok next, { s with index := sum })
  | .decimal x => do
      let vx ← s.registers[x.val]?
      let s ← s.write 0 (vx / 100)
      let s ← s.write 1 (vx / 10 % 10)
      let s ← s.write 2 (vx % 10)
      return (.ok next, s)
  | .save x => do
      let s ← (List.range (x.val + 1)).foldlM saveOne s
      let s ← s.moveIndex x
      return (.ok next, s)
  | .restore x => do
      let s ← (List.range (x.val + 1)).foldlM restoreOne s
      let s ← s.moveIndex x
      return (.ok next, s)

def execute (s : Storage) : Option (Except Fault Unit × Storage) :=
  if s.awaiting.isSome then return (.ok (), s)
  else do
    let pc := mask s.pc
    let high ← s.memory[← place pc 0]?
    let low ← s.memory[← place pc 1]?
    let next ← addWord pc 2
    match Instruction.decode (Word.ofBytes high low) with
    | none => return (.error (.invalidInstruction (Word.ofBytes high low) (.ofWord pc)), s)
    | some i =>
        match ← s.act pc next i with
        | (.error f, s) => return (.error f, s)
        | (.ok next, s) => return (.ok (), { s with pc := mask next })

def executeTimes : Nat → Storage → Option (List (Except Fault Unit) × Storage)
  | 0, s => some ([], s)
  | n + 1, s => do
      let (result, s) ← s.execute
      let (results, s) ← executeTimes n s
      return (result :: results, s)

def copyAt (s : Storage) (k : Nat) (bytes : Array UInt8) : Option Storage := do
  guard ((← addIndex k bytes.size) ≤ 4096)
  return { s with
    memory := Vector.ofFn fun a =>
      if k ≤ a.val ∧ a.val < k + bytes.size then bytes.getD (a.val - k) 0 else s.memory.read a }

def cleared (d : Dialect) (stream : ByteStream) : Storage where
  pc := 512
  index := 0
  registers := Vector.replicate 16 0
  memory := Vector.replicate 4096 0
  slots := Vector.replicate 16 0
  depth := 0
  delay := 0
  sound := 0
  cells := Vector.replicate 2048 false
  keypad := Vector.replicate 16 false
  awaiting := none
  dialect := d
  stream := stream

def load (s : Storage) (bytes : Array UInt8) : Option Storage := do
  let s ← (cleared s.dialect s.stream).copyAt 0 font.toArray
  s.copyAt 512 bytes

/-- A machine is made without a program and then loaded with one. -/
def start (rom : Rom) (d : Dialect) (stream : ByteStream) : Option Storage := do
  let s ← (cleared d stream).load #[]
  s.load rom.bytes

def latch (s : Storage) (key : UInt8) (down : Bool) : Option Storage :=
  if 16 ≤ key.toNat then some s
  else do
    let s := { s with keypad := ← put s.keypad key.toNat down }
    match down, s.awaiting with
    | true, some x => assign { s with awaiting := none } x key
    | _, _ => some s

def stepOver (s : Storage) : Option Storage := do
  let sum ← addWord (mask s.pc) 2
  return { s with pc := mask sum }

def perform (s : Storage) : Operation → Option (Except Failure Unit × Storage)
  | .step => do
      let (result, s) ← s.execute
      return (result.mapError .fault, s)
  | .stepOver => do
      let s ← s.stepOver
      return (.ok (), s)
  | .countDown =>
      return (.ok (), { s with
        delay := s.delay - min s.delay 1
        sound := s.sound - min s.sound 1 })
  | .latch key down => do
      let s ← s.latch key down
      return (.ok (), s)
  | .restart bytes =>
      if 3584 < bytes.size then return (.error (.rom (.tooLarge bytes.size)), s)
      else do
        let s ← s.load bytes
        return (.ok (), s)
  | .setDialect d => return (.ok (), { s with dialect := d })
  | .setStream stream => return (.ok (), { s with stream := stream })
  | .setPc w => return (.ok (), { s with pc := w })
  | .setIndex w => return (.ok (), { s with index := w })
  | .setRegister x b => do
      let s ← s.assign x b
      return (.ok (), s)
  | .setDelay b => return (.ok (), { s with delay := b })
  | .setSound b => return (.ok (), { s with sound := b })
  | .setMemory a b => do
      let memory ← put s.memory a b
      return (.ok (), { s with memory := memory })

def performAll (s : Storage) : List Operation → Option Storage
  | [] => some s
  | op :: ops => do
      let (_, s) ← s.perform op
      s.performAll ops

end Chip8.Storage
