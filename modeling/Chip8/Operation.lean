import Chip8.Execution

/-!
# Operations on a machine

Everything a host can do to a machine, as data: running and stepping over instructions, keys,
timers, restarts, a new dialect or byte stream, and overwriting the parts that are open to it. An
operation that fails leaves the machine as it was.
-/
namespace Chip8

inductive Operation where
  | step
  | stepOver
  | countDown
  | latch (key : UInt8) (down : Bool)
  | restart (bytes : Array UInt8)
  | setDialect (d : Dialect)
  | setStream (s : ByteStream)
  | setPc (w : UInt16)
  | setIndex (w : UInt16)
  | setRegister (x : Register) (b : UInt8)
  | setDelay (b : UInt8)
  | setSound (b : UInt8)
  | setMemory (a : Address) (b : UInt8)

inductive Failure where
  | fault (f : Fault)
  | rom (e : RomError)
  deriving DecidableEq, Repr

namespace Failure

def message : Failure → String
  | .fault f => f.message
  | .rom e => e.message

end Failure

namespace Operation

def perform (m : Machine) : Operation → Except Failure Machine
  | .step => m.step.mapError .fault
  | .stepOver => .ok m.stepOver
  | .countDown => .ok m.countDown
  | .latch key down => .ok (m.latch key down)
  | .restart bytes => ((Rom.ofBytes bytes).map fun rom => m.restart rom).mapError .rom
  | .setDialect d => .ok { m with dialect := d }
  | .setStream s => .ok { m with stream := s }
  | .setPc w => .ok { m with pc := w }
  | .setIndex w => .ok { m with index := w }
  | .setRegister x b => .ok (m.setRegister x b)
  | .setDelay b => .ok { m with delay := b }
  | .setSound b => .ok { m with sound := b }
  | .setMemory a b => .ok { m with memory := m.memory.put a b }

/-- The machine after an operation, whether it succeeded or not. -/
def after (m : Machine) (op : Operation) : Machine :=
  match op.perform m with
  | .ok m' => m'
  | .error _ => m

def notices (m : Machine) : Operation → List Notice
  | .step => m.stepNotices
  | .latch key down => m.latchNotices key down
  | .restart bytes =>
      match Rom.ofBytes bytes with
      | .ok rom => Machine.restartNotices rom
      | .error _ => []
  | _ => []

end Operation

namespace Machine

/-- A machine without a program. -/
def blank (d : Dialect) (s : ByteStream) : Machine := start .empty d s

def afterAll (m : Machine) (ops : List Operation) : Machine := ops.foldl Operation.after m

/-- The account of a march: how many steps were made and stepped over, and the fault it ended in. -/
structure March where
  machine : Machine
  done : Nat
  skipped : Nat
  fault : Option Fault
  notices : Array Notice

/-- Makes up to `n` steps. A fault ends the march, or is stepped over if `lenient`. -/
def marchFrom (lenient : Bool) : Nat → March → March
  | 0, r => r
  | n + 1, r =>
      let notices := r.notices ++ r.machine.stepNotices
      match r.machine.step with
      | .ok m => marchFrom lenient n { r with machine := m, done := r.done + 1, notices := notices }
      | .error f =>
          if lenient then
            marchFrom lenient n
              { r with machine := r.machine.stepOver, skipped := r.skipped + 1, notices := notices }
          else { r with fault := some f, notices := notices }

def march (m : Machine) (lenient : Bool) (n : Nat) : March :=
  marchFrom lenient n ⟨m, 0, 0, none, #[]⟩

end Machine

end Chip8
