import Chip8.Fault

/-!
# Notices

A notice is a remark on what the machine or its session did, for whoever watches the run. It has a
level and a text, and no effect.
-/
namespace Chip8

inductive Level where
  | error
  | warn
  | info
  | debug
  | trace
  deriving DecidableEq, Repr

namespace Level

/-- The smaller the rank, the more severe. -/
def rank : Level → Nat
  | .error => 1
  | .warn => 2
  | .info => 3
  | .debug => 4
  | .trace => 5

def name : Level → String
  | .error => "ERROR"
  | .warn => "WARN"
  | .info => "INFO"
  | .debug => "DEBUG"
  | .trace => "TRACE"

end Level

inductive Notice where
  | fetched (a : Address) (w : UInt16)
  | invalid (a : Address) (w : UInt16)
  | emptyReturn (a : Address)
  | fullCall (a : Address)
  | awaitingKey (x : Register)
  | keyArrived (key : UInt8) (x : Register)
  | unknownKey (key : UInt8)
  | loaded (size : Nat)
  | running (hertz : Nat)
  | restarted
  | pausing (f : Fault)
  | sound (on : Bool)
  deriving DecidableEq, Repr

namespace Notice

def level : Notice → Level
  | .pausing _ => .error
  | .invalid .. | .unknownKey _ => .warn
  | .running _ | .restarted => .info
  | .emptyReturn _ | .fullCall _ | .awaitingKey _ | .keyArrived .. | .loaded _ | .sound _ => .debug
  | .fetched .. => .trace

def text : Notice → String
  | .fetched a w => Hex.marked 3 a.val ++ ": " ++ Hex.upper 4 w.toNat
  | .invalid a w =>
      "invalid instruction at " ++ Hex.marked 3 a.val ++ ": " ++ Hex.upper 4 w.toNat
  | .emptyReturn a => "return with empty stack at " ++ Hex.marked 3 a.val
  | .fullCall a => "call with full stack at " ++ Hex.marked 3 a.val
  | .awaitingKey x => "waiting for a key press into V" ++ Hex.upper 1 x.val
  | .keyArrived key x =>
      "key " ++ Hex.upper 1 key.toNat ++ " released the wait on V" ++ Hex.upper 1 x.val
  | .unknownKey key => "ignoring state of unknown key " ++ Hex.marked 2 key.toNat
  | .loaded size => s!"machine reset, loaded {size} byte rom"
  | .running hertz => s!"running at {hertz} Hz"
  | .restarted => "machine reset"
  | .pausing f => f.message ++ ", pausing"
  | .sound on => "sound " ++ (if on then "on" else "off")

/-- The notices at least as severe as `threshold`. -/
def select (threshold : Level) (notices : List Notice) : List Notice :=
  notices.filter fun n => n.level.rank ≤ threshold.rank

end Notice

end Chip8
