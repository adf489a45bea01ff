import Chip8.Execution
import Chip8.Metronome

/-!
# Bursts of instructions

A burst runs one instruction for each beat of the processor's metronome until no beat is due or the
machine waits for a key; a machine that waits loses the time collected so far. An invalid
instruction ends the burst and pauses the session, a stack fault is fatal.

With a period of zero a beat is always due and a burst need not end. `Burst.run` therefore takes
the number of rounds it may make and has no result when they do not suffice.
-/
namespace Chip8

structure Burst where
  machine : Machine
  cpu : Metronome
  /-- How many steps were tried. -/
  cycles : Nat
  notices : Array Notice

inductive Verdict where
  | running
  | paused
  | fatal (f : Fault)
  deriving DecidableEq, Repr

namespace Verdict

/-- What becomes of a session whose machine meets a fault. -/
def ofFault : Fault → Verdict
  | .invalidInstruction .. => .paused
  | f => .fatal f

end Verdict

namespace Burst

def start (m : Machine) (cpu : Metronome) : Burst := ⟨m, cpu, 0, #[]⟩

inductive Round where
  | over (b : Burst) (v : Verdict)
  | again (b : Burst)

def faultNotices (f : Fault) : List Notice :=
  match Verdict.ofFault f with
  | .paused => [.pausing f]
  | _ => []

/-- Takes the beat that left `cpu` behind and tries one step. -/
def cycle (b : Burst) (cpu : Metronome) : Round :=
  let notices := b.notices ++ b.machine.stepNotices
  match b.machine.step with
  | .ok m => .again ⟨m, cpu, b.cycles + 1, notices⟩
  | .error f => .over ⟨b.machine, cpu, b.cycles + 1, notices ++ faultNotices f⟩ (.ofFault f)

def round (b : Burst) : Round :=
  if b.machine.isWaiting then .over { b with cpu := b.cpu.discard } .running
  else
    match b.cpu.beat? with
    | none => .over b .running
    | some cpu => b.cycle cpu

/-- Goes round until the burst is over, at most `fuel` times. -/
def run : Nat → Burst → Option (Burst × Verdict)
  | 0, _ => none
  | fuel + 1, b =>
      match b.round with
      | .over b v => some (b, v)
      | .again b => run fuel b

/-- Rounds for every beat due and for the last look, and `patience` more for a period of zero. -/
def fuel (cpu : Metronome) (patience : Nat) : Nat := cpu.pending / cpu.period + 1 + patience

def ofMachine (m : Machine) (cpu : Metronome) (patience : Nat) : Option (Burst × Verdict) :=
  run (fuel cpu patience) (start m cpu)

end Burst

end Chip8
