import Chip8.Burst
import Chip8.Keyboard

/-!
# Sessions

A session is a machine at a host: it runs, is paused or is about to quit, and it has one metronome
for the processor and one for the timers. In each turn it handles the events of a frame in order
and then, if it runs, lets the time of the frame pass: a burst of instructions first, then the
timers, then a look at whether the sound went on or off. Time that passes while it does not run is
dropped.
-/
namespace Chip8

inductive Mode where
  | running
  | paused
  | quit
  deriving DecidableEq, Repr

namespace Mode

def toggle : Mode → Mode
  | .running => .paused
  | .paused => .running
  | .quit => .quit

end Mode

/-- The events that are there at the start of a turn and the time since the turn before. -/
structure Frame where
  nanos : Nat
  events : List Event
  deriving DecidableEq, Repr

namespace Frame

/-- Only whole microseconds count. -/
def micros (f : Frame) : Nat := f.nanos / 1000

/-- The frame in which the window is closed. -/
def closing : Frame := ⟨0, [.quit]⟩

end Frame

structure Session where
  rom : Rom
  machine : Machine
  mode : Mode
  cpu : Metronome
  timers : Metronome
  audible : Bool

/-- Why a turn could not be brought to its end. -/
inductive Collapse where
  | fault (f : Fault)
  /-- A burst went on beyond the host's patience. -/
  | stall
  deriving DecidableEq, Repr

/-- What a turn made of a session, with the number of steps tried and of timer ticks. -/
structure Turn where
  session : Session
  cycles : Nat
  ticks : Nat
  notices : Array Notice
  collapse : Option Collapse

namespace Session

def timerHertz : Nat := 60

def start (rom : Rom) (m : Machine) (hertz : Nat) : Session where
  rom := rom
  machine := m
  mode := .running
  cpu := .ofFrequency hertz
  timers := .ofFrequency timerHertz
  audible := false

def obey (s : Session) : Request → Session
  | .pad k down => { s with machine := s.machine.latch (UInt8.ofNat k.val) down }
  | .pauseOrResume => { s with mode := s.mode.toggle }
  | .restart => { s with machine := s.machine.restart s.rom, mode := .running }
  | .quit => { s with mode := .quit }

def obeyNotices (s : Session) : Request → List Notice
  | .pad k down => s.machine.latchNotices (UInt8.ofNat k.val) down
  | .restart => Machine.restartNotices s.rom ++ [.restarted]
  | _ => []

def handle (s : Session) (e : Event) : Session :=
  match e.request? with
  | some q => s.obey q
  | none => if e = .quit then { s with mode := .quit } else s

def handleNotices (s : Session) (e : Event) : List Notice :=
  match e.request? with
  | some q => s.obeyNotices q
  | none => []

def handleAll (s : Session) (es : List Event) : Session := es.foldl handle s

def handleAllNotices (s : Session) : List Event → List Notice
  | [] => []
  | e :: es => s.handleNotices e ++ (s.handle e).handleAllNotices es

/-- Lets the timers tick as often as they are due, then takes down whether there is sound. -/
def settle (s : Session) : Session × Nat × List Notice :=
  let (ticks, timers) := s.timers.drain
  let m := Nat.repeat Machine.countDown ticks s.machine
  let notices := if m.isAudible = s.audible then [] else [.sound m.isAudible]
  ({ s with machine := m, timers := timers, audible := m.isAudible }, ticks, notices)

/-- Lets time pass for a running session. -/
def elapse (s : Session) (micros patience : Nat) : Turn :=
  let s := { s with cpu := s.cpu.add micros, timers := s.timers.add micros }
  match Burst.ofMachine s.machine s.cpu patience with
  | none => ⟨s, 0, 0, #[], some .stall⟩
  | some (b, v) =>
      let s := { s with machine := b.machine, cpu := b.cpu }
      match v with
      | .fatal f => ⟨s, b.cycles, 0, b.notices, some (.fault f)⟩
      | .running =>
          let (s, ticks, notices) := s.settle
          ⟨s, b.cycles, ticks, b.notices ++ notices, none⟩
      | .paused =>
          let (s, ticks, notices) := { s with mode := .paused }.settle
          ⟨s, b.cycles, ticks, b.notices ++ notices, none⟩

def turn (s : Session) (f : Frame) (patience : Nat) : Turn :=
  let heard := s.handleAll f.events
  let notices := (s.handleAllNotices f.events).toArray
  if heard.mode = .running then
    let t := heard.elapse f.micros patience
    { t with notices := notices ++ t.notices }
  else ⟨heard, 0, 0, notices, none⟩

end Session

end Chip8
