import Chip8.CommandLine
import Chip8.Report
import Chip8.Script

/-!
# The program

Loads a program image and plays it against a script of frames read from standard input. The
pictures go to standard output as text and the notices to standard error.
-/
namespace Chip8.CommandLine

def usage : String :=
  "usage: chip8 [--clock HZ] [--quirks modern|cosmac] [--debug] FILE"

def Refusal.message : Refusal → String
  | .help => usage
  | .version => "chip8"
  | .missingFile => "no file given"
  | .unknownArgument => "unknown argument"
  | .missingValue => "option without a value"
  | .surplusValue => "value for an option that takes none"
  | .badDialect => "the dialect is modern or cosmac"
  | .badClock => "the clock is a number of hertz, at least 1"

def Settings.level (s : Settings) : Level := if s.debug then .debug else .info

/-- How long a burst without end may last before the program gives up. -/
def patience : Nat := 10000000

def Settings.play (s : Settings) (rom : Rom) (seed : UInt64) (script : String) : Report :=
  let host : Host := ⟨none, patience⟩
  host.run rom (.start rom s.dialect (.seeded seed)) s.hertz (Script.frames script)

/-- The picture that a list of strokes leaves on the canvas. -/
def picture (strokes : List Raster.Stroke) : Raster :=
  .ofBoxes (strokes.filterMap Raster.Stroke.box?)

end Chip8.CommandLine

namespace Chip8

def report (level : Level) (notices : List Notice) : IO Unit := do
  for n in Notice.select level notices do
    IO.eprintln s!"{n.level.name} {n.text}"

def playRom (s : CommandLine.Settings) (rom : Rom) : IO UInt32 := do
  let script ← (← IO.getStdin).readToEnd
  let seed ← IO.rand 0 0xFFFFFFFFFFFFFFFF
  let r := s.play rom (UInt64.ofNat seed) script
  for showing in r.showings do
    report s.level showing.notices
    IO.println (CommandLine.picture showing.strokes).text
  report s.level r.rest
  match r.ending with
  | .quit => return 0
  | .collapse c =>
      IO.eprintln c.message
      return 1
  | .outage o =>
      IO.eprintln o.message
      return 1

def playFile (s : CommandLine.Settings) : IO UInt32 := do
  try
    let bytes ← IO.FS.readBinFile s.filename
    match Rom.ofBytes bytes.data with
    | .error e =>
        IO.eprintln s!"error loading rom: {e.message}"
        return 1
    | .ok rom =>
        IO.eprintln s!"INFO loaded {s.filename} ({bytes.size} bytes)"
        playRom s rom
  catch e =>
    IO.eprintln s!"error opening rom file: {s.filename}: {e}"
    return 1

end Chip8

def main (args : List String) : IO UInt32 := do
  match Chip8.CommandLine.parse args with
  | .ok s => Chip8.playFile s
  | .error .help =>
      IO.println Chip8.CommandLine.usage
      return 0
  | .error .version =>
      IO.println Chip8.CommandLine.Refusal.version.message
      return 0
  | .error r =>
      IO.eprintln r.message
      return 2
