import Chip8.Dialect

/-!
# The command line

    [--clock HZ] [--quirks modern|cosmac] [--debug] FILE

An option's value is the next argument or follows an equals sign. Arguments are taken in order, and
the first one that is refused decides. An argument that begins with a hyphen is never a value,
unless it is the hyphen alone; an option left without a value is refused when all arguments are
read. After `--` every argument is a file name.
-/
namespace Chip8.CommandLine

structure Settings where
  filename : String
  hertz : Nat
  dialect : Dialect
  debug : Bool
  deriving DecidableEq, Repr

inductive Refusal where
  | help
  | version
  | missingFile
  | unknownArgument
  | missingValue
  | surplusValue
  | badDialect
  | badClock
  deriving DecidableEq, Repr

inductive Setting where
  | clock
  | dialect
  deriving DecidableEq, Repr

/-- What the arguments read so far say. -/
structure Draft where
  filename : Option String
  hertz : Nat
  dialect : Dialect
  debug : Bool
  /-- An option was given without a value. -/
  incomplete : Bool
  deriving DecidableEq, Repr

namespace Draft

def initial : Draft where
  filename := none
  hertz := 540
  dialect := .modern
  debug := false
  incomplete := false

def finish (d : Draft) : Except Refusal Settings :=
  if d.incomplete then .error .missingValue
  else
    match d.filename with
    | none => .error .missingFile
    | some filename => .ok ⟨filename, d.hertz, d.dialect, d.debug⟩

def addFile (d : Draft) (filename : String) : Except Refusal Draft :=
  match d.filename with
  | none => .ok { d with filename := some filename }
  | some _ => .error .unknownArgument

end Draft

def decimal? : List Char → Option Nat
  | [] => none
  | cs =>
      if cs.all Char.isDigit then some (cs.foldl (fun n c => 10 * n + (c.toNat - '0'.toNat)) 0)
      else none

/-- A decimal number from 1 to the greatest of 32 bits, with or without a plus sign. -/
def clock? (text : String) : Option Nat :=
  let number := match text.toList with
    | '+' :: digits => decimal? digits
    | digits => decimal? digits
  number.filter fun n => 1 ≤ n && n ≤ 4294967295

def dialect? : String → Option Dialect
  | "modern" => some .modern
  | "cosmac" => some .cosmac
  | _ => none

def Draft.set (d : Draft) (setting : Setting) (value : String) : Except Refusal Draft :=
  match setting with
  | .clock =>
      match clock? value with
      | some hertz => .ok { d with hertz := hertz }
      | none => .error .badClock
  | .dialect =>
      match dialect? value with
      | some dialect => .ok { d with dialect := dialect }
      | none => .error .badDialect

/-- The kinds of arguments. -/
inductive Argument where
  | file
  /-- The mark after which there are only file names. -/
  | escape
  | setting (s : Setting)
  | settingWith (s : Setting) (value : String)
  | debug
  | refused (r : Refusal)
  deriving DecidableEq, Repr

/-- The name of a long option and what follows its first equals sign. -/
def splitName (cs : List Char) : String × Option String :=
  let name := cs.takeWhile (· ≠ '=')
  match cs.dropWhile (· ≠ '=') with
  | [] => (String.ofList name, none)
  | _ :: value => (String.ofList name, some (String.ofList value))

def longOption (cs : List Char) : Argument :=
  match splitName cs with
  | ("clock", none) => .setting .clock
  | ("clock", some value) => .settingWith .clock value
  | ("quirks", none) => .setting .dialect
  | ("quirks", some value) => .settingWith .dialect value
  | ("debug", none) => .debug
  | ("help", none) => .refused .help
  | ("version", none) => .refused .version
  | ("debug", some _) | ("help", some _) | ("version", some _) => .refused .surplusValue
  | _ => .refused .unknownArgument

/-- Of short options only the first letter counts, since all of them end the reading. -/
def shortOption : Char → Argument
  | 'h' => .refused .help
  | 'V' => .refused .version
  | _ => .refused .unknownArgument

def classify (arg : String) : Argument :=
  match arg.toList with
  | ['-', '-'] => .escape
  | '-' :: '-' :: cs => longOption cs
  | '-' :: c :: _ => shortOption c
  | _ => .file

def readFiles (d : Draft) : List String → Except Refusal Draft
  | [] => .ok d
  | arg :: args => do
      let d ← d.addFile arg
      readFiles d args

/-- Reads the arguments in order; `waiting` is the option that takes its value from the next one. -/
def read (d : Draft) (waiting : Option Setting) : List String → Except Refusal Draft
  | [] => .ok (if waiting.isSome then { d with incomplete := true } else d)
  | arg :: args =>
      let left := if waiting.isSome then { d with incomplete := true } else d
      match classify arg, waiting with
      | .file, some setting => do
          let d ← d.set setting arg
          read d none args
      | .file, none => do
          let d ← d.addFile arg
          read d none args
      | .escape, _ => readFiles left args
      | .setting s, _ => read left (some s) args
      | .settingWith s value, _ => do
          let d ← left.set s value
          read d none args
      | .debug, _ => read { left with debug := true } none args
      | .refused r, _ => .error r

def parse (args : List String) : Except Refusal Settings := do
  let d ← read .initial none args
  d.finish

end Chip8.CommandLine
