import PoolMachine.Machine.Effect
import PoolMachine.Text.Decimal

/-!
# Options of a run

The arguments of the command `run`, in any order: one input file, and options. They are read from
left to right, and the first argument at fault is reported. A later value of an option replaces an
earlier one.
-/

namespace PoolMachine.CommandLine

/-- What is wrong with the arguments of a run. -/
inductive OptionError
  /-- The value of an option is missing. -/
  | missingValue (flag : String)
  /-- The value of an option is no count. -/
  | notCount (flag value : String)
  /-- There is no such option. -/
  | unknown (flag : String)
  /-- There is more than one input file. -/
  | unexpected (argument : String)
  /-- There is no input file. -/
  | missingInput
deriving DecidableEq, Repr

/-- The wording of an option error. -/
def OptionError.message : OptionError → String
  | missingValue flag => "error: " ++ flag ++ " requires a value\n"
  | notCount flag value =>
    "error: " ++ flag ++ " expects a non-negative integer, got '" ++ value ++ "'\n"
  | unknown flag => "error: unknown option '" ++ flag ++ "'\n"
  | unexpected argument => "error: unexpected argument '" ++ argument ++ "'\n"
  | missingInput =>
    "error: run requires an input file\n" ++
      "Usage: cspc run <input.cspc> [--debug] [--max-steps N] [--max-stack N]\n"

/-- What a run is asked to do. -/
structure RunOptions where
  /-- The path of the assembly text. -/
  input : String
  /-- Whether the listing and the trace are logged. -/
  debug : Bool := false
  /-- The bounds on the run. -/
  limits : Limits := {}
deriving DecidableEq, Repr

namespace RunOptions

/-- The digits of a count, behind a plus sign that may be left out. -/
def unsigned : List Char → List Char
  | '+' :: cs => cs
  | cs => cs

/-- Reads a count below `2 ^ 64`. -/
def count? (value : String) : Option Nat :=
  (Text.numeral? (unsigned value.toList)).filter (· < UInt64.size)

/-- Options that have been read so far. -/
structure Draft where
  /-- The path of the assembly text. -/
  input : Option String := none
  /-- Whether the listing and the trace are logged. -/
  debug : Bool := false
  /-- The bounds on the run. -/
  limits : Limits := {}
deriving DecidableEq, Repr

/-- Reads the value of an option. -/
def value (flag value : String) : Except OptionError Nat :=
  match count? value with
  | some n => .ok n
  | none => .error (.notCount flag value)

/-- Whether an argument has the form of an option. -/
def isFlag (argument : String) : Bool := ['-', '-'].isPrefixOf argument.toList

/-- Reads the arguments behind those of a draft. -/
def complete (draft : Draft) : List String → Except OptionError RunOptions
  | [] =>
    match draft.input with
    | some input => .ok ⟨input, draft.debug, draft.limits⟩
    | none => .error .missingInput
  | argument :: rest =>
    if argument = "--debug" then complete { draft with debug := true } rest
    else if argument = "--max-steps" then
      match rest with
      | [] => .error (.missingValue argument)
      | v :: rest => do
        let n ← value argument v
        complete { draft with limits := { draft.limits with steps := some n } } rest
    else if argument = "--max-stack" then
      match rest with
      | [] => .error (.missingValue argument)
      | v :: rest => do
        let n ← value argument v
        complete { draft with limits := { draft.limits with depth := some n } } rest
    else if isFlag argument then .error (.unknown argument)
    else
      match draft.input with
      | some _ => .error (.unexpected argument)
      | none => complete { draft with input := some argument } rest

/-- Reads the arguments of a run. -/
def ofArguments (arguments : List String) : Except OptionError RunOptions := complete {} arguments

end RunOptions

end PoolMachine.CommandLine
