import PoolMachine.Assembly
import PoolMachine.CommandLine.Options
import PoolMachine.Listing
import PoolMachine.Machine.Run

/-!
# Reports of the command line

A command reads one file at most and ends with a report: an exit code, and the texts on the
standard output and on the standard error. The code is 0 on success, 1 where the command is at
fault or its input cannot be used, and 3 where a run fails.

* **`World`**: what a command depends on besides its arguments.
* **`launch`**: everything up to the run of a program.
* **`report`**: the report of a command, if its run ends within the fuel.
-/

namespace PoolMachine.CommandLine

/-! ## Surroundings -/

/-- Why a file cannot be read as text. -/
inductive ReadError
  | missing
  | isDirectory
  | notText
  /-- Any other reason, in the words of the system. -/
  | other (reason : String)
deriving DecidableEq, Repr

/-- The wording of a read error. -/
def ReadError.message : ReadError → String
  | missing => "No such file or directory (os error 2)"
  | isDirectory => "Is a directory (os error 21)"
  | notText => "stream did not contain valid UTF-8"
  | other reason => reason

/-- What a command depends on besides its arguments. -/
structure World where
  /-- The text of the file at a path. -/
  read : String → Except ReadError String
  /-- The name of a log threshold that replaces the command's own, if one is set. -/
  logSetting : Option String

/-- The threshold of a command: its own, unless the setting names another. -/
def World.threshold (world : World) (own : Log.Threshold) : Log.Threshold :=
  (world.logSetting.bind Log.Threshold.ofName?).getD own

/-- How a command ends. -/
structure Report where
  /-- The exit code. -/
  code : UInt32
  /-- The text on the standard output. -/
  stdout : String := ""
  /-- The text on the standard error. -/
  stderr : String := ""
deriving DecidableEq, Repr, Inhabited

/-! ## Texts -/

/-- How the program is used. -/
def usage : String :=
  "Usage: cspc <command> [args]\n" ++
  "\n" ++
  "Commands:\n" ++
  "  run <input.cspc> [options]    Assemble and execute main\n" ++
  "  disassemble <input.cspc>      List every function with its pools\n" ++
  "  help                          Show this message\n" ++
  "\n" ++
  "Run options:\n" ++
  "  --debug            Log the listing and one trace line per step\n" ++
  "  --max-steps <N>    Stop after N instructions\n" ++
  "  --max-stack <N>    Limit the operand stack to N values\n"

/-- The line of an error that ends a command. -/
def errorLine (message : String) : String := "error: " ++ message ++ "\n"

/-- A log record of the commands themselves. -/
def commandRecord (message : String) : Log.Record := ⟨.debug, "cspc::commands", message⟩

/-! ## Commands -/

/-- A program that is about to run. -/
structure Session where
  /-- The program. -/
  program : Program
  /-- The options of the run. -/
  options : RunOptions
  /-- The log records that are shown. -/
  threshold : Log.Threshold
  /-- The text on the standard error so far. -/
  log : String

/-- How far a command comes without running a program. -/
inductive Launch
  | done (r : Report)
  | ready (s : Session)

/-- The assembly of the file at a path, with the log lines of reading it, or the text on the
standard error if there is none. -/
def load (world : World) (threshold : Log.Threshold) (path : String) :
    Except String (Program × String) :=
  match world.read path with
  | .error e => .error (errorLine ("cannot read '" ++ path ++ "': " ++ e.message))
  | .ok text =>
    let assembly := Assembly.ofText text
    let log := Log.lines threshold assembly.records
    match assembly.program with
    | .error e => .error (log ++ errorLine e.message)
    | .ok program => .ok (program, log)

/-- Prepares a run. -/
def launchRun (world : World) (arguments : List String) : Launch :=
  match RunOptions.ofArguments arguments with
  | .error e => .done { code := 1, stderr := e.message }
  | .ok options =>
    let threshold := world.threshold (some (if options.debug then .debug else .warn))
    match load world threshold options.input with
    | .error stderr => .done { code := 1, stderr }
    | .ok (program, log) =>
      if options.debug then
        match Program.listingLines program with
        | .error e => .done { code := 1, stderr := log ++ errorLine e.message }
        | .ok lines =>
          .ready ⟨program, options, threshold,
            log ++ Log.lines threshold (lines.map commandRecord)⟩
      else .ready ⟨program, options, threshold, log⟩

/-- Lists the file that the first argument names. -/
def disassemble (world : World) : List String → Report
  | [] =>
    { code := 1
      stderr := errorLine "disassemble requires an input file" ++
        "Usage: cspc disassemble <input.cspc>\n" }
  | path :: _ =>
    let threshold := world.threshold (some .warn)
    match load world threshold path with
    | .error stderr => { code := 1, stderr }
    | .ok (program, log) =>
      match Program.listing program with
      | .error e => { code := 1, stderr := log ++ errorLine e.message }
      | .ok listing => { code := 0, stdout := listing, stderr := log }

/-- The file that a command reads, if it gets so far. -/
def input? : List String → Option String
  | "run" :: arguments => (RunOptions.ofArguments arguments).toOption.map (·.input)
  | "disassemble" :: path :: _ => some path
  | _ => none

/-- Everything that a command does up to the run of a program. -/
def launch (world : World) : List String → Launch
  | [] => .done { code := 1, stderr := usage }
  | "run" :: arguments => launchRun world arguments
  | "disassemble" :: arguments => .done (disassemble world arguments)
  | "--help" :: _ | "-h" :: _ | "help" :: _ => .done { code := 0, stderr := usage }
  | other :: _ =>
    .done { code := 1, stderr := errorLine ("unknown command '" ++ other ++ "'") ++ "\n" ++ usage }

namespace Session

/-- Adds the log lines of an event to the text on the standard error. -/
def observe (s : Session) (log : String) (e : Event) : String :=
  log ++ Log.lines s.threshold (e.records s.options.debug)

/-- The exit code of a session whose run has ended, and the last text on the standard error. -/
def verdict (s : Session) : Except RunError Halted → UInt32 × String
  | .ok halted =>
    (0, Log.lines s.threshold [commandRecord ("halted with " ++ halted.stack.length.repr ++
      " stack values and " ++ halted.store.size.repr ++ " globals")])
  | .error e => (3, "runtime error: " ++ e.message ++ "\n")

/-- The report of a session whose run has ended with a text on the standard error. -/
def report (s : Session) (e : Ending String) (log : String) : Report :=
  { code := (s.verdict e.result).1, stdout := e.sink, stderr := log ++ (s.verdict e.result).2 }

end Session

/-- The report of a command, if its run ends within the fuel. -/
def report (world : World) (arguments : List String) (fuel : Nat) : Option Report :=
  match launch world arguments with
  | .done r => some r
  | .ready s =>
    (s.program.run s.options.limits "" s.observe s.log fuel).map fun r => s.report r.1 r.2

end PoolMachine.CommandLine
