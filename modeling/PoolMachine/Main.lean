import PoolMachine.CommandLine.Report

/-!
# The program

The outer layer of the command line: it reads the one file that a command names, lets the library
do the work, and writes the report. The output of a run is written as the run goes on, so that a
run without end shows what it prints.
-/

namespace PoolMachine.CommandLine

/-- The reason for which the system refused to read a file. -/
def ReadError.ofSystem : IO.Error → ReadError
  | .noFileOrDirectory _ _ _ => .missing
  | .inappropriateType _ 21 _ => .isDirectory
  | e => .other (toString e)

/-- Reads a file as text. -/
def readText (path : String) : IO (Except ReadError String) := do
  try
    let bytes ← IO.FS.readBinFile path
    match String.fromUTF8? bytes with
    | some text => return .ok text
    | none => return .error .notText
  catch e => return .error (.ofSystem e)

/-- The world of a command, as far as the command looks at it. -/
def World.ofSystem (arguments : List String) : IO World := do
  let logSetting ← IO.getEnv "RUST_LOG"
  match input? arguments with
  | none => return ⟨fun _ => .error .missing, logSetting⟩
  | some path =>
    let contents ← readText path
    return ⟨fun p => if p = path then contents else .error .missing, logSetting⟩

/-- Writes to the standard output and to the standard error. -/
def emit (stdout stderr : String) : IO Unit := do
  IO.print stdout
  (← IO.getStdout).flush
  IO.eprint stderr

/-- Runs the code of a session to its end, and writes the output on the way. -/
partial def runToEnd (s : Session) (code : Code) (m : Machine String) : IO UInt32 := do
  match m.advance code s.options.limits s.observe 4096 "" with
  | (.running m, log) =>
    emit m.sink log
    runToEnd s code { m with sink := "" }
  | (.ended e, log) =>
    let (exitCode, last) := s.verdict e.result
    emit e.sink (log ++ last)
    return exitCode

end PoolMachine.CommandLine

open PoolMachine CommandLine in
/-- Carries out one command. -/
def main (arguments : List String) : IO UInt32 := do
  match launch (← World.ofSystem arguments) arguments with
  | .done r =>
    emit r.stdout r.stderr
    return r.code
  | .ready s =>
    emit "" s.log
    match s.program.main? with
    | some code => runToEnd s code (.start "")
    | none =>
      let (exitCode, last) := s.verdict (.error .missingMain)
      emit "" last
      return exitCode
