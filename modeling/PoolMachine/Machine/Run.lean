import PoolMachine.Log
import PoolMachine.Machine.Effect
import PoolMachine.Machine.Sink
import PoolMachine.Program

/-!
# Runs

A run carries out instructions from address zero until the program counter leaves the code, an
instruction fails, or the limit on steps is reached. What happens on the way is told to an
observer as events; the run itself does not depend on the observer.

* **`Machine`**: a run between two instructions.
* **`Machine.turn`**: one turn of the run, with its events.
* **`Machine.advance`**: as many turns as the fuel allows. Whoever holds a machine that is still
  running may go on from there.
* **`Code.run`**, **`Program.run`**: a run from the start, if the fuel suffices to end it.
-/

namespace PoolMachine

/-! ## Events -/

/-- What an observer of a run is told. -/
inductive Event
  /-- The instruction at the program counter is about to be fetched. -/
  | step (s : Snapshot)
  /-- The instruction at an address has been decoded. -/
  | fetched (pc : Nat) (op : Opcode)
  /-- The program counter has left the code. -/
  | halt (s : Snapshot)
deriving DecidableEq

namespace Event

/-- The state that an event shows. -/
def snapshot? : Event → Option Snapshot
  | step s | halt s => some s
  | fetched _ _ => none

/-- The log records of an event. The states are logged where the trace is asked for. -/
def records (traced : Bool) : Event → List Log.Record
  | step s | halt s => if traced then [⟨.debug, "cspc_vm::trace", s.text⟩] else []
  | fetched pc op =>
    [⟨.trace, "cspc_vm::execute", Log.alignRight 4 pc.repr ++ ": " ++ op.mnemonic⟩]

end Event

/-! ## Machines -/

/-- A run between two instructions. -/
structure Machine (σ : Type) where
  /-- The state. -/
  state : State
  /-- The number of instructions carried out so far. -/
  steps : Nat
  /-- Where the output goes. -/
  sink : σ

/-- What a run that has halted leaves behind. -/
structure Halted where
  /-- The operand stack. -/
  stack : Stack
  /-- The named integers. -/
  store : Store
deriving DecidableEq, Inhabited

/-- The end of a run. -/
structure Ending (σ : Type) where
  /-- What the run leaves behind, or why it failed. -/
  result : Except RunError Halted
  /-- The sink with the output. -/
  sink : σ

/-- How far a run has come. -/
inductive Progress (σ : Type)
  | running (m : Machine σ)
  | ended (e : Ending σ)

/-- A run that ends at an instruction that cannot be carried out. -/
def Progress.fail {σ : Type} (address : Nat) (f : Fault) (sink : σ) : Progress σ :=
  .ended ⟨.error (.fault address f), sink⟩

/-- The limit that a number of steps has reached. -/
def Limits.exhausted? (limits : Limits) (steps : Nat) : Option Nat :=
  limits.steps.filter (· ≤ steps)

namespace Machine

variable {σ ω : Type}

/-- A machine at the start of a run. -/
def start (sink : σ) : Machine σ := ⟨.initial, 0, sink⟩

variable [Sink σ]

/-- Ends a run whose program counter has left the code. -/
def finish (m : Machine σ) : Progress σ :=
  match Sink.flush m.sink with
  | (sink, none) => .ended ⟨.ok ⟨m.state.stack, m.state.store⟩, sink⟩
  | (sink, some reason) => .fail m.state.pc (.output reason) sink

/-- Carries out the instruction at the program counter, whose opcode has been decoded. -/
def dispatch (code : Code) (limits : Limits) (op : Opcode) : Machine σ → Progress σ
  | ⟨state, steps, sink⟩ =>
    match op.perform code limits.depth state with
    | .error f => .fail state.pc f sink
    | .ok effect =>
      match Sink.print sink effect.printed with
      | (sink, none) => .running ⟨effect.state, steps + 1, sink⟩
      | (sink, some reason) => .fail state.pc (.output reason) sink

/-- One turn of a run: what is observed, and how far the run has come. -/
def turn (code : Code) (limits : Limits) (m : Machine σ) : List Event × Progress σ :=
  let snapshot : Snapshot := ⟨code.length, m.state⟩
  match code.slots[m.state.pc]? with
  | none => ([.halt snapshot], m.finish)
  | some slot =>
    match limits.exhausted? m.steps with
    | some n => ([], .fail m.state.pc (.stepLimit n) m.sink)
    | none =>
      match Opcode.ofCode? slot with
      | none => ([.step snapshot], .fail m.state.pc (.defect (.unknownOpcode slot)) m.sink)
      | some op => ([.step snapshot, .fetched m.state.pc op], m.dispatch code limits op)

/-- Up to `fuel` turns of a run. The events are folded into the observer's state. -/
def advance (code : Code) (limits : Limits) (observe : ω → Event → ω) :
    Nat → Machine σ → ω → Progress σ × ω
  | 0, m, w => (.running m, w)
  | fuel + 1, m, w =>
    match m.turn code limits with
    | (events, .running m) => advance code limits observe fuel m (events.foldl observe w)
    | (events, .ended e) => (.ended e, events.foldl observe w)

end Machine

/-! ## Whole runs -/

variable {σ ω : Type} [Sink σ]

/-- A run of a code from its start, if it ends within the fuel. -/
def Code.run (code : Code) (limits : Limits) (sink : σ) (observe : ω → Event → ω) (w : ω)
    (fuel : Nat) : Option (Ending σ × ω) :=
  match Machine.advance code limits observe fuel (.start sink) w with
  | (.running _, _) => none
  | (.ended e, w) => some (e, w)

/-- A run of a program, if it ends within the fuel. -/
def Program.run (program : Program) (limits : Limits) (sink : σ) (observe : ω → Event → ω) (w : ω)
    (fuel : Nat) : Option (Ending σ × ω) :=
  match program.main? with
  | none => some (⟨.error .missingMain, sink⟩, w)
  | some code => code.run limits sink observe w fuel

/-- A run of a program without limits and observers, with its output as text. -/
def Program.runCaptured (program : Program) (fuel : Nat) : Option (Ending String) :=
  (program.run {} "" (fun w _ => w) () fuel).map (·.1)

end PoolMachine
