import PoolMachine.Store
import PoolMachine.Value

/-!
# Machine states

What a run changes: the program counter, the operand stack and the store. A snapshot adds the
length of the code, and has a text for traces.
-/

namespace PoolMachine

/-- The operand stack, top first. -/
abbrev Stack := List Value

/-- The values of a stack between brackets, from the bottom to the top. -/
def Stack.text (stack : Stack) : String := Text.bracketed (stack.reverse.map Value.text)

/-- A state of the machine. -/
structure State where
  /-- The address of the next instruction. -/
  pc : Nat
  /-- The operand stack. -/
  stack : Stack
  /-- The named integers. -/
  store : Store
deriving DecidableEq, Inhabited

/-- The state in which a run starts. -/
def State.initial : State := ⟨0, [], .empty⟩

/-- A state as an observer sees it. -/
structure Snapshot where
  /-- The number of slots of the code. -/
  length : Nat
  /-- The state. -/
  state : State
deriving DecidableEq, Inhabited

/-- The trace line of a snapshot. -/
def Snapshot.text (s : Snapshot) : String :=
  "LEN: " ++ s.length.repr ++ " PC: " ++ s.state.pc.repr ++ "\tSTACK: " ++ s.state.stack.text ++
    "\tHEAP: " ++ s.state.store.text

end PoolMachine
