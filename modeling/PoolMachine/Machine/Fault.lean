import PoolMachine.Code

/-!
# Faults of a run

A run ends early at an instruction that cannot be carried out. The fault says why, and the error
adds the address of the instruction.
-/

namespace PoolMachine

/-- Why an instruction cannot be carried out. -/
inductive Fault
  /-- The slots at the address are no instruction. -/
  | defect (d : Defect)
  /-- The stack has too few values. -/
  | stackUnderflow
  /-- The stack would grow beyond its limit. -/
  | stackOverflow (limit : Nat)
  /-- A value is of the wrong kind. -/
  | mismatch (m : KindMismatch)
  /-- The divisor is zero. -/
  | divisionByZero
  /-- The name is bound to no integer. -/
  | undefinedGlobal (name : String)
  /-- The target of a jump is negative. -/
  | jumpOutOfRange (target : Word)
  /-- The opcode is reserved. -/
  | unsupported (op : Opcode)
  /-- The run has taken as many steps as it may. -/
  | stepLimit (limit : Nat)
  /-- The sink refused the output. -/
  | output (reason : String)
deriving DecidableEq, Repr

namespace Fault

/-- The fault of an operator without a result. -/
def ofOperandError : OperandError → Fault
  | .mismatch m => .mismatch m
  | .divisionByZero => .divisionByZero

/-- The wording of a fault at an address. -/
def messageAt (address : Nat) : Fault → String
  | defect d => d.message ++ place
  | stackUnderflow => "stack underflow" ++ place
  | stackOverflow limit => "stack overflow (limit " ++ limit.repr ++ ")" ++ place
  | mismatch m => m.message ++ place
  | divisionByZero => "division by zero" ++ place
  | undefinedGlobal name => "undefined global '" ++ name ++ "'" ++ place
  | jumpOutOfRange target => "jump target " ++ target.text ++ " out of range" ++ place
  | unsupported op => op.mnemonic ++ " is not supported" ++ place
  | stepLimit limit => "step limit " ++ limit.repr ++ " exceeded" ++ place
  | output reason => "output error" ++ place ++ ": " ++ reason
where
  /-- The part of the wording that names the address. -/
  place : String := " at instruction " ++ address.repr

end Fault

/-- Why a run has no result. -/
inductive RunError
  /-- The program has no function to start at. -/
  | missingMain
  /-- The instruction at an address cannot be carried out. -/
  | fault (address : Nat) (f : Fault)
deriving DecidableEq, Repr

namespace RunError

/-- The wording of a run error. -/
def message : RunError → String
  | missingMain => "program has no 'main' function"
  | fault address f => f.messageAt address

/-- The wording of the failed lookup behind an error, if there is one. -/
def cause? : RunError → Option String
  | fault _ (.defect d) => d.cause?
  | _ => none

end RunError

end PoolMachine
