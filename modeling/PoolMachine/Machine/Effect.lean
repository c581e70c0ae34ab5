import PoolMachine.Machine.Fault
import PoolMachine.Machine.State

/-!
# Effects of instructions

What carrying out one instruction does: the next state, and the text that it prints. Effects know
nothing of where the text goes, and nothing of the number of steps.

* **`Limits`**: the bounds on a run, each of which may be absent.
* **`Opcode.perform`**: the effect of the instruction at the program counter, whose opcode has
  been decoded.
-/

namespace PoolMachine

/-- The bounds on a run. -/
structure Limits where
  /-- The greatest number of values on the stack. -/
  depth : Option Nat := none
  /-- The greatest number of instructions carried out. -/
  steps : Option Nat := none
deriving DecidableEq, Repr, Inhabited

/-- The effect of an instruction. -/
structure Effect where
  /-- The state after it. -/
  state : State
  /-- The text that it prints. -/
  printed : String := ""
deriving DecidableEq, Inhabited

/-! ## The stack -/

namespace Stack

/-- Takes the value on top. -/
def pop : Stack → Except Fault (Value × Stack)
  | [] => .error .stackUnderflow
  | v :: rest => .ok (v, rest)

/-- Puts a value on top, if the limit leaves room for it. -/
def push (limit : Option Nat) (v : Value) (stack : Stack) : Except Fault Stack :=
  match limit with
  | none => .ok (v :: stack)
  | some n => if n ≤ stack.length then .error (.stackOverflow n) else .ok (v :: stack)

end Stack

namespace Value

/-- The literal of a kind that an instruction needs. -/
def asLiteral (op : Opcode) : (k : Kind) → Value → Except Fault k.Literal
  | .integer, integer n => .ok n
  | .string, string s => .ok s
  | .boolean, boolean b => .ok b
  | k, v => .error (.mismatch ⟨op, k, v.kind⟩)

/-- The integer that an instruction needs. -/
def asInteger (op : Opcode) (v : Value) : Except Fault Word := v.asLiteral op .integer

/-- The string that an instruction needs. -/
def asString (op : Opcode) (v : Value) : Except Fault String := v.asLiteral op .string

/-- The boolean that an instruction needs. -/
def asBoolean (op : Opcode) (v : Value) : Except Fault Bool := v.asLiteral op .boolean

end Value

/-! ## Operands -/

namespace Code

/-- The literal of a kind that an instruction names. -/
def literalOperand (code : Code) (k : Kind) (op : Opcode) (address : Nat) :
    Except Fault k.Literal :=
  (code.operandAt op address >>= code.literal k).mapError .defect

/-- The integer literal that an instruction names. -/
def integerOperand (code : Code) (op : Opcode) (address : Nat) : Except Fault Word :=
  code.literalOperand .integer op address

/-- The string literal that an instruction names. -/
def stringOperand (code : Code) (op : Opcode) (address : Nat) : Except Fault String :=
  code.literalOperand .string op address

end Code

/-- The address that a jump leads to; a negative one is refused. -/
def jumpTo (target : Word) : Except Fault Nat :=
  if target < 0 then .error (.jumpOutOfRange target) else .ok target.toInt.toNat

/-- The target of a jump by a distance from the slot after an address. It is held at the largest
word, far beyond the end of any code. -/
def forwardTarget (address : Nat) (distance : Word) : Word :=
  Word.addClamped (Int64.ofNat address + 1) distance

/-! ## Instructions -/

namespace State

/-- The state after an instruction that puts a value on top and has an operand. -/
def load (s : State) (limit : Option Nat) (v : Value) : Except Fault Effect := do
  let stack ← s.stack.push limit v
  return { state := { s with pc := s.pc + 2, stack } }

end State

/-- The effect of an instruction in a state. -/
def Opcode.perform (code : Code) (limit : Option Nat) (op : Opcode) (s : State) :
    Except Fault Effect :=
  match op with
  | .operate f => do
    let (right, rest) ← s.stack.pop
    let (left, rest) ← Stack.pop rest
    let v ← (f.apply left right).mapError Fault.ofOperandError
    let stack ← Stack.push limit v rest
    return { state := { s with pc := s.pc + 1, stack } }
  | .printItem => do
    let (v, stack) ← s.stack.pop
    return { state := { s with pc := s.pc + 1, stack }, printed := v.text }
  | .printNewline => return { state := { s with pc := s.pc + 1 }, printed := "\n" }
  | .store => do
    let (top, rest) ← s.stack.pop
    let name ← top.asString op
    let (v, stack) ← Stack.pop rest
    let n ← v.asInteger op
    return { state := { pc := s.pc + 1, stack, store := s.store.insert name n } }
  | .loadGlobal => do
    let name ← code.stringOperand op s.pc
    match s.store.get? name with
    | none => throw (.undefinedGlobal name)
    | some n => s.load limit (.integer n)
  | .loadConst => do
    let n ← code.integerOperand op s.pc
    s.load limit (.integer n)
  | .loadName => do
    let name ← code.stringOperand op s.pc
    s.load limit (.string name)
  | .jumpForward => do
    let distance ← code.integerOperand op s.pc
    let pc ← jumpTo (forwardTarget s.pc distance)
    return { state := { s with pc } }
  | .jumpIf sense => do
    let target ← code.integerOperand op s.pc
    let (top, stack) ← s.stack.pop
    let b ← top.asBoolean op
    let pc ← if b = sense then jumpTo target else pure (s.pc + 2)
    return { state := { s with pc, stack } }
  | .jumpAbsolute => do
    let target ← code.integerOperand op s.pc
    let pc ← jumpTo target
    return { state := { s with pc } }
  | .callFunction | .loadArg | .makeFunction => throw (.unsupported op)
  | .ret => do
    let (v, rest) ← s.stack.pop
    let stack ← Stack.push limit v rest
    return { state := { s with pc := s.pc + 2, stack } }

end PoolMachine
