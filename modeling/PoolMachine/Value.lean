import PoolMachine.Opcode
import PoolMachine.Word

/-!
# Values

A value of the machine is an integer, a string or a boolean. The operators act on integers only:
arithmetic wraps, division and remainder go to the floor and refuse a zero divisor, and a
comparison gives a boolean.
-/

namespace PoolMachine

/-- A value on the operand stack. -/
inductive Value
  | integer (n : Word)
  | string (s : String)
  | boolean (b : Bool)
deriving DecidableEq, Repr, Inhabited

namespace Value

/-- The kind of a value. -/
def kind : Value → Kind
  | integer _ => .integer
  | string _ => .string
  | boolean _ => .boolean

/-- The text of a value as it is printed: decimal digits, the bare string, `True` or `False`. -/
def text : Value → String
  | integer n => n.text
  | string s => s
  | boolean true => "True"
  | boolean false => "False"

end Value

/-- What a literal of a kind is. -/
abbrev Kind.Literal : Kind → Type
  | integer => Word
  | string => String
  | boolean => Bool

/-- The value of a literal. -/
def Value.ofLiteral : (k : Kind) → k.Literal → Value
  | .integer, n => integer n
  | .string, s => string s
  | .boolean, b => boolean b

/-- An instruction met a value of the wrong kind. -/
structure KindMismatch where
  /-- The instruction. -/
  op : Opcode
  /-- The kind that it needs. -/
  expected : Kind
  /-- The kind that it met. -/
  found : Kind
deriving DecidableEq, Repr

/-- The wording of a mismatch. -/
def KindMismatch.message (m : KindMismatch) : String :=
  m.op.mnemonic ++ " expects " ++ m.expected.name ++ ", found " ++ m.found.name

/-- Why an operator has no result. -/
inductive OperandError
  | mismatch (m : KindMismatch)
  | divisionByZero
deriving DecidableEq, Repr

/-- The wording of an operand error. -/
def OperandError.message : OperandError → String
  | mismatch m => m.message
  | divisionByZero => "integer division by zero"

namespace Operator

/-- The operator on two integers. -/
def onWords (f : Operator) (l r : Word) : Except OperandError Value :=
  match f with
  | add => .ok (.integer (l + r))
  | minus => .ok (.integer (l - r))
  | times => .ok (.integer (l * r))
  | div => if r = 0 then .error .divisionByZero else .ok (.integer (l.floorDiv r))
  | mod => if r = 0 then .error .divisionByZero else .ok (.integer (l.floorMod r))
  | gt => .ok (.boolean (r < l))
  | lt => .ok (.boolean (l < r))
  | eq => .ok (.boolean (l = r))
  | neq => .ok (.boolean (l ≠ r))
  | geq => .ok (.boolean (r ≤ l))
  | leq => .ok (.boolean (l ≤ r))

/-- The operator on two values. Where an operand is no integer, the error names the left one if it
is at fault, and else the right one. -/
def apply (f : Operator) (left right : Value) : Except OperandError Value :=
  match left, right with
  | .integer l, .integer r => f.onWords l r
  | .integer _, right => .error (.mismatch ⟨.operate f, .integer, right.kind⟩)
  | left, _ => .error (.mismatch ⟨.operate f, .integer, left.kind⟩)

end Operator

end PoolMachine
