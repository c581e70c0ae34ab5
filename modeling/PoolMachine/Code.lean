import PoolMachine.Value

/-!
# Code

The code of one function: a stream of slots, and three pools of literals that its operands index.
A slot holds an opcode or an operand; nothing in the stream says which. Literals are never merged:
each one that is added gets an index of its own.

* **`Defect`**: what can be wrong where an instruction is expected.
* **`Code.literal`**: the literal at an index of the pool of a given kind. Those of the single pools
  are `Code.integer`, `Code.string` and `Code.boolean`.
* **`Code.entry`**: the same, as a value.
-/

namespace PoolMachine

/-- A way in which slots fail to be an instruction. -/
inductive Defect
  /-- The slot is the code of no opcode. -/
  | unknownOpcode (slot : Nat)
  /-- The stream ends before the operand. -/
  | missingOperand (op : Opcode)
  /-- The operand is no index of its pool. -/
  | badIndex (pool : Kind) (index size : Nat)
deriving DecidableEq, Repr

namespace Defect

/-- The wording of a defect. -/
def message : Defect → String
  | unknownOpcode slot => "no such opcode: " ++ slot.repr
  | missingOperand op => op.mnemonic ++ " is missing its operand"
  | badIndex pool index size =>
    pool.pool ++ " pool index " ++ index.repr ++ " out of range (length " ++ size.repr ++ ")"

/-- The wording of the failed lookup behind a defect. A missing operand has nothing to look up. -/
def cause? : Defect → Option String
  | missingOperand _ => none
  | d => some d.message

end Defect

/-- The code of one function. -/
structure Code where
  /-- Opcodes and operands. -/
  slots : Array Nat := #[]
  /-- The integer literals. -/
  integers : Array Word := #[]
  /-- The string literals. -/
  strings : Array String := #[]
  /-- The boolean literals. -/
  booleans : Array Bool := #[]
deriving DecidableEq, Repr, Inhabited

namespace Code

/-- The number of slots. -/
def length (code : Code) : Nat := code.slots.size

/-- The pool of a kind. -/
def pool (code : Code) : (k : Kind) → Array k.Literal
  | .integer => code.integers
  | .string => code.strings
  | .boolean => code.booleans

/-- The number of literals in a pool. -/
def poolSize (code : Code) (k : Kind) : Nat := (code.pool k).size

/-! ## Looking up literals -/

/-- The literal at an index of the pool of a kind. -/
def literal (code : Code) (k : Kind) (index : Nat) : Except Defect k.Literal :=
  match (code.pool k)[index]? with
  | some a => .ok a
  | none => .error (.badIndex k index (code.poolSize k))

/-- The integer literal at an index. -/
def integer (code : Code) (index : Nat) : Except Defect Word := code.literal .integer index

/-- The string literal at an index. -/
def string (code : Code) (index : Nat) : Except Defect String := code.literal .string index

/-- The boolean literal at an index. -/
def boolean (code : Code) (index : Nat) : Except Defect Bool := code.literal .boolean index

/-- The value of the literal at an index of the pool of a kind. -/
def entry (code : Code) (k : Kind) (index : Nat) : Except Defect Value :=
  (code.literal k index).map (.ofLiteral k)

theorem literal_eq_ok_iff {code : Code} {k : Kind} {index : Nat} {a : k.Literal} :
    code.literal k index = .ok a ↔ (code.pool k)[index]? = some a := by
  unfold literal
  split <;> simp_all

theorem literal_of_le {code : Code} {k : Kind} {index : Nat} (h : code.poolSize k ≤ index) :
    code.literal k index = .error (.badIndex k index (code.poolSize k)) := by
  rw [literal, Array.getElem?_eq_none h]

/-- The operand of an instruction whose opcode is at an address. -/
def operandAt (code : Code) (op : Opcode) (address : Nat) : Except Defect Nat :=
  match code.slots[address + 1]? with
  | some index => .ok index
  | none => .error (.missingOperand op)

/-! ## Adding slots and literals -/

/-- Adds a slot. -/
def pushSlot (code : Code) (slot : Nat) : Code :=
  { code with slots := code.slots.push slot }

/-- Adds an integer literal; the result gives its index. -/
def pushInteger (code : Code) (n : Word) : Nat × Code :=
  (code.integers.size, { code with integers := code.integers.push n })

/-- Adds a string literal; the result gives its index. -/
def pushString (code : Code) (s : String) : Nat × Code :=
  (code.strings.size, { code with strings := code.strings.push s })

/-- Adds a boolean literal; the result gives its index. -/
def pushBoolean (code : Code) (b : Bool) : Nat × Code :=
  (code.booleans.size, { code with booleans := code.booleans.push b })

end Code

end PoolMachine
