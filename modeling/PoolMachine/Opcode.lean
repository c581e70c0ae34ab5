/-!
# Opcodes

The instruction set: twenty-five opcodes, numbered from zero in the order of `Opcode.all`.
Eleven of them are binary operators on the top two values of the stack. Ten take an operand,
which is an index into one of the literal pools; these occupy two slots of the code, the others
one.

* **`Kind`**: the kinds of literals and values. Each kind of literal has its own pool.
* **`Operator`**: the binary operators.
* **`Opcode`**: the opcodes, with their codes, mnemonics and operand pools.
-/

namespace PoolMachine

/-! ## Kinds -/

/-- The kinds of values, and of the pools that hold literals. -/
inductive Kind
  | integer
  | string
  | boolean
deriving DecidableEq, Repr, Inhabited

namespace Kind

/-- The name of a kind of value. -/
def name : Kind → String
  | integer => "Integer"
  | string => "String"
  | boolean => "Boolean"

/-- The name of the pool that holds literals of a kind. -/
def pool : Kind → String
  | integer => "integer"
  | string => "string"
  | boolean => "boolean"

end Kind

/-! ## Operators -/

/-- The binary operators. -/
inductive Operator
  | add
  | minus
  | times
  | div
  | mod
  | gt
  | lt
  | eq
  | neq
  | geq
  | leq
deriving DecidableEq, Repr, Inhabited

namespace Operator

/-- The operators in the order of their codes. -/
def all : List Operator :=
  [add, minus, times, div, mod, gt, lt, eq, neq, geq, leq]

/-- The code of an operator's instruction. -/
def code : Operator → Nat
  | add => 0
  | minus => 1
  | times => 2
  | div => 3
  | mod => 4
  | gt => 5
  | lt => 6
  | eq => 7
  | neq => 8
  | geq => 9
  | leq => 10

/-- The word that stands for an operator in assembly text. -/
def mnemonic : Operator → String
  | add => "ADD"
  | minus => "MINUS"
  | times => "TIMES"
  | div => "DIV"
  | mod => "MOD"
  | gt => "GT"
  | lt => "LT"
  | eq => "EQ"
  | neq => "NEQ"
  | geq => "GEQ"
  | leq => "LEQ"

/-- Whether an operator compares, and so yields a boolean. -/
def isComparison : Operator → Bool
  | add | minus | times | div | mod => false
  | gt | lt | eq | neq | geq | leq => true

end Operator

/-! ## Opcodes -/

/-- The opcodes of the machine. -/
inductive Opcode
  /-- Replaces the top two values by the operator's result. -/
  | operate (f : Operator)
  /-- Prints the top value. -/
  | printItem
  /-- Prints a line feed. -/
  | printNewline
  /-- Binds the name on top to the integer below it. -/
  | store
  /-- Pushes the integer bound to a name. -/
  | loadGlobal
  /-- Pushes an integer literal. -/
  | loadConst
  /-- Pushes a string literal. -/
  | loadName
  /-- Jumps by a distance counted from the operand slot. -/
  | jumpForward
  /-- Pops a boolean and jumps to an address if it equals the sense. -/
  | jumpIf (sense : Bool)
  /-- Jumps to an address. -/
  | jumpAbsolute
  /-- Reserved. -/
  | callFunction
  /-- Reserved. -/
  | loadArg
  /-- Reserved. -/
  | makeFunction
  /-- Requires a value on the stack and leaves it there. -/
  | ret
deriving DecidableEq, Repr, Inhabited

namespace Opcode

/-- The opcodes in the order of their codes. -/
def all : List Opcode :=
  Operator.all.map operate ++
    [printItem, printNewline, store, loadGlobal, loadConst, loadName, jumpForward, jumpIf true,
      jumpIf false, jumpAbsolute, callFunction, loadArg, makeFunction, ret]

/-- The number that stands for an opcode in a slot. -/
def code : Opcode → Nat
  | operate f => f.code
  | printItem => 11
  | printNewline => 12
  | store => 13
  | loadGlobal => 14
  | loadConst => 15
  | loadName => 16
  | jumpForward => 17
  | jumpIf true => 18
  | jumpIf false => 19
  | jumpAbsolute => 20
  | callFunction => 21
  | loadArg => 22
  | makeFunction => 23
  | ret => 24

/-- The word that stands for an opcode in assembly text. -/
def mnemonic : Opcode → String
  | operate f => f.mnemonic
  | printItem => "PRINT_ITEM"
  | printNewline => "PRINT_NEWLINE"
  | store => "STORE"
  | loadGlobal => "LOAD_GLOBAL"
  | loadConst => "LOAD_CONST"
  | loadName => "LOAD_NAME"
  | jumpForward => "JUMP_FORWARD"
  | jumpIf true => "POP_JUMP_IF_TRUE"
  | jumpIf false => "POP_JUMP_IF_FALSE"
  | jumpAbsolute => "JUMP_ABSOLUTE"
  | callFunction => "CALL_FUNCTION"
  | loadArg => "LOAD_ARG"
  | makeFunction => "MAKE_FUNCTION"
  | ret => "RETURN"

/-- The opcode with the given code. -/
def ofCode? (slot : Nat) : Option Opcode := all[slot]?

/-- The opcode with the given mnemonic; case matters. -/
def ofMnemonic? (word : String) : Option Opcode := all.find? (·.mnemonic = word)

/-- The pool that the operand indexes, for an opcode that takes one. -/
def operand : Opcode → Option Kind
  | loadGlobal | loadName | callFunction | loadArg => some .string
  | loadConst | jumpForward | jumpIf _ | jumpAbsolute | ret => some .integer
  | operate _ | printItem | printNewline | store | makeFunction => none

/-- The number of slots that an instruction occupies. -/
def width (op : Opcode) : Nat := if op.operand.isSome then 2 else 1

/-- The operator of a binary instruction. -/
def operator? : Opcode → Option Operator
  | operate f => some f
  | _ => none

/-- Decoding undoes encoding. -/
@[simp] theorem ofCode?_code (op : Opcode) : ofCode? op.code = some op := by
  cases op with
  | operate f => cases f <;> rfl
  | jumpIf b => cases b <;> rfl
  | _ => rfl

/-- The codes count the opcodes from zero. -/
theorem map_code_all : all.map code = List.range 25 := rfl

/-- A slot decodes to the one opcode whose code it is. -/
theorem ofCode?_eq_some_iff {slot : Nat} {op : Opcode} :
    ofCode? slot = some op ↔ slot = op.code := by
  constructor
  · intro h
    have hmap : (all.map code)[slot]? = some op.code := by
      rw [List.getElem?_map, show all[slot]? = some op from h]
      rfl
    rw [map_code_all] at hmap
    have hget := (List.getElem?_eq_some_iff.mp hmap).2
    rwa [List.getElem_range] at hget
  · rintro rfl
    exact ofCode?_code op

end Opcode

end PoolMachine
