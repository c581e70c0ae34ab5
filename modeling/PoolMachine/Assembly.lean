import PoolMachine.Log
import PoolMachine.Program
import PoolMachine.Text.Decimal
import PoolMachine.Token

/-!
# Assembly

Assembly text is a sequence of function definitions. A definition is the word `DEF`, a name, a
body and the word `ENDDEF`; words outside of definitions are skipped. Each word of a body gives
one slot: a mnemonic its opcode, any other word the index of the literal that it adds to a pool.
The sweep stops at the first fault in reading order.

* **`Item`**: what a word of a body stands for.
* **`Code.emit`**: adds the slot of an item, and its literal.
* **`Assembly.build`**: the sweep over the tokens, as an automaton with three states.
* **`Program.assemble`**: the program of a text. A later definition of a name replaces an earlier
  one.
-/

namespace PoolMachine

/-! ## Faults -/

/-- What is wrong with a text. -/
inductive AssemblyFault
  /-- A definition has no name, because the text ends. -/
  | missingName
  /-- The definition of a function has no end. -/
  | unterminated (name : String)
  /-- A definition starts within the definition of a function. -/
  | nested (name : String)
  /-- A numeral is too large for a word. -/
  | integerOutOfRange (numeral : String)
deriving DecidableEq, Repr

/-- The wording of a fault. -/
def AssemblyFault.message : AssemblyFault → String
  | missingName => "DEF without a function name"
  | unterminated name => "function '" ++ name ++ "' has no ENDDEF"
  | nested name => "DEF inside function '" ++ name ++ "' (nested functions are not supported)"
  | integerOutOfRange numeral => "integer literal '" ++ numeral ++ "' out of range"

/-- A fault and the line where it lies. -/
structure AssemblyError where
  /-- The line of the token at fault, or of the definition that has no end. -/
  line : Nat
  /-- What is wrong there. -/
  fault : AssemblyFault
deriving DecidableEq, Repr

/-- The wording of an assembly error. -/
def AssemblyError.message (e : AssemblyError) : String :=
  "line " ++ e.line.repr ++ ": " ++ e.fault.message

/-! ## Items -/

/-- What a word of a body stands for. -/
inductive Item
  | instruction (op : Opcode)
  | integer (n : Word)
  | boolean (b : Bool)
  | string (s : String)
deriving DecidableEq, Repr

/-- The largest value of a numeral, which is that of a word. -/
def largestNumeral : Nat := 0x7fffffffffffffff

/-- What a token stands for: a mnemonic, a numeral, a boolean, and else a string. -/
def Item.ofToken (t : Token) : Except AssemblyError Item :=
  match Opcode.ofMnemonic? t.text with
  | some op => .ok (.instruction op)
  | none =>
    match Text.numeral? t.text.toList with
    | some n =>
      if n ≤ largestNumeral then .ok (.integer (Int64.ofNat n))
      else .error ⟨t.line, .integerOutOfRange t.text⟩
    | none =>
      if t.text = "True" then .ok (.boolean true)
      else if t.text = "False" then .ok (.boolean false)
      else .ok (.string t.text)

/-- Adds the slot of an item to the code, and its literal to the pool. -/
def Code.emit (code : Code) : Item → Code
  | .instruction op => code.pushSlot op.code
  | .integer n => (code.pushInteger n).2.pushSlot (code.pushInteger n).1
  | .boolean b => (code.pushBoolean b).2.pushSlot (code.pushBoolean b).1
  | .string s => (code.pushString s).2.pushSlot (code.pushString s).1

/-! ## The sweep -/

/-- What a sweep over assembly text finds. -/
structure Assembly where
  /-- The functions whose definitions end before the first fault, in reading order. -/
  functions : List (String × Code)
  /-- The first fault. -/
  error : Option AssemblyError
deriving DecidableEq, Repr

namespace Assembly

/-- Where the sweep stands. -/
inductive Place
  /-- Outside of definitions. -/
  | outside
  /-- Before the name of the definition that starts on a line. -/
  | heading (line : Nat)
  /-- In the body of the definition that starts on a line, with the code so far. -/
  | body (line : Nat) (name : String) (code : Code)
deriving DecidableEq, Repr

/-- An assembly that ends with a fault. -/
def stop (line : Nat) (fault : AssemblyFault) : Assembly := ⟨[], some ⟨line, fault⟩⟩

/-- Adds a function in front. -/
def cons (name : String) (code : Code) (a : Assembly) : Assembly :=
  { a with functions := (name, code) :: a.functions }

/-- Sweeps over the tokens from a place. -/
def build : Place → List Token → Assembly
  | .outside, [] => ⟨[], none⟩
  | .outside, t :: ts => if t.text = "DEF" then build (.heading t.line) ts else build .outside ts
  | .heading line, [] => stop line .missingName
  | .heading line, t :: ts => build (.body line t.text {}) ts
  | .body line name _, [] => stop line (.unterminated name)
  | .body line name code, t :: ts =>
    if t.text = "ENDDEF" then cons name code (build .outside ts)
    else if t.text = "DEF" then stop t.line (.nested name)
    else
      match Item.ofToken t with
      | .ok item => build (.body line name (code.emit item)) ts
      | .error e => ⟨[], some e⟩

/-- Sweeps over a text. -/
def ofText (text : String) : Assembly := build .outside (Token.scan text)

/-- The program of an assembly, if it has no fault. -/
def program (a : Assembly) : Except AssemblyError Program :=
  match a.error with
  | some e => .error e
  | none => .ok (NameMap.ofList a.functions)

/-- The log record of a finished function. -/
def record (f : String × Code) : Log.Record where
  level := .debug
  target := "cspc_assembler::parser"
  message := "assembled '" ++ f.1 ++ "': " ++ f.2.length.repr ++ " slots, " ++
    f.2.integers.size.repr ++ " integers, " ++ f.2.strings.size.repr ++ " strings, " ++
    f.2.booleans.size.repr ++ " booleans"

/-- The log records of a sweep, one for each finished function. -/
def records (a : Assembly) : List Log.Record := a.functions.map record

end Assembly

/-- The program of a text, or the first fault in it. -/
def Program.assemble (text : String) : Except AssemblyError Program :=
  (Assembly.ofText text).program

end PoolMachine
