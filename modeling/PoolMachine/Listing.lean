import PoolMachine.Program
import PoolMachine.Text.Enclosed
import PoolMachine.Text.Quoted

/-!
# Listings

A listing shows the instructions of a code, one line each with the address, the mnemonic, and for
an operand its index and the literal that it names, and then the pools. Code is listed by one
sweep from address zero, whether or not a run would reach an instruction; the first slots that are
no instruction end it.

* **`Code.instructions`**: the sweep.
* **`Code.listing`**, **`Program.listing`**: the text.
-/

namespace PoolMachine

/-- Slots at an address that are no instruction. -/
structure ListingError where
  /-- The address where an opcode is expected. -/
  address : Nat
  /-- What is wrong there. -/
  defect : Defect
deriving DecidableEq, Repr

/-- The wording of a listing error. -/
def ListingError.message (e : ListingError) : String :=
  "address " ++ e.address.repr ++ ": " ++ e.defect.message

/-! ## Instructions -/

/-- An instruction of a code. -/
structure Instruction where
  /-- The address of the opcode. -/
  address : Nat
  /-- The opcode. -/
  op : Opcode
  /-- The operand, and the literal that it names. -/
  operand : Option (Nat × Value)
deriving DecidableEq, Repr

/-- The line of an instruction. -/
def Instruction.text (i : Instruction) : String :=
  let head := i.address.repr ++ ":\t" ++ i.op.mnemonic
  match i.operand with
  | none => head
  | some (index, literal) => head ++ " " ++ index.repr ++ "\t(" ++ literal.text ++ ")"

namespace Code

/-- The instructions in a run of slots that starts at an address. -/
def instructionsFrom (code : Code) (address : Nat) :
    List Nat → Except ListingError (List Instruction)
  | [] => .ok []
  | slot :: slots =>
    match Opcode.ofCode? slot with
    | none => .error ⟨address, .unknownOpcode slot⟩
    | some op =>
      match op.operand with
      | none => do
        let rest ← instructionsFrom code (address + 1) slots
        return ⟨address, op, none⟩ :: rest
      | some pool =>
        match slots with
        | [] => .error ⟨address, .missingOperand op⟩
        | index :: slots =>
          match code.entry pool index with
          | .error d => .error ⟨address, d⟩
          | .ok literal => do
            let rest ← instructionsFrom code (address + 2) slots
            return ⟨address, op, some (index, literal)⟩ :: rest

/-- The instructions of a code, in order. -/
def instructions (code : Code) : Except ListingError (List Instruction) :=
  code.instructionsFrom 0 code.slots.toList

/-! ## Text -/

/-- The lines that show the pools. -/
def poolLines (code : Code) : List String :=
  ["DATA:",
    "\tIntegers: " ++ Text.bracketed (code.integers.toList.map Word.text),
    "\tStrings: " ++ Text.bracketed (code.strings.toList.map Text.quote),
    "\tBools: " ++ Text.bracketed (code.booleans.toList.map fun b => if b then "true" else "false")]

/-- The lines of a listing. -/
def listingLines (code : Code) : Except ListingError (List String) := do
  let instructions ← code.instructions
  return "CODE" :: instructions.map Instruction.text ++ "" :: code.poolLines

/-- The listing of a code. -/
def listing (code : Code) : Except ListingError String := code.listingLines.map Text.unlines

end Code

namespace Program

/-- The lines of a function's listing, between the lines that define its name. -/
def functionLines (f : String × Code) : Except ListingError (List String) := do
  let ls ← f.2.listingLines
  return ("DEF " ++ f.1) :: ls ++ ["ENDDEF"]

/-- The lines of the listings of all functions, in the order of their names. -/
def listingLines (program : Program) : Except ListingError (List String) := do
  let blocks ← program.toList.mapM functionLines
  return blocks.flatten

/-- The listing of a program. -/
def listing (program : Program) : Except ListingError String :=
  (listingLines program).map Text.unlines

end Program

end PoolMachine
