import PoolMachine.Machine.Run
import PoolMachine.Proofs.Jumps
import PoolMachine.Proofs.Sweep

/-!
# A machine that runs a listing

The machine reads a stream of slots, and finds the literals of its instructions in pools. This file
defines a second machine, which knows neither: it reads the instructions of a listing, each with its
literal in it.

* **`Command`**: an instruction with its literal in place of its operand.
* **`Command.perform`**: the effect of a command. Jumps go to exact targets.
* **`Listed.turn`**, **`Listed.advance`**: runs of a listing. Such a run has no result where an
  address in the listing's range starts no instruction.

At an address that a listing shows, both machines do the same (`Holds.exists_command`).
-/

namespace PoolMachine

/-! ## Commands -/

/-- An instruction with its literal in place of its operand. -/
inductive Command
  | operate (f : Operator)
  | printItem
  | printNewline
  | store
  | loadGlobal (name : String)
  | loadConst (n : Word)
  | loadName (name : String)
  | jumpForward (distance : Word)
  | jumpIf (sense : Bool) (target : Word)
  | jumpAbsolute (target : Word)
  | callFunction (name : String)
  | loadArg (name : String)
  | makeFunction
  | ret (n : Word)
deriving DecidableEq, Repr

/-- The command of an instruction, if its literal is of the kind that its opcode takes. -/
def Instruction.command? (i : Instruction) : Option Command :=
  match i.op, i.operand with
  | .operate f, none => some (.operate f)
  | .printItem, none => some .printItem
  | .printNewline, none => some .printNewline
  | .store, none => some .store
  | .loadGlobal, some (_, .string name) => some (.loadGlobal name)
  | .loadConst, some (_, .integer n) => some (.loadConst n)
  | .loadName, some (_, .string name) => some (.loadName name)
  | .jumpForward, some (_, .integer n) => some (.jumpForward n)
  | .jumpIf sense, some (_, .integer n) => some (.jumpIf sense n)
  | .jumpAbsolute, some (_, .integer n) => some (.jumpAbsolute n)
  | .callFunction, some (_, .string name) => some (.callFunction name)
  | .loadArg, some (_, .string name) => some (.loadArg name)
  | .makeFunction, none => some .makeFunction
  | .ret, some (_, .integer n) => some (.ret n)
  | _, _ => none

namespace Command

/-- The opcode of a command. -/
def op : Command → Opcode
  | operate f => .operate f
  | printItem => .printItem
  | printNewline => .printNewline
  | store => .store
  | loadGlobal _ => .loadGlobal
  | loadConst _ => .loadConst
  | loadName _ => .loadName
  | jumpForward _ => .jumpForward
  | jumpIf sense _ => .jumpIf sense
  | jumpAbsolute _ => .jumpAbsolute
  | callFunction _ => .callFunction
  | loadArg _ => .loadArg
  | makeFunction => .makeFunction
  | ret _ => .ret

/-- The exact target of a jump at an address. -/
def target? (address : Nat) : Command → Option Int
  | jumpForward distance => some (exactTarget address distance)
  | jumpIf _ target | jumpAbsolute target => some target.toInt
  | _ => none

/-- The effect of a command in a state. -/
def perform (limit : Option Nat) (c : Command) (s : State) : Except Fault Effect :=
  match c with
  | operate f => do
    let (right, rest) ← s.stack.pop
    let (left, rest) ← Stack.pop rest
    let v ← (f.apply left right).mapError Fault.ofOperandError
    let stack ← Stack.push limit v rest
    return { state := { s with pc := s.pc + 1, stack } }
  | printItem => do
    let (v, stack) ← s.stack.pop
    return { state := { s with pc := s.pc + 1, stack }, printed := v.text }
  | printNewline => return { state := { s with pc := s.pc + 1 }, printed := "\n" }
  | store => do
    let (top, rest) ← s.stack.pop
    let name ← top.asString .store
    let (v, stack) ← Stack.pop rest
    let n ← v.asInteger .store
    return { state := { pc := s.pc + 1, stack, store := s.store.insert name n } }
  | loadGlobal name =>
    match s.store.get? name with
    | none => throw (.undefinedGlobal name)
    | some n => s.load limit (.integer n)
  | loadConst n => s.load limit (.integer n)
  | loadName name => s.load limit (.string name)
  | jumpForward distance => do
    let pc ← goTo (exactTarget s.pc distance)
    return { state := { s with pc } }
  | jumpIf sense target => do
    let (top, stack) ← s.stack.pop
    let b ← top.asBoolean (.jumpIf sense)
    let pc ← if b = sense then goTo target.toInt else pure (s.pc + 2)
    return { state := { s with pc, stack } }
  | jumpAbsolute target => do
    let pc ← goTo target.toInt
    return { state := { s with pc } }
  | callFunction _ => throw (.unsupported .callFunction)
  | loadArg _ => throw (.unsupported .loadArg)
  | makeFunction => throw (.unsupported .makeFunction)
  | ret _ => do
    let (v, rest) ← s.stack.pop
    let stack ← Stack.push limit v rest
    return { state := { s with pc := s.pc + 2, stack } }

end Command

/-! ## Runs of a listing -/

namespace Listed

variable {σ ω : Type} [Sink σ]

/-- The address after the last instruction of a listing. -/
def length (is : List Instruction) : Nat := (is.map (·.op.width)).sum

/-- The command that a listing shows at an address. -/
def command? (is : List Instruction) (address : Nat) : Option Command :=
  (is.find? (·.address = address)).bind Instruction.command?

/-- Carries out a command. -/
def dispatch (limits : Limits) (c : Command) (m : Machine σ) : Progress σ :=
  match c.perform limits.depth m.state with
  | .error f => .fail m.state.pc f m.sink
  | .ok effect =>
    match Sink.print m.sink effect.printed with
    | (sink, none) => .running ⟨effect.state, m.steps + 1, sink⟩
    | (sink, some reason) => .fail m.state.pc (.output reason) sink

/-- One turn of a run of a listing, if the listing shows a command where it is needed. -/
def turn (is : List Instruction) (limits : Limits) (m : Machine σ) :
    Option (List Event × Progress σ) :=
  let snapshot : Snapshot := ⟨length is, m.state⟩
  if length is ≤ m.state.pc then some ([.halt snapshot], m.finish)
  else
    match limits.exhausted? m.steps with
    | some n => some ([], .fail m.state.pc (.stepLimit n) m.sink)
    | none => do
      let c ← command? is m.state.pc
      return ([.step snapshot, .fetched m.state.pc c.op], dispatch limits c m)

/-- Up to `fuel` turns of a run of a listing. -/
def advance (is : List Instruction) (limits : Limits) (observe : ω → Event → ω) :
    Nat → Machine σ → ω → Option (Progress σ × ω)
  | 0, m, w => some (.running m, w)
  | fuel + 1, m, w =>
    match turn is limits m with
    | none => none
    | some (events, .running m) => advance is limits observe fuel m (events.foldl observe w)
    | some (events, .ended e) => some (.ended e, events.foldl observe w)

end Listed

/-! ## The command at an address -/

namespace Code

variable {code : Code} {i : Instruction} {k : Kind} {index : Nat} {v : Value}

theorem exists_literal_of_entry (h : code.entry k index = .ok v) :
    ∃ a, v = .ofLiteral k a ∧ (code.pool k)[index]? = some a := by
  rcases ha : code.literal k index with d | a
  · simp [entry, ha, Except.map] at h
  · simp only [entry, ha, Except.map, Except.ok.injEq] at h
    exact ⟨a, h.symm, literal_eq_ok_iff.mp ha⟩

theorem Holds.exists_literal (h : code.Holds i) (hk : i.op.operand = some k) :
    ∃ index a, i.operand = some (index, .ofLiteral k a) ∧
      code.literalOperand k i.op i.address = .ok a := by
  have hoperand := h.operand
  rw [hk] at hoperand
  obtain ⟨index, literal, hi, hindex, hentry⟩ := hoperand
  obtain ⟨a, rfl, ha⟩ := exists_literal_of_entry hentry
  exact ⟨index, a, hi, literalOperand_eq_ok_iff.mpr ⟨index, hindex, ha⟩⟩

/-- **Both machines do the same** at an address that a listing shows. -/
theorem Holds.exists_command (h : code.Holds i) (ha : i.address + 1 < 2 ^ 63) :
    ∃ c, i.command? = some c ∧ c.op = i.op ∧ ∀ limit s, s.pc = i.address →
      i.op.perform code limit s = c.perform limit s := by
  obtain ⟨address, op, operand⟩ := i
  cases op with
  | operate f =>
    obtain rfl : operand = none := h.operand
    exact ⟨.operate f, rfl, rfl, fun _ _ _ => rfl⟩
  | printItem =>
    obtain rfl : operand = none := h.operand
    exact ⟨.printItem, rfl, rfl, fun _ _ _ => rfl⟩
  | printNewline =>
    obtain rfl : operand = none := h.operand
    exact ⟨.printNewline, rfl, rfl, fun _ _ _ => rfl⟩
  | store =>
    obtain rfl : operand = none := h.operand
    exact ⟨.store, rfl, rfl, fun _ _ _ => rfl⟩
  | makeFunction =>
    obtain rfl : operand = none := h.operand
    exact ⟨.makeFunction, rfl, rfl, fun _ _ _ => rfl⟩
  | loadGlobal =>
    obtain ⟨index, name, rfl, hname⟩ := h.exists_literal (k := .string) rfl
    refine ⟨.loadGlobal name, rfl, rfl, fun limit s hs => ?_⟩
    rcases hn : s.store.get? name with _ | n <;>
      simp only [Opcode.perform, Command.perform, hs, stringOperand, hname, ok_bind, hn]
  | loadName =>
    obtain ⟨index, name, rfl, hname⟩ := h.exists_literal (k := .string) rfl
    refine ⟨.loadName name, rfl, rfl, fun limit s hs => ?_⟩
    simp only [Opcode.perform, Command.perform, hs, stringOperand, hname, ok_bind]
  | callFunction =>
    obtain ⟨index, name, rfl, -⟩ := h.exists_literal (k := .string) rfl
    exact ⟨.callFunction name, rfl, rfl, fun _ _ _ => rfl⟩
  | loadArg =>
    obtain ⟨index, name, rfl, -⟩ := h.exists_literal (k := .string) rfl
    exact ⟨.loadArg name, rfl, rfl, fun _ _ _ => rfl⟩
  | loadConst =>
    obtain ⟨index, n, rfl, hn⟩ := h.exists_literal (k := .integer) rfl
    refine ⟨.loadConst n, rfl, rfl, fun limit s hs => ?_⟩
    simp only [Opcode.perform, Command.perform, hs, integerOperand, hn, ok_bind]
  | jumpForward =>
    obtain ⟨index, n, rfl, hn⟩ := h.exists_literal (k := .integer) rfl
    refine ⟨.jumpForward n, rfl, rfl, fun limit s hs => ?_⟩
    simp only [Opcode.perform, Command.perform, hs, integerOperand, hn, ok_bind, jumpTo_eq_goTo,
      toInt_forwardTarget ha]
  | jumpIf sense =>
    obtain ⟨index, n, rfl, hn⟩ := h.exists_literal (k := .integer) rfl
    refine ⟨.jumpIf sense n, rfl, rfl, fun limit s hs => ?_⟩
    simp only [Opcode.perform, Command.perform, hs, integerOperand, hn, ok_bind, jumpTo_eq_goTo]
  | jumpAbsolute =>
    obtain ⟨index, n, rfl, hn⟩ := h.exists_literal (k := .integer) rfl
    refine ⟨.jumpAbsolute n, rfl, rfl, fun limit s hs => ?_⟩
    simp only [Opcode.perform, Command.perform, hs, integerOperand, hn, ok_bind, jumpTo_eq_goTo]
  | ret =>
    obtain ⟨index, n, rfl, -⟩ := h.exists_literal (k := .integer) rfl
    exact ⟨.ret n, rfl, rfl, fun _ _ _ => rfl⟩

end Code

end PoolMachine
