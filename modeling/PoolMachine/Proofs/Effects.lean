import Mathlib.Algebra.Order.Ring.Int
import PoolMachine.Machine.Effect

/-!
# What an instruction can do

`Opcode.perform` computes the effect of an instruction or the fault that prevents it. This file
says once what the effects are, so that laws about runs need not look into the computation.

* **`Opcode.Performs`**: the rules of the instruction set, one for each way in which an instruction
  succeeds, where nothing limits the stack.
* **`perform_none_eq_ok_iff`**: the computation follows the rules.
* **`Opcode.loaded`**: the value that a load puts on top, or the fault that comes before it does.
* **`perform_some_depth`**: in a state within the limit on the stack, the limit refuses the effects
  that exceed it, and changes nothing else.

The last equation rests on the order of things in an instruction. All that take values from the
stack do so before they put one back, so only a load can exceed the limit.
-/

namespace PoolMachine

/-! ## Results -/

section Results

variable {ε α β : Type}

@[simp] theorem ok_bind (a : α) (f : α → Except ε β) : (Except.ok a >>= f) = f a := rfl

@[simp] theorem error_bind (e : ε) (f : α → Except ε β) :
    (Except.error e >>= f) = .error e := rfl

@[simp] theorem pure_eq_ok (a : α) : (pure a : Except ε α) = .ok a := rfl

@[simp] theorem throw_eq_error (e : ε) : (throw e : Except ε α) = .error e := rfl

@[simp] theorem mapError_ok {ε' : Type} (f : ε → ε') (a : α) :
    (Except.ok a).mapError f = .ok a := rfl

@[simp] theorem mapError_error {ε' : Type} (f : ε → ε') (e : ε) :
    (Except.error e : Except ε α).mapError f = .error (f e) := rfl

/-- Every fault of a computation is in `P`. -/
def FaultsIn (P : Fault → Prop) (r : Except Fault α) : Prop := ∀ f, r = .error f → P f

namespace FaultsIn

variable {P : Fault → Prop}

@[simp] theorem ok (a : α) : FaultsIn P (.ok a : Except Fault α) := fun _ h => nomatch h

@[simp] theorem error_iff {f : Fault} : FaultsIn P (.error f : Except Fault α) ↔ P f :=
  ⟨fun h => h f rfl, fun h _ hf => Except.error.inj hf ▸ h⟩

theorem bind {r : Except Fault α} {next : α → Except Fault β} (hr : FaultsIn P r)
    (hnext : ∀ a, r = .ok a → FaultsIn P (next a)) : FaultsIn P (r >>= next) := by
  rcases r with f | a
  · exact error_iff.mpr (error_iff.mp hr)
  · exact hnext a rfl

end FaultsIn

/-- Every result of a computation is in `P`. -/
def ResultsIn (P : α → Prop) (r : Except ε α) : Prop := ∀ a, r = .ok a → P a

namespace ResultsIn

variable {P : β → Prop}

@[simp] theorem ok_iff {b : β} : ResultsIn P (.ok b : Except ε β) ↔ P b :=
  ⟨fun h => h b rfl, fun h _ hb => Except.ok.inj hb ▸ h⟩

@[simp] theorem error (e : ε) : ResultsIn P (.error e : Except ε β) := fun _ h => nomatch h

theorem bind {r : Except ε α} {next : α → Except ε β}
    (hnext : ∀ a, r = .ok a → ResultsIn P (next a)) : ResultsIn P (r >>= next) := by
  rcases r with e | a
  · exact error e
  · exact hnext a rfl

end ResultsIn

end Results

/-! ## Operands -/

namespace Code

variable {code : Code} {op : Opcode} {address : Nat}

theorem operandAt_eq_ok_iff {index : Nat} :
    code.operandAt op address = .ok index ↔ code.slots[address + 1]? = some index := by
  unfold operandAt
  split <;> simp_all

/-- **The literal that an instruction names** is found through the slot after its opcode. -/
theorem literalOperand_eq_ok_iff {k : Kind} {a : k.Literal} :
    code.literalOperand k op address = .ok a ↔
      ∃ index, code.slots[address + 1]? = some index ∧ (code.pool k)[index]? = some a := by
  rcases hslot : code.slots[address + 1]? with _ | index
  · simp [literalOperand, operandAt, hslot]
  · simp only [Option.some.injEq, exists_eq_left', ← literal_eq_ok_iff]
    rcases hliteral : code.literal k index with d | b <;>
      simp [literalOperand, operandAt, hslot, hliteral]

end Code

/-! ## The rules -/

namespace Opcode

/-- The effects of instructions, where nothing limits the stack. -/
inductive Performs (code : Code) : Opcode → State → Effect → Prop
  | operate {f pc l r rest store v} : f.apply l r = .ok v →
      Performs code (.operate f) ⟨pc, r :: l :: rest, store⟩ ⟨⟨pc + 1, v :: rest, store⟩, ""⟩
  | printItem {pc v rest store} :
      Performs code .printItem ⟨pc, v :: rest, store⟩ ⟨⟨pc + 1, rest, store⟩, v.text⟩
  | printNewline {pc stack store} :
      Performs code .printNewline ⟨pc, stack, store⟩ ⟨⟨pc + 1, stack, store⟩, "\n"⟩
  | store {pc name n rest store} :
      Performs code .store ⟨pc, .string name :: .integer n :: rest, store⟩
        ⟨⟨pc + 1, rest, store.insert name n⟩, ""⟩
  | loadGlobal {pc name n stack store} : code.stringOperand .loadGlobal pc = .ok name →
      store.get? name = some n →
      Performs code .loadGlobal ⟨pc, stack, store⟩ ⟨⟨pc + 2, .integer n :: stack, store⟩, ""⟩
  | loadConst {pc n stack store} : code.integerOperand .loadConst pc = .ok n →
      Performs code .loadConst ⟨pc, stack, store⟩ ⟨⟨pc + 2, .integer n :: stack, store⟩, ""⟩
  | loadName {pc name stack store} : code.stringOperand .loadName pc = .ok name →
      Performs code .loadName ⟨pc, stack, store⟩ ⟨⟨pc + 2, .string name :: stack, store⟩, ""⟩
  | jumpForward {pc pc' distance stack store} :
      code.integerOperand .jumpForward pc = .ok distance →
      jumpTo (forwardTarget pc distance) = .ok pc' →
      Performs code .jumpForward ⟨pc, stack, store⟩ ⟨⟨pc', stack, store⟩, ""⟩
  | jumpTaken {pc pc' sense target rest store} :
      code.integerOperand (.jumpIf sense) pc = .ok target → jumpTo target = .ok pc' →
      Performs code (.jumpIf sense) ⟨pc, .boolean sense :: rest, store⟩ ⟨⟨pc', rest, store⟩, ""⟩
  | jumpPassed {pc sense target rest store} :
      code.integerOperand (.jumpIf sense) pc = .ok target →
      Performs code (.jumpIf sense) ⟨pc, .boolean (!sense) :: rest, store⟩
        ⟨⟨pc + 2, rest, store⟩, ""⟩
  | jumpAbsolute {pc pc' target stack store} :
      code.integerOperand .jumpAbsolute pc = .ok target → jumpTo target = .ok pc' →
      Performs code .jumpAbsolute ⟨pc, stack, store⟩ ⟨⟨pc', stack, store⟩, ""⟩
  | ret {pc v rest store} :
      Performs code .ret ⟨pc, v :: rest, store⟩ ⟨⟨pc + 2, v :: rest, store⟩, ""⟩

variable {code : Code} {op : Opcode} {s : State} {e : Effect}

theorem perform_of_performs (h : op.Performs code s e) : op.perform code none s = .ok e := by
  cases h with
  | operate hv => simp [perform, Stack.pop, Stack.push, hv]
  | loadGlobal hname hn => simp [perform, hname, hn, State.load, Stack.push]
  | loadConst hn => simp [perform, hn, State.load, Stack.push]
  | loadName hname => simp [perform, hname, State.load, Stack.push]
  | jumpForward hn hpc => simp [perform, hn, hpc]
  | jumpTaken hn hpc => simp [perform, hn, hpc, Stack.pop, Value.asBoolean, Value.asLiteral]
  | jumpPassed hn => simp [perform, hn, Stack.pop, Value.asBoolean, Value.asLiteral]
  | jumpAbsolute hn hpc => simp [perform, hn, hpc]
  | _ => rfl

theorem performs_of_perform (h : op.perform code none s = .ok e) : op.Performs code s e := by
  obtain ⟨pc, stack, store⟩ := s
  cases op with
  | operate f =>
    rcases stack with _ | ⟨r, _ | ⟨l, rest⟩⟩
    · simp [perform, Stack.pop] at h
    · simp [perform, Stack.pop] at h
    · rcases hv : f.apply l r with err | v
      · simp [perform, Stack.pop, hv] at h
      · simp only [perform, Stack.pop, Stack.push, hv, mapError_ok, ok_bind, pure_eq_ok,
          Except.ok.injEq] at h
        exact h ▸ .operate hv
  | printItem =>
    rcases stack with _ | ⟨v, rest⟩
    · simp [perform, Stack.pop] at h
    · simp only [perform, Stack.pop, ok_bind, pure_eq_ok, Except.ok.injEq] at h
      exact h ▸ .printItem
  | printNewline =>
    simp only [perform, pure_eq_ok, Except.ok.injEq] at h
    exact h ▸ .printNewline
  | store =>
    rcases stack with _ | ⟨name, _ | ⟨v, rest⟩⟩
    · simp [perform, Stack.pop] at h
    · cases name <;> simp [perform, Stack.pop, Value.asString, Value.asLiteral] at h
    · cases name with
      | string name =>
        cases v with
        | integer n =>
          simp only [perform, Stack.pop, Value.asString, Value.asInteger, Value.asLiteral, ok_bind,
            pure_eq_ok, Except.ok.injEq] at h
          exact h ▸ .store
        | _ => simp [perform, Stack.pop, Value.asString, Value.asInteger, Value.asLiteral] at h
      | _ => simp [perform, Stack.pop, Value.asString, Value.asLiteral] at h
  | loadGlobal =>
    rcases hname : code.stringOperand .loadGlobal pc with f | name
    · simp [perform, hname] at h
    · rcases hn : store.get? name with _ | n
      · simp [perform, hname, hn] at h
      · simp only [perform, hname, hn, State.load, Stack.push, ok_bind, pure_eq_ok,
          Except.ok.injEq] at h
        exact h ▸ .loadGlobal hname hn
  | loadConst =>
    rcases hn : code.integerOperand .loadConst pc with f | n
    · simp [perform, hn] at h
    · simp only [perform, hn, State.load, Stack.push, ok_bind, pure_eq_ok, Except.ok.injEq] at h
      exact h ▸ .loadConst hn
  | loadName =>
    rcases hname : code.stringOperand .loadName pc with f | name
    · simp [perform, hname] at h
    · simp only [perform, hname, State.load, Stack.push, ok_bind, pure_eq_ok, Except.ok.injEq] at h
      exact h ▸ .loadName hname
  | jumpForward =>
    rcases hn : code.integerOperand .jumpForward pc with f | distance
    · simp [perform, hn] at h
    · rcases hpc : jumpTo (forwardTarget pc distance) with f | pc'
      · simp [perform, hn, hpc] at h
      · simp only [perform, hn, hpc, ok_bind, pure_eq_ok, Except.ok.injEq] at h
        exact h ▸ .jumpForward hn hpc
  | jumpIf sense =>
    rcases hn : code.integerOperand (.jumpIf sense) pc with f | target
    · simp [perform, hn] at h
    · rcases stack with _ | ⟨v, rest⟩
      · simp [perform, hn, Stack.pop] at h
      · cases v with
        | boolean b =>
          by_cases hb : b = sense
          · rcases hpc : jumpTo target with f | pc'
            · simp [perform, hn, hpc, Stack.pop, Value.asBoolean, Value.asLiteral, hb] at h
            · simp only [perform, hn, hpc, Stack.pop, Value.asBoolean, Value.asLiteral, if_pos hb,
                ok_bind, pure_eq_ok, Except.ok.injEq] at h
              exact h ▸ hb ▸ .jumpTaken (hb ▸ hn) hpc
          · simp only [perform, hn, Stack.pop, Value.asBoolean, Value.asLiteral, if_neg hb, ok_bind,
              pure_eq_ok, Except.ok.injEq] at h
            obtain rfl : b = !sense := Bool.eq_not.mpr hb
            exact h ▸ .jumpPassed hn
        | _ => simp [perform, hn, Stack.pop, Value.asBoolean, Value.asLiteral] at h
  | jumpAbsolute =>
    rcases hn : code.integerOperand .jumpAbsolute pc with f | target
    · simp [perform, hn] at h
    · rcases hpc : jumpTo target with f | pc'
      · simp [perform, hn, hpc] at h
      · simp only [perform, hn, hpc, ok_bind, pure_eq_ok, Except.ok.injEq] at h
        exact h ▸ .jumpAbsolute hn hpc
  | ret =>
    rcases stack with _ | ⟨v, rest⟩
    · simp [perform, Stack.pop] at h
    · simp only [perform, Stack.pop, Stack.push, ok_bind, pure_eq_ok, Except.ok.injEq] at h
      exact h ▸ .ret
  | _ => simp [perform] at h

/-- **The computation follows the rules.** -/
theorem perform_none_eq_ok_iff : op.perform code none s = .ok e ↔ op.Performs code s e :=
  ⟨performs_of_perform, perform_of_performs⟩

/-! ## Loads -/

/-- The value that a load puts on top, or the fault that keeps it from having one. Other
instructions are no loads. -/
def loaded (code : Code) (s : State) : Opcode → Option (Except Fault Value)
  | loadGlobal => some do
    let name ← code.stringOperand .loadGlobal s.pc
    match s.store.get? name with
    | none => throw (.undefinedGlobal name)
    | some n => return .integer n
  | loadConst => some ((code.integerOperand .loadConst s.pc).map .integer)
  | loadName => some ((code.stringOperand .loadName s.pc).map .string)
  | _ => none

theorem eq_load_of_loaded {r : Except Fault Value} (h : op.loaded code s = some r) :
    op = .loadConst ∨ op = .loadName ∨ op = .loadGlobal := by
  cases op <;> simp [loaded] at h ⊢

/-- A load finds its value first, and then puts it on top. -/
theorem perform_of_loaded {r : Except Fault Value} (h : op.loaded code s = some r)
    (limit : Option Nat) : op.perform code limit s = r >>= s.load limit := by
  cases op <;> simp only [loaded, Option.some.injEq, reduceCtorEq] at h <;> subst h
  case loadGlobal =>
    rcases hname : code.stringOperand .loadGlobal s.pc with f | name
    · simp [perform, hname]
    · rcases hn : s.store.get? name with _ | n <;> simp [perform, hname, hn]
  case loadConst =>
    rcases hn : code.integerOperand .loadConst s.pc with f | n <;> simp [perform, hn, Except.map]
  case loadName =>
    rcases hname : code.stringOperand .loadName s.pc with f | name <;>
      simp [perform, hname, Except.map]

/-- Only a load makes the stack grow. -/
theorem Performs.length_le (h : op.Performs code s e) (hl : op.loaded code s = none) :
    e.state.stack.length ≤ s.stack.length := by
  cases h <;> simp [loaded] at hl ⊢
  omega

end Opcode

/-! ## The limit on the stack -/

/-- Refuses an effect that leaves more values on the stack than the limit allows. -/
def Effect.within (d : Nat) (e : Effect) : Except Fault Effect :=
  if e.state.stack.length ≤ d then .ok e else .error (.stackOverflow d)

theorem State.load_none (s : State) (v : Value) :
    s.load none v = .ok ⟨⟨s.pc + 2, v :: s.stack, s.store⟩, ""⟩ := rfl

theorem State.load_some (s : State) (d : Nat) (v : Value) :
    s.load (some d) v = s.load none v >>= Effect.within d := by
  rw [State.load_none, ok_bind, Effect.within, List.length_cons]
  by_cases h : d ≤ s.stack.length
  · rw [if_neg (Nat.not_le.mpr (Nat.lt_succ_of_le h))]
    simp only [State.load, Stack.push, if_pos h, error_bind]
  · rw [if_pos (Nat.succ_le_of_lt (Nat.lt_of_not_le h))]
    simp only [State.load, Stack.push, if_neg h, ok_bind, pure_eq_ok]

namespace Opcode

variable {code : Code} {op : Opcode} {s : State}

theorem perform_none_of_loaded {v : Value} (h : op.loaded code s = some (.ok v)) :
    op.perform code none s = .ok ⟨⟨s.pc + 2, v :: s.stack, s.store⟩, ""⟩ := by
  rw [perform_of_loaded h, ok_bind, State.load_none]

/-- The stack grows by one value, and only in a load that has it. -/
theorem exists_loaded_of_length_lt {e : Effect} (h : op.perform code none s = .ok e)
    (hlt : s.stack.length < e.state.stack.length) :
    ∃ v, op.loaded code s = some (.ok v) ∧ e = ⟨⟨s.pc + 2, v :: s.stack, s.store⟩, ""⟩ := by
  rcases hl : op.loaded code s with _ | (f | v)
  · have hle := (perform_none_eq_ok_iff.mp h).length_le hl
    omega
  · rw [perform_of_loaded hl, error_bind] at h
    cases h
  · rw [perform_none_of_loaded hl] at h
    exact ⟨v, rfl, (Except.ok.inj h).symm⟩

end Opcode

/-- A value goes back on a stack that was within the limit before it was taken. -/
theorem Stack.push_of_length_lt {d : Nat} {stack : Stack} (h : stack.length < d) (v : Value) :
    Stack.push (some d) v stack = Stack.push none v stack := by
  simp [Stack.push, Nat.not_le.mpr h]

namespace Opcode

variable {code : Code} {op : Opcode} {s : State} {d : Nat}

theorem perform_some_depth_of_not_loaded (hl : op.loaded code s = none)
    (h : s.stack.length ≤ d) : op.perform code (some d) s = op.perform code none s := by
  obtain ⟨pc, stack, store⟩ := s
  cases op with
  | operate f =>
    rcases stack with _ | ⟨r, _ | ⟨l, rest⟩⟩
    · rfl
    · rfl
    · have hrest : rest.length < d := by
        simp only [List.length_cons] at h
        omega
      simp only [perform, Stack.pop, ok_bind, Stack.push_of_length_lt hrest]
  | ret =>
    rcases stack with _ | ⟨v, rest⟩
    · rfl
    · simp only [perform, Stack.pop, ok_bind, Stack.push_of_length_lt (show rest.length < d from h)]
  | loadGlobal | loadConst | loadName => simp [loaded] at hl
  | _ => rfl

/-- **The limit refuses the effects that exceed it**, and changes nothing else. -/
theorem perform_some_depth (h : s.stack.length ≤ d) :
    op.perform code (some d) s = op.perform code none s >>= Effect.within d := by
  rcases hl : op.loaded code s with _ | r
  · rw [perform_some_depth_of_not_loaded hl h]
    rcases hp : op.perform code none s with f | e
    · rfl
    · have hle : e.state.stack.length ≤ d :=
        Nat.le_trans ((perform_none_eq_ok_iff.mp hp).length_le hl) h
      rw [ok_bind, Effect.within, if_pos hle]
  · rw [perform_of_loaded hl, perform_of_loaded hl]
    rcases r with f | v
    · rfl
    · rw [ok_bind, ok_bind, State.load_some]

end Opcode

/-! ## Any limit -/

theorem Stack.push_limit (limit : Option Nat) (v : Value) (stack : Stack) :
    Stack.push limit v stack = Stack.push none v stack ∨
      ∃ n, Stack.push limit v stack = .error (.stackOverflow n) := by
  rcases limit with _ | n
  · exact .inl rfl
  · by_cases h : n ≤ stack.length
    · exact .inr ⟨n, if_pos h⟩
    · exact .inl (if_neg h)

namespace Opcode

variable {code : Code} {op : Opcode} {s : State} {e : Effect}

/-- A limit keeps an instruction as it is, or makes it overflow. -/
theorem perform_limit (code : Code) (limit : Option Nat) (op : Opcode) (s : State) :
    op.perform code limit s = op.perform code none s ∨
      ∃ n, op.perform code limit s = .error (.stackOverflow n) := by
  have after_push (v : Value) (stack : Stack) (next : Stack → Except Fault Effect) :
      (Stack.push limit v stack >>= next) = (Stack.push none v stack >>= next) ∨
        ∃ n, (Stack.push limit v stack >>= next) = .error (.stackOverflow n) := by
    rcases Stack.push_limit limit v stack with h | ⟨n, h⟩
    · exact .inl (by rw [h])
    · exact .inr ⟨n, by rw [h, error_bind]⟩
  rcases hl : op.loaded code s with _ | r
  · cases op with
    | operate f =>
      obtain ⟨pc, _ | ⟨r, _ | ⟨l, rest⟩⟩, store⟩ := s
      · exact .inl rfl
      · exact .inl rfl
      · rcases hv : f.apply l r with err | v
        · exact .inl (by simp only [perform, Stack.pop, ok_bind, hv, mapError_error, error_bind])
        · simpa only [perform, Stack.pop, ok_bind, hv, mapError_ok] using after_push v rest _
    | ret =>
      obtain ⟨pc, _ | ⟨v, rest⟩, store⟩ := s
      · exact .inl rfl
      · exact after_push v rest _
    | loadGlobal | loadConst | loadName => cases hl
    | _ => exact .inl rfl
  · rw [perform_of_loaded hl, perform_of_loaded hl]
    rcases r with f | v
    · exact .inl rfl
    · exact after_push v s.stack _

theorem performs_of_perform_limit {limit : Option Nat} (h : op.perform code limit s = .ok e) :
    op.Performs code s e := by
  rcases perform_limit code limit op s with heq | ⟨n, hover⟩
  · exact performs_of_perform (heq.symm.trans h)
  · cases hover.symm.trans h

end Opcode

/-! ## Faults of the parts of an instruction -/

namespace FaultsIn

variable {P : Fault → Prop}

theorem of_pop (h : P .stackUnderflow) (stack : Stack) : FaultsIn P stack.pop := by
  cases stack <;> simp [Stack.pop, h]

theorem of_push (h : ∀ n, P (.stackOverflow n)) (limit : Option Nat) (v : Value) (stack : Stack) :
    FaultsIn P (Stack.push limit v stack) := by
  rcases limit with _ | n
  · exact .ok _
  · simp only [Stack.push]
    split <;> simp [h]

theorem of_asLiteral (h : ∀ m, P (.mismatch m)) (op : Opcode) (k : Kind) (v : Value) :
    FaultsIn P (v.asLiteral op k) := by
  cases k <;> cases v <;> simp [Value.asLiteral, h]

theorem of_operator (hm : ∀ m, P (.mismatch m)) (hd : P .divisionByZero)
    (r : Except OperandError Value) : FaultsIn P (r.mapError Fault.ofOperandError) := by
  rcases r with (m | _) | v <;> simp [Fault.ofOperandError, hm, hd]

theorem of_defect {α : Type} (h : ∀ d, P (.defect d)) (r : Except Defect α) :
    FaultsIn P (r.mapError .defect) := by
  rcases r with d | a <;> simp [h]

theorem of_jumpTo (h : ∀ t, P (.jumpOutOfRange t)) (target : Word) :
    FaultsIn P (jumpTo target) := by
  unfold jumpTo
  split <;> simp [h]

end FaultsIn

open FaultsIn in
/-- **The faults of an instruction** are those of its parts: of the stack, of the operand, and of
the address to which it jumps. -/
theorem Opcode.faultsIn_perform {P : Fault → Prop} {code : Code} {limit : Option Nat} {op : Opcode}
    {s : State} (hunderflow : P .stackUnderflow)
    (hpush : ∀ v stack, FaultsIn P (Stack.push limit v stack)) (hmismatch : ∀ m, P (.mismatch m))
    (hzero : P .divisionByZero) (hundefined : ∀ x, P (.undefinedGlobal x))
    (hunsupported : P (.unsupported op))
    (hliteral : ∀ k, op.operand = some k → FaultsIn P (code.literalOperand k op s.pc))
    (hjump : ∀ n, code.integerOperand op s.pc = .ok n →
      FaultsIn P (jumpTo n) ∧ FaultsIn P (jumpTo (forwardTarget s.pc n))) :
    FaultsIn P (op.perform code limit s) := by
  have hpop := of_pop hunderflow
  have hload (v : Value) : FaultsIn P (s.load limit v) := (hpush _ _).bind fun _ _ => .ok _
  cases op with
  | operate f =>
    refine (hpop _).bind fun _ _ => (hpop _).bind fun _ _ => ?_
    exact (of_operator hmismatch hzero _).bind fun _ _ => (hpush _ _).bind fun _ _ => .ok _
  | printItem => exact (hpop _).bind fun _ _ => .ok _
  | printNewline => exact .ok _
  | store =>
    refine (hpop _).bind fun _ _ => (of_asLiteral hmismatch _ .string _).bind fun _ _ => ?_
    exact (hpop _).bind fun _ _ => (of_asLiteral hmismatch _ .integer _).bind fun _ _ => .ok _
  | loadGlobal =>
    refine (hliteral .string rfl).bind fun name _ => ?_
    rcases s.store.get? name with _ | n
    · exact error_iff.mpr (hundefined name)
    · exact hload _
  | loadConst => exact (hliteral .integer rfl).bind fun _ _ => hload _
  | loadName => exact (hliteral .string rfl).bind fun _ _ => hload _
  | jumpForward =>
    exact (hliteral .integer rfl).bind fun n hn => (hjump n hn).2.bind fun _ _ => .ok _
  | jumpAbsolute =>
    exact (hliteral .integer rfl).bind fun n hn => (hjump n hn).1.bind fun _ _ => .ok _
  | jumpIf sense =>
    refine (hliteral .integer rfl).bind fun n hn => (hpop _).bind fun _ _ => ?_
    refine (of_asLiteral hmismatch _ .boolean _).bind fun b _ => ?_
    by_cases hb : b = sense
    · simp only [if_pos hb]
      exact (hjump n hn).1.bind fun _ _ => .ok _
    · simp only [if_neg hb]
      exact .ok _
  | callFunction | loadArg | makeFunction => exact error_iff.mpr hunsupported
  | ret => exact (hpop _).bind fun _ _ => (hpush _ _).bind fun _ _ => .ok _

/-- The faults of an instruction by itself, with no limit and no sink to refuse it. -/
def Fault.Intrinsic : Fault → Prop
  | .stackOverflow _ | .stepLimit _ | .output _ => False
  | _ => True

open FaultsIn in
/-- Without a limit an instruction never overflows the stack. -/
theorem Opcode.perform_none_faultsIn (code : Code) (op : Opcode) (s : State) :
    FaultsIn Fault.Intrinsic (op.perform code none s) :=
  faultsIn_perform trivial (fun _ _ => .ok _) (fun _ => trivial) trivial (fun _ => trivial) trivial
    (fun _ _ => of_defect (fun _ => trivial) _)
    (fun _ _ => ⟨of_jumpTo (fun _ => trivial) _, of_jumpTo (fun _ => trivial) _⟩)

end PoolMachine
