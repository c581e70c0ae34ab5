import PoolMachine.Proofs.Effects
import PoolMachine.Proofs.Turns

/-!
# What a run depends on

A run looks at the slots of `main`, and at the literals that their operands stand for. It does not
look at the size of a pool, at booleans, or at other functions.

**Theorem (`Program.run_of_grows`).** Let two programs have functions `main` with the same slots,
where the second has the integers and the strings of the first and any others behind them
(`Code.Grows`). If the run of the first does not fail because an operand is no index of its pool,
then the run of the second is the same run: the same events, the same output and the same result, or
no result if the first has none.

Where the pools grow, a literal that could be looked up stays the same, and one that could not is
the failure that the theorem excludes (`Grows.operand`). No other part of an instruction looks at
the code, so the two runs agree turn by turn.
-/

namespace PoolMachine

/-- A fault of an operand that is no index of its pool. -/
def Fault.IsBadIndex (f : Fault) : Prop :=
  ∃ pool index size, f = .defect (.badIndex pool index size)

/-- A run fails because an operand is no index of its pool. -/
def Ending.FailsInPool {σ : Type} (e : Ending σ) : Prop :=
  ∃ a f, e.result = .error (.fault a f) ∧ f.IsBadIndex

/-- The second code has the slots of the first, and further integers and strings behind its own.
Its booleans may be others. -/
structure Code.Grows (p q : Code) : Prop where
  slots : q.slots = p.slots
  integers : ∃ more, q.integers = p.integers ++ more
  strings : ∃ more, q.strings = p.strings ++ more

/-! ## One instruction -/

/-- Two computations agree, unless the first fails at the index of a pool. -/
def AgreeInPool {α : Type} (r r' : Except Fault α) : Prop :=
  r' = r ∨ ∃ f, r = .error f ∧ f.IsBadIndex

theorem AgreeInPool.bind {α β : Type} {r r' : Except Fault α} (h : AgreeInPool r r')
    (next : α → Except Fault β) : AgreeInPool (r >>= next) (r' >>= next) := by
  rcases h with rfl | ⟨f, rfl, hf⟩
  · exact .inl rfl
  · exact .inr ⟨f, rfl, hf⟩

namespace Code.Grows

variable {p q : Code}

theorem length_eq (h : p.Grows q) : q.length = p.length := by
  rw [length, h.slots, length]

theorem pool (h : p.Grows q) {k : Kind} (hk : k ≠ .boolean) :
    ∃ more, q.pool k = p.pool k ++ more := by
  cases k with
  | integer => exact h.integers
  | string => exact h.strings
  | boolean => exact absurd rfl hk

theorem literal (h : p.Grows q) {k : Kind} (hk : k ≠ .boolean) (index : Nat) :
    q.literal k index = p.literal k index ∨
      p.literal k index = .error (.badIndex k index (p.poolSize k)) := by
  obtain ⟨more, hmore⟩ := h.pool hk
  by_cases hlt : index < (p.pool k).size
  · left
    have hfound : (p.pool k)[index]? = some (p.pool k)[index] := Array.getElem?_eq_getElem hlt
    rw [literal_eq_ok_iff.mpr hfound, literal_eq_ok_iff, hmore, Array.getElem?_append_left hlt,
      hfound]
  · exact .inr (literal_of_le (Nat.le_of_not_lt hlt))

/-- An operand stands for the same literal, unless it is no index of its pool. -/
theorem operand (h : p.Grows q) {k : Kind} (hk : k ≠ .boolean) (op : Opcode) (a : Nat) :
    AgreeInPool (p.literalOperand k op a) (q.literalOperand k op a) := by
  have hslot : q.operandAt op a = p.operandAt op a := by rw [operandAt, h.slots, operandAt]
  unfold literalOperand
  rw [hslot]
  rcases p.operandAt op a with d | index
  · exact .inl rfl
  · rcases h.literal hk index with hsame | hbad
    · left
      rw [ok_bind, ok_bind, hsame]
    · right
      refine ⟨_, ?_, k, index, p.poolSize k, rfl⟩
      rw [ok_bind, hbad, mapError_error]

/-- **An instruction looks at the code through its operand only.** -/
theorem perform (h : p.Grows q) (limit : Option Nat) (op : Opcode) (s : State) :
    AgreeInPool (op.perform p limit s) (op.perform q limit s) := by
  cases op with
  | loadGlobal | loadName =>
    have hk : Kind.string ≠ .boolean := by decide
    exact (h.operand hk _ s.pc).bind _
  | loadConst | jumpForward | jumpIf | jumpAbsolute =>
    have hk : Kind.integer ≠ .boolean := by decide
    exact (h.operand hk _ s.pc).bind _
  | _ => exact .inl rfl

end Code.Grows

/-! ## Runs -/

namespace Machine

variable {σ : Type} [Sink σ] {p q : Code} {limits : Limits}

theorem turn_of_grows (h : p.Grows q) (limits : Limits) (m : Machine σ) :
    m.turn q limits = m.turn p limits ∨
      ∃ es f, m.turn p limits = (es, .fail m.state.pc f m.sink) ∧ f.IsBadIndex := by
  rcases turn_cases p limits m with
    hle | ⟨hlt, n, hn⟩ | ⟨hn, slot, hslot, hop⟩ | ⟨hn, op, hop⟩
  · left
    rw [turn_of_length_le hle, turn_of_length_le (h.length_eq ▸ hle), h.length_eq]
  · left
    rw [turn_of_exhausted hlt hn, turn_of_exhausted (h.length_eq ▸ hlt) hn]
  · left
    rw [turn_of_unknown hslot hn hop, turn_of_unknown (h.slots ▸ hslot) hn hop, h.length_eq]
  · rw [turn_of_opcode hop hn, turn_of_opcode (h.slots ▸ hop) hn, h.length_eq]
    rcases h.perform limits.depth op m.state with hsame | ⟨f, hf, hbad⟩
    · left
      simp only [dispatch, hsame]
    · exact .inr ⟨_, f, by rw [dispatch_of_error hf], hbad⟩

/-- **Where the pools grow, a run stays the same**, if it does not fail at the index of a pool. -/
theorem turns_of_grows (h : p.Grows q) {m : Machine σ}
    (hpool : ∀ k es a f sink, m.turns p limits k = (es, .fail a f sink) → ¬ f.IsBadIndex)
    (k : Nat) : m.turns q limits k = m.turns p limits k := by
  induction k with
  | zero => rfl
  | succ k ih =>
    rcases hk : m.turns p limits k with ⟨es, m' | e⟩
    · rw [turns_add_of_running hk, turns_add_of_running (ih.trans hk), turns_one, turns_one]
      rcases turn_of_grows h limits m' with hsame | ⟨es', f, hfail, hbad⟩
      · rw [hsame]
      · refine absurd hbad (hpool (k + 1) (es ++ es') m'.state.pc f m'.sink ?_)
        rw [turns_add_of_running hk, turns_one, hfail]
    · rw [turns_of_ended hk (Nat.le_succ k), turns_of_ended (ih.trans hk) (Nat.le_succ k)]

end Machine

section

variable {σ ω : Type} [Sink σ]

theorem Code.run_eq_some_iff {code : Code} {limits : Limits} {sink : σ} {observe : ω → Event → ω}
    {w w' : ω} {fuel : Nat} {e : Ending σ} :
    code.run limits sink observe w fuel = some (e, w') ↔
      (Machine.start sink).advance code limits observe fuel w = (.ended e, w') := by
  rw [run]
  rcases (Machine.start sink).advance code limits observe fuel w with ⟨m | e', w''⟩ <;> simp

theorem Code.run_of_le {code : Code} {limits : Limits} {sink : σ} {observe : ω → Event → ω} {w : ω}
    {fuel fuel' : Nat} {r : Ending σ × ω} (h : code.run limits sink observe w fuel = some r)
    (hle : fuel ≤ fuel') : code.run limits sink observe w fuel' = some r := by
  rw [run_eq_some_iff] at h ⊢
  obtain ⟨es, hturns, hes⟩ := Machine.exists_turns_of_advance code limits h
  rw [Machine.advance_eq_turns, Machine.turns_of_ended hturns hle, hes]

theorem Program.run_of_main {program : Program} {code : Code} (h : program.main? = some code)
    (limits : Limits) (sink : σ) (observe : ω → Event → ω) (w : ω) (fuel : Nat) :
    program.run limits sink observe w fuel = code.run limits sink observe w fuel := by
  rw [run, h]

/-- **A run depends on the slots of `main` and on the literals that it reads, and on nothing
else.** -/
theorem Program.run_of_grows {program program' : Program} {p q : Code}
    (hmain : program.main? = some p) (hmain' : program'.main? = some q) (hgrows : p.Grows q)
    (limits : Limits) (sink : σ) (observe : ω → Event → ω) (w : ω)
    (hpool : ∀ fuel e w', program.run limits sink observe w fuel = some (e, w') →
      ¬ e.FailsInPool) :
    -- The runs agree at every point on the way,
    (∀ fuel, (Machine.start sink).advance q limits observe fuel w =
      (Machine.start sink).advance p limits observe fuel w) ∧
    -- in their result,
    (∀ fuel, program'.run limits sink observe w fuel = program.run limits sink observe w fuel) ∧
    -- and if the first has none, neither has the second.
    ((∀ fuel, program.run limits sink observe w fuel = none) →
      ∀ fuel, program'.run limits sink observe w fuel = none) := by
  have hno : ∀ k es a f sink', (Machine.start sink).turns p limits k = (es, .fail a f sink') →
      ¬ f.IsBadIndex := by
    intro k es a f sink' hk hbad
    refine hpool k ⟨.error (.fault a f), sink'⟩ (es.foldl observe w) ?_ ⟨a, f, rfl, hbad⟩
    rw [run_of_main hmain, Code.run_eq_some_iff, Machine.advance_eq_turns, hk]
    rfl
  have hadvance (fuel : Nat) : (Machine.start sink).advance q limits observe fuel w =
      (Machine.start sink).advance p limits observe fuel w := by
    rw [Machine.advance_eq_turns, Machine.advance_eq_turns, Machine.turns_of_grows hgrows hno]
  have hrun (fuel : Nat) : program'.run limits sink observe w fuel =
      program.run limits sink observe w fuel := by
    rw [run_of_main hmain, run_of_main hmain', Code.run, Code.run, hadvance]
  refine ⟨hadvance, hrun, fun hnone fuel => ?_⟩
  rw [hrun, hnone]

end

/-- Prints a string and an integer. -/
def Code.label : Code where
  slots := #[Opcode.loadName.code, 0, Opcode.printItem.code, Opcode.loadConst.code, 0,
    Opcode.printItem.code]
  integers := #[7]
  strings := #["x"]
  booleans := #[]

/-- The same with literals that nothing refers to. -/
def Code.paddedLabel : Code :=
  { label with integers := #[7, -1, 9], strings := #["x", "y"], booleans := #[true] }

theorem Program.run_paddedLabel :
    let label : Program := .ofList [("main", Code.label)]
    let padded : Program := .ofList [("main", Code.paddedLabel), ("other", Code.label)]
    Code.label.Grows Code.paddedLabel ∧
      label.run {} "" (fun n _ => n + 1) 0 5 = some (⟨.ok ⟨[], .empty⟩, "x7"⟩, 9) ∧
      ∀ fuel, padded.run {} "" (fun n _ => n + 1) 0 fuel =
        label.run {} "" (fun n _ => n + 1) 0 fuel := by
  intro label padded
  have hgrows : Code.label.Grows Code.paddedLabel := ⟨rfl, ⟨#[-1, 9], rfl⟩, ⟨#["y"], rfl⟩⟩
  have hmain : label.main? = some Code.label := rfl
  have hend : label.run {} "" (fun n _ => n + 1) 0 5 = some (⟨.ok ⟨[], .empty⟩, "x7"⟩, 9) := rfl
  refine ⟨hgrows, hend, (run_of_grows hmain rfl hgrows {} "" _ 0 fun fuel e w' hrun => ?_).2.1⟩
  -- With more fuel, a run that ends otherwise would have two results.
  rw [run_of_main hmain] at hrun hend
  have hresults := (Code.run_of_le hrun (Nat.le_max_left fuel 5)).symm.trans
    (Code.run_of_le hend (Nat.le_max_right fuel 5))
  cases hresults
  rintro ⟨a, f, hfault, -⟩
  cases hfault

end PoolMachine
