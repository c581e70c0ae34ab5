import PoolMachine.Proofs.Sweep
import PoolMachine.Proofs.Turns

/-!
# Defects in a run and in a listing

A listing sweeps over the code, and a run follows the program counter. They read the operands of
instructions at different times and through different functions, so it is a theorem that they agree
about defects where the program counter follows the sweep.

**Theorem (`Code.listing_of_straight`).** Take a run in which no jump is taken. If it fails because
of a defect, then the listing fails too, at the same address and for the same defect; or it has
already failed before, at a return whose operand is no index of its pool. If the run halts, then the
code has a listing, or the listing fails at a return: its operand is no index, or it is missing.
A return is the one instruction that a run carries out without reading its operand.

The sweep from an address has a first defect, or none (`Code.flaw?`). An instruction that is carried
out has no defect and leads to the next one in the sweep, so the first defect from the program
counter on stays the first defect of the listing, unless it is that of a return
(`flaw?_of_reaches`).
-/

namespace PoolMachine

namespace Code

variable {code : Code} {a : Nat} {op : Opcode} {pool : Kind}

/-! ## The first defect of a sweep -/

/-- The first defect that a sweep from an address meets. -/
def flaw? (code : Code) (a : Nat) : Option ListingError :=
  match code.instructionsFrom a (code.slots.toList.drop a) with
  | .ok _ => none
  | .error e => some e

/-- The literal of an instruction whose opcode is at an address. -/
def resolve (code : Code) (op : Opcode) (pool : Kind) (a : Nat) : Except Defect Value :=
  code.operandAt op a >>= code.entry pool

theorem mapError_resolve (code : Code) (op : Opcode) (pool : Kind) (a : Nat) :
    (code.resolve op pool a).mapError .defect =
      (code.literalOperand pool op a).map (.ofLiteral pool) := by
  unfold resolve literalOperand
  rcases code.operandAt op a with d | index
  · rfl
  · simp only [ok_bind, entry]
    cases code.literal pool index <;> rfl

theorem flaw?_of_length_le (h : code.length ≤ a) : code.flaw? a = none := by
  have hdrop : code.slots.toList.drop a = [] :=
    List.drop_of_length_le (by rwa [Array.length_toList])
  rw [flaw?, hdrop]
  rfl

theorem flaw?_of_unknown {slot : Nat} (hslot : code.slots[a]? = some slot)
    (hop : Opcode.ofCode? slot = none) : code.flaw? a = some ⟨a, .unknownOpcode slot⟩ := by
  simp only [flaw?, drop_of_getElem? hslot, instructionsFrom, hop]

theorem flaw?_of_bare (hslot : code.slots[a]? = some op.code) (hpool : op.operand = none) :
    code.flaw? a = code.flaw? (a + 1) := by
  simp only [flaw?, drop_of_getElem? hslot, instructionsFrom, Opcode.ofCode?_code, hpool]
  cases code.instructionsFrom (a + 1) (code.slots.toList.drop (a + 1)) <;> rfl

theorem flaw?_of_resolve {v : Value} (hslot : code.slots[a]? = some op.code)
    (hpool : op.operand = some pool) (h : code.resolve op pool a = .ok v) :
    code.flaw? a = code.flaw? (a + 2) := by
  rcases hindex : code.operandAt op a with d | index
  · simp [resolve, hindex] at h
  · rw [resolve, hindex, ok_bind] at h
    simp only [flaw?, drop_of_getElem? hslot, drop_of_getElem? (operandAt_eq_ok_iff.mp hindex),
      instructionsFrom, Opcode.ofCode?_code, hpool, h]
    cases code.instructionsFrom (a + 2) (code.slots.toList.drop (a + 2)) <;> rfl

theorem flaw?_of_not_resolve {d : Defect} (hslot : code.slots[a]? = some op.code)
    (hpool : op.operand = some pool) (h : code.resolve op pool a = .error d) :
    code.flaw? a = some ⟨a, d⟩ := by
  rcases hnext : code.slots[a + 1]? with _ | index
  · have hdrop : code.slots.toList.drop (a + 1) = [] := by
      rw [List.drop_eq_nil_iff, Array.length_toList]
      exact Array.getElem?_eq_none_iff.mp hnext
    have hmissing : code.operandAt op a = .error (.missingOperand op) := by
      simp only [operandAt, hnext]
    rw [resolve, hmissing, error_bind] at h
    cases h
    simp only [flaw?, drop_of_getElem? hslot, hdrop, instructionsFrom, Opcode.ofCode?_code, hpool]
  · rw [resolve, operandAt_eq_ok_iff.mpr hnext, ok_bind] at h
    simp only [flaw?, drop_of_getElem? hslot, drop_of_getElem? hnext, instructionsFrom,
      Opcode.ofCode?_code, hpool, h]

theorem listing_eq_error_iff {e : ListingError} :
    code.listing = .error e ↔ code.flaw? 0 = some e := by
  show code.listing = .error e ↔
    (match code.instructions with | .ok _ => none | .error e => some e) = some e
  rcases h : code.instructions with e' | is <;> simp [listing, listingLines, h, Except.map]

theorem exists_listing_iff : (∃ text, code.listing = .ok text) ↔ code.flaw? 0 = none := by
  show _ ↔ (match code.instructions with | .ok _ => none | .error e => some e) = none
  rcases h : code.instructions with e' | is <;> simp [listing, listingLines, h, Except.map]

/-- At a return the sweep goes on, or finds no index in the operand, or no operand at all. -/
theorem flaw?_of_ret (hslot : code.slots[a]? = some Opcode.ret.code) :
    code.flaw? a = code.flaw? (a + 2) ∨
      (∃ index, code.slots[a + 1]? = some index ∧ code.integers.size ≤ index ∧
        code.flaw? a = some ⟨a, .badIndex .integer index code.integers.size⟩) ∨
      a + 1 = code.length ∧ code.flaw? a = some ⟨a, .missingOperand .ret⟩ := by
  have hlt : a < code.length := (Array.getElem?_eq_some_iff.mp hslot).1
  rcases hnext : code.slots[a + 1]? with _ | index
  · have hge : code.length ≤ a + 1 := Array.getElem?_eq_none_iff.mp hnext
    refine .inr (.inr ⟨Nat.le_antisymm hlt hge, flaw?_of_not_resolve hslot rfl ?_⟩)
    simp only [resolve, operandAt, hnext, error_bind]
  · rcases hn : code.integers[index]? with _ | n
    · refine .inr (.inl ⟨index, rfl, Array.getElem?_eq_none_iff.mp hn,
        flaw?_of_not_resolve hslot rfl ?_⟩)
      rw [resolve, operandAt_eq_ok_iff.mpr hnext, ok_bind, entry,
        literal_of_le (Array.getElem?_eq_none_iff.mp hn)]
      rfl
    · refine .inl (flaw?_of_resolve (v := .integer n) hslot rfl ?_)
      have hliteral : code.literal .integer index = .ok n := literal_eq_ok_iff.mpr hn
      rw [resolve, operandAt_eq_ok_iff.mpr hnext, ok_bind, entry, hliteral]
      rfl

end Code

/-! ## Instructions and their operands -/

namespace Opcode

variable {code : Code} {op : Opcode} {s : State} {e : Effect}

/-- The fault is no defect other than that of the operand. -/
def OperandDefect (code : Code) (op : Opcode) (pc : Nat) (f : Fault) : Prop :=
  ∀ d, f = .defect d → ∃ pool, op.operand = some pool ∧ code.resolve op pool pc = .error d

theorem faultsIn_literalOperand {pool : Kind} {pc : Nat} (hpool : op.operand = some pool) :
    FaultsIn (OperandDefect code op pc) (code.literalOperand pool op pc) := by
  intro f hf d hd
  have h := code.mapError_resolve op pool pc
  rw [hf, hd] at h
  refine ⟨pool, hpool, ?_⟩
  rcases hr : code.resolve op pool pc with d' | v <;> rw [hr] at h <;> cases h
  rfl

theorem resolve_of_literalOperand {pool : Kind} {pc : Nat} {a : pool.Literal}
    (ha : code.literalOperand pool op pc = .ok a) :
    code.resolve op pool pc = .ok (.ofLiteral pool a) := by
  have h := code.mapError_resolve op pool pc
  rw [ha] at h
  rcases hr : code.resolve op pool pc with d | v <;> rw [hr] at h <;> cases h
  rfl

open FaultsIn in
theorem perform_faultsIn (limit : Option Nat) :
    FaultsIn (OperandDefect code op s.pc) (op.perform code limit s) :=
  faultsIn_perform nofun (of_push (fun _ => nofun) limit) (fun _ => nofun) nofun (fun _ => nofun)
    nofun (fun _ => faultsIn_literalOperand)
    (fun _ _ => ⟨of_jumpTo (fun _ => nofun) _, of_jumpTo (fun _ => nofun) _⟩)

/-- An instruction that is carried out, other than a return, has no defect in its operand. -/
theorem Performs.resolve (h : op.Performs code s e) (hret : op ≠ .ret) :
    op.operand = none ∨ ∃ pool v, op.operand = some pool ∧ code.resolve op pool s.pc = .ok v := by
  cases h with
  | operate | printItem | printNewline | store => exact .inl rfl
  | loadGlobal hname | loadName hname =>
    exact .inr ⟨.string, _, rfl, resolve_of_literalOperand hname⟩
  | loadConst hn | jumpForward hn | jumpTaken hn | jumpPassed hn | jumpAbsolute hn =>
    exact .inr ⟨.integer, _, rfl, resolve_of_literalOperand hn⟩
  | ret => exact absurd rfl hret

theorem Performs.pc_eq (h : op.Performs code s e) (hforward : op ≠ .jumpForward)
    (habsolute : op ≠ .jumpAbsolute) (hif : ∀ sense, op = .jumpIf sense → e.state.pc = s.pc + 2) :
    e.state.pc = s.pc + op.width := by
  cases h with
  | jumpForward => exact absurd rfl hforward
  | jumpAbsolute => exact absurd rfl habsolute
  | jumpTaken => exact hif _ rfl
  | _ => rfl

end Opcode

/-! ## Runs in which no jump is taken -/

namespace Machine

variable {σ : Type} [Sink σ] {code : Code} {limits : Limits}

/-- No jump of a run is taken: of the instructions that the run carries out, none is an
unconditional jump, and every conditional jump goes on to the instruction after it. -/
def Straight (code : Code) (limits : Limits) (m₀ : Machine σ) : Prop :=
  ∀ k m m', ∀ op : Opcode, Reaches code limits k m₀ m → m.Carries code limits m' →
    code.slots[m.state.pc]? = some op.code →
    op ≠ .jumpForward ∧ op ≠ .jumpAbsolute ∧
      ∀ sense, op = .jumpIf sense → m'.state.pc = m.state.pc + 2

/-- The listing fails at a return that a run from `m₀` carries out, before an address. -/
def StopsAtReturn (code : Code) (limits : Limits) (m₀ : Machine σ) (a : Nat) : Prop :=
  ∃ b k m, b < a ∧ Reaches code limits k m₀ m ∧ m.state.pc = b ∧
    code.slots[b]? = some Opcode.ret.code ∧
    ((∃ index, code.slots[b + 1]? = some index ∧ code.integers.size ≤ index ∧
        code.flaw? 0 = some ⟨b, .badIndex .integer index code.integers.size⟩) ∨
      b + 1 = code.length ∧ code.flaw? 0 = some ⟨b, .missingOperand .ret⟩)

theorem StopsAtReturn.mono {m₀ : Machine σ} {a a' : Nat} (h : StopsAtReturn code limits m₀ a)
    (hle : a ≤ a') : StopsAtReturn code limits m₀ a' := by
  obtain ⟨b, k, m, hb, hrest⟩ := h
  exact ⟨b, k, m, Nat.lt_of_lt_of_le hb hle, hrest⟩

/-- **An instruction keeps the first defect**, unless it is that of a return. -/
theorem flaw?_of_carries {m₀ m m' : Machine σ} {k : Nat} (hstraight : m₀.Straight code limits)
    (hk : Reaches code limits k m₀ m) (hcarries : m.Carries code limits m')
    (h : code.flaw? 0 = code.flaw? m.state.pc ∨ StopsAtReturn code limits m₀ m.state.pc) :
    code.flaw? 0 = code.flaw? m'.state.pc ∨ StopsAtReturn code limits m₀ m'.state.pc := by
  obtain ⟨op, hop, hdispatch⟩ := hcarries.2
  obtain ⟨hforward, habsolute, hif⟩ := hstraight k m m' op hk hcarries hop
  obtain ⟨effect, sink, hp, -, rfl⟩ := dispatch_eq_running_iff.mp hdispatch
  have hperforms := Opcode.performs_of_perform_limit hp
  have hpc : effect.state.pc = m.state.pc + op.width := hperforms.pc_eq hforward habsolute hif
  have hwidth : 1 ≤ op.width := by
    unfold Opcode.width
    split <;> omega
  show code.flaw? 0 = code.flaw? effect.state.pc ∨
    StopsAtReturn code limits m₀ effect.state.pc
  rw [hpc]
  rcases h with hflaw | hstops
  · by_cases hret : op = .ret
    · subst hret
      rcases Code.flaw?_of_ret hop with hnext | ⟨index, hindex, hsize, hbad⟩ | ⟨hlast, hmissing⟩
      · exact .inl (hflaw.trans hnext)
      · exact .inr ⟨m.state.pc, k, m, by omega, hk, rfl, hop,
          .inl ⟨index, hindex, hsize, hflaw.trans hbad⟩⟩
      · exact .inr ⟨m.state.pc, k, m, by omega, hk, rfl, hop,
          .inr ⟨hlast, hflaw.trans hmissing⟩⟩
    · refine .inl (hflaw.trans ?_)
      rcases hperforms.resolve hret with hnone | ⟨pool, v, hpool, hv⟩
      · rw [Code.flaw?_of_bare hop hnone, Opcode.width, hnone]
        rfl
      · rw [Code.flaw?_of_resolve hop hpool hv, Opcode.width, hpool]
        rfl
  · exact .inr (hstops.mono (by omega))

/-- **The first defect from the program counter on** is the first of the listing. -/
theorem flaw?_of_reaches {m₀ m : Machine σ} {k : Nat} (hpc : m₀.state.pc = 0)
    (hstraight : m₀.Straight code limits) (hk : Reaches code limits k m₀ m) :
    code.flaw? 0 = code.flaw? m.state.pc ∨ StopsAtReturn code limits m₀ m.state.pc := by
  induction k generalizing m with
  | zero =>
    cases hk
    exact .inl (by rw [hpc])
  | succ k ih =>
    obtain ⟨m₁, hm₁, hcarries⟩ := hk.exists_last
    exact flaw?_of_carries hstraight hm₁ hcarries (ih hm₁)

/-- A turn that fails because of a defect is at the first defect from there on. -/
theorem flaw?_of_turn {m : Machine σ} {es : List Event} {a : Nat} {d : Defect} {sink : σ}
    (h : m.turn code limits = (es, .fail a (.defect d) sink)) :
    a = m.state.pc ∧ a < code.length ∧ code.flaw? a = some ⟨a, d⟩ := by
  obtain ⟨rfl, ⟨_, hf⟩ | ⟨_, hf⟩ | ⟨slot, hslot, hnone, hf⟩ | ⟨op, hop, -, hp, -⟩⟩ := turn_eq_fail h
  · cases hf
  · cases hf
  · cases hf
    exact ⟨rfl, (Array.getElem?_eq_some_iff.mp hslot).1, Code.flaw?_of_unknown hslot hnone⟩
  · obtain ⟨pool, hpool, hresolve⟩ := Opcode.perform_faultsIn _ _ hp d rfl
    exact ⟨rfl, (Array.getElem?_eq_some_iff.mp hop).1,
      Code.flaw?_of_not_resolve hop hpool hresolve⟩

end Machine

/-- **A run in which no jump is taken and the listing agree about defects**, but for the operands of
returns, which a run does not read. -/
theorem Code.listing_of_straight {σ ω : Type} [Sink σ] (code : Code) (limits : Limits) (sink : σ)
    (hstraight : (Machine.start sink).Straight code limits) (observe : ω → Event → ω) (w : ω)
    (fuel : Nat) :
    -- A run that fails because of a defect: the listing fails for the same defect, or before.
    (∀ a d sink' w',
      (Machine.start sink).advance code limits observe fuel w = (.fail a (.defect d) sink', w') →
      code.listing = .error ⟨a, d⟩ ∨
        ∃ b k m index, b < a ∧ Machine.Reaches code limits k (.start sink) m ∧ m.state.pc = b ∧
          code.slots[b]? = some Opcode.ret.code ∧ code.slots[b + 1]? = some index ∧
          code.integers.size ≤ index ∧
          code.listing = .error ⟨b, .badIndex .integer index code.integers.size⟩) ∧
    -- A run that halts: there is a listing, or it fails at a return.
    (∀ r sink' w',
      (Machine.start sink).advance code limits observe fuel w = (.ended ⟨.ok r, sink'⟩, w') →
      (∃ text, code.listing = .ok text) ∨
        ∃ b, code.slots[b]? = some Opcode.ret.code ∧
          ((∃ index, code.slots[b + 1]? = some index ∧ code.integers.size ≤ index ∧
              code.listing = .error ⟨b, .badIndex .integer index code.integers.size⟩) ∨
            b + 1 = code.length ∧ code.listing = .error ⟨b, .missingOperand .ret⟩)) := by
  simp only [listing_eq_error_iff, exists_listing_iff]
  constructor
  · intro a d sink' w' hrun
    obtain ⟨es, hturns, -⟩ := Machine.exists_turns_of_advance code limits hrun
    obtain ⟨j, es₁, m, es₂, -, hj, ht, -⟩ := Machine.exists_final_turn hturns
    obtain ⟨rfl, hlt, hflaw⟩ := Machine.flaw?_of_turn ht
    have hreaches : Machine.Reaches code limits j (.start sink) m :=
      Machine.reaches_iff_turns.mpr ⟨es₁, hj⟩
    rcases Machine.flaw?_of_reaches rfl hstraight hreaches with
      hfirst | ⟨b, k, m', hb, hm', hpc, hret, ⟨index, hindex, hsize, hbad⟩ | ⟨hlast, -⟩⟩
    · exact .inl (hfirst.trans hflaw)
    · exact .inr ⟨b, k, m', index, hb, hm', hpc, hret, hindex, hsize, hbad⟩
    · -- After a return in the last slot the program counter has left the code.
      omega
  · intro r sink' w' hrun
    obtain ⟨es, hturns, -⟩ := Machine.exists_turns_of_advance code limits hrun
    obtain ⟨j, es₁, m, es₂, -, hj, ht, -⟩ := Machine.exists_final_turn hturns
    have hreaches : Machine.Reaches code limits j (.start sink) m :=
      Machine.reaches_iff_turns.mpr ⟨es₁, hj⟩
    rcases Machine.flaw?_of_reaches rfl hstraight hreaches with
      hfirst | ⟨b, -, -, -, -, -, hret, hstop⟩
    · exact .inl (hfirst.trans (flaw?_of_length_le (Machine.length_le_of_turn_ok ht)))
    · exact .inr ⟨b, hret, hstop⟩

/-- A comparison, a conditional jump that is not taken, a return with a bad operand, and a slot that
is no opcode. -/
def Code.unreadReturn : Code where
  slots := #[Opcode.loadConst.code, 0, Opcode.loadConst.code, 0, (Opcode.operate .eq).code,
    (Opcode.jumpIf false).code, 1, Opcode.loadConst.code, 0, Opcode.ret.code, 9, 31]
  integers := #[7, 0]
  strings := #[]
  booleans := #[]

theorem Code.straight_unreadReturn : (Machine.start "").Straight unreadReturn {} := by
  intro k m m' op hk hcarries hop
  obtain ⟨es, hm⟩ := Machine.reaches_iff_turns.mp hk
  obtain ⟨es', ht⟩ := Machine.carries_iff_turn.mp hcarries
  have hend : (Machine.start "").turns unreadReturn {} 7 =
      (_, .fail 11 (.defect (.unknownOpcode 31)) "") := rfl
  have hlt : k < 6 := by
    refine Nat.lt_of_not_le fun hge => ?_
    have hrun := Machine.turns_add_of_running hm 1
    rw [Machine.turns_one, ht, Machine.turns_of_ended hend (by omega)] at hrun
    cases congrArg Prod.snd hrun
  -- The machines before the six instructions, and the opcode that each of them finds.
  have hdecode := Opcode.ofCode?_code op
  rcases k with _ | _ | _ | _ | _ | _ | k
  iterate 6
    cases hm
    cases ht
    rw [← Option.some.inj hop] at hdecode
    cases hdecode
    simp
  omega

theorem Code.listing_of_unreadReturn :
    (Machine.start "").Straight unreadReturn {} ∧
      (Machine.start "").advance unreadReturn {} (fun w _ => w) 7 () =
        (.fail 11 (.defect (.unknownOpcode 31)) "", ()) ∧
      (unreadReturn.listing = .error ⟨11, .unknownOpcode 31⟩ ∨
        ∃ b k m index, b < 11 ∧ Machine.Reaches unreadReturn {} k (.start "") m ∧
          m.state.pc = b ∧ unreadReturn.slots[b]? = some Opcode.ret.code ∧
          unreadReturn.slots[b + 1]? = some index ∧ unreadReturn.integers.size ≤ index ∧
          unreadReturn.listing =
            .error ⟨b, .badIndex .integer index unreadReturn.integers.size⟩) := by
  have h := listing_of_straight unreadReturn {} "" straight_unreadReturn (fun w _ => w) () 7
  exact ⟨straight_unreadReturn, rfl, h.1 11 (.unknownOpcode 31) "" () rfl⟩

end PoolMachine
