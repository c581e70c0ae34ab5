import PoolMachine.Listing
import PoolMachine.Proofs.Effects

/-!
# The sweep of a listing

A listing sweeps over the slots of a code from address zero. Where it succeeds, its instructions
follow one another without a gap up to the end of the code.

* **`Code.Fills`**: instructions that fill the slots from an address to the end.
* **`instructions_eq_ok_iff`**: the sweep finds instructions exactly if they fill the code.
* **`Code.Holds`**: what the slots say about one instruction. It fixes the instruction at an address
  (`Holds.unique`).
* **`Fills.next`**: after an instruction comes another, or the end of the code.
-/

namespace PoolMachine

theorem Opcode.code_injective {op op' : Opcode} (h : op.code = op'.code) : op = op' := by
  have hdecode : ofCode? op.code = ofCode? op'.code := congrArg ofCode? h
  rwa [ofCode?_code, ofCode?_code, Option.some.injEq] at hdecode

namespace Code

variable {code : Code} {a : Nat} {is : List Instruction}

/-- The instructions fill the slots of a code from an address to the end. -/
inductive Fills (code : Code) : Nat → List Instruction → Prop
  | done : Fills code code.length []
  | bare {a : Nat} {op : Opcode} {is : List Instruction} :
      code.slots[a]? = some op.code → op.operand = none →
      Fills code (a + 1) is → Fills code a (⟨a, op, none⟩ :: is)
  | pooled {a index : Nat} {op : Opcode} {pool : Kind} {literal : Value} {is : List Instruction} :
      code.slots[a]? = some op.code → op.operand = some pool →
      code.slots[a + 1]? = some index → code.entry pool index = .ok literal →
      Fills code (a + 2) is → Fills code a (⟨a, op, some (index, literal)⟩ :: is)

/-! ## The sweep and its instructions -/

theorem getElem?_of_drop {slots : List Nat} {slot : Nat}
    (h : code.slots.toList.drop a = slot :: slots) : code.slots[a]? = some slot := by
  have hget : (code.slots.toList.drop a)[0]? = some slot := by rw [h]; rfl
  rw [List.getElem?_drop, Array.getElem?_toList] at hget
  exact hget

theorem drop_succ_of_drop {slots : List Nat} {slot : Nat}
    (h : code.slots.toList.drop a = slot :: slots) : code.slots.toList.drop (a + 1) = slots := by
  rw [← List.drop_drop, h]
  rfl

theorem fills_of_instructionsFrom {slots : List Nat} (hs : code.slots.toList.drop a = slots)
    (ha : a ≤ code.length) (h : code.instructionsFrom a slots = .ok is) : code.Fills a is := by
  fun_induction instructionsFrom code a slots generalizing is with
  | case1 a =>
    cases h
    have hlen : code.length ≤ a := by simpa [length] using List.drop_eq_nil_iff.mp hs
    exact Nat.le_antisymm ha hlen ▸ .done
  | case2 | case4 | case5 => cases h
  | case3 a slot slots op hop hpool ih =>
    rw [Opcode.ofCode?_eq_some_iff] at hop
    have hslot := getElem?_of_drop hs
    rcases hrest : code.instructionsFrom (a + 1) slots with e | rest
    · simp [hrest] at h
    · simp only [hrest, ok_bind, pure_eq_ok, Except.ok.injEq] at h
      subst h
      have hlt : a < code.length := (Array.getElem?_eq_some_iff.mp hslot).1
      exact .bare (hop ▸ hslot) hpool (ih (drop_succ_of_drop hs) hlt hrest)
  | case6 a slot op hop pool hpool index slots literal hentry ih =>
    rw [Opcode.ofCode?_eq_some_iff] at hop
    have hslot := getElem?_of_drop hs
    have hindex := getElem?_of_drop (drop_succ_of_drop hs)
    rcases hrest : code.instructionsFrom (a + 2) slots with e | rest
    · simp [hrest] at h
    · simp only [hrest, ok_bind, pure_eq_ok, Except.ok.injEq] at h
      subst h
      have hlt : a + 1 < code.length := (Array.getElem?_eq_some_iff.mp hindex).1
      exact .pooled (hop ▸ hslot) hpool hindex hentry
        (ih (drop_succ_of_drop (drop_succ_of_drop hs)) hlt hrest)

theorem drop_of_getElem? {slot : Nat} (h : code.slots[a]? = some slot) :
    code.slots.toList.drop a = slot :: code.slots.toList.drop (a + 1) := by
  obtain ⟨hlt, rfl⟩ := Array.getElem?_eq_some_iff.mp h
  rw [List.drop_eq_getElem_cons (by simpa using hlt), Array.getElem_toList]

theorem instructionsFrom_of_fills (h : code.Fills a is) :
    code.instructionsFrom a (code.slots.toList.drop a) = .ok is := by
  induction h with
  | done =>
    have hdrop : code.slots.toList.drop code.length = [] :=
      List.drop_of_length_le (Nat.le_of_eq Array.length_toList)
    rw [hdrop]
    rfl
  | bare hslot hpool _ ih =>
    simp only [drop_of_getElem? hslot, instructionsFrom, Opcode.ofCode?_code, hpool, ih, ok_bind,
      pure_eq_ok]
  | pooled hslot hpool hindex hentry _ ih =>
    simp only [drop_of_getElem? hslot, drop_of_getElem? hindex, instructionsFrom,
      Opcode.ofCode?_code, hpool, hentry, ih, ok_bind, pure_eq_ok]

/-- **The sweep finds the instructions that fill the code**, and fails if there are none. -/
theorem instructions_eq_ok_iff : code.instructions = .ok is ↔ code.Fills 0 is :=
  ⟨fun h => fills_of_instructionsFrom List.drop_zero (Nat.zero_le _) h,
    fun h => instructionsFrom_of_fills h⟩

theorem listing_eq_ok_iff {text : String} :
    code.listing = .ok text ↔ ∃ is, code.instructions = .ok is ∧
      text = Text.unlines ("CODE" :: is.map Instruction.text ++ "" :: code.poolLines) := by
  rcases h : code.instructions with e | is
  · simp [listing, listingLines, h, Except.map]
  · simp [listing, listingLines, h, Except.map, eq_comm]

/-! ## One instruction -/

/-- What the slots say about an instruction. -/
structure Holds (code : Code) (i : Instruction) : Prop where
  /-- The opcode is at the address. -/
  opcode : code.slots[i.address]? = some i.op.code
  /-- The operand and its literal follow, if the opcode takes one. -/
  operand : match i.op.operand with
    | none => i.operand = none
    | some pool => ∃ index literal, i.operand = some (index, literal) ∧
        code.slots[i.address + 1]? = some index ∧ code.entry pool index = .ok literal

theorem Fills.holds (h : code.Fills a is) : ∀ i ∈ is, code.Holds i := by
  induction h with
  | done => simp
  | bare hslot hpool _ ih =>
    intro i hi
    rcases List.mem_cons.mp hi with rfl | hi
    · exact ⟨hslot, by simp [hpool]⟩
    · exact ih i hi
  | pooled hslot hpool hindex hentry _ ih =>
    intro i hi
    rcases List.mem_cons.mp hi with rfl | hi
    · exact ⟨hslot, by rw [hpool]; exact ⟨_, _, rfl, hindex, hentry⟩⟩
    · exact ih i hi

/-- The slots fix the instruction at an address. -/
theorem Holds.unique {i j : Instruction} (hi : code.Holds i) (hj : code.Holds j)
    (h : i.address = j.address) : i = j := by
  obtain ⟨address, op, operand⟩ := i
  obtain ⟨address', op', operand'⟩ := j
  obtain rfl : address = address' := h
  have hcode : op.code = op'.code := Option.some.inj (hi.opcode.symm.trans hj.opcode)
  obtain rfl : op = op' := Opcode.code_injective hcode
  have hoperand : operand = operand' := by
    have h₁ := hi.operand
    have h₂ := hj.operand
    rcases hpool : op.operand with _ | pool
    · simp only [hpool] at h₁ h₂
      exact h₁.trans h₂.symm
    · simp only [hpool] at h₁ h₂
      obtain ⟨index, literal, rfl, hindex, hentry⟩ := h₁
      obtain ⟨index', literal', rfl, hindex', hentry'⟩ := h₂
      obtain rfl : index = index' := Option.some.inj (hindex.symm.trans hindex')
      obtain rfl : literal = literal' := Except.ok.inj (hentry.symm.trans hentry')
      rfl
  rw [hoperand]

/-! ## One instruction after another -/

/-- An address where a run may be: the end of the code, or where an instruction starts. -/
def Boundary (code : Code) (is : List Instruction) (a : Nat) : Prop :=
  a = code.length ∨ ∃ i ∈ is, i.address = a

theorem Boundary.cons {i : Instruction} (h : code.Boundary is a) : code.Boundary (i :: is) a :=
  h.imp_right fun ⟨j, hj, ha⟩ => ⟨j, List.mem_cons_of_mem i hj, ha⟩

theorem Fills.head (h : code.Fills a is) : code.Boundary is a := by
  cases h with
  | done => exact .inl rfl
  | bare | pooled => exact .inr ⟨_, List.mem_cons_self, rfl⟩

/-- **After an instruction comes another, or the end of the code.** -/
theorem Fills.next (h : code.Fills a is) :
    ∀ i ∈ is, code.Boundary is (i.address + i.op.width) := by
  induction h with
  | done => simp
  | bare _ hpool hrest ih =>
    intro i hi
    rcases List.mem_cons.mp hi with rfl | hi
    · simpa [Opcode.width, hpool] using hrest.head.cons
    · exact (ih i hi).cons
  | pooled _ hpool _ _ hrest ih =>
    intro i hi
    rcases List.mem_cons.mp hi with rfl | hi
    · simpa [Opcode.width, hpool] using hrest.head.cons
    · exact (ih i hi).cons

/-- The widths of the instructions add up to the length of the code. -/
theorem Fills.length_eq (h : code.Fills a is) :
    code.length = a + (is.map (·.op.width)).sum := by
  induction h with
  | done => rfl
  | bare _ hpool _ ih => simp [ih, Opcode.width, hpool, Nat.add_assoc]
  | pooled _ hpool _ _ _ ih => simp [ih, Opcode.width, hpool, Nat.add_assoc]

end Code

end PoolMachine
