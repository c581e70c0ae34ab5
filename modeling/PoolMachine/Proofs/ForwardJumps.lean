import Mathlib.Algebra.Order.BigOperators.Group.List
import Mathlib.Algebra.Order.Group.Nat
import PoolMachine.Proofs.Effects
import PoolMachine.Proofs.Jumps
import PoolMachine.Proofs.Origin
import PoolMachine.Proofs.Turns

/-!
# Jumps of assembled code

**Theorem (`Program.jumps_of_assemble`).** No run of an assembled function fails because the target
of a jump is negative, and every forward jump whose operand has a literal leads to a later address.

* *Literals* (`Program.unsigned_of_assemble`). A numeral has no sign and fits into a word, so no
  integer of an assembled code is negative, and every target is computed from one of them.
* *Addresses* (`Program.length_le_of_assemble`). A code has no more slots than its text has
  characters. So the address after an instruction is a word, and the sum that a forward jump takes
  of it does not wrap.

Both are facts about the code alone. What they say about a jump (`Code.Unsigned.jumpTo_operand`)
does not depend on the stack, the store, the limits or the sink.
-/

namespace PoolMachine

/-! ## The size of code -/

namespace Text

theorem flatten_pieces (sep : Char → Bool) (cs : List Char) :
    (pieces sep cs).flatten = cs.filter (!sep ·) := by
  induction cs with
  | nil => rfl
  | cons c cs ih =>
    by_cases hc : sep c = true
    · rw [pieces_cons_of_sep hc, List.filter_cons_of_neg (by simp [hc])]
      exact ih
    · have hfalse : sep c = false := Bool.not_eq_true _ ▸ hc
      obtain ⟨p, ps, hp⟩ := List.exists_cons_of_ne_nil (pieces_ne_nil sep cs)
      rw [pieces_cons_of_not_sep hfalse, List.filter_cons_of_pos (by simp [hfalse]), ← ih, hp]
      rfl

theorem length_flatten_pieces_le (sep : Char → Bool) (cs : List Char) :
    (pieces sep cs).flatten.length ≤ cs.length := by
  rw [flatten_pieces]
  exact List.length_filter_le _ _

theorem length_words_le (cs : List Char) : (words cs).length ≤ cs.length := by
  have hone : ∀ n ∈ (words cs).map List.length, 1 ≤ n := by
    intro n hn
    obtain ⟨w, hw, rfl⟩ := List.mem_map.mp hn
    exact List.length_pos_iff.mpr (by simpa using (List.mem_filter.mp hw).2)
  calc (words cs).length
      = ((words cs).map List.length).length := (List.length_map _).symm
    _ ≤ ((words cs).map List.length).sum := List.length_le_sum_of_one_le _ hone
    _ = (words cs).flatten.length := List.length_flatten.symm
    _ = (pieces isBlank cs).flatten.length := by rw [words, List.flatten_filter_not_isEmpty]
    _ ≤ cs.length := length_flatten_pieces_le isBlank cs

end Text

theorem Token.length_scan_le (text : String) : (scan text).length ≤ text.length := by
  have hline (line : List Char) (n : Nat) : (ofLine line n).length ≤ line.length := by
    unfold ofLine
    split
    · exact Nat.zero_le _
    · rw [List.length_map]
      exact Text.length_words_le line
  calc (scan text).length
      = (((Text.lines text.toList).zipIdx 1).map fun l => (ofLine l.1 l.2).length).sum :=
        List.length_flatMap
    _ ≤ (((Text.lines text.toList).zipIdx 1).map fun l => l.1.length).sum :=
        List.sum_le_sum fun l _ => hline l.1 l.2
    _ = (Text.lines text.toList).flatten.length := by
        rw [List.length_flatten]
        conv_rhs => rw [← List.zipIdx_map_fst 1 (Text.lines text.toList), List.map_map]
        rfl
    _ ≤ text.toList.length := Text.length_flatten_pieces_le _ _
    _ = text.length := String.length_toList

theorem Program.length_le_of_assemble {text name : String} {p : Program} {code : Code}
    (hp : assemble text = .ok p) (hcode : p.get? name = some code) : code.length ≤ text.length := by
  obtain ⟨body, items, hitems, rfl, hsub⟩ := exists_items hp hcode
  calc (Code.ofItems items).length
      = body.length := by
        rw [Code.length_ofItems]
        simpa using (congrArg List.length hitems).symm
    _ ≤ (Token.scan text).length := hsub.length_le
    _ ≤ text.length := Token.length_scan_le text

/-! ## Literals without a sign -/

/-- No integer literal of the code is negative. -/
def Code.Unsigned (code : Code) : Prop := ∀ n ∈ code.integers.toList, 0 ≤ n.toInt

/-- A numeral has no sign, and the number that it writes is a word. -/
theorem Item.nonneg_of_integer {t : Token} {n : Word} (h : ofToken t = .ok (.integer n)) :
    0 ≤ n.toInt := by
  rcases ofToken_cases h with
    ⟨_, _, hn⟩ | ⟨k, -, hk, hn⟩ | ⟨-, ⟨_, hn⟩ | ⟨_, hn⟩ | hn⟩ <;> cases hn
  rw [Int64.toInt_ofNat_of_lt (Nat.lt_succ_of_le hk)]
  exact Int.natCast_nonneg k

theorem Program.unsigned_of_assemble {text name : String} {p : Program} {code : Code}
    (hp : assemble text = .ok p) (hcode : p.get? name = some code) : code.Unsigned := by
  intro n hn
  obtain ⟨t, -, ht⟩ := exists_token_of_literal (k := .integer) (v := .integer n) hp hcode
    (List.mem_map_of_mem hn)
  exact Item.nonneg_of_integer ht

/-! ## Jumps -/

theorem jumpTo_of_nonneg {target : Word} (h : 0 ≤ target.toInt) :
    jumpTo target = .ok target.toInt.toNat := by
  rw [jumpTo_eq_goTo, goTo, if_neg (Int.not_lt.mpr h)]

namespace Code.Unsigned

variable {code : Code} {op : Opcode} {address : Nat} {n : Word}

/-- **A literal that is not negative leads to an address**, and to a later one if it is a
distance. -/
theorem jumpTo_operand (h : code.Unsigned) (hlength : code.length < 2 ^ 63)
    (hn : code.integerOperand op address = .ok n) :
    (∃ pc, jumpTo n = .ok pc) ∧
      ∃ pc, jumpTo (forwardTarget address n) = .ok pc ∧ address < pc := by
  obtain ⟨index, hslot, hinteger⟩ := literalOperand_eq_ok_iff.mp hn
  have hnonneg : 0 ≤ n.toInt := h n (Array.mem_toList_iff.mpr (Array.mem_of_getElem? hinteger))
  have hnext : address + 1 < 2 ^ 63 :=
    Nat.lt_trans (Array.getElem?_eq_some_iff.mp hslot).1 hlength
  have hforward : (address : Int) < (forwardTarget address n).toInt := by
    rw [toInt_forwardTarget hnext, exactTarget]
    omega
  refine ⟨⟨_, jumpTo_of_nonneg hnonneg⟩, _, jumpTo_of_nonneg (by omega), ?_⟩
  omega

theorem perform_ne_jumpOutOfRange (h : code.Unsigned) (hlength : code.length < 2 ^ 63)
    (op : Opcode) (limit : Option Nat) (s : State) :
    FaultsIn (fun f => ∀ t, f ≠ .jumpOutOfRange t) (op.perform code limit s) := by
  refine Opcode.faultsIn_perform nofun (FaultsIn.of_push (fun _ => nofun) limit) (fun _ => nofun)
    nofun (fun _ => nofun) nofun (fun _ _ => .of_defect (fun _ => nofun) _)
    fun n hn => ?_
  obtain ⟨⟨pc, hpc⟩, pc', hpc', -⟩ := h.jumpTo_operand hlength hn
  rw [hpc, hpc']
  exact ⟨.ok pc, .ok pc'⟩

end Code.Unsigned

namespace Machine

variable {σ : Type} [Sink σ] {code : Code} {limits : Limits} {m : Machine σ}

theorem carries_jumpForward (h : code.Unsigned) (hlength : code.length < 2 ^ 63)
    (hfetches : m.Fetches code limits)
    (hop : code.slots[m.state.pc]? = some Opcode.jumpForward.code) {n : Word}
    (hn : code.integerOperand .jumpForward m.state.pc = .ok n) :
    ∃ m', m.Carries code limits m' ∧ m.state.pc < m'.state.pc := by
  obtain ⟨-, pc, hpc, hlt⟩ := h.jumpTo_operand hlength hn
  refine ⟨⟨{ m.state with pc }, m.steps + 1, m.sink⟩, ⟨hfetches, _, hop, ?_⟩, hlt⟩
  have hperform : Opcode.jumpForward.perform code limits.depth m.state =
      .ok ⟨{ m.state with pc }, ""⟩ := by
    simp only [Opcode.perform, hn, hpc, ok_bind, pure_eq_ok]
  exact dispatch_eq_running_iff.mpr ⟨_, m.sink, hperform, rfl, rfl⟩

end Machine

/-- **Assembled code jumps to addresses, and forward where it says so.** The size of the text keeps
all addresses of its code within a word. -/
theorem Program.jumps_of_assemble {σ ω : Type} [Sink σ] {text name : String} {p : Program}
    {code : Code} (hsize : text.length < 2 ^ 63) (hp : assemble text = .ok p)
    (hcode : p.get? name = some code) (limits : Limits) (sink : σ) (observe : ω → Event → ω)
    (w : ω) (fuel : Nat) :
    -- No run fails because of the target of a jump.
    (∀ address target sink' w', (Machine.start sink).advance code limits observe fuel w ≠
      (.fail address (.jumpOutOfRange target) sink', w')) ∧
    -- Wherever a run has come to a forward jump, it goes on behind it.
    ∀ m w', (Machine.start sink).advance code limits observe fuel w = (.running m, w') →
      m.Fetches code limits → code.slots[m.state.pc]? = some Opcode.jumpForward.code →
      ∀ n, code.integerOperand .jumpForward m.state.pc = .ok n →
        ∃ m', m.Carries code limits m' ∧ m.state.pc < m'.state.pc := by
  have hunsigned := unsigned_of_assemble hp hcode
  have hlength : code.length < 2 ^ 63 := Nat.lt_of_le_of_lt (length_le_of_assemble hp hcode) hsize
  constructor
  · intro address target sink' w' hfail
    obtain ⟨es, hturns, -⟩ := Machine.exists_turns_of_advance code limits hfail
    obtain ⟨j, es₁, m, es₂, -, -, hturn, -⟩ := Machine.exists_final_turn hturns
    obtain ⟨-, ⟨_, hf⟩ | ⟨_, hf⟩ | ⟨_, -, -, hf⟩ | ⟨op, -, -, hperform, -⟩⟩ :=
      Machine.turn_eq_fail hturn
    · cases hf
    · cases hf
    · cases hf
    · exact hunsigned.perform_ne_jumpOutOfRange hlength op _ _ _ hperform target rfl
  · rintro m w' - hfetches hop n hn
    exact Machine.carries_jumpForward hunsigned hlength hfetches hop hn

/-- Jumps forward by the largest word. -/
def Code.leap : Code where
  slots := #[Opcode.jumpForward.code, 0]
  integers := #[9223372036854775807]
  strings := #[]
  booleans := #[]

/-- The exact target is no word, and still the jump leads forward. -/
theorem Program.jumps_of_leap :
    ∃ (text : String) (p : Program), text.length < 2 ^ 63 ∧ assemble text = .ok p ∧
      p.get? "main" = some Code.leap ∧ (Machine.start "").Fetches Code.leap {} ∧
      Code.leap.integerOperand .jumpForward 0 = .ok 9223372036854775807 ∧
      ∃ m', (Machine.start "").Carries Code.leap {} m' ∧ 0 < m'.state.pc := by
  have hsize : "DEF main JUMP_FORWARD 9223372036854775807 ENDDEF".length < 2 ^ 63 := by decide
  have hp : assemble "DEF main JUMP_FORWARD 9223372036854775807 ENDDEF" =
      .ok (.ofList [("main", Code.leap)]) := rfl
  have hcode : NameMap.get? (.ofList [("main", Code.leap)]) "main" = some Code.leap := rfl
  have hfetches : (Machine.start "").Fetches Code.leap {} := ⟨by decide, rfl⟩
  have hjump := (jumps_of_assemble hsize hp hcode {} "" (fun w _ => w) () 0).2
    (.start "") () rfl hfetches rfl 9223372036854775807 rfl
  exact ⟨_, _, hsize, hp, hcode, hfetches, rfl, hjump⟩

end PoolMachine
