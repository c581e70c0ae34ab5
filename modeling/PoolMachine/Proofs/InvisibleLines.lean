import PoolMachine.Proofs.JoinedText

/-!
# Comment lines and blank lines

**Theorem (`Program.assemble_insert_line`).** A line that is blank or a comment can be inserted
between any two lines of a text, wherever the sweep over the text stands there. The text assembles
to the same program, or has the same fault; the fault is reported one line further down if it lies
below the new line, and where it was if it lies above.

An inserted line has no tokens (`Token.ofLine_of_invisible`), so all that changes are the numbers of
the lines below it (`Token.scan_insert_line`). The sweep does not look at line numbers
(`Assembly.build_renumber`). This covers a definition that starts above the line and has no end
below it, which is reported on the line where it starts.
-/

namespace PoolMachine

/-! ## Trimmed lines -/

namespace Text

/-- A line without the white space at its ends. -/
def trim (cs : List Char) : List Char :=
  ((cs.dropWhile isBlank).reverse.dropWhile isBlank).reverse

/-- A blank line, or a comment. -/
def Invisible (cs : List Char) : Prop := trim cs = [] ∨ (trim cs).head? = some '#'

theorem head?_trim (cs : List Char) : (trim cs).head? = (cs.dropWhile isBlank).head? := by
  rcases hds : cs.dropWhile isBlank with _ | ⟨d, ds⟩
  · simp [trim, hds]
  · have hd : isBlank d = false := by
      have hnot := List.head?_dropWhile_not isBlank cs
      rw [hds] at hnot
      simpa using hnot
    rw [trim, hds, List.reverse_cons, List.dropWhile_append]
    split <;> simp [hd]

theorem words_dropWhile (cs : List Char) : words (cs.dropWhile isBlank) = words cs := by
  induction cs with
  | nil => rfl
  | cons c cs ih =>
    by_cases hc : isBlank c = true
    · rw [List.dropWhile_cons_of_pos hc, ih, words, words, pieces_cons_of_sep hc]
      rfl
    · rw [List.dropWhile_cons_of_neg hc]

theorem words_of_trim_eq_nil {cs : List Char} (h : trim cs = []) : words cs = [] := by
  have hdrop : cs.dropWhile isBlank = [] := by
    rw [← List.head?_eq_none_iff, ← head?_trim, h]
    rfl
  rw [← words_dropWhile, hdrop]
  rfl

end Text

namespace Token

variable {a b c : String} {t : Token}

/-! ## Tokens around an inserted line -/

theorem ofLine_of_invisible {line : List Char} (h : Text.Invisible line) (n : Nat) :
    ofLine line n = [] := by
  unfold ofLine
  by_cases hcomment : isComment line = true
  · rw [if_pos hcomment]
  · rw [if_neg hcomment]
    rcases h with hblank | hhead
    · rw [Text.words_of_trim_eq_nil hblank]
      rfl
    · rw [Text.head?_trim] at hhead
      exact absurd (beq_iff_eq.mpr hhead) hcomment

theorem scan_of_invisible (hline : '\n' ∉ c.toList) (h : Text.Invisible c.toList) :
    scan c = [] := by
  have hlines : Text.lines c.toList = [c.toList] :=
    Text.pieces_of_forall_not fun x hx => beq_false_of_ne fun heq => hline (heq ▸ hx)
  rw [scan, hlines, List.zipIdx_singleton, List.flatMap_singleton, ofLine_of_invisible h]

theorem line_of_mem_scan (h : t ∈ scan a) : 1 ≤ t.line ∧ t.line ≤ 1 + a.toList.count '\n' := by
  have hlength : (Text.lines a.toList).length = 1 + a.toList.count '\n' := Text.length_pieces _ _
  obtain ⟨⟨line, n⟩, hn, ht⟩ := List.mem_flatMap.mp h
  obtain ⟨hge, hlt, -⟩ := List.mem_zipIdx hn
  have hline : t.line = n := by
    unfold ofLine at ht
    split at ht
    · exact absurd ht List.not_mem_nil
    · obtain ⟨w, -, rfl⟩ := List.mem_map.mp ht
      rfl
  omega

/-- The number of a line after one more line is inserted behind the first `k`. -/
def inserted (k n : Nat) : Nat := if k < n then n + 1 else n

/-- **An inserted line moves the tokens below it, and adds none.** -/
theorem scan_insert_line (a b : String) (hline : '\n' ∉ c.toList) (h : Text.Invisible c.toList) :
    scan (a ++ "\n" ++ c ++ "\n" ++ b) =
      (scan (a ++ "\n" ++ b)).map (renumber (inserted (1 + a.toList.count '\n'))) := by
  have hassoc : a ++ "\n" ++ c ++ "\n" ++ b = a ++ "\n" ++ (c ++ "\n" ++ b) := by
    simp only [String.append_assoc]
  have hcount : c.toList.count '\n' = 0 := List.count_eq_zero.mpr hline
  have habove : (scan a).map (renumber (inserted (1 + a.toList.count '\n'))) = scan a := by
    refine (List.map_congr_left fun t ht => ?_).trans (List.map_id' _)
    rw [renumber, inserted, if_neg (Nat.not_lt.mpr (line_of_mem_scan ht).2)]
  rw [hassoc, scan_joined, scan_joined, scan_joined, scan_of_invisible hline h, hcount,
    List.nil_append, List.map_append, habove, List.map_map, List.map_map]
  refine congrArg _ (List.map_congr_left fun t ht => ?_)
  have hbelow : t.line + (1 + 0) + (1 + a.toList.count '\n') =
      inserted (1 + a.toList.count '\n') (t.line + (1 + a.toList.count '\n')) := by
    have hone := (line_of_mem_scan ht).1
    rw [inserted, if_pos (by omega)]
    omega
  exact congrArg (Token.mk t.text) hbelow

end Token

/-! ## Programs -/

namespace Program

open Assembly

/-- **A blank line or a comment changes nothing** but the lines of the faults below it. -/
theorem assemble_insert_line (a b c : String) (hline : '\n' ∉ c.toList)
    (h : Text.trim c.toList = [] ∨ (Text.trim c.toList).head? = some '#') :
    -- The same text assembles to the same program.
    (∀ p, assemble (a ++ "\n" ++ c ++ "\n" ++ b) = .ok p ↔ assemble (a ++ "\n" ++ b) = .ok p) ∧
    -- The same faults are found, and those below the inserted line are one line further down.
    ∀ line fault, assemble (a ++ "\n" ++ b) = .error ⟨line, fault⟩ →
      assemble (a ++ "\n" ++ c ++ "\n" ++ b) = .error
        ⟨if 1 + a.toList.count '\n' < line then line + 1 else line, fault⟩ := by
  have hsweep : ofText (a ++ "\n" ++ c ++ "\n" ++ b) =
      (ofText (a ++ "\n" ++ b)).renumber (Token.inserted (1 + a.toList.count '\n')) := by
    rw [ofText, ofText, Token.scan_insert_line a b hline h, ← build_renumber, Place.renumber]
  constructor
  · intro p
    simp only [assemble_eq_ok_iff, hsweep, Assembly.renumber, Option.map_eq_none_iff]
  · intro line fault herror
    rw [assemble_eq_error_iff] at herror ⊢
    rw [hsweep, Assembly.renumber, herror]
    rfl

/-- A comment between an opcode and its operand, and between two functions of one name, with white
space that is not ASCII before it. -/
theorem assemble_insert_comment :
    ('\n' ∉ "\u3000# 1\r".toList ∧ (Text.trim "\u3000# 1\r".toList).head? = some '#') ∧
    (assemble ("DEF f\nLOAD_CONST" ++ "\n" ++ "9999999999999999999") =
        .error ⟨3, .integerOutOfRange "9999999999999999999"⟩ ∧
      assemble ("DEF f\nLOAD_CONST" ++ "\n" ++ "\u3000# 1\r" ++ "\n" ++ "9999999999999999999") =
        .error ⟨4, .integerOutOfRange "9999999999999999999"⟩) ∧
    ∃ p, assemble ("DEF f ADD ENDDEF" ++ "\n" ++ "DEF f MOD ENDDEF") = .ok p ∧
      assemble ("DEF f ADD ENDDEF" ++ "\n" ++ "\u3000# 1\r" ++ "\n" ++ "DEF f MOD ENDDEF") = .ok p ∧
      p.get? "f" = some { slots := #[(Opcode.operate .mod).code] } := by
  have hline : '\n' ∉ "\u3000# 1\r".toList := by decide
  have hcomment : (Text.trim "\u3000# 1\r".toList).head? = some '#' := rfl
  have hfault : assemble ("DEF f\nLOAD_CONST" ++ "\n" ++ "9999999999999999999") =
      .error ⟨3, .integerOutOfRange "9999999999999999999"⟩ := rfl
  have hcount : "DEF f\nLOAD_CONST".toList.count '\n' = 1 := by decide
  have hinserted := (assemble_insert_line _ _ _ hline (.inr hcomment)).2 _ _ hfault
  rw [hcount] at hinserted
  obtain ⟨p, hp, hf⟩ : ∃ p, assemble ("DEF f ADD ENDDEF" ++ "\n" ++ "DEF f MOD ENDDEF") = .ok p ∧
      p.get? "f" = some { slots := #[(Opcode.operate .mod).code] } := ⟨_, rfl, rfl⟩
  exact ⟨⟨hline, hcomment⟩, ⟨hfault, hinserted⟩, p, hp,
    ((assemble_insert_line _ _ _ hline (.inr hcomment)).1 p).mpr hp, hf⟩

end Program

end PoolMachine
