import PoolMachine.Proofs.Grammar

/-!
# One text behind another

**Theorem (`Program.assemble_joined`).** A text that assembles leaves nothing behind but its
functions. A text on the lines after it assembles as it does alone: its functions replace those of
the same names, and a fault in it is reported on a line that is later by the number of lines in
front. A text with a fault at a token of its own has that fault whatever comes after it.

**Lines** (`Token.scan_joined`). A line feed between two texts divides their lines, so the tokens
are those of both, with new line numbers for the second.

**Line numbers** (`Assembly.build_renumber`). The sweep copies line numbers into its errors and does
not look at them. So it commutes with any renumbering of lines, not only with a shift.

**Sweeps.** What a sweep finds in passages does not depend on what follows (`Grammar.build_join`),
and neither does the error of a flaw that has a token (`Grammar.build_join_flaw`).
-/

namespace PoolMachine

/-! ## Lines of joined texts -/

theorem Text.length_pieces (sep : Char → Bool) (cs : List Char) :
    (pieces sep cs).length = 1 + cs.countP sep := by
  induction cs with
  | nil => rfl
  | cons c cs ih =>
    by_cases hc : sep c = true
    · rw [pieces_cons_of_sep hc, List.length_cons, ih, List.countP_cons_of_pos hc]
      omega
    · have hpos : 0 < (pieces sep cs).length := List.length_pos_iff.mpr (pieces_ne_nil sep cs)
      have hfalse : sep c = false := Bool.not_eq_true _ ▸ hc
      rw [pieces_cons_of_not_sep hfalse, List.length_cons, List.length_tail,
        List.countP_cons_of_neg hc]
      omega

namespace Token

/-- The same word on another line. -/
def renumber (f : Nat → Nat) (t : Token) : Token := { t with line := f t.line }

@[simp] theorem text_renumber (f : Nat → Nat) (t : Token) : (t.renumber f).text = t.text := rfl

theorem ofLine_renumber (f : Nat → Nat) (line : List Char) (n : Nat) :
    ofLine line (f n) = (ofLine line n).map (renumber f) := by
  unfold ofLine
  by_cases hcomment : isComment line = true
  · rw [if_pos hcomment, if_pos hcomment]
    rfl
  · rw [if_neg hcomment, if_neg hcomment, List.map_map]
    rfl

theorem flatMap_ofLine_add (ls : List (List Char)) (n k : Nat) :
    (ls.zipIdx (n + k)).flatMap (fun l => ofLine l.1 l.2) =
      ((ls.zipIdx n).flatMap fun l => ofLine l.1 l.2).map (renumber (· + k)) := by
  induction ls generalizing n with
  | nil => rfl
  | cons l ls ih =>
    simp only [List.zipIdx_cons, List.flatMap_cons, List.map_append]
    rw [ofLine_renumber (· + k) l n, Nat.add_right_comm, ih]

/-- **The tokens of joined texts** are those of both, the second on later lines. -/
theorem scan_joined (s t : String) :
    scan (s ++ "\n" ++ t) =
      scan s ++ (scan t).map (renumber (· + (1 + s.toList.count '\n'))) := by
  have htext : (s ++ "\n" ++ t).toList = s.toList ++ '\n' :: t.toList := by simp
  have hlength : (Text.lines s.toList).length = 1 + s.toList.count '\n' := Text.length_pieces _ _
  rw [scan, htext, Text.lines_append_cons, List.zipIdx_append, List.flatMap_append, hlength,
    flatMap_ofLine_add]
  rfl

end Token

/-! ## Sweeping over renumbered lines -/

/-- The same error on another line. -/
def AssemblyError.renumber (f : Nat → Nat) (e : AssemblyError) : AssemblyError :=
  { e with line := f e.line }

theorem Item.ofToken_renumber (f : Nat → Nat) (t : Token) :
    ofToken (t.renumber f) = (ofToken t).mapError (AssemblyError.renumber f) := by
  obtain ⟨text, line⟩ := t
  show ofToken ⟨text, f line⟩ = _
  rcases hop : Opcode.ofMnemonic? text with _ | op
  · rcases hnumeral : Text.numeral? text.toList with _ | n
    · simp only [ofToken, hop, hnumeral]
      by_cases htrue : text = "True"
      · simp only [if_pos htrue, mapError_ok]
      · by_cases hfalse : text = "False"
        · simp only [if_neg htrue, if_pos hfalse, mapError_ok]
        · simp only [if_neg htrue, if_neg hfalse, mapError_ok]
    · simp only [ofToken, hop, hnumeral]
      by_cases hsmall : n ≤ largestNumeral
      · simp only [if_pos hsmall, mapError_ok]
      · simp only [if_neg hsmall, mapError_error]
        rfl
  · simp only [ofToken, hop, mapError_ok]

namespace Assembly

/-- The same place in renumbered lines. -/
def Place.renumber (f : Nat → Nat) : Place → Place
  | outside => outside
  | heading line => heading (f line)
  | body line name code => body (f line) name code

/-- The same assembly with its error on another line. -/
def renumber (f : Nat → Nat) (a : Assembly) : Assembly :=
  { a with error := a.error.map (AssemblyError.renumber f) }

/-- **The sweep does not look at line numbers.** -/
theorem build_renumber (f : Nat → Nat) (place : Place) (ts : List Token) :
    build (place.renumber f) (ts.map (Token.renumber f)) = (build place ts).renumber f := by
  induction ts generalizing place with
  | nil => cases place <;> rfl
  | cons t ts ih =>
    rw [List.map_cons]
    cases place with
    | outside =>
      show build .outside (t.renumber f :: ts.map (Token.renumber f)) = _
      rw [build, build, Token.text_renumber]
      by_cases hdef : t.text = "DEF"
      · rw [if_pos hdef, if_pos hdef]
        exact ih (.heading t.line)
      · rw [if_neg hdef, if_neg hdef]
        exact ih .outside
    | heading line =>
      show build (.heading (f line)) (t.renumber f :: ts.map (Token.renumber f)) = _
      rw [build, build, Token.text_renumber]
      exact ih (.body line t.text {})
    | body line name code =>
      show build (.body (f line) name code) (t.renumber f :: ts.map (Token.renumber f)) = _
      rw [build, build, Token.text_renumber]
      by_cases hend : t.text = "ENDDEF"
      · rw [if_pos hend, if_pos hend]
        exact congrArg (cons name code) (ih .outside)
      · rw [if_neg hend, if_neg hend]
        by_cases hdef : t.text = "DEF"
        · rw [if_pos hdef, if_pos hdef]
          rfl
        · rw [if_neg hdef, if_neg hdef, Item.ofToken_renumber]
          rcases Item.ofToken t with e | item
          · rfl
          · exact ih (.body line name (code.emit item))

end Assembly

/-! ## Assembling joined texts -/

namespace Program

open Assembly Grammar

variable {s t : String} {p q : Program} {e : AssemblyError}

theorem assemble_eq_ok_iff :
    assemble t = .ok q ↔ (ofText t).error = none ∧ NameMap.ofList (ofText t).functions = q := by
  rw [assemble, program]
  rcases (ofText t).error with _ | e <;> simp

theorem assemble_eq_error_iff : assemble t = .error e ↔ (ofText t).error = some e := by
  rw [assemble, program]
  rcases (ofText t).error with _ | e' <;> simp

/-- **What a sweep finds behind a text that assembles.** -/
theorem ofText_joined (hs : assemble s = .ok p) (t : String) :
    ofText (s ++ "\n" ++ t) =
      ⟨(ofText s).functions ++ (ofText t).functions,
        (ofText t).error.map (.renumber (· + (1 + s.toList.count '\n')))⟩ := by
  obtain ⟨ps, hps, -⟩ := exists_passages hs
  have hfront := build_join ps []
  have hbehind := build_renumber (· + (1 + s.toList.count '\n')) .outside (Token.scan t)
  rw [List.append_nil] at hfront
  rw [Place.renumber] at hbehind
  rw [ofText, ofText, ofText, Token.scan_joined, ← hps, build_join, hbehind, hfront]
  simp [build, Assembly.renumber]

/-- **Behind a text that assembles, a text assembles as it does alone.** -/
theorem assemble_joined (s t : String) :
    (∀ p, assemble s = .ok p →
      -- A function of the second text replaces one of the first.
      (∀ q, assemble t = .ok q → ∃ r, assemble (s ++ "\n" ++ t) = .ok r ∧
        ∀ name, r.get? name = (q.get? name).or (p.get? name)) ∧
      -- A fault of the second text stays, and is as many lines further down as the first has.
      ∀ e, assemble t = .error e → assemble (s ++ "\n" ++ t) =
        .error { e with line := e.line + (1 + s.toList.count '\n') }) ∧
    -- A fault at a token of the first text stays as it is.
    ∀ e, assemble s = .error e →
      (∃ name, e.fault = .nested name) ∨ (∃ numeral, e.fault = .integerOutOfRange numeral) →
      assemble (s ++ "\n" ++ t) = .error e := by
  refine ⟨fun p hs => ⟨fun q ht => ?_, fun e ht => ?_⟩, fun e hs htoken => ?_⟩
  · have hjoined := ofText_joined hs t
    obtain ⟨-, hp⟩ := assemble_eq_ok_iff.mp hs
    obtain ⟨hnone, hq⟩ := assemble_eq_ok_iff.mp ht
    rw [hnone] at hjoined
    refine ⟨_, assemble_eq_ok_iff.mpr ⟨by rw [hjoined]; rfl, rfl⟩, fun name => ?_⟩
    rw [hjoined, ← hp, ← hq, NameMap.get?_ofList, NameMap.get?_ofList, NameMap.get?_ofList,
      List.reverse_append, List.lookup_append]
  · have hsome := assemble_eq_error_iff.mp ht
    rw [assemble_eq_error_iff, ofText_joined hs t, hsome]
    rfl
  · obtain ⟨ps, f, us, hus, hhead, hf⟩ := exists_flaw hs
    have hat : ∃ u, f.token? = some u := by
      cases f with
      | nameless | unended =>
        subst hf
        rcases htoken with ⟨_, h⟩ | ⟨_, h⟩ <;> cases h
      | nested o u | overflow o u => exact ⟨u, rfl⟩
    obtain ⟨u, hu⟩ := hat
    obtain ⟨vs, rfl⟩ := List.head?_eq_some_iff.mp (hhead.trans hu)
    rw [assemble, ofText, Token.scan_joined, ← hus, List.append_assoc, ← hf]
    exact program_join_flaw ps f hu.symm

/-- A comment ends with its line, and so hides nothing of the text behind it: neither a fault, nor
a function that replaces one of the first text. -/
theorem assemble_joined_comment :
    (assemble "\nDEF g" = .error ⟨2, .unterminated "g"⟩ ∧
      assemble ("DEF f ADD ENDDEF\r\n# DEF" ++ "\n" ++ "\nDEF g") =
        .error ⟨4, .unterminated "g"⟩) ∧
    ∃ p q r, assemble "DEF f ADD ENDDEF\r\n# DEF" = .ok p ∧ assemble "DEF f MOD ENDDEF" = .ok q ∧
      assemble ("DEF f ADD ENDDEF\r\n# DEF" ++ "\n" ++ "DEF f MOD ENDDEF") = .ok r ∧
      p.get? "f" = some { slots := #[(Opcode.operate .add).code] } ∧
      q.get? "f" = some { slots := #[(Opcode.operate .mod).code] } ∧
      r.get? "f" = some { slots := #[(Opcode.operate .mod).code] } := by
  have hfault : assemble "\nDEF g" = .error ⟨2, .unterminated "g"⟩ := rfl
  obtain ⟨p, hp, hpf⟩ : ∃ p, assemble "DEF f ADD ENDDEF\r\n# DEF" = .ok p ∧
      p.get? "f" = some { slots := #[(Opcode.operate .add).code] } := ⟨_, rfl, rfl⟩
  obtain ⟨q, hq, hqf⟩ : ∃ q, assemble "DEF f MOD ENDDEF" = .ok q ∧
      q.get? "f" = some { slots := #[(Opcode.operate .mod).code] } := ⟨_, rfl, rfl⟩
  obtain ⟨r, hr, hget⟩ := ((assemble_joined _ _).1 p hp).1 q hq
  refine ⟨⟨hfault, ((assemble_joined _ _).1 p hp).2 _ hfault⟩, p, q, r, hp, hq, hr, hpf, hqf, ?_⟩
  rw [hget, hqf, Option.some_or]

end Program

end PoolMachine
