import PoolMachine.Proofs.Emission
import PoolMachine.Proofs.Layout
import PoolMachine.Proofs.Sweep

/-!
# Listing what has been assembled

**Theorem (`listing_assemble`).** Write a function as assembly text, one statement a line, where
every opcode has a literal of the kind that it takes. The text assembles to that function alone, and
its listing shows the statements again, one line each and in order: a statement stands at the sum of
the widths of those before it, with its own mnemonic and literal, and its index counts the literals
of its kind before it.

A statement is well-kinded by its type (`Statement`). The proof goes through four views of it: its
words, which scanning reads back from the text (`Token.scan_of_layout`); its items, which are what
its words stand for (`map_ofToken_words`); the slots and literals that the items add to the code
(`Code.slot_ofItems`, `Code.entry_ofItems`); and the instruction that the sweep finds in them
(`fills_code`).
-/

namespace PoolMachine

/-! ## Words and what they stand for -/

namespace Text

/-- The number that a run of digits stands for. -/
def decimal (w : String) : Nat := Nat.ofDigitChars 10 w.toList 0

/-- A run of digits whose value is a word of the machine. -/
structure IsNumeral (w : String) : Prop where
  nonempty : w ≠ ""
  digits : w.toList.all Char.isDigit = true
  small : decimal w ≤ 2 ^ 63 - 1

/-- A word that stands for a string. -/
structure IsName (w : String) : Prop where
  word : IsWord w
  not_mnemonic : ∀ op ∈ Opcode.all, op.mnemonic ≠ w
  not_digits : w.toList.all Char.isDigit = false
  not_boolean : w ≠ "True" ∧ w ≠ "False"
  not_bracket : w ≠ "DEF" ∧ w ≠ "ENDDEF"

instance (w : String) : Decidable (IsNumeral w) :=
  decidable_of_iff (w ≠ "" ∧ w.toList.all Char.isDigit = true ∧ decimal w ≤ 2 ^ 63 - 1)
    ⟨fun h => ⟨h.1, h.2.1, h.2.2⟩, fun h => ⟨h.nonempty, h.digits, h.small⟩⟩

instance (w : String) : Decidable (IsName w) :=
  decidable_of_iff (IsWord w ∧ (∀ op ∈ Opcode.all, op.mnemonic ≠ w) ∧
      w.toList.all Char.isDigit = false ∧ (w ≠ "True" ∧ w ≠ "False") ∧ w ≠ "DEF" ∧ w ≠ "ENDDEF")
    ⟨fun h => ⟨h.1, h.2.1, h.2.2.1, h.2.2.2.1, h.2.2.2.2⟩,
      fun h => ⟨h.word, h.not_mnemonic, h.not_digits, h.not_boolean, h.not_bracket⟩⟩

theorem toNat_of_isDigit {c : Char} (h : c.isDigit = true) : 48 ≤ c.toNat ∧ c.toNat ≤ 57 := by
  simpa [Char.isDigit, UInt32.le_iff_toNat_le] using h

theorem isBlank_of_isDigit {c : Char} (h : c.isDigit = true) : isBlank c = false := by
  have hdigit := toNat_of_isDigit h
  have hranges : ∀ r ∈ blankRanges, r.2 < 48 ∨ 57 < r.1 := by decide
  refine List.any_eq_false.mpr fun r hr hc => ?_
  rw [Bool.and_eq_true, decide_eq_true_eq, decide_eq_true_eq] at hc
  have hr := hranges r hr
  omega

theorem IsNumeral.isWord {w : String} (h : IsNumeral w) : IsWord w :=
  ⟨h.nonempty, fun c hc => isBlank_of_isDigit (List.all_eq_true.mp h.digits c hc)⟩

theorem IsNumeral.numeral? {w : String} (h : IsNumeral w) :
    numeral? w.toList = some (decimal w) :=
  numeral?_eq_some_iff.mpr ⟨by simpa using h.nonempty, h.digits, rfl⟩

end Text

theorem Word.text_ofNat {n : Nat} (h : n < 2 ^ 63) : Word.text (Int64.ofNat n) = n.repr := by
  have hn : (Int64.ofNat n).toInt = n := Int64.toInt_ofNat_of_lt h
  have hpos : ¬ Int64.ofNat n < 0 := by
    rw [Int64.lt_iff_toInt_lt, hn]
    exact Int.not_lt.mpr (Int.natCast_nonneg n)
  rw [Word.text, if_neg hpos, hn, Int.natAbs_natCast]

namespace Opcode

theorem mem_all (op : Opcode) : op ∈ all := List.mem_of_getElem? (ofCode?_code op)

/-- What holds of the opcodes in the table holds of all. -/
theorem forall_of_all {P : Opcode → Prop} (h : ∀ op ∈ all, P op) (op : Opcode) : P op :=
  h op op.mem_all

theorem ofMnemonic?_mnemonic : ∀ op : Opcode, ofMnemonic? op.mnemonic = some op :=
  forall_of_all (by decide)

theorem isWord_mnemonic : ∀ op : Opcode, Text.IsWord op.mnemonic :=
  forall_of_all (by decide)

theorem head?_mnemonic : ∀ op : Opcode, op.mnemonic.toList.head? ≠ some '#' :=
  forall_of_all (by decide)

theorem mnemonic_not_digits : ∀ op : Opcode, op.mnemonic.toList.all Char.isDigit = false :=
  forall_of_all (by decide)

theorem mnemonic_not_bracket : ∀ op : Opcode, op.mnemonic ≠ "DEF" ∧ op.mnemonic ≠ "ENDDEF" :=
  forall_of_all (by decide)

theorem ofMnemonic?_eq_none {w : String} (h : ∀ op ∈ all, op.mnemonic ≠ w) :
    ofMnemonic? w = none := by
  simpa [ofMnemonic?] using h

end Opcode

namespace Item

theorem ofToken_mnemonic (op : Opcode) (line : Nat) :
    ofToken ⟨op.mnemonic, line⟩ = .ok (.instruction op) := by
  simp only [ofToken, Opcode.ofMnemonic?_mnemonic]

/-- A numeral stands for its value, if that is a word. -/
theorem ofToken_of_numeral {t : Token} {n : Nat} (hn : Text.numeral? t.text.toList = some n) :
    ofToken t = if n ≤ largestNumeral then .ok (.integer (Int64.ofNat n))
      else .error ⟨t.line, .integerOutOfRange t.text⟩ := by
  have hno : Opcode.ofMnemonic? t.text = none := by
    apply Opcode.ofMnemonic?_eq_none
    intro op _ hop
    have hdigits := op.mnemonic_not_digits
    rw [hop, (Text.numeral?_eq_some_iff.mp hn).2.1] at hdigits
    exact absurd hdigits (by decide)
  simp only [ofToken, hno, hn]

theorem ofToken_numeral {w : String} (h : Text.IsNumeral w) (line : Nat) :
    ofToken ⟨w, line⟩ = .ok (.integer (Int64.ofNat (Text.decimal w))) := by
  have hnumeral : Text.numeral? (Token.mk w line).text.toList = some (Text.decimal w) := h.numeral?
  have hsmall : Text.decimal w ≤ largestNumeral := Nat.le_trans h.small (by decide)
  rw [ofToken_of_numeral hnumeral, if_pos hsmall]

theorem ofToken_name {w : String} (h : Text.IsName w) (line : Nat) :
    ofToken ⟨w, line⟩ = .ok (.string w) := by
  have hno : Text.numeral? w.toList = none := by simp [Text.numeral?, h.not_digits]
  simp only [ofToken, Opcode.ofMnemonic?_eq_none h.not_mnemonic, hno, if_neg h.not_boolean.1,
    if_neg h.not_boolean.2]

end Item

/-! ## Statements -/

/-- A line of a body: an opcode, with a literal of the kind that it takes. -/
inductive Statement
  | bare (op : Opcode) (hop : op.operand = none)
  | numeral (op : Opcode) (hop : op.operand = some .integer) (w : String) (hw : Text.IsNumeral w)
  | name (op : Opcode) (hop : op.operand = some .string) (w : String) (hw : Text.IsName w)

namespace Statement

/-- The opcode of a statement. -/
def op : Statement → Opcode
  | bare op _ | numeral op _ _ _ | name op _ _ _ => op

/-- The text of a statement. -/
def line : Statement → String
  | bare op _ => op.mnemonic
  | numeral op _ w _ | name op _ w _ => op.mnemonic ++ " " ++ w

/-- The words of a statement. -/
def words : Statement → List String
  | bare op _ => [op.mnemonic]
  | numeral op _ w _ | name op _ w _ => [op.mnemonic, w]

/-- The literal of a statement. -/
def literal : Statement → Option Value
  | bare _ _ => none
  | numeral _ _ w _ => some (.integer (Int64.ofNat (Text.decimal w)))
  | name _ _ w _ => some (.string w)

/-- The literal of a statement as a listing shows it: integers by their value. -/
def shown : Statement → Option String
  | bare _ _ => none
  | numeral _ _ w _ => some (Text.decimal w).repr
  | name _ _ w _ => some w

/-- What the words of a statement stand for. -/
def items (s : Statement) : List Item :=
  .instruction s.op :: (s.literal.map Item.ofValue).toList

/-- The lines of the definition of a function. -/
def source (name : String) (ss : List Statement) : List String :=
  ("DEF " ++ name) :: ss.map line ++ ["ENDDEF"]

variable (s : Statement)

theorem operand_op : s.op.operand = s.literal.map Value.kind := by
  cases s with
  | bare op hop | numeral op hop w hw | name op hop w hw => exact hop

theorem length_items : s.items.length = s.op.width := by
  rcases h : s.literal with _ | v <;> simp [items, Opcode.width, operand_op, h]

theorem line_eq : s.line = " ".intercalate s.words := by
  cases s <;> simp [line, words]

theorem isLine_words : Token.IsLine s.words := by
  have hhead : ∀ w ∈ s.words.head?, w.toList.head? ≠ some '#' := by
    cases s with
    | bare op | numeral op | name op =>
      rintro w ⟨⟩
      exact op.head?_mnemonic
  refine ⟨?_, hhead⟩
  cases s with
  | bare op hop => simpa [words] using op.isWord_mnemonic
  | numeral op hop w hw => simpa [words] using ⟨op.isWord_mnemonic, hw.isWord⟩
  | name op hop w hw => simpa [words] using ⟨op.isWord_mnemonic, hw.word⟩

/-- The words of a statement stand for its items. -/
theorem map_ofToken_words (n : Nat) :
    (s.words.map fun w => Item.ofToken ⟨w, n⟩) = s.items.map .ok := by
  cases s with
  | bare op hop => simp [words, items, Statement.op, literal, Item.ofToken_mnemonic]
  | numeral op hop w hw =>
    simp [words, items, Statement.op, literal, Item.ofValue, Item.ofToken_mnemonic,
      Item.ofToken_numeral hw]
  | name op hop w hw =>
    simp [words, items, Statement.op, literal, Item.ofValue, Item.ofToken_mnemonic,
      Item.ofToken_name hw]

theorem words_not_bracket : ∀ w ∈ s.words, w ≠ "DEF" ∧ w ≠ "ENDDEF" := by
  cases s with
  | bare op hop => simpa [words] using op.mnemonic_not_bracket
  | numeral op hop w hw =>
    have hw' : w ≠ "DEF" ∧ w ≠ "ENDDEF" := by
      constructor <;> rintro rfl <;> exact absurd hw.digits (by decide)
    simpa [words] using ⟨op.mnemonic_not_bracket, hw'⟩
  | name op hop w hw => simpa [words] using ⟨op.mnemonic_not_bracket, hw.not_bracket⟩

end Statement

/-! ## Assembling a body -/

/-- Words of a body become the items for which they stand. -/
theorem Assembly.build_body {ts : List Token} {items : List Item}
    (hitems : ts.map Item.ofToken = items.map .ok)
    (hbracket : ∀ t ∈ ts, t.text ≠ "DEF" ∧ t.text ≠ "ENDDEF") (line : Nat) (name : String)
    (code : Code) (rest : List Token) :
    build (.body line name code) (ts ++ rest) =
      build (.body line name (items.foldl Code.emit code)) rest := by
  induction ts generalizing items code with
  | nil =>
    obtain rfl : items = [] := by simpa using hitems.symm
    rfl
  | cons t ts ih =>
    obtain ⟨item, items, rfl⟩ : ∃ item items', items = item :: items' := by
      cases items with
      | nil => simp at hitems
      | cons item items => exact ⟨item, items, rfl⟩
    obtain ⟨hitem, hrest⟩ := List.cons.inj hitems
    obtain ⟨hdef, hend⟩ := hbracket t List.mem_cons_self
    rw [List.cons_append, build, if_neg hend, if_neg hdef, hitem, List.foldl_cons]
    exact ih hrest (fun t ht => hbracket t (List.mem_cons_of_mem _ ht)) (code.emit item)

namespace Statement

/-- The code of a body. -/
def code (ss : List Statement) : Code := Code.ofItems (ss.flatMap items)

/-- The tokens of a body that starts on a line. -/
def tokens (n : Nat) (ss : List Statement) : List Token :=
  ((ss.map words).zipIdx n).flatMap fun l => l.1.map fun w => ⟨w, l.2⟩

theorem tokens_cons (n : Nat) (s : Statement) (ss : List Statement) :
    tokens n (s :: ss) = s.words.map (fun w => ⟨w, n⟩) ++ tokens (n + 1) ss := rfl

theorem map_ofToken_tokens (n : Nat) (ss : List Statement) :
    (tokens n ss).map Item.ofToken = (ss.flatMap items).map .ok := by
  induction ss generalizing n with
  | nil => rfl
  | cons s ss ih =>
    rw [tokens_cons, List.map_append, ih, List.map_map, List.flatMap_cons, List.map_append,
      ← map_ofToken_words s n]
    rfl

theorem tokens_not_bracket (n : Nat) (ss : List Statement) :
    ∀ t ∈ tokens n ss, t.text ≠ "DEF" ∧ t.text ≠ "ENDDEF" := by
  induction ss generalizing n with
  | nil => nofun
  | cons s ss ih =>
    intro t ht
    rw [tokens_cons, List.mem_append] at ht
    rcases ht with ht | ht
    · obtain ⟨w, hw, rfl⟩ := List.mem_map.mp ht
      exact s.words_not_bracket w hw
    · exact ih (n + 1) t ht

/-- The words of the definition of a function, line by line. -/
def sourceWords (name : String) (ss : List Statement) : List (List String) :=
  ["DEF", name] :: ss.map words ++ [["ENDDEF"]]

theorem source_eq (name : String) (ss : List Statement) :
    source name ss = (sourceWords name ss).map (" ".intercalate ·) := by
  simp [source, sourceWords, line_eq]

theorem isLine_sourceWords {name : String} (hname : Text.IsWord name) (ss : List Statement) :
    ∀ ws ∈ sourceWords name ss, Token.IsLine ws := by
  intro ws hws
  rw [sourceWords, List.mem_append, List.mem_cons, List.mem_map, List.mem_singleton] at hws
  rcases hws with (rfl | ⟨s, -, rfl⟩) | rfl
  · have hdef : Text.IsWord "DEF" := by decide
    exact ⟨by simpa using ⟨hdef, hname⟩, by simp⟩
  · exact s.isLine_words
  · have hend : Text.IsWord "ENDDEF" := by decide
    exact ⟨by simpa using hend, by simp⟩

/-- The text of a definition, scanned. -/
theorem scan_source {name : String} (hname : Text.IsWord name) (ss : List Statement)
    {text : String}
    (htext : text = "\n".intercalate (source name ss) ∨ text = Text.unlines (source name ss)) :
    Token.scan text =
      ⟨"DEF", 1⟩ :: ⟨name, 1⟩ :: (tokens 2 ss ++ [⟨"ENDDEF", 2 + ss.length⟩]) := by
  have htokens : Token.ofWords (sourceWords name ss) =
      ⟨"DEF", 1⟩ :: ⟨name, 1⟩ :: (tokens 2 ss ++ [⟨"ENDDEF", 2 + ss.length⟩]) := by
    simp [Token.ofWords, sourceWords, tokens, List.zipIdx_append, List.zipIdx_cons, Nat.add_comm]
  have hne : sourceWords name ss ≠ [] := by simp [sourceWords]
  obtain ⟨hjoined, hended⟩ := Token.scan_of_layout hne (isLine_sourceWords hname ss)
  rw [source_eq] at htext
  rcases htext with rfl | rfl
  · rw [hjoined, htokens]
  · rw [hended, htokens]

/-- **The text of a definition assembles** to the function that it defines. -/
theorem assemble_source {name : String} (hname : Text.IsWord name) (ss : List Statement)
    {text : String}
    (htext : text = "\n".intercalate (source name ss) ∨ text = Text.unlines (source name ss)) :
    Program.assemble text = .ok (NameMap.ofList [(name, code ss)]) := by
  have hbody := Assembly.build_body (map_ofToken_tokens 2 ss) (tokens_not_bracket 2 ss) 1 name {}
    [⟨"ENDDEF", 2 + ss.length⟩]
  have hbuild : Assembly.ofText text = ⟨[(name, code ss)], none⟩ := by
    rw [Assembly.ofText, scan_source hname ss htext, Assembly.build, if_pos rfl, Assembly.build,
      hbody]
    rfl
  rw [Program.assemble, hbuild]
  rfl

/-! ## Listing the code of a body -/

/-- The address of a statement after others. -/
def address (before : List Statement) : Nat := (before.map (·.op.width)).sum

/-- The index of a literal of a kind after other statements. -/
def index (before : List Statement) (k : Option Kind) : Nat := before.countP (·.op.operand = k)

/-- The instruction of a statement after others. -/
def instruction (before : List Statement) (s : Statement) : Instruction :=
  ⟨address before, s.op, s.literal.map fun v => (index before s.op.operand, v)⟩

/-- The line of a listing that shows a statement after others. -/
def listed (before : List Statement) (s : Statement) : String :=
  (address before).repr ++ ":\t" ++ s.op.mnemonic ++
    match s.shown with
    | none => ""
    | some literal => " " ++ (index before s.op.operand).repr ++ "\t(" ++ literal ++ ")"

theorem text_literal (s : Statement) : s.literal.map Value.text = s.shown := by
  cases s with
  | bare op hop => rfl
  | numeral op hop w hw =>
    have hsmall : Text.decimal w < 2 ^ 63 := Nat.lt_of_le_pred (by decide) hw.small
    exact congrArg some (Word.text_ofNat hsmall)
  | name op hop w hw => rfl

theorem text_instruction (before : List Statement) (s : Statement) :
    (instruction before s).text = listed before s := by
  rw [listed, ← text_literal]
  rcases h : s.literal with _ | v <;> simp [Instruction.text, instruction, h, String.append_assoc]

theorem length_flatMap_items (ss : List Statement) : (ss.flatMap items).length = address ss := by
  simp only [List.length_flatMap, length_items, address]

theorem count_items (s : Statement) (k : Kind) :
    Item.count s.items k = if s.op.operand = some k then 1 else 0 := by
  rcases h : s.literal with _ | v
  · simp [Item.count, items, operand_op, h]
  · by_cases hk : v.kind = k <;> simp [Item.count, items, operand_op, h, hk]

theorem count_flatMap_items (ss : List Statement) (k : Kind) :
    Item.count (ss.flatMap items) k = index ss (some k) := by
  induction ss with
  | nil => rfl
  | cons s ss ih =>
    rw [List.flatMap_cons, Item.count_append, ih, count_items, index, index, List.countP_cons,
      Nat.add_comm]
    simp only [decide_eq_true_eq]

/-- The instructions of statements after others. -/
def instructions (before : List Statement) : List Statement → List Instruction
  | [] => []
  | s :: ss => instruction before s :: instructions (before ++ [s]) ss

theorem getElem?_instructions (before ss : List Statement) (k : Nat) :
    (instructions before ss)[k]? = ss[k]?.map (instruction (before ++ ss.take k)) := by
  induction ss generalizing before k with
  | nil => rfl
  | cons s ss ih =>
    cases k with
    | zero => simp [instructions]
    | succ k => simp [instructions, ih]

theorem length_instructions (before ss : List Statement) :
    (instructions before ss).length = ss.length := by
  induction ss generalizing before with
  | nil => rfl
  | cons s ss ih => simp [instructions, ih]

theorem address_append_singleton (before : List Statement) (s : Statement) :
    address (before ++ [s]) = address before + s.op.width := by
  simp [address]

theorem length_code (ss : List Statement) : (code ss).length = address ss := by
  rw [code, Code.length_ofItems, length_flatMap_items]

/-- The opcode of a statement is where the statement stands. -/
theorem slot_code (before : List Statement) (s : Statement) (ss : List Statement) :
    (code (before ++ s :: ss)).slots[address before]? = some s.op.code := by
  have hitems : (before ++ s :: ss).flatMap items = before.flatMap items ++
      .instruction s.op :: ((s.literal.map Item.ofValue).toList ++ ss.flatMap items) := by
    simp [items]
  rw [code, hitems, ← length_flatMap_items, Code.slot_ofItems, Item.slot]

/-- The slot after the opcode holds the index of the literal, and the pool holds the literal. -/
theorem operand_code (before : List Statement) {s : Statement} {v : Value}
    (hv : s.literal = some v) (ss : List Statement) :
    (code (before ++ s :: ss)).slots[address before + 1]? = some (index before s.op.operand) ∧
      (code (before ++ s :: ss)).entry v.kind (index before s.op.operand) = .ok v := by
  have hitems : (before ++ s :: ss).flatMap items =
      (before.flatMap items ++ [.instruction s.op]) ++ .ofValue v :: ss.flatMap items := by
    simp [items, hv]
  have hlength : (before.flatMap items ++ [Item.instruction s.op]).length = address before + 1 := by
    rw [List.length_append, length_flatMap_items]
    rfl
  have hindex : Item.count (before.flatMap items ++ [.instruction s.op]) v.kind =
      index before s.op.operand := by
    rw [Item.count_append, count_flatMap_items, operand_op, hv]
    rfl
  rw [code, hitems, ← hindex]
  refine ⟨?_, Code.entry_ofItems _ v _⟩
  rw [← hlength, Code.slot_ofItems, Item.slot_ofValue]

/-- **The instructions of the statements fill the code** of the body. -/
theorem fills_code (before ss : List Statement) :
    (code (before ++ ss)).Fills (address before) (instructions before ss) := by
  induction ss generalizing before with
  | nil =>
    rw [List.append_nil, ← length_code]
    exact .done
  | cons s ss ih =>
    have hrest := ih (before ++ [s])
    rw [List.append_assoc, List.singleton_append, address_append_singleton, Opcode.width,
      operand_op] at hrest
    have hslot := slot_code before s ss
    rw [instructions, instruction]
    rcases hv : s.literal with _ | v
    · rw [hv] at hrest
      exact .bare hslot (by rw [operand_op, hv]; rfl) hrest
    · rw [hv] at hrest
      obtain ⟨hindex, hentry⟩ := operand_code before hv ss
      exact .pooled hslot (by rw [operand_op, hv]; rfl) hindex hentry hrest

end Statement

/-- **Listing what has been assembled** shows the statements of the text. -/
theorem Program.listing_assemble {name : String} (hname : Text.IsWord name)
    (ss : List Statement) {text : String}
    (htext : text = "\n".intercalate (Statement.source name ss) ∨
      text = Text.unlines (Statement.source name ss)) :
    ∃ program code is, Program.assemble text = .ok program ∧ program.toList = [(name, code)] ∧
      code.instructions = .ok is ∧
      code.listing =
        .ok (Text.unlines ("CODE" :: is.map Instruction.text ++ "" :: code.poolLines)) ∧
      is.length = ss.length ∧
      ∀ k s, ss[k]? = some s → ∃ i, is[k]? = some i ∧
        i.address = ((ss.take k).map (·.op.width)).sum ∧ i.op = s.op ∧
        i.operand = s.literal.map
          (fun v => ((ss.take k).countP (·.op.operand = s.op.operand), v)) ∧
        i.text = s.listed (ss.take k) := by
  have his : (Statement.code ss).instructions = .ok (Statement.instructions [] ss) :=
    Code.instructions_eq_ok_iff.mpr (Statement.fills_code [] ss)
  refine ⟨_, Statement.code ss, _, Statement.assemble_source hname ss htext, rfl, his,
    Code.listing_eq_ok_iff.mpr ⟨_, his, rfl⟩, Statement.length_instructions [] ss, ?_⟩
  intro k s hk
  refine ⟨s.instruction (ss.take k), ?_, rfl, rfl, rfl, Statement.text_instruction _ s⟩
  rw [Statement.getElem?_instructions, hk]
  rfl

/-- Names that start like comments, and a numeral with leading zeros. -/
theorem Program.listing_assemble_four :
    Text.IsWord "#f" ∧ ∃ program code is i,
      Program.assemble "DEF #f\nLOAD_CONST 007\nLOAD_NAME #x\nSTORE\nLOAD_GLOBAL #y\nENDDEF" =
        .ok program ∧
      program.toList = [("#f", code)] ∧ code.instructions = .ok is ∧ is.length = 4 ∧
      is[3]? = some i ∧ i.text = "5:\tLOAD_GLOBAL 1\t(#y)" := by
  have hname : Text.IsWord "#f" := by decide
  obtain ⟨program, code, is, hprogram, hcode, his, -, hlength, hlines⟩ :=
    listing_assemble hname
      [.numeral .loadConst rfl "007" (by decide), .name .loadName rfl "#x" (by decide),
        .bare .store rfl, .name .loadGlobal rfl "#y" (by decide)] (.inl rfl)
  obtain ⟨i, hi, -, -, -, htext⟩ := hlines 3 _ rfl
  exact ⟨hname, program, code, is, i, hprogram, hcode, his, hlength, hi, htext⟩

end PoolMachine
