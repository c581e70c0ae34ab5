import Mathlib.Data.Set.List
import PoolMachine.Proofs.Legible
import PoolMachine.Proofs.RoundTrip

/-!
# A listing determines its code

**Theorem (`Code.eq_of_listing_eq`).** Codes with the same listing are equal, in slots and in pools.

The literals of the instructions are shown bare, and a string may hold line feeds, parentheses and
text that looks like the rest of a listing. So the listing is not legible from its front alone. Its
last four lines are, since the pools are shown in quotes (`unlines_append_inj`), and they determine
the pools. Once the pools are known, an index determines the text of its literal, and the
instructions are legible from the front (`legible_line`).
-/

namespace PoolMachine

/-! ## The last lines of a text -/

namespace Text

theorem toList_unlines (ls : List String) :
    (unlines ls).toList = ls.flatMap fun l => l.toList ++ ['\n'] := by
  simp [unlines, String.toList_join, List.flatMap_map]

/-- **The last lines of a text are legible from its end**, if their number is known and none of them
holds a line feed. -/
theorem unlines_append_inj {xs ys : List Char} {ls ks : List String}
    (hls : ∀ l ∈ ls, ∀ c ∈ l.toList, (c == '\n') = false)
    (hks : ∀ k ∈ ks, ∀ c ∈ k.toList, (c == '\n') = false) (hlen : ls.length = ks.length)
    (h : xs ++ '\n' :: (unlines ls).toList = ys ++ '\n' :: (unlines ks).toList) :
    xs = ys ∧ ls = ks := by
  have hlines := congrArg lines h
  rw [lines_append_cons, lines_append_cons, lines_unlines hls, lines_unlines hks] at hlines
  obtain ⟨-, hend⟩ := List.append_inj' hlines (by simp [hlen])
  have hmap := (List.append_inj' hend rfl).1
  obtain rfl : ls = ks := (List.map_inj_right fun _ _ => String.toList_injective).mp hmap
  exact ⟨List.append_cancel_right h, rfl⟩

end Text

/-! ## The pools -/

namespace Code

variable {a b : Code}

theorem legible_integers :
    Text.SelfLegible fun ns : List Word => (Text.bracketed (ns.map Word.text)).toList := by
  refine Text.legible_bracketed_of_forall_ne ?_ Word.text_ne_empty fun n c hc => ?_
  · intro m n h
    exact Word.text_injective (congrArg String.toList h)
  · exact ⟨Word.text_not_mem hc (by decide) (by decide),
      Word.text_not_mem hc (by decide) (by decide)⟩

theorem legible_strings :
    Text.SelfLegible fun ss : List String => (Text.bracketed (ss.map Text.quote)).toList := by
  refine Text.legible_bracketed ?_ ?_
  · intro s t xs ys hxs hys h
    exact Text.legible_quote (hxs.imp fun _ _ => trivial) (hys.imp fun _ _ => trivial) h
  · intro s
    rw [Text.toList_quote]
    exact .cons (by decide) _

/-- A boolean as the pools show it. -/
abbrev booleanText (b : Bool) : String := if b then "true" else "false"

theorem legible_booleans :
    Text.SelfLegible fun bs : List Bool => (Text.bracketed (bs.map booleanText)).toList := by
  apply Text.legible_bracketed_of_forall_ne
  · unfold Function.Injective
    decide
  · decide
  · intro b c hc
    cases b <;> simp [booleanText] at hc <;> rcases hc with rfl | rfl | rfl | rfl | rfl <;> decide

theorem poolLines_not_lineFeed (code : Code) :
    ∀ l ∈ code.poolLines, ∀ c ∈ l.toList, (c == '\n') = false := by
  have hlabel (label : String) {items : List String}
      (hlabel : ∀ c ∈ label.toList, (c == '\n') = false)
      (hitems : ∀ t ∈ items, ∀ c ∈ t.toList, (c == '\n') = false) :
      ∀ c ∈ (label ++ Text.bracketed items).toList, (c == '\n') = false := by
    intro c hc
    rw [String.toList_append, List.mem_append] at hc
    rcases hc with hc | hc
    · exact hlabel c hc
    · exact Text.bracketed_not_lineFeed hitems c hc
  intro l hl
  simp only [poolLines, List.mem_cons, List.not_mem_nil, or_false] at hl
  rcases hl with rfl | rfl | rfl | rfl
  · simp
  · refine hlabel _ (by simp) fun t ht c hc => ?_
    obtain ⟨n, -, rfl⟩ := List.mem_map.mp ht
    exact beq_false_of_ne (Word.text_not_mem hc (by decide) (by decide))
  · refine hlabel _ (by simp) fun t ht c hc => ?_
    obtain ⟨s, -, rfl⟩ := List.mem_map.mp ht
    exact beq_false_of_ne (Text.quote_not_lineFeed s c hc)
  · refine hlabel _ (by simp) fun t ht => ?_
    obtain ⟨b, -, rfl⟩ := List.mem_map.mp ht
    cases b <;> simp

/-- **The lines of the pools determine the pools.** -/
theorem pools_of_poolLines_eq (h : a.poolLines = b.poolLines) :
    a.integers = b.integers ∧ a.strings = b.strings ∧ a.booleans = b.booleans := by
  simp only [poolLines, List.cons.injEq, String.append_right_inj, true_and, and_true] at h
  obtain ⟨hintegers, hstrings, hbooleans⟩ := h
  refine ⟨Array.toList_inj.mp ?_, Array.toList_inj.mp ?_, Array.toList_inj.mp ?_⟩
  · exact legible_integers.injective (c := ' ') trivial (congrArg String.toList hintegers)
  · exact legible_strings.injective (c := ' ') trivial (congrArg String.toList hstrings)
  · exact legible_booleans.injective (c := ' ') trivial (congrArg String.toList hbooleans)

end Code

/-! ## Instructions -/

namespace Instruction

/-- The line of an instruction, with its end. -/
def line (i : Instruction) : List Char := i.text.toList ++ ['\n']

/-- The part of a line that shows the operand. -/
def operandText : Option (Nat × Value) → List Char
  | none => []
  | some (index, literal) => ' ' :: index.repr.toList ++ '\t' :: '(' :: literal.text.toList ++ [')']

/-- The slots of an instruction. -/
def slots (i : Instruction) : List Nat := i.op.code :: (i.operand.map Prod.fst).toList

theorem line_append (i : Instruction) (r : List Char) : i.line ++ r =
    i.address.repr.toList ++
      ':' :: '\t' :: (i.op.mnemonic.toList ++ (operandText i.operand ++ '\n' :: r)) := by
  obtain ⟨address, op, _ | ⟨index, literal⟩⟩ := i <;> simp [line, text, operandText]

theorem starts_line (i : Instruction) : Text.Starts (· ≠ '\n') i.line := by
  obtain ⟨c, cs, hcs⟩ := List.exists_cons_of_ne_nil (Nat.toDigits_ne_nil (n := i.address) (b := 10))
  have hline := i.line_append []
  rw [List.append_nil, Nat.toList_repr, hcs] at hline
  refine ⟨c, _, hline, ?_⟩
  rintro rfl
  have hdigit : '\n' ∈ Nat.toDigits 10 i.address := hcs ▸ List.mem_cons_self
  exact Text.not_noDigit_of_mem_toDigits (by decide) (by decide) hdigit (by decide)

theorem starts_operandText (operand : Option (Nat × Value)) (r : List Char) :
    Text.Starts (Text.isBlank · = true) (operandText operand ++ '\n' :: r) := by
  rcases operand with _ | ⟨index, literal⟩
  · exact .cons (by decide) r
  · exact .cons (by decide) _

end Instruction

theorem Opcode.mnemonic_injective : Function.Injective Opcode.mnemonic := by
  intro op op' h
  have hread := congrArg ofMnemonic? h
  rwa [ofMnemonic?_mnemonic, ofMnemonic?_mnemonic, Option.some.injEq] at hread

theorem Opcode.legible_mnemonic :
    Text.Legible (Text.isBlank · = true) fun op : Opcode => op.mnemonic.toList := by
  refine .of_forall_not ?_ ?_
  · intro op op' h
    exact mnemonic_injective (String.toList_injective h)
  · intro op c hc
    simp [op.isWord_mnemonic.2 c hc]

namespace Code

variable {a b code : Code}

/-- The operand of an instruction is as its opcode needs it, with the literal that is in the
pool. -/
def Supplies (code : Code) (i : Instruction) : Prop :=
  match i.op.operand with
  | none => i.operand = none
  | some pool => ∃ index literal,
      i.operand = some (index, literal) ∧ code.entry pool index = .ok literal

theorem Holds.supplies {i : Instruction} (h : code.Holds i) : code.Supplies i := by
  have hoperand := h.operand
  unfold Supplies
  rcases hpool : i.op.operand with _ | pool <;> simp only [hpool] at hoperand ⊢
  · exact hoperand
  · obtain ⟨index, literal, hi, -, hentry⟩ := hoperand
    exact ⟨index, literal, hi, hentry⟩

theorem entry_congr (hintegers : a.integers = b.integers) (hstrings : a.strings = b.strings)
    (hbooleans : a.booleans = b.booleans) : a.entry = b.entry := by
  funext pool index
  have hpool : a.pool pool = b.pool pool := by
    cases pool with
    | integer => exact hintegers
    | string => exact hstrings
    | boolean => exact hbooleans
  simp only [entry, literal, poolSize, hpool]

/-- An index determines the text of its literal, so it shows where the operand ends. -/
theorem Supplies.operand_inj {i j : Instruction} (hi : code.Supplies i) (hj : code.Supplies j)
    (hop : i.op = j.op) {r s : List Char}
    (h : Instruction.operandText i.operand ++ r = Instruction.operandText j.operand ++ s) :
    i.operand = j.operand ∧ r = s := by
  unfold Supplies at hi hj
  rw [← hop] at hj
  rcases hpool : i.op.operand with _ | pool <;> simp only [hpool] at hi hj
  · rw [hi, hj] at h ⊢
    exact ⟨rfl, h⟩
  · obtain ⟨index, literal, hi, hentry⟩ := hi
    obtain ⟨index', literal', hj, hentry'⟩ := hj
    rw [hi, hj] at h ⊢
    have htext : index.repr.toList ++ '\t' :: '(' :: (literal.text.toList ++ ')' :: r) =
        index'.repr.toList ++ '\t' :: '(' :: (literal'.text.toList ++ ')' :: s) := by
      simpa [Instruction.operandText] using h
    have htab : Text.NoDigit '\t' := by decide
    obtain ⟨rfl, hrest⟩ := Text.legible_repr (.cons htab _) (.cons htab _) htext
    obtain rfl : literal = literal' := Except.ok.inj (hentry.symm.trans hentry')
    have hclose := List.append_cancel_left (List.cons.inj (List.cons.inj hrest).2).2
    exact ⟨rfl, (List.cons.inj hclose).2⟩

/-- **The line of an instruction is legible** if the pools are known. -/
theorem legible_line (code : Code) :
    Text.SelfLegible fun i : { i // code.Supplies i } => i.1.line := by
  rintro ⟨i, hi⟩ ⟨j, hj⟩ r s - - h
  simp only [Instruction.line_append] at h
  -- From the front: the address up to the colon, the mnemonic up to a blank, the operand.
  have hcolon : Text.NoDigit ':' := by decide
  obtain ⟨haddress, hrest⟩ := Text.legible_repr (.cons hcolon _) (.cons hcolon _) h
  obtain ⟨hop, hrest⟩ := Opcode.legible_mnemonic (Instruction.starts_operandText i.operand r)
    (Instruction.starts_operandText j.operand s) (List.cons.inj (List.cons.inj hrest).2).2
  obtain ⟨hoperand, hend⟩ := hi.operand_inj hj hop hrest
  refine ⟨Subtype.ext ?_, (List.cons.inj hend).2⟩
  obtain ⟨address, op, operand⟩ := i
  obtain ⟨address', op', operand'⟩ := j
  obtain rfl : address = address' := haddress
  obtain rfl : op = op' := hop
  obtain rfl : operand = operand' := hoperand
  rfl

/-- **The lines of instructions determine the instructions** if the pools are known. -/
theorem instructions_of_lines_eq {is js : List Instruction} (his : ∀ i ∈ is, code.Supplies i)
    (hjs : ∀ j ∈ js, code.Supplies j)
    (h : is.flatMap Instruction.line = js.flatMap Instruction.line) : is = js := by
  lift is to List { i // code.Supplies i } using his
  lift js to List { i // code.Supplies i } using hjs
  have hlead : Text.Legible.Leads (fun _ => True) (· = '\n')
      fun i : { i // code.Supplies i } => i.1.line := by
    intro i
    exact i.1.starts_line.imp fun _ hc => ⟨trivial, hc⟩
  have hlist := (legible_line code).flatMap (fun _ _ => trivial) hlead
  rw [List.flatMap_map, List.flatMap_map] at h
  rw [hlist.injective rfl h]

theorem Fills.slots_eq {n : Nat} {is : List Instruction} (h : code.Fills n is) :
    code.slots.toList.drop n = is.flatMap Instruction.slots := by
  induction h with
  | done => exact List.drop_of_length_le (Nat.le_of_eq Array.length_toList)
  | bare hslot _ _ ih =>
    rw [drop_of_getElem? hslot, ih]
    rfl
  | pooled hslot _ hindex _ _ ih =>
    rw [drop_of_getElem? hslot, drop_of_getElem? hindex, ih]
    rfl

/-! ## Listings -/

theorem toList_listing (is : List Instruction) (ls : List String) :
    (Text.unlines ("CODE" :: is.map Instruction.text ++ "" :: ls)).toList =
      ("CODE\n".toList ++ is.flatMap Instruction.line) ++ '\n' :: (Text.unlines ls).toList := by
  have hline : Instruction.line = fun i => i.text.toList ++ ['\n'] := rfl
  simp [Text.toList_unlines, List.flatMap_map, hline]

/-- **The lines of the instructions and of the pools determine the code.** -/
theorem eq_of_lines_eq {is js : List Instruction} (his : a.instructions = .ok is)
    (hjs : b.instructions = .ok js)
    (hlines : is.flatMap Instruction.line = js.flatMap Instruction.line)
    (hpools : a.poolLines = b.poolLines) : a = b := by
  obtain ⟨hintegers, hstrings, hbooleans⟩ := pools_of_poolLines_eq hpools
  have hentry := entry_congr hintegers hstrings hbooleans
  rw [instructions_eq_ok_iff] at his hjs
  have hasupplies : ∀ i ∈ is, a.Supplies i := fun i hi => (his.holds i hi).supplies
  have hbsupplies : ∀ j ∈ js, a.Supplies j := by
    intro j hj
    have hsupplies := (hjs.holds j hj).supplies
    unfold Supplies at hsupplies ⊢
    rwa [hentry]
  obtain rfl : is = js := instructions_of_lines_eq hasupplies hbsupplies hlines
  have hslots : a.slots.toList = b.slots.toList := his.slots_eq.trans hjs.slots_eq.symm
  obtain ⟨slots, integers, strings, booleans⟩ := a
  obtain ⟨slots', integers', strings', booleans'⟩ := b
  obtain rfl : slots = slots' := Array.toList_inj.mp hslots
  obtain rfl : integers = integers' := hintegers
  obtain rfl : strings = strings' := hstrings
  obtain rfl : booleans = booleans' := hbooleans
  rfl

/-- **A listing determines its code.** -/
theorem eq_of_listing_eq {text : String} (ha : a.listing = .ok text) (hb : b.listing = .ok text) :
    a = b := by
  obtain ⟨is, his, hatext⟩ := listing_eq_ok_iff.mp ha
  obtain ⟨js, hjs, hbtext⟩ := listing_eq_ok_iff.mp hb
  have htext := congrArg String.toList (hatext.symm.trans hbtext)
  rw [toList_listing, toList_listing] at htext
  obtain ⟨hfront, hpools⟩ := Text.unlines_append_inj a.poolLines_not_lineFeed
    b.poolLines_not_lineFeed rfl htext
  exact eq_of_lines_eq his hjs (List.append_cancel_left hfront) hpools

/-- A code with a string that looks like the end of a listing. -/
def imitation : Code where
  slots := #[Opcode.loadName.code, 0, Opcode.loadConst.code, 0]
  integers := #[-7]
  strings := #["x)\n2:\tADD\n\nDATA:\n\tIntegers: []\n\tStrings: [\"\\\"]\n\tBools: []"]

theorem eq_imitation_iff : ∃ text, imitation.listing = .ok text ∧
    ∀ code : Code, code.listing = .ok text ↔ code = imitation := by
  have hlisting : ∃ text, imitation.listing = .ok text :=
    ⟨_, listing_eq_ok_iff.mpr ⟨_, rfl, rfl⟩⟩
  obtain ⟨text, htext⟩ := hlisting
  refine ⟨text, htext, fun code => ⟨fun h => eq_of_listing_eq h htext, ?_⟩⟩
  rintro rfl
  exact htext

end Code

end PoolMachine
