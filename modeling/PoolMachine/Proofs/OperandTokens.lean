import PoolMachine.Proofs.JoinedText
import PoolMachine.Proofs.Origin

/-!
# The tokens behind the operands of a listing

A line of a listing with an operand shows a token of the function's definition, numerals by their
value. A literal is numbered among those of its own kind, while an operand is looked up in the pool
of the kind that its opcode takes, and nothing in the slots says whether the two agree.

**Theorem (`Program.operand_tokens`).** The line shows the token that has the operand's number among
the tokens of the kind which the opcode takes. It is the operand's own token exactly if that is of
this kind; where it is not, the line does not even read as if it were.

* **`Token.literalKind?`**, **`Token.shown`**: a token as a listing treats it. What a token is shown
  as stands for the same as the token (`Item.ofToken_shown`), so tokens of different kinds are never
  shown alike.
* **`Code.item_of_operand`**: the same for items, where the pools are those of `Code.ofItems`.
* **`Program.operand_not_own`**: a text in which an operand is of another kind.
-/

namespace PoolMachine

/-! ## Tokens as a listing shows them -/

namespace Token

/-- The token is the mnemonic of an opcode. -/
def IsMnemonic (t : Token) : Prop := ∃ op : Opcode, t.text = op.mnemonic

instance (t : Token) : Decidable t.IsMnemonic :=
  decidable_of_iff (Opcode.all.any (fun op => t.text = op.mnemonic) = true) <| by
    simp [IsMnemonic, Opcode.mem_all]

/-- The kind of literal that a token is: digits only, one of the two truth values, or anything else
that is no mnemonic. -/
def literalKind? (t : Token) : Option Kind :=
  if t.IsMnemonic then none
  else if t.text ≠ "" ∧ t.text.toList.all Char.isDigit = true then some .integer
  else if t.text = "True" ∨ t.text = "False" then some .boolean
  else some .string

/-- The text of a token, a numeral by its value. -/
def shown (t : Token) : String :=
  match Text.numeral? t.text.toList with
  | some n => n.repr
  | none => t.text

variable {t : Token} {item : Item}

theorem literalKind?_eq_none_iff : t.literalKind? = none ↔ t.IsMnemonic := by
  unfold literalKind?
  by_cases hop : t.IsMnemonic
  · simp [hop]
  · rw [if_neg hop]
    split
    · simp [hop]
    · split <;> simp [hop]

theorem numeral?_eq_none_iff :
    Text.numeral? t.text.toList = none ↔
      ¬ (t.text ≠ "" ∧ t.text.toList.all Char.isDigit = true) := by
  simp [Text.numeral?]

/-- The kind of a token by its text is that of what it stands for. -/
theorem literalKind?_of_ofToken (h : Item.ofToken t = .ok item) :
    t.literalKind? = item.value?.map Value.kind := by
  unfold literalKind?
  by_cases hop : t.IsMnemonic
  · obtain ⟨op, hop'⟩ := hop
    have hitem : Item.ofToken t = .ok (.instruction op) := by
      rw [← Item.ofToken_mnemonic op t.line, ← hop']
    cases hitem.symm.trans h
    rw [if_pos ⟨op, hop'⟩]
    rfl
  · have hnone : Opcode.ofMnemonic? t.text = none :=
      Opcode.ofMnemonic?_eq_none fun op _ heq => hop ⟨op, heq.symm⟩
    rw [if_neg hop]
    by_cases hdigits : t.text ≠ "" ∧ t.text.toList.all Char.isDigit = true
    · rw [if_pos hdigits]
      rcases hnumeral : Text.numeral? t.text.toList with _ | n
      · exact absurd hdigits (numeral?_eq_none_iff.mp hnumeral)
      · rw [Item.ofToken_of_numeral hnumeral] at h
        split at h <;> cases h
        rfl
    · have hnumeral := numeral?_eq_none_iff.mpr hdigits
      simp only [Item.ofToken, hnone, hnumeral] at h
      rw [if_neg hdigits]
      by_cases htrue : t.text = "True"
      · rw [if_pos htrue] at h
        cases h
        rw [if_pos (.inl htrue)]
        rfl
      · rw [if_neg htrue] at h
        by_cases hfalse : t.text = "False"
        · rw [if_pos hfalse] at h
          cases h
          rw [if_pos (.inr hfalse)]
          rfl
        · rw [if_neg hfalse] at h
          cases h
          rw [if_neg (not_or.mpr ⟨htrue, hfalse⟩)]
          rfl

theorem shown_of_numeral {n : Nat} (h : Text.numeral? t.text.toList = some n) :
    t.shown = n.repr := by
  simp only [shown, h]

theorem shown_of_not_numeral (h : Text.numeral? t.text.toList = none) : t.shown = t.text := by
  simp only [shown, h]

end Token

namespace Item

variable {t u : Token} {item : Item} {v : Value}

theorem text_eq_shown (h : ofToken t = .ok (.ofValue v)) : v.text = t.shown := by
  rcases ofToken_cases h with
    ⟨op, -, hv⟩ | ⟨n, hn, hsmall, hv⟩ | ⟨hno, ⟨ht, hv⟩ | ⟨ht, hv⟩ | hv⟩ <;> cases v <;> cases hv
  · rw [Token.shown_of_numeral hn]
    exact Word.text_ofNat (Nat.lt_of_le_pred (by decide) hsmall)
  · rw [Token.shown_of_not_numeral hno, ht]
    rfl
  · rw [Token.shown_of_not_numeral hno, ht]
    rfl
  · rw [Token.shown_of_not_numeral hno]
    rfl

/-- What a token is shown as stands for the same. -/
theorem ofToken_shown (h : ofToken t = .ok item) (line : Nat) :
    ofToken ⟨t.shown, line⟩ = .ok item := by
  rcases hn : Text.numeral? t.text.toList with _ | n
  · have hline : ofToken (t.renumber fun _ => line) = .ok item := by
      rw [ofToken_renumber, h, mapError_ok]
    rw [Token.shown_of_not_numeral hn]
    exact hline
  · have hn' : Text.numeral? (Token.mk t.shown line).text.toList = some n := by
      rw [Token.shown_of_numeral hn, Nat.toList_repr, Text.numeral?_toDigits]
    rw [ofToken_of_numeral hn] at h
    rw [ofToken_of_numeral hn']
    by_cases hsmall : n ≤ largestNumeral
    · rw [if_pos hsmall] at h ⊢
      exact h
    · rw [if_neg hsmall] at h
      cases h

theorem literalKind?_eq_of_shown_eq {item' : Item} (ht : ofToken t = .ok item)
    (hu : ofToken u = .ok item') (h : t.shown = u.shown) : t.literalKind? = u.literalKind? := by
  have hitem := ofToken_shown ht 0
  rw [h, ofToken_shown hu 0] at hitem
  cases hitem
  rw [Token.literalKind?_of_ofToken ht, Token.literalKind?_of_ofToken hu]

end Item

/-! ## Literals of a body -/

namespace Item

variable {body : List Token} {items : List Item}

theorem map_ofToken_getElem? (h : body.map ofToken = items.map .ok) (n : Nat) :
    body[n]?.map ofToken = items[n]?.map .ok := by
  rw [← List.getElem?_map, h, List.getElem?_map]

theorem exists_token (h : body.map ofToken = items.map .ok) {n : Nat} {item : Item}
    (hitem : items[n]? = some item) : ∃ t, body[n]? = some t ∧ ofToken t = .ok item := by
  have hn := map_ofToken_getElem? h n
  rw [hitem, Option.map_some, Option.map_eq_some_iff] at hn
  exact hn

theorem exists_item (h : body.map ofToken = items.map .ok) {n : Nat} {t : Token}
    (ht : body[n]? = some t) : ∃ item, items[n]? = some item ∧ ofToken t = .ok item := by
  have hn := map_ofToken_getElem? h n
  rw [ht, Option.map_some, eq_comm, Option.map_eq_some_iff] at hn
  obtain ⟨item, hitem, hok⟩ := hn
  exact ⟨item, hitem, hok.symm⟩

theorem countP_literalKind? (h : body.map ofToken = items.map .ok) (k : Kind) :
    body.countP (·.literalKind? = some k) = count items k := by
  induction body generalizing items with
  | nil =>
    obtain rfl : items = [] := by simpa using h.symm
    rfl
  | cons t body ih =>
    cases items with
    | nil => cases h
    | cons item items =>
      obtain ⟨hitem, hrest⟩ := List.cons.inj h
      rw [List.countP_cons, ih hrest, count, count, List.countP_cons,
        Token.literalKind?_of_ofToken hitem]
      rcases item.value? with _ | v
      · rfl
      · simp

end Item

/-- **The literal that an operand names** among the items of a body: the one with the operand's
number among the literals of the kind, and the item at the operand itself if it is of the kind. -/
theorem Code.item_of_operand {items : List Item} {a index : Nat} {k : Kind} {v : Value}
    (hslot : (ofItems items).slots[a]? = some index)
    (hentry : (ofItems items).entry k index = .ok v) :
    ∃ item j, items[a]? = some item ∧ items[j]? = some (.ofValue v) ∧ v.kind = k ∧
      Item.count (items.take j) k = index ∧ (j = a ↔ item.value?.map Value.kind = some k) := by
  have ha : a < items.length := by
    rw [← length_ofItems]
    exact (Array.getElem?_eq_some_iff.mp hslot).1
  obtain ⟨item, hitem⟩ : ∃ item, items[a]? = some item := ⟨_, List.getElem?_eq_getElem ha⟩
  refine ⟨item, ?_⟩
  by_cases hkind : item.value?.map Value.kind = some k
  · obtain ⟨w, hw, rfl⟩ := Option.map_eq_some_iff.mp hkind
    obtain rfl := Item.eq_ofValue hw
    -- The operand counts the literals before it, and so do their places in the pool.
    have hindex := slot_of_getElem? hitem
    have hplace := entry_of_getElem? hitem
    rw [hslot, Item.slot_ofValue, Option.some.injEq] at hindex
    rw [← hindex, hentry, Except.ok.injEq] at hplace
    subst hplace
    exact ⟨a, hitem, hitem, rfl, hindex.symm, iff_of_true rfl hkind⟩
  · obtain ⟨before, after, rfl, hv, hcount⟩ := exists_item_of_entry hentry
    have hget : (before ++ Item.ofValue v :: after)[before.length]? = some (.ofValue v) := by simp
    refine ⟨before.length, hitem, hget, hv, ?_, ?_⟩
    · rw [List.take_left]
      exact hcount
    · refine iff_of_false ?_ hkind
      rintro rfl
      rw [hget] at hitem
      cases hitem
      exact hkind (by rw [Item.value?_ofValue]; exact congrArg some hv)

namespace Program

open Grammar

variable {source name listing : String} {p : Program} {code : Code}

/-- **The token behind an operand of a listing.** -/
theorem operand_tokens (hp : assemble source = .ok p) (hcode : p.get? name = some code)
    (hlisting : code.listing = .ok listing) :
    ∃ is, code.instructions = .ok is ∧
      listing = Text.unlines ("CODE" :: is.map Instruction.text ++ "" :: code.poolLines) ∧
      (∃ body, Defines source name body) ∧
      ∀ body, Defines source name body → ∀ i ∈ is, i.op.operand.isSome = true →
        ∃ t index j u, body[i.address + 1]? = some t ∧ code.slots[i.address + 1]? = some index ∧
          -- The line shows the token with the number of the operand among those of its kind.
          body[j]? = some u ∧ u.literalKind? = i.op.operand ∧
          (body.take j).countP (·.literalKind? = i.op.operand) = index ∧
          i.text = i.address.repr ++ ":\t" ++ i.op.mnemonic ++ " " ++ index.repr ++
            "\t(" ++ u.shown ++ ")" ∧
          -- This is the token of the operand exactly if that is of the kind which the opcode takes.
          (j = i.address + 1 ↔ t.literalKind? = i.op.operand) ∧
          (u.shown = t.shown ↔ t.literalKind? = i.op.operand) := by
  obtain ⟨is, his, rfl⟩ := Code.listing_eq_ok_iff.mp hlisting
  refine ⟨is, his, rfl, exists_defines hp hcode, ?_⟩
  intro body hbody i hi hoperand
  obtain ⟨items, hitems, hget⟩ := hbody.get? hp
  obtain rfl : code = Code.ofItems items := Option.some.inj (hcode.symm.trans hget)
  obtain ⟨k, hk⟩ := Option.isSome_iff_exists.mp hoperand
  have hholds := ((Code.instructions_eq_ok_iff.mp his).holds i hi).operand
  simp only [hk] at hholds ⊢
  obtain ⟨index, v, hi, hslot, hentry⟩ := hholds
  obtain ⟨item, j, hitem, hj, hv, hcount, hown⟩ := Code.item_of_operand hslot hentry
  obtain ⟨t, ht, htitem⟩ := Item.exists_token hitems hitem
  obtain ⟨u, hu, huitem⟩ := Item.exists_token hitems hj
  rw [← Token.literalKind?_of_ofToken htitem] at hown
  have hukind : u.literalKind? = some k := by
    rw [Token.literalKind?_of_ofToken huitem, Item.value?_ofValue]
    exact congrArg some hv
  have htake : (body.take j).map Item.ofToken = (items.take j).map .ok := by
    rw [List.map_take, hitems, List.map_take]
  refine ⟨t, index, j, u, ht, hslot, hu, hukind, ?_, ?_, hown, ?_, ?_⟩
  · rw [Item.countP_literalKind? htake, hcount]
  · rw [← Item.text_eq_shown huitem]
    simp only [Instruction.text, hi]
  · intro hshown
    rw [← hukind]
    exact Item.literalKind?_eq_of_shown_eq htitem huitem hshown.symm
  · intro hkind
    obtain rfl := hown.mpr hkind
    rw [hu] at ht
    cases ht
    rfl

/-! ## An operand of another kind -/

/-- A text with a string where the opcode takes an integer. -/
def misfit : String := "DEF main LOAD_CONST x LOAD_CONST 5 ENDDEF"

/-- The words of its one definition. -/
def misfitBody : List Token := [⟨"LOAD_CONST", 1⟩, ⟨"x", 1⟩, ⟨"LOAD_CONST", 1⟩, ⟨"5", 1⟩]

/-- The code of these words. Both operands are zero, each in its own pool. -/
def misfitCode : Code where
  slots := #[Opcode.loadConst.code, 0, Opcode.loadConst.code, 0]
  integers := #[5]
  strings := #["x"]

theorem assemble_misfit : assemble misfit = .ok (.ofList [("main", misfitCode)]) := rfl

theorem defines_misfit : Defines misfit "main" misfitBody := by
  let o : Opened := ⟨⟨"DEF", 1⟩, ⟨"main", 1⟩, misfitBody, rfl, by decide⟩
  exact ⟨[.definition ⟨o, ⟨"ENDDEF", 1⟩, rfl⟩], [], ⟨o, ⟨"ENDDEF", 1⟩, rfl⟩, [], rfl, rfl, rfl,
    fun d hd => absurd hd List.not_mem_nil, rfl⟩

/-- The line of an operand does not always show the operand's own token. -/
theorem operand_not_own :
    ¬ ∀ (source name : String) (p : Program) (code : Code) (is : List Instruction),
      assemble source = .ok p → p.get? name = some code → code.instructions = .ok is →
      ∀ body, Defines source name body → ∀ i ∈ is, ∀ index literal,
        i.operand = some (index, literal) →
        ∃ t, body[i.address + 1]? = some t ∧ literal.text = t.shown := by
  intro h
  obtain ⟨t, ht, hshown⟩ := h misfit "main" _ misfitCode _ assemble_misfit rfl rfl misfitBody
    defines_misfit _ List.mem_cons_self 0 (.integer 5) rfl
  cases ht
  exact absurd hshown (by decide)

/-- The first line shows another token than `x`. -/
theorem operand_tokens_misfit :
    ∃ is listing, misfitCode.listing = .ok listing ∧ misfitCode.instructions = .ok is ∧
      ∃ i ∈ is, ∃ index j u, misfitBody[i.address + 1]? = some ⟨"x", 1⟩ ∧
        misfitBody[j]? = some u ∧ j ≠ i.address + 1 ∧ u.shown ≠ "x" ∧
        i.text = "0:\tLOAD_CONST " ++ index ++ "\t(" ++ u.shown ++ ")" := by
  have hcode : (NameMap.ofList [("main", misfitCode)]).get? "main" = some misfitCode := rfl
  have hlisting : ∃ listing, misfitCode.listing = .ok listing :=
    ⟨_, Code.listing_eq_ok_iff.mpr ⟨_, rfl, rfl⟩⟩
  obtain ⟨listing, hlisting⟩ := hlisting
  obtain ⟨is, his, -, -, htokens⟩ := operand_tokens assemble_misfit hcode hlisting
  refine ⟨is, listing, hlisting, his, ?_⟩
  cases his
  obtain ⟨t, index, j, u, ht, -, hu, -, -, htext, hown, hshown⟩ :=
    htokens misfitBody defines_misfit _ List.mem_cons_self rfl
  cases ht
  have hkind : ¬ (Token.mk "x" 1).literalKind? = Opcode.loadConst.operand := by decide
  exact ⟨_, List.mem_cons_self, index.repr, j, u, rfl, hu, mt hown.mp hkind, mt hshown.mp hkind,
    htext⟩

end Program

end PoolMachine
