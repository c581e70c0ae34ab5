import Mathlib.Data.Set.Operations
import Mathlib.Order.Interval.Set.Defs
import PoolMachine.Proofs.OperandTokens

/-!
# The pools of a function and its literals

**Theorem (`Program.laidOut_of_assemble`).** The code of a function is laid out along the words of
its last definition. Each word has one slot, with the code of its opcode or, for a literal, the
number of words of the same kind before it. The pools hold the literals of their kinds, in order and
each as often as it is written, and nothing else.

What kind of literal a word is depends on its text alone (`Token.literalKind?`), and the number of
words of the same kind before it is its rank (`Token.rank`). For each kind, the ranks of its words
are the places of its pool, each taken once (`Code.rank_bijOn`): the ranks grow from one word of the
kind to the next (`Code.count_take_lt`), and nothing else adds to a pool.
-/

namespace PoolMachine

/-! ## Words as literals -/

namespace Token

/-- The literal that a word is, for a word of the kind. -/
def literal (t : Token) : Kind → Value
  | .integer => .integer (Int64.ofNat (Text.decimal t.text))
  | .boolean => .boolean (t.text = "True")
  | .string => .string t.text

/-- The number of literals of a kind among the first words of a body. -/
def rank (body : List Token) (k : Kind) (i : Nat) : Nat :=
  (body.take i).countP (·.literalKind? = some k)

theorem countP_kinds (body : List Token) :
    body.countP (·.IsMnemonic) + body.countP (·.literalKind? = some .integer) +
      body.countP (·.literalKind? = some .boolean) +
      body.countP (·.literalKind? = some .string) = body.length := by
  induction body with
  | nil => rfl
  | cons t body ih =>
    simp only [List.countP_cons, ← literalKind?_eq_none_iff, List.length_cons] at ih ⊢
    rcases t.literalKind? with _ | k
    · simp
      omega
    · cases k <;> simp <;> omega

end Token

namespace Item

variable {t : Token} {v : Value}

theorem eq_literal (h : ofToken t = .ok (.ofValue v)) : v = t.literal v.kind := by
  rcases ofToken_cases h with
    ⟨op, -, hv⟩ | ⟨n, hn, -, hv⟩ | ⟨-, ⟨ht, hv⟩ | ⟨ht, hv⟩ | hv⟩ <;> cases v <;> cases hv
  · obtain ⟨-, -, rfl⟩ := Text.numeral?_eq_some_iff.mp hn
    rfl
  · simp [Token.literal, Value.kind, ht]
  · simp [Token.literal, Value.kind, ht]
  · rfl

theorem toInt_of_integer {n : Word} (h : ofToken t = .ok (.integer n)) :
    n.toInt = Text.decimal t.text := by
  rcases ofToken_cases h with
    ⟨op, -, hv⟩ | ⟨m, hm, hsmall, hv⟩ | ⟨-, ⟨-, hv⟩ | ⟨-, hv⟩ | hv⟩ <;> cases hv
  obtain ⟨-, -, rfl⟩ := Text.numeral?_eq_some_iff.mp hm
  exact Int64.toInt_ofNat_of_lt (Nat.lt_of_le_pred (by decide) hsmall)

end Item

/-! ## Layout of a body -/

/-- A code is laid out along the words of a body. -/
structure Code.LaidOut (code : Code) (body : List Token) : Prop where
  /-- Each word has one slot. -/
  length_eq : code.length = body.length
  /-- The slot of a mnemonic holds the code of its opcode. -/
  mnemonic : ∀ (i : Nat) (t : Token) (op : Opcode), body[i]? = some t → t.text = op.mnemonic →
    code.slots[i]? = some op.code
  /-- The slot of a literal holds the number of literals of the same kind before it. -/
  literal : ∀ (i : Nat) (t : Token) (k : Kind), body[i]? = some t → t.literalKind? = some k →
    code.slots[i]? = some (Token.rank body k i)
  /-- The integers are the values of the words of digits. -/
  integers : code.integers.toList.map Int64.toInt =
    (body.filter (·.literalKind? = some .integer)).map fun t => (Text.decimal t.text : Int)
  /-- The booleans are the truth values. -/
  booleans : code.booleans.toList =
    (body.filter (·.literalKind? = some .boolean)).map fun t => decide (t.text = "True")
  /-- The strings are the texts of the words that are nothing else. -/
  strings : code.strings.toList = (body.filter (·.literalKind? = some .string)).map Token.text
  /-- The literals of a kind and the places of its pool are in bijection. -/
  bijOn : ∀ k : Kind, Set.BijOn (Token.rank body k)
    {i | ∃ t, body[i]? = some t ∧ t.literalKind? = some k} (Set.Iio (code.poolSize k))
  /-- In its place lies the literal itself. -/
  entry : ∀ (i : Nat) (t : Token) (k : Kind), body[i]? = some t → t.literalKind? = some k →
    code.entry k (Token.rank body k i) = .ok (t.literal k)
  /-- What is not in a pool is a mnemonic. -/
  total : body.countP (·.IsMnemonic) + code.poolSize .integer + code.poolSize .boolean +
    code.poolSize .string = code.length

namespace Code

variable {body : List Token} {items : List Item}

theorem count_take_lt {i j : Nat} {v : Value} (h : items[i]? = some (.ofValue v)) (hij : i < j) :
    Item.count (items.take i) v.kind < Item.count (items.take j) v.kind := by
  have hnext : Item.count (items.take (i + 1)) v.kind = Item.count (items.take i) v.kind + 1 := by
    rw [List.take_add_one, h, Item.count_append]
    simp [Item.count]
  have hle : Item.count (items.take (i + 1)) v.kind ≤ Item.count (items.take j) v.kind :=
    (List.take_sublist_take_left hij).countP_le
  omega

section

variable (h : body.map Item.ofToken = items.map .ok)

include h

theorem exists_literal {i : Nat} {t : Token} {k : Kind} (ht : body[i]? = some t)
    (hk : t.literalKind? = some k) :
    ∃ v, items[i]? = some (.ofValue v) ∧ Item.ofToken t = .ok (.ofValue v) ∧ v.kind = k := by
  obtain ⟨item, hitem, hok⟩ := Item.exists_item h ht
  rw [Token.literalKind?_of_ofToken hok, Option.map_eq_some_iff] at hk
  obtain ⟨v, hv, hkind⟩ := hk
  obtain rfl := Item.eq_ofValue hv
  exact ⟨v, hitem, hok, hkind⟩

theorem rank_eq_count (k : Kind) (i : Nat) :
    Token.rank body k i = Item.count (items.take i) k := by
  have htake : (body.take i).map Item.ofToken = (items.take i).map .ok := by
    rw [List.map_take, h, List.map_take]
  exact Item.countP_literalKind? htake k

theorem poolSize_eq_countP (k : Kind) :
    (ofItems items).poolSize k = body.countP (·.literalKind? = some k) := by
  rw [poolSize_ofItems, Item.countP_literalKind? h]

/-- **Places and literals.** The ranks of the literals of a kind are the places of its pool. -/
theorem rank_bijOn (k : Kind) :
    Set.BijOn (Token.rank body k) {i | ∃ t, body[i]? = some t ∧ t.literalKind? = some k}
      (Set.Iio ((ofItems items).poolSize k)) := by
  refine ⟨?_, ?_, ?_⟩
  · intro i hi
    obtain ⟨t, ht, hk⟩ := hi
    obtain ⟨v, hv, -, rfl⟩ := exists_literal h ht hk
    show Token.rank body v.kind i < _
    rw [rank_eq_count h]
    exact exists_entry_iff.mp ⟨v, entry_of_getElem? hv⟩
  · intro i hi j hj hrank
    obtain ⟨t, ht, hk⟩ := hi
    obtain ⟨u, hu, hk'⟩ := hj
    obtain ⟨v, hv, -, rfl⟩ := exists_literal h ht hk
    obtain ⟨w, hw, -, hkind⟩ := exists_literal h hu hk'
    rw [rank_eq_count h, rank_eq_count h] at hrank
    rcases Nat.lt_trichotomy i j with hlt | heq | hlt
    · have hcount := count_take_lt hv hlt
      omega
    · exact heq
    · have hcount := count_take_lt hw hlt
      rw [hkind] at hcount
      omega
  · intro index hindex
    obtain ⟨v, hentry⟩ := exists_entry_iff.mpr hindex
    obtain ⟨before, after, rfl, hkind, hcount⟩ := exists_item_of_entry hentry
    have hitem : (before ++ Item.ofValue v :: after)[before.length]? = some (.ofValue v) := by simp
    obtain ⟨t, ht, hok⟩ := Item.exists_token h hitem
    refine ⟨before.length, ⟨t, ht, ?_⟩, ?_⟩
    · rw [Token.literalKind?_of_ofToken hok, Item.value?_ofValue, Option.map_some, hkind]
    · rw [rank_eq_count h, List.take_left]
      exact hcount

/-- The literals of a kind are those of the words of that kind, in order. -/
theorem literals_eq_map (k : Kind) :
    (ofItems items).literals k =
      (body.filter (·.literalKind? = some k)).map fun t => t.literal k := by
  rw [literals_ofItems]
  induction body generalizing items with
  | nil =>
    obtain rfl : items = [] := by simpa using h.symm
    rfl
  | cons t body ih =>
    cases items with
    | nil => cases h
    | cons item items =>
      obtain ⟨hitem, hrest⟩ := List.cons.inj h
      have hkind := Token.literalKind?_of_ofToken hitem
      rcases hvalue : item.value? with _ | v
      · rw [hvalue, Option.map_none] at hkind
        rw [List.filterMap_cons_none hvalue, List.filter_cons_of_neg (by simp [hkind]), ih hrest]
      · rw [hvalue, Option.map_some] at hkind
        obtain rfl := Item.eq_ofValue hvalue
        rw [List.filterMap_cons_some hvalue]
        by_cases hk : v.kind = k
        · subst hk
          rw [List.filter_cons_of_pos (by simp), List.filter_cons_of_pos (by simp [hkind]),
            List.map_cons, ih hrest, ← Item.eq_literal hitem]
        · rw [List.filter_cons_of_neg (by simp [hk]), List.filter_cons_of_neg (by simp [hkind, hk]),
            ih hrest]

theorem toList_pool_ofItems (k : Kind) (f : Token → k.Literal)
    (hf : ∀ t : Token, .ofLiteral k (f t) = t.literal k) :
    ((ofItems items).pool k).toList = (body.filter (·.literalKind? = some k)).map f := by
  have hinjective (a b : k.Literal) (heq : Value.ofLiteral k a = .ofLiteral k b) : a = b := by
    cases k <;> cases heq <;> rfl
  apply (List.map_inj_right hinjective).mp
  rw [List.map_map]
  exact (literals_eq_map h k).trans (List.map_congr_left fun t _ => (hf t).symm)

theorem integers_ofItems :
    (ofItems items).integers.toList.map Int64.toInt =
      (body.filter (·.literalKind? = some .integer)).map fun t => (Text.decimal t.text : Int) := by
  have hwords : (ofItems items).integers.toList =
      (body.filter (·.literalKind? = some .integer)).map
        fun t => Int64.ofNat (Text.decimal t.text) :=
    toList_pool_ofItems h .integer _ fun _ => rfl
  rw [hwords, List.map_map]
  apply List.map_congr_left
  intro t ht
  obtain ⟨hmem, hk⟩ := List.mem_filter.mp ht
  obtain ⟨i, hi⟩ := List.getElem?_of_mem hmem
  obtain ⟨v, -, hok, hkind⟩ := exists_literal h hi (of_decide_eq_true hk)
  rw [Item.eq_literal hok, hkind] at hok
  exact Item.toInt_of_integer hok

/-- The code of the items of a body is laid out along its words. -/
theorem laidOut_ofItems : (ofItems items).LaidOut body where
  length_eq := by
    have hlength := congrArg List.length h
    rw [List.length_map, List.length_map] at hlength
    rw [length_ofItems, hlength]
  mnemonic := by
    intro i t op ht hop
    obtain ⟨item, hitem, hok⟩ := Item.exists_item h ht
    have hmnemonic : Item.ofToken t = .ok (.instruction op) := by
      rw [← Item.ofToken_mnemonic op t.line, ← hop]
    cases hmnemonic.symm.trans hok
    exact slot_of_getElem? hitem
  literal := by
    intro i t k ht hk
    obtain ⟨v, hv, -, rfl⟩ := exists_literal h ht hk
    rw [slot_of_getElem? hv, Item.slot_ofValue, rank_eq_count h]
  integers := integers_ofItems h
  booleans := toList_pool_ofItems h .boolean _ fun _ => rfl
  strings := toList_pool_ofItems h .string _ fun _ => rfl
  bijOn := rank_bijOn h
  entry := by
    intro i t k ht hk
    obtain ⟨v, hv, hok, rfl⟩ := exists_literal h ht hk
    rw [rank_eq_count h, ← Item.eq_literal hok]
    exact entry_of_getElem? hv
  total := by
    have hlength := congrArg List.length h
    rw [List.length_map, List.length_map] at hlength
    rw [poolSize_eq_countP h, poolSize_eq_countP h, poolSize_eq_countP h, Token.countP_kinds,
      length_ofItems, hlength]

end

end Code

namespace Program

open Grammar

variable {text name : String} {p : Program} {code : Code}

/-- **The code of a function is laid out along the words of its last definition**, and its pools
hold their literals and nothing else. -/
theorem laidOut_of_assemble (hp : assemble text = .ok p) (hcode : p.get? name = some code) :
    (∃ body, Defines text name body) ∧ ∀ body, Defines text name body → code.LaidOut body := by
  refine ⟨exists_defines hp hcode, ?_⟩
  intro body hbody
  obtain ⟨items, hitems, hget⟩ := hbody.get? hp
  obtain rfl : code = Code.ofItems items := Option.some.inj (hcode.symm.trans hget)
  exact Code.laidOut_ofItems hitems

/-! ## Literals that are written twice -/

/-- A text with equal literals, and an earlier definition of the same name. -/
def repeats : String := "DEF f 9 ENDDEF DEF f LOAD_CONST 7 x 07 True x ENDDEF"

/-- The words of the last definition. -/
def repeatsBody : List Token :=
  [⟨"LOAD_CONST", 1⟩, ⟨"7", 1⟩, ⟨"x", 1⟩, ⟨"07", 1⟩, ⟨"True", 1⟩, ⟨"x", 1⟩]

/-- The code of these words. -/
def repeatsCode : Code where
  slots := #[Opcode.loadConst.code, 0, 0, 1, 0, 1]
  integers := #[7, 7]
  strings := #["x", "x"]
  booleans := #[true]

theorem defines_repeats : Defines repeats "f" repeatsBody := by
  let o : Opened := ⟨⟨"DEF", 1⟩, ⟨"f", 1⟩, [⟨"9", 1⟩], rfl, by decide⟩
  let o' : Opened := ⟨⟨"DEF", 1⟩, ⟨"f", 1⟩, repeatsBody, rfl, by decide⟩
  let d : Definition := ⟨o, ⟨"ENDDEF", 1⟩, rfl⟩
  let d' : Definition := ⟨o', ⟨"ENDDEF", 1⟩, rfl⟩
  exact ⟨[.definition d, .definition d'], [d], d', [], rfl, rfl, rfl,
    fun _ h => absurd h List.not_mem_nil, rfl⟩

/-- Both sevens and both strings have a place of their own. -/
theorem laidOut_repeats :
    ∃ p, assemble repeats = .ok p ∧ p.get? "f" = some repeatsCode ∧
      Defines repeats "f" repeatsBody ∧ repeatsCode.LaidOut repeatsBody := by
  have hp : assemble repeats = .ok (.ofList [("f", repeatsCode)]) := rfl
  have hcode : (NameMap.ofList [("f", repeatsCode)]).get? "f" = some repeatsCode := rfl
  exact ⟨_, hp, hcode, defines_repeats, (laidOut_of_assemble hp hcode).2 _ defines_repeats⟩

end Program

end PoolMachine
