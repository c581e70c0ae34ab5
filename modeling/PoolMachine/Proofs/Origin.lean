import PoolMachine.Proofs.Grammar

/-!
# Where a function comes from

A text may define a name several times; the last definition counts, and the words of its body are
all that a function is made of.

* **`Grammar.Defines`**: the words of the last definition of a name in a text.
* **`Program.exists_defines`**, **`Grammar.Defines.get?`**: every function of an assembled program
  has such words, and is the code of what they stand for.
* **`Program.isWord_of_assemble`**: the names and the strings of an assembled program are words of
  its text, and so hold no white space.
-/

namespace PoolMachine

/-! ## Words of a text -/

namespace Text

theorem not_sep_of_mem_pieces {sep : Char → Bool} {cs p : List Char} (h : p ∈ pieces sep cs) :
    ∀ c ∈ p, sep c = false := by
  induction cs generalizing p with
  | nil =>
    intro c hc
    rw [List.mem_singleton.mp h] at hc
    exact absurd hc List.not_mem_nil
  | cons a cs ih =>
    by_cases ha : sep a = true
    · rw [pieces_cons_of_sep ha] at h
      rcases List.mem_cons.mp h with rfl | h
      · intro c hc
        exact absurd hc List.not_mem_nil
      · exact ih h
    · have hfalse : sep a = false := Bool.not_eq_true _ ▸ ha
      obtain ⟨q, qs, hq⟩ := List.exists_cons_of_ne_nil (pieces_ne_nil sep cs)
      rw [pieces_cons_of_not_sep hfalse, hq] at h
      rw [hq] at ih
      rcases List.mem_cons.mp h with rfl | h
      · intro c hc
        rcases List.mem_cons.mp hc with rfl | hc
        · exact hfalse
        · exact ih List.mem_cons_self c hc
      · exact ih (List.mem_cons_of_mem q h)

theorem isWord_of_mem_words {cs w : List Char} (h : w ∈ words cs) : IsWord (String.ofList w) := by
  obtain ⟨hpiece, hne⟩ := List.mem_filter.mp h
  refine ⟨?_, ?_⟩
  · intro hempty
    have hnil : w = [] := by simpa using congrArg String.toList hempty
    simp [hnil] at hne
  · rw [String.toList_ofList]
    exact not_sep_of_mem_pieces hpiece

end Text

/-- **Tokens are words.** -/
theorem Token.isWord_of_mem_scan {text : String} {t : Token} (h : t ∈ scan text) :
    Text.IsWord t.text := by
  obtain ⟨l, -, ht⟩ := List.mem_flatMap.mp h
  unfold ofLine at ht
  by_cases hcomment : isComment l.1 = true
  · rw [if_pos hcomment] at ht
    exact absurd ht List.not_mem_nil
  · rw [if_neg hcomment] at ht
    obtain ⟨w, hw, rfl⟩ := List.mem_map.mp ht
    exact Text.isWord_of_mem_words hw

/-! ## What a word stands for -/

/-- **What a token stands for, by its text alone.** -/
theorem Item.ofToken_cases {t : Token} {item : Item} (h : ofToken t = .ok item) :
    (∃ op : Opcode, t.text = op.mnemonic ∧ item = .instruction op) ∨
    (∃ n, Text.numeral? t.text.toList = some n ∧ n ≤ largestNumeral ∧
      item = .integer (Int64.ofNat n)) ∨
    (Text.numeral? t.text.toList = none ∧
      ((t.text = "True" ∧ item = .boolean true) ∨ (t.text = "False" ∧ item = .boolean false) ∨
        item = .string t.text)) := by
  rcases hop : Opcode.ofMnemonic? t.text with _ | op
  · rcases hnumeral : Text.numeral? t.text.toList with _ | n
    · simp only [ofToken, hop, hnumeral] at h
      refine .inr (.inr ⟨rfl, ?_⟩)
      by_cases htrue : t.text = "True"
      · rw [if_pos htrue] at h
        exact .inl ⟨htrue, (Except.ok.inj h).symm⟩
      · rw [if_neg htrue] at h
        by_cases hfalse : t.text = "False"
        · rw [if_pos hfalse] at h
          exact .inr (.inl ⟨hfalse, (Except.ok.inj h).symm⟩)
        · rw [if_neg hfalse] at h
          exact .inr (.inr (Except.ok.inj h).symm)
    · simp only [ofToken, hop, hnumeral] at h
      by_cases hsmall : n ≤ largestNumeral
      · rw [if_pos hsmall] at h
        exact .inr (.inl ⟨n, rfl, hsmall, (Except.ok.inj h).symm⟩)
      · rw [if_neg hsmall] at h
        cases h
  · simp only [ofToken, hop] at h
    have hmnemonic : op.mnemonic = t.text := by
      have hfind := List.find?_some hop
      exact of_decide_eq_true hfind
    exact .inl ⟨op, hmnemonic.symm, (Except.ok.inj h).symm⟩

theorem Item.text_of_string {t : Token} {s : String} (h : ofToken t = .ok (.string s)) :
    t.text = s := by
  rcases ofToken_cases h with ⟨_, _, h⟩ | ⟨_, _, _, h⟩ | ⟨-, ⟨_, h⟩ | ⟨_, h⟩ | h⟩ <;> cases h
  rfl

/-! ## The last definition of a name -/

namespace Grammar

variable {text name : String} {body : List Token} {p : Program} {code : Code}

/-- The words of the last definition of a name in a text. -/
def Defines (text name : String) (body : List Token) : Prop :=
  ∃ ps before d after, Passage.join ps = Token.scan text ∧
    Passage.definitions ps = before ++ d :: after ∧ d.name.text = name ∧
    (∀ d' ∈ after, d'.name.text ≠ name) ∧ d.body = body

/-- **The function of a name is the code of its last definition.** -/
theorem Defines.get? (h : Defines text name body) (hp : Program.assemble text = .ok p) :
    ∃ items, body.map Item.ofToken = items.map .ok ∧ p.get? name = some (Code.ofItems items) := by
  obtain ⟨ps, before, d, after, hps, hds, rfl, hlast, rfl⟩ := h
  rw [Program.assemble, Assembly.ofText, ← hps, Assembly.program_join, hds] at hp
  cases hp
  exact ⟨d.items, d.map_ofToken_body, Assembly.get?_of_last hlast⟩

theorem exists_last {ds : List Definition} (h : ∃ d ∈ ds, d.name.text = name) :
    ∃ before d after, ds = before ++ d :: after ∧ d.name.text = name ∧
      ∀ d' ∈ after, d'.name.text ≠ name := by
  induction ds with
  | nil =>
    obtain ⟨d, hd, -⟩ := h
    exact absurd hd List.not_mem_nil
  | cons d ds ih =>
    by_cases hds : ∃ d' ∈ ds, d'.name.text = name
    · obtain ⟨before, d', after, rfl, hd', hlast⟩ := ih hds
      exact ⟨d :: before, d', after, rfl, hd', hlast⟩
    · obtain ⟨d', hd', hname⟩ := h
      rcases List.mem_cons.mp hd' with rfl | hd'
      · refine ⟨[], d', ds, rfl, hname, ?_⟩
        intro d'' hd'' hname''
        exact hds ⟨d'', hd'', hname''⟩
      · exact absurd ⟨d', hd', hname⟩ hds

theorem tokens_sublist_join {ps : List Passage} {d : Definition}
    (hd : d ∈ Passage.definitions ps) : d.tokens.Sublist (Passage.join ps) := by
  obtain ⟨q, hq, hdq⟩ := List.mem_filterMap.mp hd
  cases q with
  | stray u hu => cases hdq
  | definition d' =>
    cases hdq
    have hpassage := List.sublist_flatten_of_mem (List.mem_map_of_mem (f := Passage.tokens) hq)
    exact (List.sublist_append_left _ _).trans hpassage

theorem exists_token_of_mem_literals {items : List Item} {k : Kind} {v : Value}
    (h : body.map Item.ofToken = items.map .ok) (hv : v ∈ (Code.ofItems items).literals k) :
    ∃ t ∈ body, Item.ofToken t = .ok (.ofValue v) := by
  rw [Code.literals_ofItems] at hv
  obtain ⟨item, hitem, hvalue⟩ := List.mem_filterMap.mp (List.mem_filter.mp hv).1
  obtain rfl := Item.eq_ofValue hvalue
  exact List.mem_map.mp (h ▸ List.mem_map_of_mem hitem)

end Grammar

namespace Program

open Grammar

variable {text name : String} {p : Program} {code : Code}

theorem exists_defines (hp : assemble text = .ok p) (hcode : p.get? name = some code) :
    ∃ body, Defines text name body := by
  obtain ⟨ps, hps, rfl⟩ := Assembly.exists_passages hp
  have hname := Assembly.mem_names_ofList_function.mp (NameMap.mem_names_iff.mpr ⟨code, hcode⟩)
  obtain ⟨before, d, after, hds, hd, hlast⟩ := exists_last hname
  exact ⟨d.body, ps, before, d, after, hps, hds, hd, hlast, rfl⟩

theorem exists_items (hp : assemble text = .ok p) (hcode : p.get? name = some code) :
    ∃ (body : List Token) (items : List Item), body.map Item.ofToken = items.map .ok ∧
      code = Code.ofItems items ∧ body.Sublist (Token.scan text) := by
  obtain ⟨body, hbody⟩ := exists_defines hp hcode
  obtain ⟨items, hitems, hget⟩ := hbody.get? hp
  obtain ⟨ps, before, d, after, hps, hds, -, -, rfl⟩ := hbody
  refine ⟨d.body, items, hitems, Option.some.inj (hcode.symm.trans hget), ?_⟩
  have hd : d ∈ Passage.definitions ps := hds ▸ List.mem_append_right _ List.mem_cons_self
  rw [← hps]
  exact .trans (.cons _ (.cons _ (.refl _))) (tokens_sublist_join hd)

theorem exists_token_of_literal (hp : assemble text = .ok p) (hcode : p.get? name = some code)
    {k : Kind} {v : Value} (hv : v ∈ code.literals k) :
    ∃ t ∈ Token.scan text, Item.ofToken t = .ok (.ofValue v) := by
  obtain ⟨body, items, hitems, rfl, hsub⟩ := exists_items hp hcode
  obtain ⟨t, ht, hitem⟩ := exists_token_of_mem_literals hitems hv
  exact ⟨t, hsub.mem ht, hitem⟩

/-- **The names and the strings of an assembled program are words.** -/
theorem isWord_of_assemble (hp : assemble text = .ok p) :
    ∀ f ∈ p.toList, Text.IsWord f.1 ∧ ∀ s ∈ f.2.strings.toList, Text.IsWord s := by
  obtain ⟨ps, hps, rfl⟩ := Assembly.exists_passages hp
  have hword {d : Definition} (hd : d ∈ Passage.definitions ps) {t : Token} (ht : t ∈ d.tokens) :
      Text.IsWord t.text :=
    Token.isWord_of_mem_scan (hps ▸ (tokens_sublist_join hd).mem ht)
  intro f hf
  obtain ⟨d, hd, rfl⟩ := List.mem_map.mp (NameMap.mem_of_mem_ofList hf)
  refine ⟨hword hd (List.mem_cons_of_mem _ List.mem_cons_self), ?_⟩
  intro s hs
  obtain ⟨t, ht, hitem⟩ := exists_token_of_mem_literals (k := .string) (v := .string s)
    d.map_ofToken_body (List.mem_map_of_mem hs)
  rw [← Item.text_of_string hitem]
  exact hword hd (List.mem_cons_of_mem _ (List.mem_cons_of_mem _ ht))

end Program

end PoolMachine
