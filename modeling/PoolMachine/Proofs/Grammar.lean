import PoolMachine.Proofs.RoundTrip

/-!
# The grammar of assembly text

Assembly text is a sequence of passages. A passage is a complete definition of a function, or a
single token outside of definitions, which is anything but `DEF`. A definition is `DEF`, a name, a
body and `ENDDEF`; the name is any token at all, and a body has no `DEF`, no `ENDDEF` and no numeral
beyond the range of words.

**Theorem (`Assembly.program_grammar`).** Tokens assemble exactly if they are such a sequence. The
program then has the names of the definitions, and the code of a name encodes the body of its last
definition. All other tokens are passages, a definition that has been opened, and a fault there: the
tokens up to the fault can still be completed to a sequence of passages, and with the token at fault
they cannot. The error is that of the fault.

Passages and faults carry the proofs that they are well-formed, so the sweep over each of them is
one equation (`build_join`, `build_flaw`). The rest is that every list of tokens is of one of the
two forms (`exists_reading`), by the token that ends the longest body.
-/

namespace PoolMachine

/-! ## Words of a body -/

namespace Token

variable {t : Token}

/-- A run of digits whose value is beyond the range of words. -/
def TooLarge (t : Token) : Prop :=
  t.text.toList.all Char.isDigit = true ∧ 2 ^ 63 - 1 < Text.decimal t.text

/-- A token that may stand in a body. -/
def IsBodyWord (t : Token) : Prop :=
  t.text ≠ "DEF" ∧ t.text ≠ "ENDDEF" ∧ ¬ t.TooLarge

instance (t : Token) : Decidable t.TooLarge := inferInstanceAs (Decidable (_ ∧ _))

instance (t : Token) : Decidable t.IsBodyWord := inferInstanceAs (Decidable (_ ∧ _ ∧ _))

theorem TooLarge.text_ne (h : t.TooLarge) {w : String} (hw : w.toList.all Char.isDigit = false) :
    t.text ≠ w := by
  rintro rfl
  exact absurd (h.1.symm.trans hw) (by decide)

theorem TooLarge.numeral? (h : t.TooLarge) :
    Text.numeral? t.text.toList = some (Text.decimal t.text) := by
  have hne : t.text.toList ≠ [] := by
    intro hnil
    have hlarge := h.2
    rw [Text.decimal, hnil] at hlarge
    exact absurd hlarge (by decide)
  exact Text.numeral?_eq_some_iff.mpr ⟨hne, h.1, rfl⟩

end Token

namespace Item

variable {t : Token}

theorem ofToken_tooLarge (h : t.TooLarge) :
    ofToken t = .error ⟨t.line, .integerOutOfRange t.text⟩ := by
  have hlarge : ¬ Text.decimal t.text ≤ largestNumeral := Nat.not_le.mpr h.2
  rw [ofToken_of_numeral h.numeral?, if_neg hlarge]

theorem exists_ofToken (h : ¬ t.TooLarge) : ∃ item, ofToken t = .ok item := by
  unfold ofToken
  split
  · exact ⟨_, rfl⟩
  · split
    case h_1 n hn =>
      by_cases hsmall : n ≤ largestNumeral
      · exact ⟨_, if_pos hsmall⟩
      · -- A numeral that does not fit is a token that is too large.
        obtain ⟨-, hdigits, rfl⟩ := Text.numeral?_eq_some_iff.mp hn
        exact absurd ⟨hdigits, Nat.not_le.mp hsmall⟩ h
    case h_2 =>
      by_cases htrue : t.text = "True"
      · exact ⟨_, if_pos htrue⟩
      · by_cases hfalse : t.text = "False"
        · exact ⟨_, by rw [if_neg htrue, if_pos hfalse]⟩
        · exact ⟨_, by rw [if_neg htrue, if_neg hfalse]⟩

end Item

/-! ## Passages -/

namespace Grammar

/-- A definition up to some word of its body. -/
structure Opened where
  opening : Token
  name : Token
  body : List Token
  opening_text : opening.text = "DEF"
  body_words : ∀ t ∈ body, t.IsBodyWord

/-- A complete definition. -/
structure Definition extends Opened where
  closing : Token
  closing_text : closing.text = "ENDDEF"

/-- What assembly text is made of. -/
inductive Passage
  | stray (t : Token) (h : t.text ≠ "DEF")
  | definition (d : Definition)

def Opened.tokens (o : Opened) : List Token := o.opening :: o.name :: o.body

namespace Passage

def tokens : Passage → List Token
  | stray t _ => [t]
  | definition d => d.tokens ++ [d.closing]

def definition? : Passage → Option Definition
  | stray _ _ => none
  | definition d => some d

/-- The tokens of a sequence of passages. -/
def join (ps : List Passage) : List Token := ps.flatMap tokens

/-- The definitions in a sequence of passages. -/
def definitions (ps : List Passage) : List Definition := ps.filterMap definition?

theorem join_append (ps qs : List Passage) : join (ps ++ qs) = join ps ++ join qs :=
  List.flatMap_append

theorem definitions_cons (p : Passage) (ps : List Passage) :
    definitions (p :: ps) = p.definition?.toList ++ definitions ps := by
  cases p <;> rfl

end Passage

/-- Tokens that can be completed to a sequence of passages. -/
def Viable (ts : List Token) : Prop := ∃ us ps, Passage.join ps = ts ++ us

/-- A code encodes a body: it has a slot for each word, which holds the code of a mnemonic or counts
the literals of the same kind before, and each pool holds the literals of its kind in order. -/
def Encodes (code : Code) (body : List Token) : Prop :=
  ∃ items : List Item, body.map Item.ofToken = items.map .ok ∧ code.length = items.length ∧
    (∀ before item after, items = before ++ item :: after →
      code.slots[before.length]? = some (item.slot (Item.count before))) ∧
    ∀ k, code.literals k = (items.filterMap Item.value?).filter (·.kind = k)

theorem encodes_ofItems {body : List Token} {items : List Item}
    (h : body.map Item.ofToken = items.map .ok) : Encodes (Code.ofItems items) body := by
  refine ⟨items, h, Code.length_ofItems items, ?_, Code.literals_ofItems items⟩
  rintro before item after rfl
  exact Code.slot_ofItems before item after

/-! ## Faults -/

/-- A place where the tokens stop being a sequence of passages. -/
inductive Flaw
  /-- There is no name after `DEF`. -/
  | nameless (opening : Token) (h : opening.text = "DEF")
  /-- There is no `ENDDEF`. -/
  | unended (o : Opened)
  /-- There is a `DEF` in a body. -/
  | nested (o : Opened) (t : Token) (h : t.text = "DEF")
  /-- There is a numeral in a body that is too large. -/
  | overflow (o : Opened) (t : Token) (h : t.TooLarge)

namespace Flaw

/-- The tokens of the definition in which a flaw lies, up to the flaw. -/
def tokens : Flaw → List Token
  | nameless opening _ => [opening]
  | unended o | nested o _ _ | overflow o _ _ => o.tokens

/-- The token at fault; the end of the text is none. -/
def token? : Flaw → Option Token
  | nameless _ _ | unended _ => none
  | nested _ t _ | overflow _ t _ => some t

def error : Flaw → AssemblyError
  | nameless opening _ => ⟨opening.line, .missingName⟩
  | unended o => ⟨o.opening.line, .unterminated o.name.text⟩
  | nested o t _ => ⟨t.line, .nested o.name.text⟩
  | overflow _ t _ => ⟨t.line, .integerOutOfRange t.text⟩

end Flaw

/-! ## Sweeping over passages -/

open Assembly

namespace Opened

variable (o : Opened)

/-- The items for which the words of the body stand. -/
def items : List Item := o.body.filterMap fun t => (Item.ofToken t).toOption

theorem map_ofToken_body : o.body.map Item.ofToken = o.items.map .ok := by
  obtain ⟨opening, name, body, -, hbody⟩ := o
  show body.map Item.ofToken = (body.filterMap fun t => (Item.ofToken t).toOption).map .ok
  induction body with
  | nil => rfl
  | cons t ts ih =>
    obtain ⟨item, hitem⟩ := Item.exists_ofToken (hbody t List.mem_cons_self).2.2
    have hrest := ih fun u hu => hbody u (List.mem_cons_of_mem t hu)
    rw [List.map_cons, hrest, List.filterMap_cons, hitem]
    rfl

theorem build_tokens (ts : List Token) :
    build .outside (o.tokens ++ ts) =
      build (.body o.opening.line o.name.text (Code.ofItems o.items)) ts := by
  have hbracket : ∀ t ∈ o.body, t.text ≠ "DEF" ∧ t.text ≠ "ENDDEF" := by
    intro t ht
    exact ⟨(o.body_words t ht).1, (o.body_words t ht).2.1⟩
  show build .outside (o.opening :: o.name :: (o.body ++ ts)) = _
  rw [build, if_pos o.opening_text, build, build_body o.map_ofToken_body hbracket, Code.ofItems]

end Opened

/-- The function that a definition defines. -/
def Definition.function (d : Definition) : String × Code := (d.name.text, Code.ofItems d.items)

theorem build_passage (p : Passage) (ts : List Token) :
    build .outside (p.tokens ++ ts) =
      ⟨(p.definition?.map Definition.function).toList ++ (build .outside ts).functions,
        (build .outside ts).error⟩ := by
  cases p with
  | stray t h =>
    show build .outside (t :: ts) = _
    rw [build, if_neg h]
    rfl
  | definition d =>
    show build .outside (d.tokens ++ [d.closing] ++ ts) = _
    rw [List.append_assoc, d.build_tokens, List.singleton_append, build, if_pos d.closing_text]
    rfl

/-- **The sweep over passages** finds their definitions. -/
theorem build_join (ps : List Passage) (ts : List Token) :
    build .outside (Passage.join ps ++ ts) =
      ⟨(Passage.definitions ps).map Definition.function ++ (build .outside ts).functions,
        (build .outside ts).error⟩ := by
  induction ps with
  | nil => rfl
  | cons p ps ih =>
    show build .outside (p.tokens ++ Passage.join ps ++ ts) = _
    rw [List.append_assoc, build_passage, ih, Passage.definitions_cons]
    cases p.definition? <;> rfl

/-- **The sweep stops at a flaw**, with its error. -/
theorem build_flaw (f : Flaw) {ts : List Token} (h : ts.head? = f.token?) :
    build .outside (f.tokens ++ ts) = ⟨[], some f.error⟩ := by
  cases f with
  | nameless opening hopening =>
    obtain rfl : ts = [] := List.head?_eq_none_iff.mp h
    show build .outside [opening] = _
    rw [build, if_pos hopening]
    rfl
  | unended o =>
    obtain rfl : ts = [] := List.head?_eq_none_iff.mp h
    exact o.build_tokens []
  | nested o t ht =>
    obtain ⟨us, rfl⟩ := List.head?_eq_some_iff.mp h
    have hend : ¬ t.text = "ENDDEF" := by
      rw [ht]
      decide
    show build .outside (o.tokens ++ t :: us) = _
    rw [o.build_tokens, build, if_neg hend, if_pos ht]
    rfl
  | overflow o t ht =>
    obtain ⟨us, rfl⟩ := List.head?_eq_some_iff.mp h
    have hend : ¬ t.text = "ENDDEF" := ht.text_ne (by decide)
    have hdef : ¬ t.text = "DEF" := ht.text_ne (by decide)
    show build .outside (o.tokens ++ t :: us) = _
    rw [o.build_tokens, build, if_neg hend, if_neg hdef, Item.ofToken_tooLarge ht]
    rfl

theorem build_join_flaw (ps : List Passage) (f : Flaw) {ts : List Token}
    (h : ts.head? = f.token?) :
    (build .outside (Passage.join ps ++ f.tokens ++ ts)).error = some f.error := by
  rw [List.append_assoc, build_join, build_flaw f h]

/-! ## Reading tokens as passages -/

/-- The longest body in front, and what follows it. -/
theorem exists_body (ts : List Token) :
    ∃ body rest, ts = body ++ rest ∧ (∀ t ∈ body, t.IsBodyWord) ∧
      ∀ t ∈ rest.head?, ¬ t.IsBodyWord := by
  refine ⟨ts.takeWhile (·.IsBodyWord), ts.dropWhile (·.IsBodyWord),
    List.takeWhile_append_dropWhile.symm, ?_, ?_⟩
  · intro t ht
    have hall : (ts.takeWhile fun t => decide t.IsBodyWord).all _ = true := List.all_takeWhile
    exact of_decide_eq_true (List.all_eq_true.mp hall t ht)
  · intro t ht
    have hnot := List.head?_dropWhile_not (fun t : Token => decide t.IsBodyWord) ts
    rw [Option.mem_def.mp ht] at hnot
    simpa using hnot

/-- Tokens are a sequence of passages, or stop being one at a flaw. -/
def Reading (ts : List Token) : Prop :=
  (∃ ps, Passage.join ps = ts) ∨
    ∃ ps, ∃ f : Flaw, ∃ us, Passage.join ps ++ f.tokens ++ us = ts ∧ us.head? = f.token?

theorem Reading.cons (p : Passage) {ts : List Token} (h : Reading ts) :
    Reading (p.tokens ++ ts) := by
  rcases h with ⟨ps, rfl⟩ | ⟨ps, f, us, rfl, hus⟩
  · exact .inl ⟨p :: ps, rfl⟩
  · refine .inr ⟨p :: ps, f, us, ?_, hus⟩
    show p.tokens ++ Passage.join ps ++ f.tokens ++ us = _
    simp only [List.append_assoc]

/-- **Every list of tokens has a reading.** -/
theorem exists_reading (ts : List Token) : Reading ts := by
  -- Along the passages: what is left after one of them is shorter.
  induction hn : ts.length using Nat.strong_induction_on generalizing ts with
  | h n ih =>
    subst hn
    rcases ts with _ | ⟨t, ts⟩
    · exact .inl ⟨[], rfl⟩
    · by_cases hdef : t.text = "DEF"
      · rcases ts with _ | ⟨name, ts⟩
        · exact .inr ⟨[], .nameless t hdef, [], rfl, rfl⟩
        · obtain ⟨body, rest, rfl, hbody, hrest⟩ := exists_body ts
          let o : Opened := ⟨t, name, body, hdef, hbody⟩
          rcases rest with _ | ⟨u, us⟩
          · exact .inr ⟨[], .unended o, [], rfl, rfl⟩
          · by_cases hend : u.text = "ENDDEF"
            · have hshorter : us.length < (t :: name :: (body ++ u :: us)).length := by
                simp only [List.length_cons, List.length_append]
                omega
              have hreading := (ih _ hshorter us rfl).cons (.definition ⟨o, u, hend⟩)
              simpa [Passage.tokens, Opened.tokens, o] using hreading
            · by_cases hnested : u.text = "DEF"
              · exact .inr ⟨[], .nested o u hnested, u :: us, rfl, rfl⟩
              · have hlarge : u.TooLarge := by
                  by_contra hsmall
                  exact hrest u rfl ⟨hnested, hend, hsmall⟩
                exact .inr ⟨[], .overflow o u hlarge, u :: us, rfl, rfl⟩
      · exact (ih _ (Nat.lt_succ_self _) ts rfl).cons (.stray t hdef)

/-! ## Completions -/

/-- The tokens up to a flaw can be completed. -/
theorem viable_flaw (ps : List Passage) (f : Flaw) : Viable (Passage.join ps ++ f.tokens) := by
  have of_opened (o : Opened) : Viable (Passage.join ps ++ o.tokens) := by
    refine ⟨[⟨"ENDDEF", 0⟩], ps ++ [.definition ⟨o, ⟨"ENDDEF", 0⟩, rfl⟩], ?_⟩
    rw [Passage.join_append, List.append_assoc]
    exact congrArg _ (List.append_nil _)
  cases f with
  | nameless opening h =>
    obtain ⟨us, qs, hqs⟩ := of_opened ⟨opening, ⟨"", 0⟩, [], h, nofun⟩
    refine ⟨⟨"", 0⟩ :: us, qs, ?_⟩
    rw [hqs, List.append_assoc, List.append_assoc]
    rfl
  | unended o | nested o | overflow o => exact of_opened o

/-- With the token at fault they cannot. -/
theorem not_viable_flaw (ps : List Passage) {f : Flaw} {t : Token} (h : f.token? = some t) :
    ¬ Viable (Passage.join ps ++ f.tokens ++ [t]) := by
  rintro ⟨us, qs, hqs⟩
  have hflaw : (build .outside (Passage.join ps ++ f.tokens ++ t :: us)).error = some f.error :=
    build_join_flaw ps f h.symm
  have hjoin := build_join qs []
  rw [List.append_nil, hqs, List.append_assoc, List.singleton_append] at hjoin
  rw [hjoin] at hflaw
  cases hflaw

end Grammar

/-! ## Programs -/

namespace Assembly

open Grammar

theorem program_join (ps : List Passage) :
    (build .outside (Passage.join ps)).program =
      .ok (NameMap.ofList ((Passage.definitions ps).map Definition.function)) := by
  have hbuild := build_join ps []
  rw [List.append_nil] at hbuild
  rw [hbuild]
  simp [program, build]

theorem program_join_flaw (ps : List Passage) (f : Flaw) {ts : List Token}
    (h : ts.head? = f.token?) :
    (build .outside (Passage.join ps ++ f.tokens ++ ts)).program = .error f.error := by
  rw [program, build_join_flaw ps f h]

theorem exists_passages {ts : List Token} {p : Program}
    (h : (build .outside ts).program = .ok p) :
    ∃ ps, Passage.join ps = ts ∧
      p = NameMap.ofList ((Passage.definitions ps).map Definition.function) := by
  rcases exists_reading ts with ⟨ps, rfl⟩ | ⟨ps, f, us, rfl, hus⟩
  · rw [program_join ps] at h
    exact ⟨ps, rfl, (Except.ok.inj h).symm⟩
  · rw [program_join_flaw ps f hus] at h
    cases h

theorem exists_flaw {ts : List Token} {e : AssemblyError}
    (h : (build .outside ts).program = .error e) :
    ∃ ps, ∃ f : Flaw, ∃ us, Passage.join ps ++ f.tokens ++ us = ts ∧ us.head? = f.token? ∧
      f.error = e := by
  rcases exists_reading ts with ⟨ps, rfl⟩ | ⟨ps, f, us, rfl, hus⟩
  · rw [program_join ps] at h
    cases h
  · rw [program_join_flaw ps f hus] at h
    exact ⟨ps, f, us, rfl, hus, Except.error.inj h⟩

theorem get?_of_last {before after : List Definition} {d : Definition}
    (h : ∀ d' ∈ after, d'.name.text ≠ d.name.text) :
    (NameMap.ofList ((before ++ d :: after).map Definition.function)).get? d.name.text =
      some (Code.ofItems d.items) := by
  rw [NameMap.get?_ofList, List.lookup_eq_some_iff]
  refine ⟨(after.map Definition.function).reverse, (before.map Definition.function).reverse, ?_, ?_⟩
  · simp [Definition.function]
  · intro f hf
    obtain ⟨d', hd', rfl⟩ := List.mem_map.mp (List.mem_reverse.mp hf)
    exact bne_iff_ne.mpr (Ne.symm (h d' hd'))

theorem mem_names_ofList_function {ds : List Definition} {name : String} :
    name ∈ (NameMap.ofList (ds.map Definition.function)).names ↔
      ∃ d ∈ ds, d.name.text = name := by
  rw [NameMap.mem_names_iff, ← Option.isSome_iff_exists, NameMap.get?_ofList,
    List.lookup_isSome_iff]
  constructor
  · rintro ⟨f, hf, hname⟩
    obtain ⟨d, hd, rfl⟩ := List.mem_map.mp (List.mem_reverse.mp hf)
    exact ⟨d, hd, (beq_iff_eq.mp hname).symm⟩
  · rintro ⟨d, hd, rfl⟩
    exact ⟨d.function, List.mem_reverse.mpr (List.mem_map_of_mem hd), beq_self_eq_true _⟩

/-- **The grammar of assembly text**, and the leftmost fault where a text does not follow it. -/
theorem program_grammar (ts : List Token) :
    -- Tokens assemble exactly if they are a sequence of passages.
    ((∃ p, (build .outside ts).program = .ok p) ↔ ∃ ps, Passage.join ps = ts) ∧
    -- The program has the names of the definitions, and the last one of each name.
    (∀ ps p, Passage.join ps = ts → (build .outside ts).program = .ok p →
      (∀ name, name ∈ p.names ↔ ∃ d ∈ Passage.definitions ps, d.name.text = name) ∧
      ∀ before d after, Passage.definitions ps = before ++ d :: after →
        (∀ d' ∈ after, d'.name.text ≠ d.name.text) →
        ∃ code, p.get? d.name.text = some code ∧ Encodes code d.body) ∧
    -- An error is that of a flaw after passages.
    (∀ e, (build .outside ts).program = .error e ↔
      ∃ ps, ∃ f : Flaw, ∃ us, Passage.join ps ++ f.tokens ++ us = ts ∧ us.head? = f.token? ∧
        f.error = e) ∧
    -- It is the leftmost: what is before it can be completed, but not with the token at fault.
    (∀ ps, ∀ f : Flaw, ∀ us, Passage.join ps ++ f.tokens ++ us = ts → us.head? = f.token? →
      Viable (Passage.join ps ++ f.tokens) ∧
        ∀ t ∈ f.token?, ¬ Viable (Passage.join ps ++ f.tokens ++ [t])) := by
  refine ⟨⟨?_, ?_⟩, ?_, fun e => ⟨?_, ?_⟩, ?_⟩
  · rintro ⟨p, hp⟩
    obtain ⟨ps, hps, -⟩ := exists_passages hp
    exact ⟨ps, hps⟩
  · rintro ⟨ps, rfl⟩
    exact ⟨_, program_join ps⟩
  · rintro ps p rfl hp
    rw [program_join ps] at hp
    cases hp
    refine ⟨fun name => mem_names_ofList_function, fun before d after hds hlast => ?_⟩
    rw [hds]
    exact ⟨_, get?_of_last hlast, encodes_ofItems d.map_ofToken_body⟩
  · exact exists_flaw
  · rintro ⟨ps, f, us, rfl, hus, rfl⟩
    exact program_join_flaw ps f hus
  · intro ps f us _ _
    exact ⟨viable_flaw ps f, fun t ht => not_viable_flaw ps ht⟩

end Assembly

end PoolMachine
