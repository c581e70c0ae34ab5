import PoolMachine.Proofs.LineEndings

/-!
# Tokens as runs of characters

A run is a part of a text that holds no white space and has white space, or an end of the text, on
both sides. It lies on a line, the part of the text around it up to the next line feeds, and that
line is a comment if its first character other than white space is `#`.

**Theorem (`Token.scan_eq_runs`).** The tokens of a text are its runs that lie on no comment, in the
order of the text. A token is on the line whose number is one more than the number of line feeds in
front of it.

A run is a place in the text as a whole, and there are no lines and words in its definition. White
space divides the runs of a text into those of the text in front of it and those of the text behind
it (`Run.eq_extend_or_eq_behind`). So all runs of a line come from the same recursion as its words
(`exists_words`), and all runs of a text from the same recursion as its tokens (`exists_tokens`).
-/

namespace PoolMachine.Text

/-! ## Runs -/

/-- A run of characters other than white space that cannot be made longer. -/
@[ext] structure Run (cs : List Char) where
  before : List Char
  word : List Char
  after : List Char
  text_eq : before ++ (word ++ after) = cs
  ne_nil : word ≠ []
  not_blank : ∀ c ∈ word, isBlank c = false
  blank_before : ∀ c ∈ before.getLast?, isBlank c = true
  blank_after : ∀ c ∈ after.head?, isBlank c = true

namespace Run

variable {as bs cs : List Char} {c : Char}

/-- The characters around a run, up to the next line feed on both sides. -/
def line (r : Run cs) : List Char :=
  (r.before.reverse.takeWhile (· != '\n')).reverse ++
    (r.word ++ r.after.takeWhile (· != '\n'))

/-- Whether a run lies on a comment. -/
def Commented (r : Run cs) : Prop := r.line.find? (!isBlank ·) = some '#'

instance (r : Run cs) : Decidable r.Commented := inferInstanceAs (Decidable (_ = _))

/-- The word of a run, with the number of its line. -/
def token (r : Run cs) : Token := ⟨String.ofList r.word, 1 + r.before.count '\n'⟩

/-- The same run in a text that goes on behind white space. -/
def extend (hc : isBlank c = true) (bs : List Char) (r : Run as) : Run (as ++ c :: bs) where
  before := r.before
  word := r.word
  after := r.after ++ c :: bs
  text_eq := by simp only [← r.text_eq, List.append_assoc]
  ne_nil := r.ne_nil
  not_blank := r.not_blank
  blank_before := r.blank_before
  blank_after := by
    intro d hd
    rcases hafter : r.after with _ | ⟨x, xs⟩
    · rw [hafter] at hd
      cases hd
      exact hc
    · rw [hafter] at hd
      exact r.blank_after d (hafter ▸ hd)

/-- The same run with more text in front of it, and white space between. -/
def behind (hc : isBlank c = true) (as : List Char) (r : Run bs) : Run (as ++ c :: bs) where
  before := as ++ c :: r.before
  word := r.word
  after := r.after
  text_eq := by simp only [← r.text_eq, List.append_assoc, List.cons_append]
  ne_nil := r.ne_nil
  not_blank := r.not_blank
  blank_before := by
    intro d hd
    rw [List.getLast?_append, List.getLast?_cons] at hd
    rcases hlast : r.before.getLast? with _ | x
    · rw [hlast] at hd
      cases hd
      exact hc
    · rw [hlast] at hd
      cases hd
      exact r.blank_before _ hlast
  blank_after := r.blank_after

theorem length_before_le (r : Run cs) : r.before.length ≤ cs.length := by
  have hlength := congrArg List.length r.text_eq
  rw [List.length_append] at hlength
  omega

/-- **White space divides the runs** into those in front of it and those behind it. -/
theorem eq_extend_or_eq_behind (hc : isBlank c = true) (r : Run (as ++ c :: bs)) :
    (∃ r' : Run as, r'.extend hc bs = r) ∨ ∃ r' : Run bs, r'.behind hc as = r := by
  have hword : c ∉ r.word := fun hmem => Bool.eq_false_iff.mp (r.not_blank c hmem) hc
  rcases List.append_eq_append_iff.mp r.text_eq with ⟨xs, has, hxs⟩ | ⟨xs, hbefore, hxs⟩
  · left
    -- The run starts in front of the white space, so it ends there too.
    obtain ⟨ys, hys, hafter⟩ : ∃ ys, xs = r.word ++ ys ∧ r.after = ys ++ c :: bs := by
      rcases List.append_eq_append_iff.mp hxs with hend | ⟨ys, hys, hafter⟩
      · exact hend
      · cases ys with
        | nil => exact ⟨[], by simpa using hys.symm, hafter.symm⟩
        | cons y ys =>
          obtain ⟨rfl, -⟩ := List.cons.inj hafter
          exact absurd (hys ▸ List.mem_append_right _ List.mem_cons_self) hword
    refine ⟨⟨r.before, r.word, ys, ?_, r.ne_nil, r.not_blank, r.blank_before, ?_⟩, ?_⟩
    · rw [← hys]
      exact has.symm
    · intro d hd
      apply r.blank_after
      rw [hafter, List.head?_append, Option.mem_def.mp hd]
      rfl
    · exact Run.ext rfl rfl hafter.symm
  · right
    obtain ⟨ys, rfl, hbs⟩ : ∃ ys, xs = c :: ys ∧ bs = ys ++ (r.word ++ r.after) := by
      cases xs with
      | nil =>
        obtain ⟨x, word, hx⟩ := List.exists_cons_of_ne_nil r.ne_nil
        rw [List.nil_append, hx, List.cons_append] at hxs
        obtain ⟨rfl, -⟩ := List.cons.inj hxs
        exact absurd (hx ▸ List.mem_cons_self) hword
      | cons x xs =>
        obtain ⟨rfl, hbs⟩ := List.cons.inj hxs
        exact ⟨xs, rfl, hbs⟩
    refine ⟨⟨ys, r.word, r.after, hbs.symm, r.ne_nil, r.not_blank, ?_, r.blank_after⟩, ?_⟩
    · intro d hd
      apply r.blank_before
      rw [hbefore, List.getLast?_append, List.getLast?_cons, Option.mem_def.mp hd]
      rfl
    · exact Run.ext hbefore.symm rfl rfl

/-! ## All runs of a text -/

/-- A list of all runs of a text, in the order of the text. -/
structure Enumerates (rs : List (Run cs)) : Prop where
  sorted : rs.Pairwise fun r s => r.before.length < s.before.length
  complete : ∀ r, r ∈ rs

theorem Enumerates.join (hc : isBlank c = true) {rs : List (Run as)} {ss : List (Run bs)}
    (hrs : Enumerates rs) (hss : Enumerates ss) :
    Enumerates (rs.map (extend hc bs) ++ ss.map (behind hc as)) where
  sorted := by
    rw [List.pairwise_append, List.pairwise_map, List.pairwise_map]
    refine ⟨hrs.sorted, ?_, ?_⟩
    · refine hss.sorted.imp ?_
      intro r s hlt
      simpa [behind] using hlt
    · intro r hr s hs
      obtain ⟨r, -, rfl⟩ := List.mem_map.mp hr
      obtain ⟨s, -, rfl⟩ := List.mem_map.mp hs
      have hle := r.length_before_le
      simp only [extend, behind, List.length_append, List.length_cons]
      omega
  complete := by
    intro r
    rcases eq_extend_or_eq_behind hc r with ⟨r, rfl⟩ | ⟨r, rfl⟩
    · exact List.mem_append_left _ (List.mem_map_of_mem (hrs.complete r))
    · exact List.mem_append_right _ (List.mem_map_of_mem (hss.complete r))

theorem mem_of_mem_before (r : Run cs) (h : c ∈ r.before) : c ∈ cs :=
  r.text_eq ▸ List.mem_append_left _ h

theorem mem_of_mem_after (r : Run cs) (h : c ∈ r.after) : c ∈ cs :=
  r.text_eq ▸ List.mem_append_right _ (List.mem_append_right _ h)

theorem eq_whole (h : ∀ c ∈ cs, isBlank c = false) (r : Run cs) :
    r.before = [] ∧ r.word = cs ∧ r.after = [] := by
  have hbefore : r.before = [] := by
    by_contra hne
    have hlast := List.getLast?_eq_some_getLast hne
    have hmem := r.mem_of_mem_before (List.mem_of_getLast? hlast)
    exact Bool.eq_false_iff.mp (h _ hmem) (r.blank_before _ hlast)
  have hafter : r.after = [] := by
    by_contra hne
    have hhead := List.head?_eq_some_head hne
    have hmem := r.mem_of_mem_after (List.mem_of_head? hhead)
    exact Bool.eq_false_iff.mp (h _ hmem) (r.blank_after _ hhead)
  have htext := r.text_eq
  rw [hbefore, hafter, List.nil_append, List.append_nil] at htext
  exact ⟨hbefore, htext, hafter⟩

theorem exists_enumerates_of_not_blank (h : ∀ c ∈ cs, isBlank c = false) :
    ∃ rs : List (Run cs), Enumerates rs ∧ rs.map word = words cs := by
  rw [words, pieces_of_forall_not h]
  by_cases hcs : cs = []
  · refine ⟨[], ⟨List.Pairwise.nil, ?_⟩, ?_⟩
    · intro r
      exact absurd ((r.eq_whole h).2.1.trans hcs) r.ne_nil
    · rw [hcs]
      rfl
  · refine ⟨[⟨[], cs, [], List.append_nil cs, hcs, h, by simp, by simp⟩], ⟨?_, ?_⟩, ?_⟩
    · exact List.pairwise_singleton _ _
    · intro r
      obtain ⟨hbefore, hword, hafter⟩ := r.eq_whole h
      exact List.mem_singleton.mpr (Run.ext hbefore hword hafter)
    · simp [hcs]

end Run

/-- Induction over the pieces of a text: a text without separators, and one more piece in front. -/
@[elab_as_elim] theorem pieces_induction (sep : Char → Bool) {motive : List Char → Prop}
    (whole : ∀ cs, (∀ c ∈ cs, sep c = false) → motive cs)
    (join : ∀ as c bs, (∀ a ∈ as, sep a = false) → sep c = true → motive bs →
      motive (as ++ c :: bs))
    (cs : List Char) : motive cs := by
  suffices h : ∀ as, (∀ a ∈ as, sep a = false) → motive (as ++ cs) from h [] nofun
  induction cs with
  | nil =>
    intro as has
    rw [List.append_nil]
    exact whole as has
  | cons c cs ih =>
    intro as has
    by_cases hc : sep c = true
    · exact join as c cs has hc (ih [] nofun)
    · have hfalse : sep c = false := Bool.not_eq_true _ ▸ hc
      rw [List.append_cons]
      apply ih
      intro a ha
      rcases List.mem_append.mp ha with ha | ha
      · exact has a ha
      · rw [List.mem_singleton.mp ha]
        exact hfalse

/-- **The words of a text are its runs.** -/
theorem exists_words (cs : List Char) :
    ∃ rs : List (Run cs), Run.Enumerates rs ∧ rs.map Run.word = words cs := by
  induction cs using pieces_induction isBlank with
  | whole cs hcs => exact Run.exists_enumerates_of_not_blank hcs
  | join as c bs has hc ih =>
    obtain ⟨ss, hss, hwords⟩ := ih
    obtain ⟨rs, hrs, hword⟩ := Run.exists_enumerates_of_not_blank has
    refine ⟨_, hrs.join hc hss, ?_⟩
    rw [words_append_cons hc, ← hword, ← hwords, List.map_append, List.map_map, List.map_map]
    rfl

/-! ## Runs on lines -/

namespace Run

variable {as bs cs : List Char}

theorem takeWhile_append_lineFeed (xs ys : List Char) :
    (xs ++ '\n' :: ys).takeWhile (· != '\n') = xs.takeWhile (· != '\n') := by
  rw [List.takeWhile_append]
  split
  · next hlength =>
    rw [List.takeWhile_cons_of_neg (by decide), List.append_nil]
    exact ((List.takeWhile_prefix _).eq_of_length hlength).symm
  · rfl

theorem line_extend (h : isBlank '\n' = true) (r : Run as) : (r.extend h bs).line = r.line := by
  simp only [line, extend, takeWhile_append_lineFeed]

theorem line_behind (h : isBlank '\n' = true) (r : Run bs) : (r.behind h as).line = r.line := by
  simp only [line, behind, List.reverse_append, List.reverse_cons, List.append_assoc,
    List.singleton_append, takeWhile_append_lineFeed]

theorem token_extend (h : isBlank '\n' = true) (r : Run as) : (r.extend h bs).token = r.token := rfl

theorem token_behind (h : isBlank '\n' = true) (r : Run bs) :
    (r.behind h as).token = r.token.renumber (· + (1 + as.count '\n')) := by
  have hcount : 1 + (as ++ '\n' :: r.before).count '\n' =
      1 + r.before.count '\n' + (1 + as.count '\n') := by
    rw [List.count_append, List.count_cons_self]
    omega
  exact congrArg (Token.mk (String.ofList r.word)) hcount

/-- The tokens of runs, without those that lie on a comment. -/
def tokens (rs : List (Run cs)) : List Token := (rs.filter fun r => ¬ r.Commented).map token

/-- A line feed divides the tokens into those in front of it and those on later lines. -/
theorem tokens_join (h : isBlank '\n' = true) (rs : List (Run as)) (ss : List (Run bs)) :
    tokens (rs.map (extend h bs) ++ ss.map (behind h as)) =
      tokens rs ++ (tokens ss).map (Token.renumber (· + (1 + as.count '\n'))) := by
  have hextend (r : Run as) : (r.extend h bs).Commented ↔ r.Commented := by
    rw [Commented, line_extend, Commented]
  have hbehind (s : Run bs) : (s.behind h as).Commented ↔ s.Commented := by
    rw [Commented, line_behind, Commented]
  rw [tokens, List.filter_append, List.map_append, List.filter_map, List.filter_map, List.map_map,
    List.map_map, tokens, tokens, List.map_map]
  simp only [Function.comp_def, hextend, hbehind, token_extend, token_behind]

theorem line_of_single (h : ∀ c ∈ cs, (c == '\n') = false) (r : Run cs) :
    r.line = cs ∧ r.token = ⟨String.ofList r.word, 1⟩ := by
  have hall {c : Char} (hc : c ∈ cs) : (c != '\n') = true := by rw [bne, h c hc]; rfl
  have hbefore : r.before.reverse.takeWhile (· != '\n') = r.before.reverse := by
    rw [← List.append_nil r.before.reverse, List.takeWhile_append_of_pos]
    · rfl
    · intro c hc
      exact hall (r.mem_of_mem_before (List.mem_reverse.mp hc))
  have hafter : r.after.takeWhile (· != '\n') = r.after := by
    rw [← List.append_nil r.after, List.takeWhile_append_of_pos]
    · rfl
    · intro c hc
      exact hall (r.mem_of_mem_after hc)
  constructor
  · rw [line, hbefore, hafter, List.reverse_reverse, r.text_eq]
  · have hcount : r.before.count '\n' = 0 := by
      rw [List.count_eq_zero]
      intro hmem
      exact absurd (h _ (r.mem_of_mem_before hmem)) (by decide)
    rw [token, hcount]

theorem tokens_of_single (h : ∀ c ∈ cs, (c == '\n') = false) {rs : List (Run cs)}
    (hwords : rs.map word = words cs) : tokens rs = Token.scan (String.ofList cs) := by
  have hscan : Token.scan (String.ofList cs) = Token.ofLine cs 1 := by
    rw [Token.scan, String.toList_ofList, lines, pieces_of_forall_not h]
    exact List.flatMap_singleton _ _
  have hcommented (r : Run cs) : r.Commented ↔ Token.isComment cs = true := by
    rw [Commented, (r.line_of_single h).1, Token.isComment_iff]
  have htoken (r : Run cs) : r.token = ⟨String.ofList r.word, 1⟩ := (r.line_of_single h).2
  rw [hscan, Token.ofLine]
  by_cases hcomment : Token.isComment cs = true
  · have hnone : rs.filter (fun r => ¬ r.Commented) = [] := by
      rw [List.filter_eq_nil_iff]
      intro r _ hr
      exact of_decide_eq_true hr ((hcommented r).mpr hcomment)
    rw [if_pos hcomment, tokens, hnone]
    rfl
  · have hall : rs.filter (fun r => ¬ r.Commented) = rs := by
      rw [List.filter_eq_self]
      intro r _
      exact decide_eq_true (mt (hcommented r).mp hcomment)
    rw [if_neg hcomment, tokens, hall, ← hwords, List.map_map]
    exact List.map_congr_left fun r _ => htoken r

end Run

/-- **The tokens of a text are its runs on lines that are no comments.** -/
theorem exists_tokens (cs : List Char) :
    ∃ rs : List (Run cs), Run.Enumerates rs ∧ Run.tokens rs = Token.scan (String.ofList cs) := by
  induction cs using pieces_induction (· == '\n') with
  | whole cs hcs =>
    obtain ⟨rs, hrs, hwords⟩ := exists_words cs
    exact ⟨rs, hrs, Run.tokens_of_single hcs hwords⟩
  | join as c bs has hc ih =>
    obtain rfl : c = '\n' := eq_of_beq hc
    obtain ⟨rs, hrs, hwords⟩ := exists_words as
    obtain ⟨ss, hss, htokens⟩ := ih
    have htext : String.ofList (as ++ '\n' :: bs) = String.ofList as ++ "\n" ++ String.ofList bs :=
      String.toList_inj.mp (by simp)
    refine ⟨_, hrs.join (by decide) hss, ?_⟩
    rw [Run.tokens_join, Run.tokens_of_single has hwords, htokens, htext, Token.scan_joined,
      String.toList_ofList]

end PoolMachine.Text

namespace PoolMachine.Token

open Text

/-- **The tokens of a text are runs of its characters**, and what ends the lines does not matter. -/
theorem scan_eq_runs :
    -- The tokens are the runs that lie on no comment, in the order of the text. The line of a token
    -- is one more than the number of line feeds in front of it.
    (∀ text : String, ∃ rs : List (Run text.toList),
      rs.Pairwise (fun r s => r.before.length < s.before.length) ∧
      (∀ r, r ∈ rs ↔ r.line.find? (!isBlank ·) ≠ some '#') ∧
      scan text = rs.map fun r => ⟨String.ofList r.word, 1 + r.before.count '\n'⟩) ∧
    -- They are the words of the trimmed lines that do not start with a number sign.
    (∀ text, scan text = scanTrimmed text) ∧
    -- A carriage return separates words as a space does, and does not end a comment.
    (∀ a b, scan (a ++ "\r" ++ b) = scan (a ++ " " ++ b)) ∧
    (∀ a b : String, '\n' ∉ a.toList → '\n' ∉ b.toList →
      a.toList.find? (!isBlank ·) = some '#' → scan (a ++ "\r" ++ b) = []) ∧
    -- In front of a line feed it has no effect, and neither has a line feed at the end.
    (∀ a b, scan (a ++ "\r\n" ++ b) = scan (a ++ "\n" ++ b)) ∧
    ∀ a, scan (a ++ "\n") = scan a := by
  refine ⟨?_, ?_, scan_carriageReturn_space, ?_, scan_carriageReturn_lineFeed, scan_lineFeed⟩
  · intro text
    obtain ⟨rs, hrs, htokens⟩ := exists_tokens text.toList
    rw [String.ofList_toList] at htokens
    refine ⟨rs.filter fun r => ¬ r.Commented, hrs.sorted.filter _, ?_, htokens.symm⟩
    intro r
    rw [List.mem_filter, decide_eq_true_iff, and_iff_right (hrs.complete r)]
    rfl
  · intro text
    exact (scanTrimmed_eq_scan text).symm
  · intro a b ha hb hcomment
    exact scan_comment_carriageReturn ha hb hcomment

/-- An opcode behind a carriage return is still part of the comment. -/
theorem scan_eq_runs_comment :
    '\n' ∉ "\u3000# x".toList ∧ '\n' ∉ "ADD".toList ∧
      "\u3000# x".toList.find? (!isBlank ·) = some '#' ∧
      scan ("\u3000# x" ++ "\r" ++ "ADD") = [] := by
  have ha : '\n' ∉ "\u3000# x".toList := by decide
  have hb : '\n' ∉ "ADD".toList := by decide
  have hcomment : "\u3000# x".toList.find? (!isBlank ·) = some '#' := rfl
  exact ⟨ha, hb, hcomment, scan_eq_runs.2.2.2.1 _ _ ha hb hcomment⟩

end PoolMachine.Token
