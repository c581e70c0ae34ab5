import PoolMachine.Text.Enclosed
import PoolMachine.Token

/-!
# Text laid out in words and lines

Scanning reads back the words of a text that is written line by line, with a blank between two words
of a line.

**Theorem (`scan_of_layout`).** If every line is a list of words, and none starts with `#`, then the
tokens of the text are the words with the numbers of their lines, whether or not the last line ends
with a line feed.

Lines and words are both `Text.pieces` of a text, so both follow from one law: cutting undoes
joining where no piece holds a separator (`pieces_intercalate`).
-/

namespace PoolMachine

namespace Text

/-! ## Cutting what has been joined -/

theorem pieces_of_forall_not {sep : Char → Bool} {cs : List Char} (h : ∀ c ∈ cs, sep c = false) :
    pieces sep cs = [cs] := by
  induction cs with
  | nil => rfl
  | cons c cs ih =>
    rw [pieces_cons_of_not_sep (h c List.mem_cons_self),
      ih fun c hc => h c (List.mem_cons_of_mem _ hc)]
    rfl

/-- **Cutting undoes joining** where no piece holds a separator. -/
theorem pieces_intercalate {sep : Char → Bool} {c : Char} (hc : sep c = true) {p : List Char}
    {ps : List (List Char)} (h : ∀ q ∈ p :: ps, ∀ c ∈ q, sep c = false) :
    pieces sep ([c].intercalate (p :: ps)) = p :: ps := by
  induction ps generalizing p with
  | nil =>
    rw [List.intercalate_singleton]
    exact pieces_of_forall_not (h p List.mem_cons_self)
  | cons q qs ih =>
    have hjoin : [c].intercalate (p :: q :: qs) = p ++ c :: [c].intercalate (q :: qs) := by
      simp
    rw [hjoin, pieces_append_cons hc, pieces_of_forall_not (h p List.mem_cons_self),
      ih fun r hr => h r (List.mem_cons_of_mem _ hr)]
    rfl

theorem intercalate_cons (sep p : List Char) (ps : List (List Char)) :
    sep.intercalate (p :: ps) = p ++ ps.flatMap (sep ++ ·) := by
  induction ps generalizing p with
  | nil => simp
  | cons q ps ih =>
    rw [List.intercalate_cons_cons, ih, List.flatMap_cons]
    simp only [List.append_assoc]

theorem forall_mem_intercalate {P : Char → Prop} {sep : List Char} (hsep : ∀ c ∈ sep, P c)
    {ps : List (List Char)} (h : ∀ p ∈ ps, ∀ c ∈ p, P c) : ∀ c ∈ sep.intercalate ps, P c := by
  intro c hc
  rcases ps with _ | ⟨p, ps⟩
  · exact absurd hc List.not_mem_nil
  · rw [intercalate_cons, List.mem_append, List.mem_flatMap] at hc
    rcases hc with hc | ⟨q, hq, hc⟩
    · exact h p List.mem_cons_self c hc
    · rcases List.mem_append.mp hc with hc | hc
      · exact hsep c hc
      · exact h q (List.mem_cons_of_mem _ hq) c hc

/-- A non-empty text without white space. -/
def IsWord (w : String) : Prop := w ≠ "" ∧ ∀ c ∈ w.toList, isBlank c = false

-- By the characters of the word; a search for an instance could try all characters there are.
instance (w : String) : Decidable (IsWord w) :=
  @instDecidableAnd _ _ (instDecidableNot) (List.decidableBAll (isBlank · = false) w.toList)

theorem IsWord.forall_map {ws : List String} (h : ∀ w ∈ ws, IsWord w) :
    ∀ p ∈ ws.map String.toList, p ≠ [] ∧ ∀ c ∈ p, isBlank c = false := by
  intro p hp
  obtain ⟨w, hw, rfl⟩ := List.mem_map.mp hp
  exact ⟨by simpa using (h w hw).1, (h w hw).2⟩

theorem words_intercalate {ws : List String} (h : ∀ w ∈ ws, IsWord w) :
    words (" ".intercalate ws).toList = ws.map String.toList := by
  rcases ws with _ | ⟨w, ws⟩
  · rfl
  · have hwords := IsWord.forall_map h
    rw [words, String.toList_intercalate, show " ".toList = [' '] from rfl]
    rw [List.map_cons] at hwords ⊢
    rw [pieces_intercalate (by decide) fun p hp => (hwords p hp).2, List.filter_eq_self]
    intro p hp
    simpa using (hwords p hp).1

theorem lines_intercalate {l : String} {ls : List String}
    (h : ∀ k ∈ l :: ls, ∀ c ∈ k.toList, (c == '\n') = false) :
    lines ("\n".intercalate (l :: ls)).toList = (l :: ls).map String.toList := by
  rw [lines, String.toList_intercalate, show "\n".toList = ['\n'] from rfl, List.map_cons]
  refine pieces_intercalate (by decide) fun p hp => ?_
  obtain ⟨k, hk, rfl⟩ := List.mem_map.mp (List.map_cons ▸ hp)
  exact h k hk

theorem lines_append_cons (xs ys : List Char) : lines (xs ++ '\n' :: ys) = lines xs ++ lines ys :=
  pieces_append_cons (by decide) xs ys

/-- A line feed at the end opens an empty line. -/
theorem lines_unlines {ls : List String} (h : ∀ l ∈ ls, ∀ c ∈ l.toList, (c == '\n') = false) :
    lines (unlines ls).toList = ls.map String.toList ++ [[]] := by
  induction ls with
  | nil => rfl
  | cons l ls ih =>
    have htext : (unlines (l :: ls)).toList = l.toList ++ '\n' :: (unlines ls).toList := by
      simp [unlines]
    rw [htext, lines_append_cons, lines, pieces_of_forall_not (h l List.mem_cons_self),
      ih fun l hl => h l (List.mem_cons_of_mem _ hl)]
    rfl

end Text

/-! ## Tokens -/

namespace Token

/-- A list of words that can be a line: none of them holds white space, and the line is no
comment. -/
structure IsLine (ws : List String) : Prop where
  words : ∀ w ∈ ws, Text.IsWord w
  head : ∀ w ∈ ws.head?, w.toList.head? ≠ some '#'

/-- The words of lines, with the numbers of the lines. -/
def ofWords (ls : List (List String)) : List Token :=
  (ls.zipIdx 1).flatMap fun l => l.1.map fun w => ⟨w, l.2⟩

variable {ws : List String} {ls : List (List String)}

theorem IsLine.isComment (h : IsLine ws) : isComment (" ".intercalate ws).toList = false := by
  rcases ws with _ | ⟨w, ws⟩
  · rfl
  · -- The first character of the line is that of its first word, which is not white space.
    have hw := h.words w List.mem_cons_self
    have hhead := h.head w rfl
    obtain ⟨c, cs, hcs⟩ := List.exists_cons_of_ne_nil (l := w.toList) (by simpa using hw.1)
    have hline : ∃ ds, (" ".intercalate (w :: ws)).toList = c :: ds := by
      rcases ws with _ | ⟨v, ws⟩ <;> simp [hcs]
    obtain ⟨ds, hds⟩ := hline
    have hblank : Text.isBlank c = false := hw.2 c (by simp [hcs])
    rw [hcs] at hhead
    simpa [Token.isComment, hds, hblank] using hhead

theorem IsLine.ofLine (h : IsLine ws) (n : Nat) :
    ofLine (" ".intercalate ws).toList n = ws.map fun w => ⟨w, n⟩ := by
  rw [Token.ofLine, h.isComment, if_neg Bool.false_ne_true, Text.words_intercalate h.words,
    List.map_map]
  exact List.map_congr_left fun w _ => by simp

theorem IsLine.not_mem_lineFeed (h : IsLine ws) :
    ∀ c ∈ (" ".intercalate ws).toList, (c == '\n') = false := by
  rw [String.toList_intercalate]
  refine Text.forall_mem_intercalate (by simp) fun p hp c hc => ?_
  have hblank := (Text.IsWord.forall_map h.words p hp).2 c hc
  refine beq_false_of_ne fun heq => ?_
  rw [heq] at hblank
  exact absurd hblank (by decide)

theorem flatMap_ofLine (h : ∀ ws ∈ ls, IsLine ws) (n : Nat) :
    ((ls.map fun ws => (" ".intercalate ws).toList).zipIdx n).flatMap (fun l => ofLine l.1 l.2) =
      (ls.zipIdx n).flatMap fun l => l.1.map fun w => ⟨w, l.2⟩ := by
  induction ls generalizing n with
  | nil => rfl
  | cons ws ls ih =>
    simp only [List.map_cons, List.zipIdx_cons, List.flatMap_cons]
    rw [(h ws List.mem_cons_self).ofLine, ih fun ws hws => h ws (List.mem_cons_of_mem _ hws)]

/-- **Scanning reads back the words** of a text that is laid out in words and lines. -/
theorem scan_of_layout (hne : ls ≠ []) (h : ∀ ws ∈ ls, IsLine ws) :
    scan ("\n".intercalate (ls.map (" ".intercalate ·))) = ofWords ls ∧
      scan (Text.unlines (ls.map (" ".intercalate ·))) = ofWords ls := by
  have hlines : ∀ l ∈ ls.map (" ".intercalate ·), ∀ c ∈ l.toList, (c == '\n') = false := by
    intro l hl
    obtain ⟨ws, hws, rfl⟩ := List.mem_map.mp hl
    exact (h ws hws).not_mem_lineFeed
  have hmap : (ls.map (" ".intercalate ·)).map String.toList =
      ls.map fun ws => (" ".intercalate ws).toList := by
    rw [List.map_map]
    rfl
  constructor
  · obtain ⟨ws, ls', rfl⟩ := List.exists_cons_of_ne_nil hne
    rw [List.map_cons] at hlines hmap ⊢
    rw [scan, Text.lines_intercalate hlines, hmap, flatMap_ofLine h, ofWords]
  · rw [scan, Text.lines_unlines hlines, hmap, List.zipIdx_append, List.flatMap_append,
      flatMap_ofLine h, ofWords]
    exact List.append_nil _

end Token

end PoolMachine
