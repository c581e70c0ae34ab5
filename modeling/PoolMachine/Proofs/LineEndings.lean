import PoolMachine.Proofs.InvisibleLines

/-!
# Carriage returns, and the end of the last line

A line may end with a line feed, or with a carriage return and a line feed, and the last line may
have no end at all. The tokens of a text do not depend on which of these it uses.

* **`Token.scanTrimmed_eq_scan`**: to take the ends off the lines, trim them, skip those that start
  with `#` and split the others at white space gives the tokens of the text.
* **`Token.scan_carriageReturn_space`**: inside of a line, a carriage return is a space.
* **`Token.scan_carriageReturn_lineFeed`**, **`Token.scan_lineFeed`**: a carriage return in front of
  a line feed adds no tokens, and neither does a line feed at the end.

All of this is about one line at a time, where the words and the first character other than white
space are the same.
-/

namespace PoolMachine

/-! ## White space inside of a line -/

namespace Text

theorem exists_pieces_append (sep : Char → Bool) (as bs : List Char) :
    ∃ ps p q qs, pieces sep as = ps ++ [p] ∧ pieces sep bs = q :: qs ∧
      pieces sep (as ++ bs) = ps ++ (p ++ q) :: qs := by
  induction as with
  | nil =>
    obtain ⟨q, qs, hq⟩ := List.exists_cons_of_ne_nil (pieces_ne_nil sep bs)
    exact ⟨[], [], q, qs, rfl, hq, hq⟩
  | cons a as ih =>
    obtain ⟨ps, p, q, qs, has, hbs, happend⟩ := ih
    by_cases ha : sep a = true
    · refine ⟨[] :: ps, p, q, qs, ?_, hbs, ?_⟩
      · rw [pieces_cons_of_sep ha, has, List.cons_append]
      · rw [List.cons_append, pieces_cons_of_sep ha, happend, List.cons_append]
    · have hfalse : sep a = false := Bool.not_eq_true _ ▸ ha
      -- The character goes to the first piece, which is the joined one if there is no other.
      cases ps with
      | nil =>
        refine ⟨[], a :: p, q, qs, ?_, hbs, ?_⟩
        · rw [pieces_cons_of_not_sep hfalse, has]
          rfl
        · rw [List.cons_append, pieces_cons_of_not_sep hfalse, happend]
          rfl
      | cons p' ps =>
        refine ⟨(a :: p') :: ps, p, q, qs, ?_, hbs, ?_⟩
        · rw [pieces_cons_of_not_sep hfalse, has]
          rfl
        · rw [List.cons_append, pieces_cons_of_not_sep hfalse, happend]
          rfl

theorem exists_lines_append_cons (as bs : List Char) :
    ∃ ps p q qs, lines as = ps ++ [p] ∧ lines bs = q :: qs ∧
      ∀ c, c ≠ '\n' → lines (as ++ c :: bs) = ps ++ (p ++ c :: q) :: qs := by
  obtain ⟨ps, p, q, qs, has, hbs, -⟩ := exists_pieces_append (· == '\n') as bs
  refine ⟨ps, p, q, qs, has, hbs, ?_⟩
  intro c hc
  obtain ⟨ps', p', q', qs', has', hcbs, happend⟩ := exists_pieces_append (· == '\n') as (c :: bs)
  obtain ⟨rfl, hp⟩ := List.append_inj' (has.symm.trans has') rfl
  obtain rfl := List.singleton_inj.mp hp
  have hcons : pieces (· == '\n') (c :: bs) = (c :: q) :: qs := by
    rw [@pieces_cons_of_not_sep (· == '\n') c (beq_false_of_ne hc), hbs]
    rfl
  obtain ⟨rfl, rfl⟩ := List.cons.inj (hcons.symm.trans hcbs)
  exact happend

theorem words_append_cons {c : Char} (hc : isBlank c = true) (as bs : List Char) :
    words (as ++ c :: bs) = words as ++ words bs := by
  rw [words, words, words, pieces_append_cons hc, List.filter_append]

theorem words_dropWhile_reverse (cs : List Char) :
    words (cs.reverse.dropWhile isBlank).reverse = words cs := by
  suffices h : ∀ ds : List Char, words (ds.dropWhile isBlank).reverse = words ds.reverse by
    rw [h, List.reverse_reverse]
  intro ds
  induction ds with
  | nil => rfl
  | cons d ds ih =>
    by_cases hd : isBlank d = true
    · rw [List.dropWhile_cons_of_pos hd, ih, List.reverse_cons, words_append_cons hd]
      exact (List.append_nil _).symm
    · rw [List.dropWhile_cons_of_neg hd]

theorem words_trim (cs : List Char) : words (trim cs) = words cs := by
  rw [trim, words_dropWhile_reverse, words_dropWhile]

theorem head?_dropWhile_isBlank (cs : List Char) :
    (cs.dropWhile isBlank).head? = cs.find? (!isBlank ·) := by
  induction cs with
  | nil => rfl
  | cons c cs ih =>
    by_cases hc : isBlank c = true
    · rw [List.dropWhile_cons_of_pos hc, ih, List.find?_cons_of_neg (by simp [hc])]
    · rw [List.dropWhile_cons_of_neg hc, List.find?_cons_of_pos (by simpa using hc)]
      rfl

end Text

namespace Token

theorem isComment_iff {line : List Char} :
    isComment line = true ↔ line.find? (!Text.isBlank ·) = some '#' := by
  rw [isComment, Text.head?_dropWhile_isBlank, beq_iff_eq]

theorem ofLine_congr {l l' : List Char} (hwords : Text.words l = Text.words l')
    (hfind : l.find? (!Text.isBlank ·) = l'.find? (!Text.isBlank ·)) (n : Nat) :
    ofLine l n = ofLine l' n := by
  have hcomment : isComment l = isComment l' := by
    rw [Bool.eq_iff_iff, isComment_iff, isComment_iff, hfind]
  rw [ofLine, ofLine, hcomment, hwords]

/-- The tokens of a line do not depend on which white space it holds. -/
theorem ofLine_swap_blank {c d : Char} (hc : Text.isBlank c = true) (hd : Text.isBlank d = true)
    (as bs : List Char) (n : Nat) : ofLine (as ++ c :: bs) n = ofLine (as ++ d :: bs) n := by
  apply ofLine_congr
  · rw [Text.words_append_cons hc, Text.words_append_cons hd]
  · rw [List.find?_append, List.find?_append, List.find?_cons_of_neg (by simp [hc]),
      List.find?_cons_of_neg (by simp [hd])]

theorem ofLine_concat_blank {c : Char} (hc : Text.isBlank c = true) (l : List Char) (n : Nat) :
    ofLine (l ++ [c]) n = ofLine l n := by
  apply ofLine_congr
  · rw [Text.words_append_cons hc]
    exact List.append_nil _
  · rw [List.find?_append, List.find?_cons_of_neg (by simp [hc])]
    exact Option.or_none

end Token

/-! ## Lines as they end -/

namespace Text

/-- A line without the carriage return that belongs to its end. -/
def chomp (l : List Char) : List Char := if l.getLast? = some '\r' then l.dropLast else l

/-- Take the line ends off the pieces of a text between line feeds. The last piece ends with no line
feed, and is a line only if there is something in it. -/
def endedLines : List (List Char) → List (List Char)
  | [] => []
  | [last] => if last = [] then [] else [last]
  | l :: l' :: ls => chomp l :: endedLines (l' :: ls)

end Text

namespace Token

/-- The tokens of a text: each of its lines without its end is trimmed, skipped if it then starts
with `#`, and otherwise split at white space. -/
def scanTrimmed (text : String) : List Token :=
  ((Text.endedLines (Text.lines text.toList)).zipIdx 1).flatMap fun l =>
    if (Text.trim l.1).head? = some '#' then []
    else (Text.words (Text.trim l.1)).map fun w => ⟨String.ofList w, l.2⟩

theorem ofLine_eq_trimmed (l : List Char) (n : Nat) :
    ofLine l n = if (Text.trim l).head? = some '#' then []
      else (Text.words (Text.trim l)).map fun w => ⟨String.ofList w, n⟩ := by
  simp only [ofLine, isComment, Text.head?_trim, Text.words_trim, beq_iff_eq]

theorem ofLine_chomp (l : List Char) (n : Nat) : ofLine (Text.chomp l) n = ofLine l n := by
  rw [Text.chomp]
  by_cases hlast : l.getLast? = some '\r'
  · obtain ⟨as, rfl⟩ := List.getLast?_eq_some_iff.mp hlast
    rw [if_pos hlast, List.dropLast_concat, ofLine_concat_blank (by decide)]
  · rw [if_neg hlast]

theorem flatMap_ofLine_endedLines (ls : List (List Char)) (n : Nat) :
    ((Text.endedLines ls).zipIdx n).flatMap (fun l => ofLine l.1 l.2) =
      (ls.zipIdx n).flatMap fun l => ofLine l.1 l.2 := by
  induction ls using Text.endedLines.induct generalizing n with
  | case1 => rfl
  | case2 => rfl
  | case3 last hlast => rw [Text.endedLines, if_neg hlast]
  | case4 l l' ls ih =>
    rw [Text.endedLines, List.zipIdx_cons, List.zipIdx_cons, List.flatMap_cons, List.flatMap_cons,
      ofLine_chomp, ih]

/-- **Line by line, trimmed and split**, a text has the same tokens. -/
theorem scanTrimmed_eq_scan (text : String) : scanTrimmed text = scan text := by
  rw [scan, ← flatMap_ofLine_endedLines, scanTrimmed]
  simp only [ofLine_eq_trimmed]

/-! ## Texts that differ in one character -/

theorem flatMap_ofLine_congr {l l' : List Char} (h : ∀ n, ofLine l n = ofLine l' n)
    (ps qs : List (List Char)) (n : Nat) :
    ((ps ++ l :: qs).zipIdx n).flatMap (fun l => ofLine l.1 l.2) =
      ((ps ++ l' :: qs).zipIdx n).flatMap fun l => ofLine l.1 l.2 := by
  simp only [List.zipIdx_append, List.zipIdx_cons, List.flatMap_append, List.flatMap_cons, h]

/-- **Inside of a line a carriage return is a space.** -/
theorem scan_carriageReturn_space (a b : String) :
    scan (a ++ "\r" ++ b) = scan (a ++ " " ++ b) := by
  obtain ⟨ps, p, q, qs, -, -, hlines⟩ := Text.exists_lines_append_cons a.toList b.toList
  have htext : (a ++ "\r" ++ b).toList = a.toList ++ '\r' :: b.toList := by simp
  have htext' : (a ++ " " ++ b).toList = a.toList ++ ' ' :: b.toList := by simp
  rw [scan, scan, htext, htext', hlines '\r' (by decide), hlines ' ' (by decide)]
  exact flatMap_ofLine_congr (ofLine_swap_blank (by decide) (by decide) p q) ps qs 1

theorem scan_carriageReturn (a : String) : scan (a ++ "\r") = scan a := by
  obtain ⟨ps, p, q, qs, ha, hnil, hlines⟩ := Text.exists_lines_append_cons a.toList []
  obtain ⟨rfl, rfl⟩ : [] = q ∧ [] = qs := List.cons.inj hnil
  have htext : (a ++ "\r").toList = a.toList ++ ['\r'] := by simp
  rw [scan, scan, htext, hlines '\r' (by decide), ha]
  exact flatMap_ofLine_congr (ofLine_concat_blank (by decide) p) ps [] 1

/-- **A carriage return in front of a line feed has no effect.** -/
theorem scan_carriageReturn_lineFeed (a b : String) :
    scan (a ++ "\r\n" ++ b) = scan (a ++ "\n" ++ b) := by
  have htext : a ++ "\r\n" ++ b = a ++ "\r" ++ "\n" ++ b := by
    rw [show "\r\n" = "\r" ++ "\n" from rfl]
    simp only [String.append_assoc]
  have hcount : (a ++ "\r").toList.count '\n' = a.toList.count '\n' := by simp
  rw [htext, scan_joined, scan_joined, scan_carriageReturn, hcount]

/-- **A line feed at the end has no effect.** -/
theorem scan_lineFeed (a : String) : scan (a ++ "\n") = scan a := by
  have hempty : scan "" = [] := rfl
  rw [← String.append_empty (s := a ++ "\n"), scan_joined, hempty, List.map_nil, List.append_nil]

/-- A carriage return does not end a comment. -/
theorem scan_comment_carriageReturn {a b : String} (ha : '\n' ∉ a.toList) (hb : '\n' ∉ b.toList)
    (h : a.toList.find? (!Text.isBlank ·) = some '#') : scan (a ++ "\r" ++ b) = [] := by
  apply scan_of_invisible
  · simp [ha, hb]
  · right
    have htext : (a ++ "\r" ++ b).toList = a.toList ++ '\r' :: b.toList := by simp
    rw [Text.head?_trim, Text.head?_dropWhile_isBlank, htext, List.find?_append, h]
    rfl

end Token

end PoolMachine
