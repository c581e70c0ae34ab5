import PoolMachine.Text.Blank

/-!
# Pieces of text

Cutting text at separators. `pieces` keeps the empty pieces, so that a text with `n` separators
has `n + 1` of them; lines are the pieces between line feeds, and words are the non-empty pieces
between white space.
-/

namespace PoolMachine.Text

/-- The pieces of `cs` between the characters that satisfy `sep`, in order. -/
def pieces (sep : Char → Bool) (cs : List Char) : List (List Char) :=
  cs.foldr (fun c ps => if sep c then [] :: ps else (c :: ps.headD []) :: ps.tail) [[]]

/-- The lines of a text: its pieces between line feeds. -/
def lines (cs : List Char) : List (List Char) := pieces (· == '\n') cs

/-- The words of a line: its non-empty pieces between white space. -/
def words (cs : List Char) : List (List Char) := (pieces isBlank cs).filter (!·.isEmpty)

/-! ## The pieces of a longer text -/

@[simp] theorem pieces_nil (sep : Char → Bool) : pieces sep [] = [[]] := rfl

theorem pieces_ne_nil (sep : Char → Bool) (cs : List Char) : pieces sep cs ≠ [] := by
  cases cs with
  | nil => simp
  | cons c cs =>
    rw [pieces, List.foldr_cons]
    split <;> simp

/-- A separator in front opens an empty piece. -/
theorem pieces_cons_of_sep {sep : Char → Bool} {c : Char} (h : sep c = true) (cs : List Char) :
    pieces sep (c :: cs) = [] :: pieces sep cs := by
  simp [pieces, h]

/-- Any other character in front joins the first piece. -/
theorem pieces_cons_of_not_sep {sep : Char → Bool} {c : Char} (h : sep c = false)
    (cs : List Char) :
    pieces sep (c :: cs) = (c :: (pieces sep cs).headD []) :: (pieces sep cs).tail := by
  simp [pieces, h]

/-- A separator divides the pieces in front of it from those behind it. -/
theorem pieces_append_cons {sep : Char → Bool} {c : Char} (h : sep c = true)
    (as bs : List Char) : pieces sep (as ++ c :: bs) = pieces sep as ++ pieces sep bs := by
  induction as with
  | nil => simp [pieces_cons_of_sep h]
  | cons a as ih =>
    cases ha : sep a with
    | true => simp [pieces_cons_of_sep ha, ih]
    | false =>
      obtain ⟨p, ps, hp⟩ := List.exists_cons_of_ne_nil (pieces_ne_nil sep as)
      simp [pieces_cons_of_not_sep ha, ih, hp]

end PoolMachine.Text
