import PoolMachine.Text.Pieces

/-!
# Tokens

The tokens of assembly text are the words of its lines, each with the number of its line. A line
whose first character other than white space is `#` is a comment and has none.
-/

namespace PoolMachine

/-- A word of assembly text. -/
structure Token where
  /-- The word. -/
  text : String
  /-- The number of its line, counted from one. -/
  line : Nat
deriving DecidableEq, Repr, Inhabited

namespace Token

/-- Whether a line is a comment. -/
def isComment (line : List Char) : Bool :=
  (line.dropWhile Text.isBlank).head? == some '#'

/-- The tokens of one line. -/
def ofLine (line : List Char) (number : Nat) : List Token :=
  if isComment line then []
  else (Text.words line).map fun w => ⟨String.ofList w, number⟩

/-- The tokens of a text, in reading order. -/
def scan (text : String) : List Token :=
  ((Text.lines text.toList).zipIdx 1).flatMap fun l => ofLine l.1 l.2

end Token

end PoolMachine
