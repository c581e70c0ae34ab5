import PoolMachine.Text.Hidden

/-!
# Quoted text

Text between double quotes. The quote and the backslash are written with a backslash in front, as
are NUL, tab, line feed and carriage return by a letter each; a hidden character is written by its
number in hexadecimal. All other characters stand for themselves.
-/

namespace PoolMachine.Text

/-- The written form of one character between quotes. -/
def escape (c : Char) : List Char :=
  if c = '\x00' then ['\\', '0']
  else if c = '\t' then ['\\', 't']
  else if c = '\n' then ['\\', 'n']
  else if c = '\r' then ['\\', 'r']
  else if c = '"' then ['\\', '"']
  else if c = '\\' then ['\\', '\\']
  else if isHidden c then ['\\', 'u', '\x7b'] ++ Nat.toDigits 16 c.toNat ++ ['\x7d']
  else [c]

/-- The text between double quotes, in its written form. -/
def quote (s : String) : String :=
  String.ofList ('"' :: s.toList.flatMap escape ++ ['"'])

end PoolMachine.Text
