/-!
# Enclosed lists

Lists of texts, separated by a comma and a space, between brackets or braces.
-/

namespace PoolMachine.Text

/-- The items of a list, separated by a comma and a space. -/
def commaSeparated (items : List String) : String := ", ".intercalate items

/-- A list between square brackets. -/
def bracketed (items : List String) : String := "[" ++ commaSeparated items ++ "]"

/-- A list between braces. -/
def braced (items : List String) : String := "\x7b" ++ commaSeparated items ++ "\x7d"

/-- Text that ends each of its lines with a line feed. -/
def unlines (ls : List String) : String := String.join (ls.map (· ++ "\n"))

end PoolMachine.Text
