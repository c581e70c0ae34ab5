import PoolMachine.NameMap
import PoolMachine.Text.Enclosed
import PoolMachine.Word

/-!
# The store

The store binds names to integers. It is what a run remembers besides its stack.
-/

namespace PoolMachine

/-- The integers bound to names. -/
abbrev Store := NameMap Word

/-- The bindings between braces, in the order of their names. -/
def Store.text (store : Store) : String :=
  Text.braced (store.toList.map fun e => e.1 ++ ": " ++ e.2.text)

end PoolMachine
