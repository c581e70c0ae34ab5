import PoolMachine.Code
import PoolMachine.NameMap

/-!
# Programs

A program is a finite map from function names to their code. A run starts at the function `main`.
-/

namespace PoolMachine

/-- The functions of a program by name. -/
abbrev Program := NameMap Code

/-- The function where a run starts. -/
def Program.main? (program : Program) : Option Code := program.get? "main"

end PoolMachine
