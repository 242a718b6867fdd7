import Stencil.Builtin.Lists
import Stencil.Eval.Basic

/-!
# The built-in functions
-/

namespace Stencil

def Registry.builtins : Registry :=
  ⟨Builtin.onLists ++ Builtin.onNumbersAlone⟩

/-- Evaluation with the built-in functions and the limit where nothing else is said. -/
def Engine.standard : Engine :=
  ⟨.builtins, Engine.defaultLimit⟩

end Stencil
