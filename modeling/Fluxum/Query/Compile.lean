/-
# What compilation guarantees

The parts of a compiled plan, read off the steps of `compile`.
-/
import Fluxum.Query.Planner

namespace Fluxum

open Outcome

section Compile

variable {p : Platform} {schema : Schema} {table : TableDecl} {ast : QueryAst} {plan : CompiledPlan}

end Compile

end Fluxum
