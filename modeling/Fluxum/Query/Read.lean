/-
# Evaluating a plan on a table

The snapshot evaluator (`subscription/mod.rs`, `subscription/manager.rs`): row
visibility, and the rows an access path yields with no query bounds configured.
-/
import Fluxum.Query.Scan

namespace Fluxum

open Bytes

abbrev Identity := Vector UInt8 32

/-! ### Visibility -/

/-- One resolved `member_of` rule. -/
structure MembershipSpec where
  guarded : Nat
  memberTable : Nat
  keyInGuarded : Nat
  keyInMember : Nat
  identityInMember : Nat
deriving DecidableEq, Repr

/-- The pairs of a member's identity and an encoded key in a membership table. -/
abbrev MemberSet := List (Identity × Bytes)

/-- The membership index: each rule with its members. -/
abbrev Membership := List (MembershipSpec × MemberSet)

def ownerSees (rls : Option Nat) (viewer : Identity) (row : Row) : Bool :=
  rls.all fun owner => row[owner]? = some (.scalar (.identity viewer))

/-- The membership rule of the plan's table. -/
def memberSees (members : Membership) (tableId : Nat) (viewer : Identity) (row : Row) : Bool :=
  match members.find? (·.1.guarded = tableId) with
  | none => true
  | some m => row[m.1.keyInGuarded]?.any fun key => (viewer, encodeValue key) ∈ m.2

/-- Whether the viewer sees a row of the plan's table; without a viewer every row is seen. -/
def rowVisible (members : Membership) (plan : CompiledPlan) (viewer : Option Identity) (row : Row) : Bool :=
  viewer.all fun id => ownerSees plan.rls id row && memberSees members plan.tableId id row

/-! ### Index scans -/

/-- The loop over the rows of a range: keep a row, and stop once there are enough. -/
def collect (keep : Row → Bool) (stop : Option Nat) : List Row → List Row → List Row × Bool
  | [], acc => (acc, false)
  | row :: rows, acc =>
    if keep row then
      if stop.any (· ≤ acc.length + 1) then (acc ++ [row], true) else collect keep stop rows (acc ++ [row])
    else collect keep stop rows acc

variable {keep : Row → Bool}

section Probes

variable {t : TableState} {scan : IndexScanPlan} {descending : Bool}

end Probes

end Fluxum
