/-
# One job of the single writer

The worker of a shard's pipeline runs one reducer at a time: it begins a
transaction, lets the reducer make its calls, and commits if the reducer
returns and rolls back if it fails. A rejected call leaves the transaction as
it is and the reducer may go on.
-/
import Fluxum.Store.Diff

namespace Fluxum

open Std Option

/-- `execute`: run a body on a fresh transaction and commit if it returns `true`; `none` if the body does
not end. The diff is that of the commit. -/
def MemStore.execute (cat : Catalog) (s : MemStore) (body : Tx → Option (Bool × Tx)) : Option (Option TxDiff × MemStore) := do
  let (returned, tx) ← body s.begin
  if returned then
    match tx.commit cat with
    | .ok (diff, s) => return (some diff, s)
    | .error _ => return (none, tx.rollback)
  else return (none, tx.rollback)

/-- The write calls a reducer makes, with the services attached at each, and whether it returns `Ok`. -/
structure Reducer (cat : Catalog) where
  calls : List (Services cat × TxCall)
  returns : Bool

/-- The services of a shard: a replica of the global tables refuses writes to them. -/
def Services.onShard {cat : Catalog} (srv : Services cat) (authoritative : Bool) : Services cat :=
  { srv with globalWritesAllowed := authoritative }

def Tx.callStep {cat : Catalog} (authoritative : Bool) (tx : Tx) (l : Services cat × TxCall) : Option Tx :=
  (tx.call (l.1.onShard authoritative) l.2).map Tx.after

/-- The reducer as the body of a job. -/
def Reducer.body {cat : Catalog} (r : Reducer cat) (authoritative : Bool) (tx : Tx) : Option (Bool × Tx) :=
  (Runs.run (Tx.callStep authoritative) tx r.calls).map (r.returns, ·)

section Execute

variable {cat : Catalog} {s s' : MemStore} {body : Tx → Option (Bool × Tx)} {diff : TxDiff} {r : Reducer cat}

theorem execute_committed (h : s.execute cat body = some (some diff, s')) :
    ∃ tx, body s.begin = some (true, tx) ∧ tx.commit cat = .ok (diff, s') := by
  obtain ⟨⟨returned, tx⟩, hbody, h⟩ := bind_eq_some_iff.mp h
  cases returned with
  | false => simp at h
  | true =>
    simp only [if_true] at h
    split at h
    · rename_i diff' s'' hcommit
      obtain ⟨rfl, rfl⟩ : diff' = diff ∧ s'' = s' := by simpa using h
      exact ⟨tx, hbody, hcommit⟩
    · simp at h

theorem execute_rolledBack (h : s.execute cat body = some (none, s')) :
    ∃ returned tx, body s.begin = some (returned, tx) ∧ s' = tx.rollback := by
  obtain ⟨⟨returned, tx⟩, hbody, h⟩ := bind_eq_some_iff.mp h
  refine ⟨returned, tx, hbody, ?_⟩
  cases returned with
  | false => simpa [eq_comm] using h
  | true =>
    simp only [if_true] at h
    split at h
    · simp at h
    · simpa [eq_comm] using h

theorem Reducer.body_kept {authoritative : Bool} {P : Tx → Prop} {tx tx' : Tx} {returned : Bool}
    (hP : ∀ srv : Services cat, Tx.Kept (srv.onShard authoritative) P) (h : P tx)
    (hbody : r.body authoritative tx = some (returned, tx')) : P tx' := by
  obtain ⟨tx'', hrun, heq⟩ := map_eq_some_iff.mp hbody
  cases heq
  refine Runs.run_invariant (fun tx l tx' h hstep => ?_) h hrun
  obtain ⟨x, hx, rfl⟩ := map_eq_some_iff.mp hstep
  exact (hP l.1).call h hx

theorem Reducer.body_okOver {authoritative returned : Bool} {tx : Tx} (hs : s.Ok cat)
    (hbody : r.body authoritative s.begin = some (returned, tx)) : tx.OkOver cat s.committed :=
  r.body_kept (fun _ => kept_okOver) (begin_okOver hs.tables hs.dirty) hbody

/-- **A job leaves the store in order.** -/
theorem MemStore.Ok.execute {authoritative : Bool} {out : Option TxDiff} (hs : s.Ok cat)
    (h : s.execute cat (r.body authoritative) = some (out, s')) : s'.Ok cat := by
  cases out with
  | none =>
    obtain ⟨returned, tx, hbody, rfl⟩ := execute_rolledBack h
    obtain ⟨hok, hbase⟩ := Reducer.body_okOver hs hbody
    exact MemStore.Ok.rollback hok (hbase ▸ hs.unique)
  | some diff =>
    obtain ⟨tx, hbody, hcommit⟩ := execute_committed h
    obtain ⟨hok, hbase⟩ := Reducer.body_okOver hs hbody
    exact MemStore.Ok.commit hok (hbase ▸ hs.unique) hcommit

end Execute

end Fluxum
