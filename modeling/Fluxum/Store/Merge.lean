/-
# Merging changes into a table

The two ways a table's committed contents change: the commit merge of a
transaction's pending operations (`Tx::commit`) and the application of a
replicated record's mutation (`MemStore::apply_replica_record`).
-/
import Fluxum.Store.Table

namespace Fluxum

open Std TableState Outcome List Function

/-- The pending effect of a transaction on one primary key. -/
inductive PendingOp where
  /-- Insert of a key without a committed row. -/
  | insert (row : Row)
  /-- Delete of a committed row. -/
  | delete
  /-- Replacement of a committed row. -/
  | update (row : Row)
deriving DecidableEq

abbrev PendingOps := List (Bytes × PendingOp)

/-- The row a pending operation leaves at its key. -/
def PendingOp.result : PendingOp → Option Row
  | .insert row | .update row => some row
  | .delete => none

structure TableDiff where
  tableId : Nat
  inserts : List Row
  deletes : List (Bytes × Row)

section Commit

variable (fits : Row → Bool)

/-- First pass: release the constraint values of the rows that go. -/
def releaseOp (t : TableState) : Bytes × PendingOp → Except StoreError TableState
  | (_, .insert _) => .ok t
  | (pk, .delete) | (pk, .update _) =>
    match t.rowAt pk with
    | some old => t.removeUnique old pk
    | none => .error .missingRow

/-- Second pass: one operation on rows, indexes and constraints, and its part of the diff. -/
def mergeOp (s : TableState × TableDiff) : Bytes × PendingOp → Except StoreError (TableState × TableDiff)
  | (pk, .insert row) => do
    let t ← s.1.insertIndexes row pk
    let t ← t.insertUnique row pk
    let (_, t) ← t.putRow fits pk row
    return (t, { s.2 with inserts := s.2.inserts ++ [row] })
  | (pk, .delete) =>
    match s.1.takeRow pk with
    | (some old, t) => do
      let t ← t.removeIndexes old pk
      return (t, { s.2 with deletes := s.2.deletes ++ [(pk, old)] })
    | (none, _) => .error .missingRow
  | (pk, .update row) => do
    let (prev, t) ← s.1.putRow fits pk row
    match prev with
    | some old =>
      let t ← t.replaceIndexes old row pk
      let t ← t.insertUnique row pk
      return (t, { s.2 with inserts := s.2.inserts ++ [row], deletes := s.2.deletes ++ [(pk, old)] })
    | none => .error .missingRow

/-- The commit merge of one table, over its operations in key order. -/
def mergeTable (tableId : Nat) (t : TableState) (ops : PendingOps) :
    Except StoreError (TableState × TableDiff) := do
  let t ← ops.foldlM releaseOp t
  ops.foldlM (mergeOp fits) (t, ⟨tableId, [], []⟩)

end Commit

section Replica

variable (fits : Row → Bool)

/-- A replicated delete; a key without a row is passed over. -/
def replicateDelete (s : TableState × TableDiff) (pk : Bytes) : Except StoreError (TableState × TableDiff) :=
  match s.1.takeRow pk with
  | (some existing, t) => do
    let t ← t.removeUnique existing pk
    let t ← t.removeIndexes existing pk
    return (t, { s.2 with deletes := s.2.deletes ++ [(pk, existing)] })
  | (none, t) => .ok (t, s.2)

/-- The row a replicated insert replaces gives up its entries. -/
def retire (t : TableState) (pk : Bytes) : Option Row → Except StoreError TableState
  | some existing => do
    let t ← t.removeUnique existing pk
    t.removeIndexes existing pk
  | none => .ok t

/-- A replicated insert; a row it replaces gives up its entries first. -/
def replicateInsert (s : TableState × TableDiff) (row : Row) : Except StoreError (TableState × TableDiff) := do
  let pk ← (encodePkOfRow s.1.schema row).mapError .row
  let (prev, t) ← s.1.putRow fits pk row
  let t ← retire t pk prev
  let t ← t.insertIndexes row pk
  let t ← t.insertUnique row pk
  return (t, { s.2 with inserts := s.2.inserts ++ [row] })

/-- One mutation of a replicated record: the deletes, then the inserts as they read back. -/
def replicateTable (t : TableState) (m : TableMutation) : Except StoreError (TableState × TableDiff) := do
  let s ← m.deletes.foldlM replicateDelete (t, ⟨m.tableId, [], []⟩)
  let rows ← m.insertRows.mapError .logValue
  rows.foldlM (replicateInsert fits) s

end Replica

/-! ### The merged rows -/

namespace PendingOp

/-- The operation takes the committed row of its key away. -/
def releases : PendingOp → Bool
  | .insert _ => false
  | .delete | .update _ => true

/-- An insert is over no committed row; the others are over one. -/
def Overlays (op : PendingOp) (committed : Option Row) : Prop := committed.isSome = op.releases

/-- The committed row the operation reports as deleted. -/
def removed (op : PendingOp) (committed : Option Row) : Option Row := if op.releases then committed else none

end PendingOp

def TableDiff.add (d : TableDiff) (pk : Bytes) (op : PendingOp) (committed : Option Row) : TableDiff :=
  { d with
    inserts := d.inserts ++ op.result.toList
    deletes := d.deletes ++ ((op.removed committed).map (pk, ·)).toList }

section Rows

variable {fits : Row → Bool} {s s' : TableState × TableDiff} {t t' : TableState} {pk : Bytes} {op : PendingOp}

theorem releaseOp_eq_ok (h : releaseOp t (pk, op) = .ok t') : ∃ unique, t' = { t with unique } := by
  unfold releaseOp at h
  split at h
  · exact ⟨t.unique, (Except.ok.inj h).symm⟩
  all_goals
    split at h
    · obtain ⟨unique, -, rfl⟩ := mapUnique_eq_ok h
      exact ⟨unique, rfl⟩
    · simp at h

theorem releaseOps_eq_ok : ∀ {ops : PendingOps} {t t' : TableState}, ops.foldlM releaseOp t = .ok t' →
    ∃ unique, t' = { t with unique }
  | [], t, t', h => ⟨t.unique, (Except.ok.inj h).symm⟩
  | p :: ops, t, t', h => by
    obtain ⟨m, hm, h⟩ := bind_eq_ok.mp h
    obtain ⟨_, rfl⟩ := releaseOp_eq_ok hm
    obtain ⟨unique, rfl⟩ := releaseOps_eq_ok h
    exact ⟨unique, rfl⟩

/-- An operation merged, step by step. -/
inductive OpMerged (fits : Row → Bool) (s : TableState × TableDiff) (pk : Bytes) :
    PendingOp → TableState × TableDiff → Prop
  | insert {row prev t₁ t₂ t₃} : s.1.insertIndexes row pk = .ok t₁ → t₁.insertUnique row pk = .ok t₂ →
      t₂.putRow fits pk row = .ok (prev, t₃) →
      OpMerged fits s pk (.insert row) (t₃, { s.2 with inserts := s.2.inserts ++ [row] })
  | delete {old t₁ t₂} : s.1.takeRow pk = (some old, t₁) → t₁.removeIndexes old pk = .ok t₂ →
      OpMerged fits s pk .delete (t₂, { s.2 with deletes := s.2.deletes ++ [(pk, old)] })
  | update {row old t₁ t₂ t₃} : s.1.putRow fits pk row = .ok (some old, t₁) →
      t₁.replaceIndexes old row pk = .ok t₂ → t₂.insertUnique row pk = .ok t₃ → OpMerged fits s pk (.update row)
        (t₃, { s.2 with inserts := s.2.inserts ++ [row], deletes := s.2.deletes ++ [(pk, old)] })

theorem opMerged (h : mergeOp fits s (pk, op) = .ok s') : OpMerged fits s pk op s' := by
  cases op with
  | insert row =>
    simp only [mergeOp, bind_eq_ok] at h
    obtain ⟨t₁, h₁, t₂, h₂, ⟨prev, t₃⟩, h₃, h⟩ := h
    cases h
    exact .insert h₁ h₂ h₃
  | delete =>
    simp only [mergeOp] at h
    split at h
    · obtain ⟨t₂, h₂, h⟩ := bind_eq_ok.mp h
      cases h
      exact .delete ‹_› h₂
    · simp at h
  | update row =>
    obtain ⟨⟨_ | old, t₁⟩, h₁, h⟩ := bind_eq_ok.mp h
    · simp at h
    · simp only [bind_eq_ok] at h
      obtain ⟨t₂, h₂, t₃, h₃, h⟩ := h
      cases h
      exact .update h₁ h₂ h₃

/-- What one operation does to the rows, and its part of the diff. -/
theorem mergeOp_eq_ok (h : mergeOp fits s (pk, op) = .ok s') :
    s'.1.rowAt = update s.1.rowAt pk op.result ∧ s'.1.schema = s.1.schema ∧
      s'.1.autoIncHighWater = s.1.autoIncHighWater ∧ s'.2 = s.2.add pk op (s.1.rowAt pk) ∧
      (s.1.rowCount = s.1.rows.size → s'.1.rowCount = s'.1.rows.size) := by
  cases opMerged h with
  | insert h₁ h₂ h₃ =>
    obtain ⟨_, -, rfl⟩ := mapIndexes_eq_ok h₁
    obtain ⟨_, -, rfl⟩ := mapUnique_eq_ok h₂
    obtain ⟨-, hrowAt, rows, rowCount, rfl, hcount⟩ := putRow_eq_ok h₃
    exact ⟨hrowAt, rfl, rfl, by simp [TableDiff.add, PendingOp.result, PendingOp.removed, PendingOp.releases], hcount⟩
  | delete h₁ h₂ =>
    obtain ⟨hold, hrowAt, rows, rowCount, rfl, hcount⟩ := takeRow_eq_some h₁
    obtain ⟨_, -, rfl⟩ := mapIndexes_eq_ok h₂
    exact ⟨hrowAt, rfl, rfl, by simp [TableDiff.add, PendingOp.result, PendingOp.removed, PendingOp.releases, hold], hcount⟩
  | update h₁ h₂ h₃ =>
    obtain ⟨hprev, hrowAt, rows, rowCount, rfl, hcount⟩ := putRow_eq_ok h₁
    obtain ⟨_, -, rfl⟩ := mapIndexes_eq_ok h₂
    obtain ⟨_, -, rfl⟩ := mapUnique_eq_ok h₃
    refine ⟨hrowAt, rfl, rfl, ?_, hcount⟩
    simp [TableDiff.add, PendingOp.result, PendingOp.removed, PendingOp.releases, ← hprev]

def overlay (rows : Rows) (ops : PendingOps) : Rows :=
  ops.foldl (fun f p => update f p.1 p.2.result) rows

def diffOf (d : TableDiff) (rows : Rows) : PendingOps → TableDiff
  | [] => d
  | (pk, op) :: ops => diffOf (d.add pk op (rows pk)) (update rows pk op.result) ops

theorem mergeOps_eq_ok : ∀ {ops : PendingOps} {s s' : TableState × TableDiff},
    ops.foldlM (mergeOp fits) s = .ok s' →
    s'.1.rowAt = overlay s.1.rowAt ops ∧ s'.1.schema = s.1.schema ∧
      s'.1.autoIncHighWater = s.1.autoIncHighWater ∧ s'.2 = diffOf s.2 s.1.rowAt ops ∧
      (s.1.rowCount = s.1.rows.size → s'.1.rowCount = s'.1.rows.size)
  | [], s, s', h => by
    cases h
    exact ⟨rfl, rfl, rfl, rfl, id⟩
  | (pk, op) :: ops, s, s', h => by
    obtain ⟨m, hm, h⟩ := bind_eq_ok.mp h
    obtain ⟨hrows, hschema, hhigh, hdiff, hcount⟩ := mergeOp_eq_ok hm
    obtain ⟨hrows', hschema', hhigh', hdiff', hcount'⟩ := mergeOps_eq_ok h
    exact ⟨by rw [hrows', hrows]; rfl, hschema'.trans hschema, hhigh'.trans hhigh, by rw [hdiff', hdiff, hrows]; rfl,
      fun h => hcount' (hcount h)⟩

/-- **The merged rows are the rows under the operations**, and are counted; the diff is that of the operations. -/
theorem mergeTable_eq_ok {tableId : Nat} {ops : PendingOps} (h : mergeTable fits tableId t ops = .ok s') :
    s'.1.rowAt = overlay t.rowAt ops ∧ s'.1.schema = t.schema ∧ s'.1.autoIncHighWater = t.autoIncHighWater ∧
      s'.2 = diffOf ⟨tableId, [], []⟩ t.rowAt ops ∧ (t.rowCount = t.rows.size → s'.1.rowCount = s'.1.rows.size) := by
  obtain ⟨t', ht', h⟩ := bind_eq_ok.mp h
  obtain ⟨unique, rfl⟩ := releaseOps_eq_ok ht'
  exact mergeOps_eq_ok h

end Rows

/-! ### The parts agree after a merge -/

/-- The rows of a table without those at `keys`. -/
def TableState.heldBut (t : TableState) (keys : List Bytes) (pk : Bytes) : Option Row :=
  if pk ∈ keys then none else t.rowAt pk

/-- The keys whose committed rows the operations take away. -/
def released (ops : PendingOps) : List Bytes := (ops.filter (·.2.releases)).map Prod.fst

theorem released_subset {ops : PendingOps} {pk : Bytes} (h : pk ∈ released ops) : pk ∈ ops.map Prod.fst := by
  obtain ⟨p, hp, rfl⟩ := mem_map.mp h
  exact mem_map_of_mem (mem_of_mem_filter hp)

/-- The operations are over the right rows, and what they put is in order. -/
def OpsOk (t : TableState) (ops : PendingOps) : Prop :=
  ∀ pk op, (pk, op) ∈ ops → op.Overlays (t.rowAt pk) ∧ ∀ row ∈ op.result, RowOk t.schema pk row

section Consistency

variable {fits : Row → Bool} {s s' : TableState × TableDiff} {t t' : TableState} {pk : Bytes} {op : PendingOp}
  {keys : List Bytes}

theorem releaseOp_uniqueOk (hok : t.UniqueOk (t.heldBut keys)) (hpk : pk ∉ keys) (h : releaseOp t (pk, op) = .ok t') :
    t'.UniqueOk (t'.heldBut (released [(pk, op)] ++ keys)) := by
  have hheld : t.heldBut (pk :: keys) = update (t.heldBut keys) pk none := by
    funext k
    by_cases hk : k = pk <;> simp [heldBut, hk]
  have hgone : ∀ {old : Row}, t.rowAt pk = some old → t.removeUnique old pk = .ok t' →
      t'.UniqueOk (t'.heldBut (pk :: keys)) := by
    intro old hold hremove
    have hok' := hok.removeUnique (by simp [heldBut, hpk, hold]) hremove
    obtain ⟨_, -, rfl⟩ := mapUnique_eq_ok hremove
    rw [← hheld] at hok'
    exact hok'
  cases op with
  | insert row =>
    cases h
    exact hok
  | delete | update row =>
    simp only [releaseOp] at h
    split at h
    · rename_i old hold
      exact hgone hold h
    · simp at h

theorem heldBut_released_nil (t : TableState) : t.heldBut (released []) = t.rowAt := by
  funext k
  simp [heldBut, released]

theorem not_mem_released {keys : List Bytes} (hpk : pk ∉ ops.map Prod.fst)
    (hkeys : ∀ k ∈ ((pk, op) :: ops).map Prod.fst, k ∉ keys) : ∀ k ∈ ops.map Prod.fst, k ∉ released [(pk, op)] ++ keys := by
  intro k hk hmem
  rcases mem_append.mp hmem with h₁ | h₂
  · obtain rfl : k = pk := by simpa using released_subset h₁
    exact hpk hk
  · exact hkeys k (by simp [hk]) h₂

theorem releaseOps_uniqueOk_but : ∀ {ops : PendingOps} {t t' : TableState} {keys : List Bytes},
    t.UniqueOk (t.heldBut keys) → (ops.map Prod.fst).Nodup → (∀ pk ∈ ops.map Prod.fst, pk ∉ keys) →
    ops.foldlM releaseOp t = .ok t' → t'.UniqueOk (t'.heldBut ((released ops).reverse ++ keys))
  | [], t, t', keys, hok, _, _, h => by
    cases h
    exact hok
  | (pk, op) :: ops, t, t', keys, hok, hnodup, hkeys, h => by
    obtain ⟨m, hm, h⟩ := bind_eq_ok.mp h
    have hok' := releaseOp_uniqueOk hok (hkeys pk (by simp)) hm
    rw [map_cons, nodup_cons] at hnodup
    have hkeys' := not_mem_released hnodup.1 hkeys
    have hok'' := releaseOps_uniqueOk_but hok' hnodup.2 hkeys' h
    cases hrel : op.releases <;> simpa [released, hrel] using hok''

variable {ops : PendingOps}

/-- The first pass leaves the unique maps with the rows that stay. -/
theorem releaseOps_uniqueOk (hok : t.UniqueOk t.rowAt) (hnodup : (ops.map Prod.fst).Nodup)
    (h : ops.foldlM releaseOp t = .ok t') : t'.UniqueOk (t'.heldBut (released ops)) := by
  have hall : t.heldBut [] = t.rowAt := by
    funext k
    simp [heldBut]
  have hok' := releaseOps_uniqueOk_but (hall ▸ hok) hnodup (by simp) h
  have hheld : t'.heldBut ((released ops).reverse ++ []) = t'.heldBut (released ops) := by
    funext k
    simp [heldBut]
  rwa [hheld] at hok'

theorem mem_released_cons {k : Bytes} :
    k ∈ released ((pk, op) :: ops) ↔ op.releases = true ∧ k = pk ∨ k ∈ released ops := by
  cases hrel : op.releases <;> simp [released, hrel]

theorem heldBut_released {row : Option Row} (op : PendingOp) (hpk : pk ∉ ops.map Prod.fst)
    (hrowAt : t'.rowAt = update t.rowAt pk row) :
    t'.heldBut (released ops) = update (t.heldBut (released ((pk, op) :: ops))) pk row := by
  funext k
  by_cases hk : k = pk
  · subst hk
    have hno : k ∉ released ops := fun hmem => hpk (released_subset hmem)
    simp [heldBut, hno, hrowAt]
  · simp [heldBut, hrowAt, hk, mem_released_cons]

theorem heldBut_self (ops : PendingOps) (hover : op.Overlays (t.rowAt pk)) :
    t.heldBut (released ((pk, op) :: ops)) pk = none := by
  by_cases hrel : op.releases = true
  · simp [heldBut, mem_released_cons, hrel]
  · have hnone : t.rowAt pk = none := by simpa [PendingOp.Overlays, hrel] using hover
    simp [heldBut, hnone]

theorem mergeOp_ok (hok : s.1.Ok s.1.rowAt (s.1.heldBut (released ((pk, op) :: ops)))) (hpk : pk ∉ ops.map Prod.fst)
    (hover : op.Overlays (s.1.rowAt pk)) (hrow : ∀ row ∈ op.result, RowOk s.1.schema pk row)
    (h : mergeOp fits s (pk, op) = .ok s') : s'.1.Ok s'.1.rowAt (s'.1.heldBut (released ops)) := by
  have hrowAt := (mergeOp_eq_ok h).1
  rw [heldBut_released op hpk hrowAt, hrowAt]
  have hheld := heldBut_self ops hover
  cases opMerged h with
  | @insert row _ _ _ _ h₁ h₂ h₃ =>
    have hnone : s.1.rowAt pk = none := by simpa [PendingOp.Overlays, PendingOp.releases] using hover
    have hrow := hrow row rfl
    obtain ⟨_, rfl, hok⟩ := hok.insertIndexes hok.allTyped hrow.1 hnone h₁
    obtain ⟨_, rfl, hok⟩ := hok.insertUnique hheld h₂
    obtain ⟨-, -, _, _, rfl, hok⟩ := hok.putRow hrow h₃
    exact hok
  | delete h₁ h₂ =>
    obtain ⟨hold, -, _, _, rfl, hok⟩ := hok.takeRow h₁
    obtain ⟨_, rfl, hok⟩ := hok.removeIndexes hold h₂
    rw [PendingOp.result, update_eq_self_iff (f := s.1.heldBut _) |>.mpr hheld.symm]
    exact hok
  | @update row _ _ _ _ h₁ h₂ h₃ =>
    have hrow := hrow row rfl
    have htyped := hok.allTyped
    obtain ⟨hprev, -, _, _, rfl, hok⟩ := hok.putRow hrow h₁
    obtain ⟨_, rfl, hok⟩ := hok.replaceIndexes htyped hrow.1 hprev.symm h₂
    obtain ⟨_, rfl, hok⟩ := hok.insertUnique hheld h₃
    exact hok

theorem OpsOk.tail (hops : OpsOk t ((pk, op) :: ops)) (hpk : pk ∉ ops.map Prod.fst) {row : Option Row}
    (hrowAt : t'.rowAt = update t.rowAt pk row) (hschema : t'.schema = t.schema) : OpsOk t' ops := by
  intro pk' op' hmem
  have hne : pk' ≠ pk := by
    rintro rfl
    exact hpk (mem_map_of_mem hmem)
  rw [hrowAt, hschema, update_of_ne hne]
  exact hops pk' op' (mem_cons_of_mem _ hmem)

theorem mergeOps_ok : ∀ {ops : PendingOps} {s s' : TableState × TableDiff},
    s.1.Ok s.1.rowAt (s.1.heldBut (released ops)) → (ops.map Prod.fst).Nodup → OpsOk s.1 ops →
    ops.foldlM (mergeOp fits) s = .ok s' → s'.1.Consistent
  | [], s, s', hok, _, _, h => by
    cases h
    rwa [heldBut_released_nil] at hok
  | (pk, op) :: ops, s, s', hok, hnodup, hops, h => by
    obtain ⟨m, hm, h⟩ := bind_eq_ok.mp h
    rw [map_cons, nodup_cons] at hnodup
    obtain ⟨hover, hrow⟩ := hops pk op (by simp)
    obtain ⟨hrowAt, hschema, -⟩ := mergeOp_eq_ok hm
    exact mergeOps_ok (mergeOp_ok hok hnodup.1 hover hrow hm) hnodup.2 (hops.tail hnodup.1 hrowAt hschema) h

/-- **A committed table's parts agree.** -/
theorem mergeTable_ok {tableId : Nat} (hok : t.Consistent) (hnodup : (ops.map Prod.fst).Nodup) (hops : OpsOk t ops)
    (h : mergeTable fits tableId t ops = .ok s') : s'.1.Consistent := by
  obtain ⟨t', ht', h⟩ := bind_eq_ok.mp h
  have hunique := releaseOps_uniqueOk hok.toUniqueOk hnodup ht'
  obtain ⟨unique, rfl⟩ := releaseOps_eq_ok ht'
  have hok' := TableState.Ok.withUnique hok hunique
  exact mergeOps_ok hok' hnodup hops h

end Consistency

/-! ### The parts agree on a replica -/

section Replicated

variable {fits : Row → Bool} {s s' : TableState × TableDiff} {pk : Bytes} {row : Row}

theorem replicateDelete_ok (hok : s.1.Consistent) (h : replicateDelete s pk = .ok s') :
    s'.1.Consistent ∧ s'.1.schema = s.1.schema := by
  unfold replicateDelete at h
  split at h
  · rename_i existing t ht
    obtain ⟨hold, hrowAt, _, _, rfl, hok⟩ := TableState.Ok.takeRow hok ht
    obtain ⟨t, ht, h⟩ := bind_eq_ok.mp h
    obtain ⟨_, rfl, hok⟩ := hok.removeUnique hold ht
    obtain ⟨t, ht, h⟩ := bind_eq_ok.mp h
    obtain ⟨_, rfl, hok⟩ := hok.removeIndexes hold ht
    cases h
    rw [← hrowAt] at hok
    exact ⟨hok, rfl⟩
  · rename_i t ht
    obtain ⟨-, rfl⟩ := takeRow_eq_none ht
    cases h
    exact ⟨hok, rfl⟩

/-- Once the old row has given up its entries, nothing at the key is indexed or held. -/
theorem retire_ok {t t' : TableState} {rows : Rows} {prev : Option Row} (hok : t.Ok rows rows)
    (hprev : prev = rows pk) (h : retire t pk prev = .ok t') :
    ∃ indexes unique, t' = { t with indexes, unique } ∧
      t'.Ok (update rows pk none) (update rows pk none) := by
  cases prev with
  | none =>
    cases h
    have hnone : update rows pk none = rows := by
      rw [update_eq_self_iff]
      exact hprev
    rw [hnone]
    exact ⟨_, _, rfl, hok⟩
  | some existing =>
    obtain ⟨m, hm, h⟩ := bind_eq_ok.mp h
    obtain ⟨_, rfl, hok⟩ := hok.removeUnique hprev.symm hm
    obtain ⟨_, rfl, hok⟩ := hok.removeIndexes hprev.symm h
    exact ⟨_, _, rfl, hok⟩

theorem replicateInsert_ok (hok : s.1.Consistent) (hrow : Typed s.1.schema row)
    (h : replicateInsert fits s row = .ok s') : s'.1.Consistent ∧ s'.1.schema = s.1.schema := by
  have htyped := TableState.Ok.allTyped hok
  obtain ⟨pk, hpk, h⟩ := bind_eq_ok.mp h
  have hpk : encodePkOfRow s.1.schema row = .ok pk := by
    cases henc : encodePkOfRow s.1.schema row <;> simp_all [Except.mapError]
  obtain ⟨⟨prev, t⟩, ht, h⟩ := bind_eq_ok.mp h
  obtain ⟨hprev, hrowAt, _, _, rfl, hok⟩ := TableState.Ok.putRow hok ⟨hrow, hpk⟩ ht
  obtain ⟨t, ht, h⟩ := bind_eq_ok.mp h
  obtain ⟨_, _, rfl, hok⟩ := retire_ok hok hprev ht
  obtain ⟨t, ht, h⟩ := bind_eq_ok.mp h
  obtain ⟨_, rfl, hok⟩ := hok.insertIndexes (htyped.update (by simp)) hrow (by simp) ht
  obtain ⟨t, ht, h⟩ := bind_eq_ok.mp h
  obtain ⟨_, rfl, hok⟩ := hok.insertUnique (by simp) ht
  cases h
  rw [update_idem, ← hrowAt] at hok
  exact ⟨hok, rfl⟩

theorem replicateDeletes_ok : ∀ {deletes : List Bytes} {s s' : TableState × TableDiff}, s.1.Consistent →
    deletes.foldlM replicateDelete s = .ok s' → s'.1.Consistent ∧ s'.1.schema = s.1.schema
  | [], s, s', hok, h => by
    cases h
    exact ⟨hok, rfl⟩
  | pk :: deletes, s, s', hok, h => by
    obtain ⟨m, hm, h⟩ := bind_eq_ok.mp h
    obtain ⟨hok, hschema⟩ := replicateDelete_ok hok hm
    obtain ⟨hok, hschema'⟩ := replicateDeletes_ok hok h
    exact ⟨hok, hschema'.trans hschema⟩

theorem replicateInserts_ok : ∀ {inserts : List Row} {s s' : TableState × TableDiff}, s.1.Consistent →
    (∀ row ∈ inserts, Typed s.1.schema row) → inserts.foldlM (replicateInsert fits) s = .ok s' →
    s'.1.Consistent ∧ s'.1.schema = s.1.schema
  | [], s, s', hok, _, h => by
    cases h
    exact ⟨hok, rfl⟩
  | row :: inserts, s, s', hok, hrows, h => by
    obtain ⟨m, hm, h⟩ := bind_eq_ok.mp h
    obtain ⟨hok, hschema⟩ := replicateInsert_ok hok (hrows row (by simp)) hm
    have hrows' : ∀ row ∈ inserts, Typed m.1.schema row := fun r hr => hschema ▸ hrows r (by simp [hr])
    obtain ⟨hok, hschema'⟩ := replicateInserts_ok hok hrows' h
    exact ⟨hok, hschema'.trans hschema⟩

/-- **A replicated table's parts agree.** -/
theorem replicateTable_ok {t : TableState} {m : TableMutation} (hok : t.Consistent)
    (hrows : ∀ rows, m.insertRows = .ok rows → ∀ row ∈ rows, Typed t.schema row)
    (h : replicateTable fits t m = .ok s') : s'.1.Consistent ∧ s'.1.schema = t.schema := by
  obtain ⟨mid, hmid, h⟩ := bind_eq_ok.mp h
  obtain ⟨rows, hread, h⟩ := bind_eq_ok.mp h
  obtain ⟨hok, hschema⟩ := replicateDeletes_ok hok hmid
  have hread : m.insertRows = .ok rows := by
    cases hrow : m.insertRows <;> simp_all [Except.mapError]
  obtain ⟨hok, hschema'⟩ := replicateInserts_ok hok (fun row hrow => hschema ▸ hrows rows hread row hrow) h
  exact ⟨hok, hschema'.trans hschema⟩

end Replicated

end Fluxum
