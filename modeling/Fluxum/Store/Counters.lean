/-
# Auto-increment columns

What a write does to the counter of its table, and that the rows a
transaction sees have their ids: the placeholder 0 is replaced before a row
is buffered, and counters count from one.
-/
import Fluxum.Store.Publish

namespace Fluxum

open Std Outcome

/-- A computed column is no key column: a rule of the table macro. -/
def Catalog.KeysStored (cat : Catalog) : Prop :=
  ∀ (table : Nat) (schema : TableSchema), cat.tables[table]? = some schema →
    ∀ o ∈ schema.primaryKey, ∀ c ∈ cat.computed table, c.1 ≠ o

/-- The counter of a table, and whether its high-water mark has still to be published. -/
def WriterState.move (writer : WriterState) (table : Nat) (r : AutoIncCounter × Bool) : WriterState :=
  { writer with
    counters := writer.counters.insert table r.1
    highWaterDirty := if r.2 then writer.highWaterDirty.insert table else writer.highWaterDirty }

def WriterState.counter (writer : WriterState) (table : Nat) : AutoIncCounter := writer.counters[table]?.getD .new

/-- The auto-increment column of a row holds no placeholder. -/
def NoPlaceholder (schema : TableSchema) (row : Row) : Prop := ∀ o ∈ schema.autoInc, row[o]? ≠ some (.scalar (.u64 0))

/-- A counter counts from one, in 64 bits. -/
def AutoIncCounter.Counts (c : AutoIncCounter) : Prop := 1 ≤ c.next ∧ c.next < 2 ^ 64

/-- The rows of a transaction have their ids, and its counters count. -/
structure Tx.Assigned (cat : Catalog) (tx : Tx) : Prop where
  committed : ∀ (table : Nat) schema pk row, cat.tables[table]? = some schema → rowIn tx.base table pk = some row →
    NoPlaceholder schema row
  pending : ∀ (table : Nat) schema pk op row, cat.tables[table]? = some schema → tx.op table pk = some op →
    op.result = some row → NoPlaceholder schema row
  counters : ∀ table, (tx.writer.counter table).Counts

theorem WriterState.counter_move (writer : WriterState) (table table' : Nat) (r : AutoIncCounter × Bool) :
    (writer.move table r).counter table' = if table = table' then r.1 else writer.counter table' := by
  unfold counter move
  simp only [OrdMap.lookup_insert]
  split <;> rfl

theorem deriveColumns_eq_ok {table : Nat} : ∀ {columns : List (Nat × (Row → Option RowValue))} {values values' : Row},
    deriveColumns table columns values = .ok values' →
      values'.length = values.length ∧ ∀ o, (∀ c ∈ columns, c.1 ≠ o) → values'[o]? = values[o]?
  | [], values, values', h => by
    cases h
    exact ⟨rfl, fun _ _ => rfl⟩
  | (k, compute) :: columns, values, values', h => by
    rw [deriveColumns] at h
    split at h
    · rename_i derived _
      obtain ⟨hlen, hother⟩ := deriveColumns_eq_ok h
      refine ⟨hlen.trans (List.length_set ..), fun o ho => ?_⟩
      rw [hother o fun c hc => ho c (by simp [hc]), List.getElem?_set_ne (ho (k, compute) (by simp))]
    · simp at h

/-! ### One assignment -/

section Assign

variable {table step : Nat} {schema : TableSchema} {values values' : Row} {writer writer' : WriterState}

/-- **The outcomes of an assignment**: no such column, a placeholder that gets the next id, or an explicit id. -/
theorem assignAutoInc_cases (h : assignAutoInc step writer table schema values = .ok (writer', values')) :
    (schema.autoInc = none ∧ writer' = writer ∧ values' = values) ∨
    (∃ o, schema.autoInc = some o ∧ values[o]? = some (.scalar (.u64 0)) ∧
      writer' = writer.move table ((writer.counter table).allocate step).2 ∧
      values' = values.set o (.scalar (.u64 (BitVec.ofNat 64 (writer.counter table).next)))) ∨
    (∃ o id, schema.autoInc = some o ∧ values[o]? = some (.scalar (.u64 id)) ∧ id ≠ 0 ∧
      writer' = writer.move table ((writer.counter table).observeExplicit id.toNat) ∧ values' = values) := by
  unfold assignAutoInc at h
  split at h
  · rename_i hnone
    cases h
    exact .inl ⟨hnone, rfl, rfl⟩
  · rename_i o ho
    split at h
    · rename_i id hid
      by_cases hzero : id = 0
      · subst hzero
        cases h
        exact .inr (.inl ⟨o, ho, hid, rfl, rfl⟩)
      · simp only [hzero, if_false] at h
        cases h
        obtain ⟨hlt, hval⟩ := List.getElem?_eq_some_iff.mp hid
        refine .inr (.inr ⟨o, id, ho, hid, hzero, rfl, ?_⟩)
        rw [← hval, List.set_getElem_self hlt]
    · simp at h

theorem AutoIncCounter.Counts.allocate {c : AutoIncCounter} (h : c.Counts) (step : Nat) : (c.allocate step).2.1.Counts := by
  unfold Counts at h ⊢
  simp only [AutoIncCounter.allocate, saturatingAdd]
  omega

theorem AutoIncCounter.observeExplicit_next (c : AutoIncCounter) (value : Nat) :
    (c.observeExplicit value).1.next = if c.next ≤ value then saturatingAdd value 1 else c.next := by
  unfold observeExplicit
  dsimp only
  split <;> rfl

theorem AutoIncCounter.Counts.observeExplicit {c : AutoIncCounter} (h : c.Counts) (value : Nat) :
    (c.observeExplicit value).1.Counts := by
  unfold Counts at h ⊢
  rw [observeExplicit_next]
  unfold saturatingAdd
  split <;> omega

theorem WriterState.counts_move {r : AutoIncCounter × Bool} (h : ∀ t, (writer.counter t).Counts) (hr : r.1.Counts) (t : Nat) :
    ((writer.move table r).counter t).Counts := by
  rw [counter_move]
  split
  · exact hr
  · exact h t

theorem counts_assignAutoInc (h : assignAutoInc step writer table schema values = .ok (writer', values'))
    (hc : ∀ t, (writer.counter t).Counts) : ∀ t, (writer'.counter t).Counts := by
  rcases assignAutoInc_cases h with ⟨-, rfl, -⟩ | ⟨o, -, -, rfl, -⟩ | ⟨o, id, -, -, -, rfl, -⟩
  · exact hc
  · exact WriterState.counts_move hc ((hc table).allocate step)
  · exact WriterState.counts_move hc ((hc table).observeExplicit id.toNat)

theorem noPlaceholder_assignAutoInc (h : assignAutoInc step writer table schema values = .ok (writer', values'))
    (hc : (writer.counter table).Counts) : NoPlaceholder schema values' := by
  intro o ho hzero
  rcases assignAutoInc_cases h with ⟨hnone, -, -⟩ | ⟨o', ho', hcur, -, rfl⟩ | ⟨o', id, ho', hcur, hne, -, rfl⟩
  · rw [hnone] at ho
    cases ho
  · cases ho'.symm.trans ho
    obtain ⟨hlt, -⟩ := List.getElem?_eq_some_iff.mp hcur
    rw [List.getElem?_set_self hlt] at hzero
    have hid : BitVec.ofNat 64 (writer.counter table).next = 0 := by simpa using hzero
    have := congrArg BitVec.toNat hid
    rw [BitVec.toNat_ofNat, Nat.mod_eq_of_lt hc.2] at this
    have hpos := hc.1
    simp at this
    omega
  · cases ho'.symm.trans ho
    rw [hcur] at hzero
    exact hne (by simpa using hzero)

end Assign

/-! ### Transactions -/

section Transactions

variable {cat : Catalog} {srv : Services cat} {tx tx' : Tx} {table : Nat} {pk : Bytes}

theorem Tx.Assigned.write {values stored : Row} {replace : Bool} (h : tx.Assigned cat)
    (hw : tx.write srv table values replace = .ok (tx', stored)) : tx'.Assigned cat := by
  obtain ⟨schema, derived, writer, assigned, pk, row, t, op, hprepare, hassign, -, -, hrow, -, -, -, hplace, rfl⟩ :=
    write_eq_ok hw
  have hschema := (prepare_eq_ok hprepare).1
  -- the auto-increment column is a key column, which no transform touches
  have hid : NoPlaceholder schema row := by
    intro o ho
    have hkey : o ∈ schema.primaryKey := by rw [(schema.autoInc_primaryKey o ho).1]; simp
    rw [(RowTransform.run_eq_ok hrow).2 o (cat.sealed_primaryKey table schema hschema o hkey)]
    exact noPlaceholder_assignAutoInc hassign (h.counters table) o ho
  refine ⟨h.committed, fun table' schema' pk' op' row' hschema' hop' hrow' => ?_, counts_assignAutoInc hassign h.counters⟩
  rcases op_setOp_eq_some hop' with ⟨rfl, rfl, hnew⟩ | hop'
  · cases hschema.symm.trans hschema'
    rcases place_cases hplace with ⟨rfl, -⟩ | ⟨rfl, -⟩ | ⟨rfl, -⟩
    · cases hnew
    all_goals
      cases hnew
      cases hrow'
      exact hid
  · exact h.pending table' schema' pk' op' row' hschema' hop' hrow'

theorem Tx.Assigned.setOp {op : Option PendingOp} (h : tx.Assigned cat) (hop : ∀ p ∈ op, p.result = none) :
    (tx.setOp table pk op).Assigned cat := by
  refine ⟨h.committed, fun table' schema' pk' op' row' hschema' hop' hrow' => ?_, h.counters⟩
  rcases op_setOp_eq_some hop' with ⟨-, -, hnew⟩ | hop'
  · rw [hop op' hnew] at hrow'
    cases hrow'
  · exact h.pending table' schema' pk' op' row' hschema' hop' hrow'

/-- **Every call keeps the ids assigned.** -/
theorem kept_assigned : Tx.Kept srv (Tx.Assigned cat) :=
  .of_parts (fun h hassign => ⟨h.committed, h.pending, counts_assignAutoInc hassign h.counters⟩) (fun h hw => h.write hw)
    fun _ _ h _ _ hop => h.setOp hop

theorem Tx.Assigned.of_view {schema : TableSchema} {row : Row} (h : tx.Assigned cat)
    (hschema : cat.tables[table]? = some schema) (hrow : tx.view table pk = some row) : NoPlaceholder schema row := by
  rw [Tx.view] at hrow
  rcases hop : tx.op table pk with _ | op
  · rw [hop] at hrow
    exact h.committed table schema pk row hschema hrow
  · rw [hop] at hrow
    exact h.pending table schema pk op row hschema hop hrow

theorem Tx.Assigned.commit {diff : TxDiff} {s : MemStore} (h : tx.Assigned cat) (hc : tx.commit cat = .ok (diff, s)) :
    s.begin.Assigned cat := by
  obtain ⟨-, -, -, -, -, -, hcounters, -, -⟩ := commit_eq_ok hc
  refine ⟨fun table schema pk row hschema hrow => ?_, fun table schema pk op row _ hop => ?_, fun table => ?_⟩
  · exact h.of_view hschema ((commit_rowIn hc table pk).symm.trans hrow)
  · cases hop
  · show (s.writer.counter table).Counts
    rw [WriterState.counter, hcounters]
    exact h.counters table

theorem Tx.Assigned.rollback (h : tx.Assigned cat) : tx.rollback.begin.Assigned cat := by
  refine ⟨h.committed, fun table schema pk op row _ hop => ?_, h.counters⟩
  cases hop

theorem rowIn_new (cat : Catalog) (table : Nat) (pk : Bytes) : rowIn (MemStore.new cat).committed table pk = none := by
  simp only [rowIn, MemStore.new, ExtTreeMap.getElem?_map]
  cases cat.tables[table]? <;> simp [TableState.empty, TableState.rowAt]

theorem counter_new (cat : Catalog) (table : Nat) : (MemStore.new cat).writer.counter table = .new := by
  simp only [WriterState.counter, MemStore.new, ExtTreeMap.getElem?_filterMap]
  cases cat.tables[table]? with
  | none => rfl
  | some schema => cases hinc : schema.autoInc <;> simp [hinc]

theorem assigned_new (cat : Catalog) : (MemStore.new cat).begin.Assigned cat := by
  refine ⟨fun table schema pk row _ hrow => ?_, fun table schema pk op row _ hop => ?_, fun table => ?_⟩
  · rw [show rowIn (MemStore.new cat).begin.base table pk = none from rowIn_new cat table pk] at hrow
    cases hrow
  · cases hop
  · show ((MemStore.new cat).writer.counter table).Counts
    rw [counter_new]
    exact ⟨Nat.le_refl 1, by decide⟩

end Transactions

/-! ### What an assignment does to the counters -/

/-- Counters and marks only rise, and a mark that rises has to be published. -/
structure WriterState.Advances (w w' : WriterState) : Prop where
  txId : w'.nextTxId = w.nextTxId
  next : ∀ table, (w.counter table).next ≤ (w'.counter table).next
  highWater : ∀ table, (w.counter table).highWater ≤ (w'.counter table).highWater
  dirty : ∀ table, table ∉ w'.highWaterDirty →
    table ∉ w.highWaterDirty ∧ (w'.counter table).highWater = (w.counter table).highWater

section Assign

variable {table step : Nat} {schema : TableSchema} {values values' : Row} {w w' : WriterState} {r : AutoIncCounter × Bool}

theorem WriterState.advances_move (hnext : (w.counter table).next ≤ r.1.next)
    (hmark : (w.counter table).highWater ≤ r.1.highWater)
    (hdirty : r.2 = false → r.1.highWater = (w.counter table).highWater) : w.Advances (w.move table r) := by
  refine ⟨rfl, fun t => ?_, fun t => ?_, fun t ht => ?_⟩
  · rw [counter_move]
    split
    · rename_i heq
      exact heq ▸ hnext
    · exact le_rfl
  · rw [counter_move]
    split
    · rename_i heq
      exact heq ▸ hmark
    · exact le_rfl
  · rw [counter_move]
    simp only [WriterState.move] at ht
    cases hr : r.2 with
    | true =>
      rw [hr, if_pos rfl, OrdMap.mem_insert, not_or] at ht
      exact ⟨ht.2, by rw [if_neg ht.1]⟩
    | false =>
      rw [hr, if_neg Bool.false_ne_true] at ht
      refine ⟨ht, ?_⟩
      split
      · rename_i heq
        exact heq ▸ hdirty hr
      · rfl

theorem advances_assignAutoInc (h : assignAutoInc step w table schema values = .ok (w', values'))
    (hc : (w.counter table).Counts) : w.Advances w' := by
  have hlt := hc.2
  rcases assignAutoInc_cases h with ⟨-, rfl, -⟩ | ⟨o, -, -, rfl, -⟩ | ⟨o, id, -, -, -, rfl, -⟩
  · exact ⟨rfl, fun _ => le_rfl, fun _ => le_rfl, fun _ ht => ⟨ht, rfl⟩⟩
  · apply WriterState.advances_move <;> simp only [AutoIncCounter.allocate, saturatingAdd]
    · omega
    · split <;> simp_all
      omega
    · intro hadv
      rw [if_neg (by simpa using hadv)]
  · apply WriterState.advances_move
    · rw [AutoIncCounter.observeExplicit_next]
      unfold saturatingAdd
      split <;> omega
    · unfold AutoIncCounter.observeExplicit
      dsimp only
      split <;> dsimp only <;> omega
    · unfold AutoIncCounter.observeExplicit
      dsimp only
      split <;> simp

theorem highWaterOf_eq (w : WriterState) (table : Nat) : highWaterOf w.counters table = (w.counter table).highWater := by
  unfold highWaterOf WriterState.counter
  cases w.counters[table]? <;> rfl

end Assign

end Fluxum
