/-
# Recovery

`checkpoint/recover.rs`: a checkpoint that verified and the records of the
commit log after it are folded into working tables, the indexes and unique
maps are built from the recovered rows, and the result is installed in a
fresh store. A record removes its deleted keys and then puts its rows, over
whatever the working table holds; high-water marks only rise.
-/
import Fluxum.Store.Counters

namespace Fluxum

open Std Outcome List ExtTreeMap OrdMap Prod

/-- A table while checkpoint and replay fold into it. -/
structure WorkingTable where
  schema : TableSchema
  rows : Tree Row
  autoIncHighWater : Nat

abbrev WorkingTables := ExtTreeMap Nat WorkingTable

structure LoadedTable where
  tableId : Nat
  tableName : String
  autoIncHighWater : Nat
  rows : List Row

structure LoadedCheckpoint where
  lastTxId : Nat
  tables : List LoadedTable

/-- `TableId::of`: the id of a table is computed from its name. -/
structure TableIds (cat : Catalog) where
  idOf : String → Nat
  idOf_name : ∀ table schema, cat.tables[table]? = some schema → idOf schema.name = table

inductive RecoverError where
  /-- The recorded id is not the one of the name. -/
  | tableId (table : String) (recorded computed : Nat)
  | checkpointTable (table : String)
  | recordTable (txId table : Nat)
  | row (error : RowError)
  | logValue (error : BadLen)
  | store (error : StoreError)
  | txZero
  | coverage
  | notFresh

/-! ### Checkpoint and replay -/

def WorkingTable.put (t : WorkingTable) (row : Row) : Except RecoverError WorkingTable := do
  let pk ← (encodePkOfRow t.schema row).mapError .row
  return { t with rows := t.rows.insert pk row }

def workingTables (cat : Catalog) : WorkingTables := cat.tables.map fun _ schema => ⟨schema, ∅, 0⟩

def applyLoaded {cat : Catalog} (ids : TableIds cat) (working : WorkingTables) (table : LoadedTable) :
    Except RecoverError WorkingTables :=
  if ids.idOf table.tableName ≠ table.tableId then
    .error (.tableId table.tableName table.tableId (ids.idOf table.tableName))
  else
    match working[table.tableId]? with
    | none => .error (.checkpointTable table.tableName)
    | some slot => do
      let slot ← table.rows.foldlM WorkingTable.put { slot with autoIncHighWater := table.autoIncHighWater }
      return working.insert table.tableId slot

def applyCheckpoint {cat : Catalog} (ids : TableIds cat) (working : WorkingTables)
    (loaded : LoadedCheckpoint) : Except RecoverError WorkingTables :=
  loaded.tables.foldlM (applyLoaded ids) working

/-- One mutation of a record: the deletes, then the inserts. -/
def applyMutation (txId : Nat) (working : WorkingTables) (m : TableMutation) :
    Except RecoverError WorkingTables :=
  match working[m.tableId]? with
  | none => .error (.recordTable txId m.tableId)
  | some slot => do
    let rows ← m.insertRows.mapError .logValue
    let slot ← rows.foldlM WorkingTable.put { slot with rows := m.deletes.foldl ExtTreeMap.erase slot.rows }
    return working.insert m.tableId slot

def raiseHighWater (working : WorkingTables) (p : Nat × Nat) : WorkingTables :=
  match working[p.1]? with
  | some slot => working.insert p.1 { slot with autoIncHighWater := max slot.autoIncHighWater p.2 }
  | none => working

def applyRecord (working : WorkingTables) (record : TxRecord) :
    Except RecoverError WorkingTables := do
  let working ← record.mutations.foldlM (applyMutation record.txId) working
  return record.autoInc.foldl raiseHighWater working

/-- One record of the replay; those the checkpoint covers are passed over. -/
def replayRecord (covered : Nat) (working : WorkingTables) (record : TxRecord) :
    Except RecoverError WorkingTables :=
  if record.txId ≤ covered then .ok working else applyRecord working record

/-! ### Assembly -/

/-- The entries of one row, staged in the sorted maps that the trees are loaded from. -/
def stageRow (fits : Row → Bool) (t : TableState) (p : Bytes × Row) : Except StoreError TableState := do
  let indexes ← t.indexes.mapM fun index => do
    let key ← BTreeIndex.entryKey index.columns p.1 p.2
    return { index with tree := index.tree.insert key p.1 }
  let unique ← t.unique.mapM fun constraint => do
    let key ← columnsKey constraint.columns p.2
    return { constraint with tree := constraint.tree.insert key p.1 }
  if fits p.2 then return { t with indexes, unique, rows := t.rows.insert p.1 p.2, rowCount := t.rowCount + 1 }
  else .error .pageEncode

/-- `PagedTree::bulk_load` of a sorted map. -/
def bulkLoad {α : Type} (entries : Tree α) : Except StoreError Unit := entries.toList.forM fun p => checkKey p.1

/-- The table with its indexes and unique maps, from the recovered rows. -/
def WorkingTable.assemble (fits : Row → Bool) (w : WorkingTable) : Except StoreError TableState := do
  let t ← w.rows.toList.foldlM (stageRow fits) { TableState.empty w.schema with autoIncHighWater := w.autoIncHighWater }
  t.indexes.forM fun index => bulkLoad index.tree
  t.unique.forM fun constraint => bulkLoad constraint.tree
  bulkLoad t.rows
  return t

/-- Assemble one table into the recovered state. -/
def assembleTable (fits : Row → Bool) (tables : Tables) (p : Nat × WorkingTable) :
    Except RecoverError Tables := do
  let t ← (p.2.assemble fits).mapError .store
  return tables.insert p.1 t

/-- Resume the counter of a table with an auto-increment column. -/
def resumeCounter (counters : ExtTreeMap Nat AutoIncCounter) (p : Nat × TableState) : ExtTreeMap Nat AutoIncCounter :=
  if p.2.schema.autoInc.isSome then
    counters.insert p.1 ⟨saturatingAdd p.2.autoIncHighWater 1, p.2.autoIncHighWater⟩
  else counters

def MemStore.installRecovered (cat : Catalog) (s : MemStore) (tables : Tables) (nextTxId : Nat) :
    Except RecoverError MemStore :=
  if nextTxId = 0 then .error .txZero
  else if tables.size ≠ cat.tables.size || !cat.tables.keys.all tables.contains then .error .coverage
  else if s.writer.nextTxId ≠ 1 then .error .notFresh
  else
    .ok
      { committed := tables
        writer := { s.writer with nextTxId, counters := tables.toList.foldl resumeCounter s.writer.counters } }

/-- `recover` into a fresh store, once a checkpoint is adopted or none is left to try. -/
def recoverFrom {cat : Catalog} (ids : TableIds cat) (adopted : Option LoadedCheckpoint) (records : List TxRecord) :
    Except RecoverError MemStore := do
  let working ← adopted.toList.foldlM (applyCheckpoint ids) (workingTables cat)
  let covered := adopted.map (·.lastTxId)
  let working ← records.foldlM (replayRecord (covered.getD 0)) working
  let tables ← working.toList.foldlM (assembleTable cat.fits) ∅
  let last := max (records.getLast?.map (·.txId)) covered
  (MemStore.new cat).installRecovered cat tables (last.elim 1 (saturatingAdd · 1))

/-! ### What replay does to schemas and marks -/

/-- A high-water mark after one published mark. -/
def raised (table mark : Nat) (p : Nat × Nat) : Nat := if p.1 = table then max mark p.2 else mark

/-- The highest mark that the records publish for a table. -/
def markOf (records : List TxRecord) (table : Nat) : Nat := (records.flatMap (·.autoInc)).foldl (raised table) 0

/-- The part of a table that no row changes. -/
def WorkingTable.head (w : WorkingTable) : TableSchema × Nat := (w.schema, w.autoIncHighWater)

section Marks

variable {cat : Catalog} {working working' : WorkingTables} {w w' : WorkingTable} {table mark bound : Nat}

theorem foldl_raised_le : ∀ {l : List (Nat × Nat)} {mark : Nat},
    l.foldl (raised table) mark ≤ bound ↔ mark ≤ bound ∧ ∀ m, (table, m) ∈ l → m ≤ bound
  | [], mark => by simp
  | (t, m) :: l, mark => by
    rw [List.foldl_cons, foldl_raised_le, raised]
    by_cases ht : t = table
    · subst ht
      simp only [if_true, Nat.max_le, List.mem_cons, Prod.mk.injEq, true_and, forall_eq_or_imp, and_assoc]
    · simp [ht, Ne.symm ht]

/-- **The highest mark is the least bound of the published ones.** -/
theorem markOf_le {records : List TxRecord} :
    markOf records table ≤ bound ↔ ∀ r ∈ records, ∀ m, (table, m) ∈ r.autoInc → m ≤ bound := by
  rw [markOf, foldl_raised_le]
  simp only [Nat.zero_le, true_and, mem_flatMap]
  exact ⟨fun h r hr m hm => h m ⟨r, hr, hm⟩, fun h m ⟨r, hr, hm⟩ => h r hr m hm⟩

theorem le_markOf {records : List TxRecord} {r : TxRecord} (hr : r ∈ records) (hm : (table, mark) ∈ r.autoInc) :
    mark ≤ markOf records table :=
  markOf_le.mp le_rfl r hr mark hm

theorem puts_head : ∀ {rows : List Row} {w : WorkingTable}, rows.foldlM WorkingTable.put w = .ok w' → w'.head = w.head
  | [], w, h => by
    cases h
    rfl
  | row :: rows, w, h => by
    rw [List.foldlM_cons] at h
    obtain ⟨w₁, h₁, h⟩ := bind_eq_ok.mp h
    obtain ⟨pk, -, h₁⟩ := bind_eq_ok.mp h₁
    cases h₁
    exact (puts_head h).trans rfl

theorem applyMutation_head {txId : Nat} {m : TableMutation} (h : applyMutation txId working m = .ok working')
    (table : Nat) : working'[table]?.map WorkingTable.head = working[table]?.map WorkingTable.head := by
  unfold applyMutation at h
  split at h
  · simp at h
  rename_i slot hslot
  simp only [bind_eq_ok] at h
  obtain ⟨rows, -, w, hw, h⟩ := h
  cases h
  rw [lookup_insert]
  split
  · rename_i heq
    rw [← heq, hslot, Option.map_some, Option.map_some, puts_head hw]
    rfl
  · rfl

theorem applyMutations_head {txId : Nat} : ∀ {ms : List TableMutation} {working : WorkingTables},
    ms.foldlM (applyMutation txId) working = .ok working' →
      working'[table]?.map WorkingTable.head = working[table]?.map WorkingTable.head
  | [], working, h => by
    cases h
    rfl
  | m :: ms, working, h => by
    rw [List.foldlM_cons] at h
    obtain ⟨working₁, h₁, h⟩ := bind_eq_ok.mp h
    rw [applyMutations_head h, applyMutation_head h₁]

theorem raiseHighWater_head (working : WorkingTables) (p : Nat × Nat) (table : Nat) :
    (raiseHighWater working p)[table]?.map WorkingTable.head =
      working[table]?.map fun (w : WorkingTable) => (w.schema, raised table w.autoIncHighWater p) := by
  unfold raiseHighWater raised
  split
  · rename_i slot hslot
    rw [lookup_insert]
    split
    · rename_i heq
      rw [← heq, hslot]
      rfl
    · rfl
  · rename_i hnone
    rcases hw : working[table]? with _ | w
    · rfl
    · have hne : p.1 ≠ table := fun heq => by simp [heq, hw] at hnone
      simp [hne, WorkingTable.head]

theorem raiseHighWaters_head : ∀ (l : List (Nat × Nat)) (working : WorkingTables),
    (l.foldl raiseHighWater working)[table]?.map WorkingTable.head =
      (working[table]?.map WorkingTable.head).map fun q => (q.1, l.foldl (raised table) q.2)
  | [], working => by simp [Function.comp_def]
  | p :: l, working => by
    rw [List.foldl_cons, raiseHighWaters_head l, raiseHighWater_head]
    simp [Function.comp_def, WorkingTable.head]

theorem replay_head (table : Nat) {covered : Nat} : ∀ {records : List TxRecord} {working : WorkingTables},
    records.foldlM (replayRecord covered) working = .ok working' →
      working'[table]?.map WorkingTable.head = (working[table]?.map WorkingTable.head).map fun q =>
        (q.1, ((records.filter (covered < ·.txId)).flatMap (·.autoInc)).foldl (raised table) q.2)
  | [], working, h => by
    cases h
    simp [Function.comp_def]
  | r :: records, working, h => by
    rw [List.foldlM_cons] at h
    obtain ⟨working₁, h₁, h⟩ := bind_eq_ok.mp h
    rw [replay_head table h]
    unfold replayRecord at h₁
    split at h₁
    · rename_i hle
      cases h₁
      rw [filter_cons_of_neg (by simpa using hle)]
    · rename_i hlt
      obtain ⟨working₂, h₂, h₁⟩ := bind_eq_ok.mp h₁
      cases h₁
      rw [filter_cons_of_pos (by simpa using hlt), raiseHighWaters_head, applyMutations_head h₂]
      simp [Function.comp_def, foldl_append]

end Marks

theorem mem_autoInc_commit {cat : Catalog} {tx : Tx} {diff : TxDiff} {s : MemStore} {info : CommitMeta} (hc : tx.commit cat = .ok (diff, s)) {table m : Nat} :
    (table, m) ∈ (TxRecord.fromDiff (durableDiff cat diff) info).autoInc ↔
      table ∈ tx.writer.highWaterDirty ∧ m = (tx.writer.counter table).highWater ∧ cat.isEphemeral table = false := by
  obtain ⟨-, -, -, -, -, -, -, -, hauto⟩ := commit_eq_ok hc
  have hdirty : ∀ t : Nat, t ∈ tx.writer.highWaterDirty.toList ↔ t ∈ tx.writer.highWaterDirty := fun t => by simp
  simp only [TxRecord.fromDiff, durableDiff, hauto, mem_filter, mem_map, Bool.not_eq_true', Prod.mk.injEq]
  constructor
  · rintro ⟨⟨t, ht, rfl, rfl⟩, hdur⟩
    exact ⟨(hdirty t).mp ht, highWaterOf_eq .., hdur⟩
  · rintro ⟨ht, rfl, hdur⟩
    exact ⟨⟨table, (hdirty table).mpr ht, rfl, highWaterOf_eq ..⟩, hdur⟩

/-! ### The assembled tables -/

variable {tables : Tables}

section Assemble

variable {cat : Catalog} {fits : Row → Bool} {t t' : TableState} {w : WorkingTable}

theorem stageRows_head : ∀ {l : List (Bytes × Row)} {t : TableState}, l.foldlM (stageRow fits) t = .ok t' →
    t'.schema = t.schema ∧ t'.autoIncHighWater = t.autoIncHighWater
  | [], t, h => by
    cases h
    exact ⟨rfl, rfl⟩
  | p :: l, t, h => by
    rw [List.foldlM_cons] at h
    obtain ⟨t₁, h₁, h⟩ := bind_eq_ok.mp h
    have hrest := stageRows_head h
    obtain ⟨indexes, -, h₁⟩ := bind_eq_ok.mp h₁
    obtain ⟨unique, -, h₁⟩ := bind_eq_ok.mp h₁
    split at h₁
    · cases h₁
      exact hrest
    · simp at h₁

theorem assemble_eq_ok (h : w.assemble fits = .ok t) : w.rows.toList.foldlM (stageRow fits)
    { TableState.empty w.schema with autoIncHighWater := w.autoIncHighWater } = .ok t := by
  obtain ⟨t₁, h₁, h⟩ := bind_eq_ok.mp h
  obtain ⟨-, -, h⟩ := bind_eq_ok.mp h
  obtain ⟨-, -, h⟩ := bind_eq_ok.mp h
  obtain ⟨-, -, h⟩ := bind_eq_ok.mp h
  cases h
  exact h₁

theorem assemble_head (h : w.assemble fits = .ok t) : (t.schema, t.autoIncHighWater) = w.head := by
  obtain ⟨hs, hm⟩ := stageRows_head (assemble_eq_ok h)
  rw [hs, hm]
  rfl

theorem assembled_getElem? {working : WorkingTables}
    (h : working.toList.foldlM (assembleTable fits) ∅ = .ok tables) (id : Nat) :
    (working[id]? = none ∧ tables[id]? = none) ∨
      ∃ (w : WorkingTable) (t : TableState), working[id]? = some w ∧ w.assemble fits = .ok t ∧ tables[id]? = some t := by
  have hloop := Ends.foldlM_keyed (E := fun _ => True) (fun (m : Tables) (k : Nat) => m[k]?) fst
    (P := fun p _ new => ∃ t, p.2.assemble fits = .ok t ∧ new = some t) (f := assembleTable fits) (a := ∅)
    (nodup_keys_toList working) fun p _ m _ => by
      unfold assembleTable
      rcases hres : p.2.assemble fits with e | t
      · trivial
      · refine ⟨⟨t, rfl, by simp⟩, fun k hk => ?_⟩
        rw [lookup_insert, if_neg (Ne.symm hk)]
  obtain ⟨hmem, hrest⟩ := hloop.of_ok h
  rcases hw : working[id]? with _ | w
  · refine .inl ⟨rfl, (hrest id fun hid => ?_).trans (by simp)⟩
    obtain ⟨⟨id', w⟩, hp, rfl⟩ := mem_map.mp hid
    rw [mem_toList_iff_getElem?_eq_some.mp hp] at hw
    cases hw
  · obtain ⟨t, ht, htable⟩ := hmem (id, w) (mem_toList_iff_getElem?_eq_some.mpr hw)
    exact .inr ⟨w, t, rfl, ht, htable⟩

theorem resumeCounters_getElem? : ∀ {l : List (Nat × TableState)} (counters : ExtTreeMap Nat AutoIncCounter),
    (l.map Prod.fst).Nodup →
      (∀ p ∈ l, (l.foldl resumeCounter counters)[p.1]? = (resumeCounter counters p)[p.1]?) ∧
      ∀ id, id ∉ l.map Prod.fst → (l.foldl resumeCounter counters)[id]? = counters[id]?
  | [], counters, _ => ⟨by simp, fun _ _ => rfl⟩
  | p :: l, counters, hnodup => by
    rw [List.map_cons, List.nodup_cons] at hnodup
    have hother : ∀ id, id ≠ p.1 → (resumeCounter counters p)[id]? = counters[id]? := by
      intro id hne
      unfold resumeCounter
      split
      · rw [lookup_insert, if_neg (Ne.symm hne)]
      · rfl
    obtain ⟨hmem, hrest⟩ := resumeCounters_getElem? (resumeCounter counters p) hnodup.2
    refine ⟨fun q hq => ?_, fun id hid => ?_⟩
    · rw [foldl_cons]
      rcases mem_cons.mp hq with rfl | hq
      · exact hrest q.1 hnodup.1
      have hne : q.1 ≠ p.1 := fun heq => hnodup.1 (heq ▸ mem_map_of_mem hq)
      rw [hmem q hq]
      unfold resumeCounter
      split
      · rw [lookup_insert, lookup_insert, if_pos rfl, if_pos rfl]
      · exact hother q.1 hne
    · rw [map_cons, mem_cons, not_or] at hid
      rw [foldl_cons, hrest id hid.2, hother id hid.1]

end Assemble

/-! ### The recovered store -/

section Recovered

variable {cat : Catalog} {ids : TableIds cat} {records : List TxRecord} {s : MemStore}

theorem installRecovered_eq_ok {nextTxId : Nat}
    (h : (MemStore.new cat).installRecovered cat tables nextTxId = .ok s) : nextTxId ≠ 0 ∧ s =
      { committed := tables
        writer := { (MemStore.new cat).writer with
          nextTxId, counters := tables.toList.foldl resumeCounter (MemStore.new cat).writer.counters } } := by
  unfold MemStore.installRecovered at h
  split at h
  · simp at h
  rename_i hne
  split at h
  · simp at h
  · split at h
    · simp at h
    · exact ⟨hne, (Except.ok.inj h).symm⟩

/-- **Every counter resumes after the recovered mark**, and nothing is left to publish. -/
theorem recoverFrom_counter (h : recoverFrom ids none records = .ok s) {table : Nat} {schema : TableSchema}
    (hschema : cat.tables[table]? = some schema) :
    s.writer.counter table =
      if schema.autoInc.isSome then
        ⟨saturatingAdd (markOf (records.filter (0 < ·.txId)) table) 1, markOf (records.filter (0 < ·.txId)) table⟩
      else .new := by
  obtain ⟨working, hworking, h⟩ := bind_eq_ok.mp h
  cases hworking
  simp only [bind_eq_ok] at h
  obtain ⟨working, hreplay, tables, htables, h⟩ := h
  have hhead := replay_head table hreplay
  rw [workingTables, ExtTreeMap.getElem?_map, hschema] at hhead
  rcases assembled_getElem? htables table with ⟨hnone, -⟩ | ⟨w, t, hw, hassemble, ht⟩
  · simp [hnone] at hhead
  have heq : w.head = (schema, markOf (records.filter (0 < ·.txId)) table) := by
    simpa [hw, WorkingTable.head, markOf] using hhead
  obtain ⟨hs, hm⟩ := mk.inj ((assemble_head hassemble).trans heq)
  obtain ⟨-, rfl⟩ := installRecovered_eq_ok h
  have hmem := (resumeCounters_getElem? (MemStore.new cat).writer.counters (nodup_keys_toList tables)).1 (table, _)
    (mem_toList_iff_getElem?_eq_some.mpr ht)
  unfold WriterState.counter
  rw [hmem, resumeCounter, hs, hm]
  split
  · simp
  · exact counter_new cat table

theorem counter_recovered_unknown (h : recoverFrom ids none records = .ok s) {table : Nat}
    (hschema : cat.tables[table]? = none) : s.writer.counter table = .new := by
  obtain ⟨working, hworking, h⟩ := bind_eq_ok.mp h
  cases hworking
  simp only [bind_eq_ok] at h
  obtain ⟨working, hreplay, tables, htables, h⟩ := h
  have hhead := replay_head table hreplay
  rw [workingTables, ExtTreeMap.getElem?_map, hschema] at hhead
  have hnone : tables[table]? = none := by
    rcases assembled_getElem? htables table with ⟨-, hnone⟩ | ⟨w, t, hw, -, -⟩
    · exact hnone
    · simp [hw] at hhead
  obtain ⟨-, rfl⟩ := installRecovered_eq_ok h
  have hout : table ∉ tables.toList.map fst := fun hmem => by
    obtain ⟨⟨table', t⟩, hp, rfl⟩ := mem_map.mp hmem
    rw [mem_toList_iff_getElem?_eq_some.mp hp] at hnone
    cases hnone
  have hrest := (resumeCounters_getElem? (MemStore.new cat).writer.counters (nodup_keys_toList tables)).2 table hout
  unfold WriterState.counter
  rw [hrest]
  exact counter_new cat table

theorem recoverFrom_txId {adopted : Option LoadedCheckpoint} (h : recoverFrom ids adopted records = .ok s) :
    0 < s.writer.nextTxId := by
  obtain ⟨working, -, h⟩ := bind_eq_ok.mp h
  obtain ⟨working, -, h⟩ := bind_eq_ok.mp h
  obtain ⟨tables, -, h⟩ := bind_eq_ok.mp h
  obtain ⟨hne, rfl⟩ := installRecovered_eq_ok h
  exact Nat.pos_of_ne_zero hne

end Recovered

end Fluxum
