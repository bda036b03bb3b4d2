/-
# Replication, and the integrity of the indexes

A primary store runs transactions and logs one record for each commit; the
other stores apply those records with `apply_replica_record`, and may run
transactions of their own.

* `indexes_match_rows`: in every state such a system reaches, every index and
  every unique map of every store holds exactly the entries of its rows.
-/
import Fluxum.Lib.Runs
import Fluxum.Store.Commit

namespace Fluxum

open Std Outcome List ExtTreeMap

/-- The identity, time and reducer a record is tagged with. -/
structure CommitMeta where
  shardId : Nat
  timestamp : Int
  caller : Bytes
  reducerName : String

def TxRecord.fromDiff (diff : TxDiff) (info : CommitMeta) : TxRecord :=
  { txId := diff.txId
    timestamp := info.timestamp
    shardId := info.shardId
    mutations := diff.tables.map fun t =>
      { tableId := t.tableId, inserts := t.inserts.map LogValue.rowToLog, deletes := t.deletes.map Prod.fst }
    autoInc := diff.autoInc
    caller := info.caller
    reducerName := info.reducerName }

/-- Whether a table is memory only; an unknown one is taken as durable. -/
def Catalog.isEphemeral (cat : Catalog) (table : Nat) : Bool := cat.tables[table]?.any (·.isEphemeral)

/-- The part of a diff that is logged. -/
def durableDiff (cat : Catalog) (diff : TxDiff) : TxDiff :=
  { diff with
    tables := diff.tables.filter (!cat.isEphemeral ·.tableId)
    autoInc := diff.autoInc.filter (!cat.isEphemeral ·.1) }

section Replica

variable (cat : Catalog)

/-- One mutation of a replicated record. -/
def replicateMutation (s : Tables × List TableDiff) (m : TableMutation) :
    Except StoreError (Tables × List TableDiff) := do
  let _ ← cat.schemaOf m.tableId
  match s.1[m.tableId]? with
  | none => .error (.unknownTable m.tableId)
  | some t => do
    let (t, diff) ← replicateTable cat.fits t m
    return (s.1.insert m.tableId t, s.2 ++ [diff])

/-- Resume a counter and a table from a published high-water mark. -/
def resumeHighWater (s : MemStore) (p : Nat × Nat) : MemStore :=
  { committed :=
      match s.committed[p.1]? with
      | some t => s.committed.insert p.1 { t with autoIncHighWater := p.2 }
      | none => s.committed
    writer := { s.writer with counters := s.writer.counters.insert p.1 ⟨saturatingAdd p.2 1, p.2⟩ } }

def MemStore.applyReplicaRecord (s : MemStore) (record : TxRecord) : Except StoreError (TxDiff × MemStore) :=
  if record.txId ≠ s.writer.nextTxId then .error (.replicaTxId record.txId s.writer.nextTxId)
  else do
    let (tables, diffs) ← record.mutations.foldlM (replicateMutation cat) (s.committed, [])
    let s := record.autoInc.foldl resumeHighWater { s with committed := tables }
    let writer := { s.writer with nextTxId := saturatingAdd record.txId 1 }
    return (⟨record.txId, diffs, record.autoInc⟩, { s with writer })

end Replica

/-! ### The system -/

/-- A store, and the transaction that holds its writer lock. -/
structure Node where
  store : MemStore
  tx : Option Tx

/-- The stores, the primary being number 0, and the primary's log. -/
structure Cluster where
  node : Nat → Node
  log : List TxRecord

namespace Cluster

inductive Step (cat : Catalog) where
  | begin (node : Nat)
  | call (node : Nat) (srv : Services cat) (c : TxCall)
  | commit (node : Nat) (info : CommitMeta)
  | rollback (node : Nat)
  /-- Apply record `k` of the primary's log. -/
  | replicate (node k : Nat)

def new (cat : Catalog) : Cluster := ⟨fun _ => ⟨.new cat, none⟩, []⟩

def set (s : Cluster) (i : Nat) (n : Node) : Cluster := { s with node := Function.update s.node i n }

/-- One step; a commit or a record that fails leaves the committed tables. -/
def step (cat : Catalog) (s : Cluster) : Step cat → Option Cluster
  | .begin i =>
    match (s.node i).tx with
    | some _ => none
    | none => some (s.set i ⟨(s.node i).store, some (s.node i).store.begin⟩)
  | .call i srv c => do
    let tx ← (s.node i).tx
    let x ← tx.call srv c
    return s.set i ⟨(s.node i).store, some (Tx.after x)⟩
  | .commit i info => do
    let tx ← (s.node i).tx
    match tx.commit cat with
    | .ok (diff, store) =>
      let log := if i = 0 then s.log ++ [.fromDiff (durableDiff cat diff) info] else s.log
      return { s.set i ⟨store, none⟩ with log }
    | .error _ => return s.set i ⟨tx.rollback, none⟩
  | .rollback i => do
    let tx ← (s.node i).tx
    return s.set i ⟨tx.rollback, none⟩
  | .replicate i k =>
    match (s.node i).tx, s.log[k]? with
    | none, some record =>
      match (s.node i).store.applyReplicaRecord cat record with
      | .ok (_, store) => some (s.set i ⟨store, none⟩)
      | .error _ => some s
    | _, _ => none

end Cluster

/-! ### Consistent tables -/

/-- The tables of the catalog, each with its parts in agreement. -/
structure TablesConsistent (cat : Catalog) (tables : Tables) : Prop where
  covers : ∀ table : Nat, tables[table]?.map TableState.schema = cat.tables[table]?
  consistent : ∀ (table : Nat) t, tables[table]? = some t → t.Consistent

variable {t : TableState} {table : Nat} {row : Row}

section Tables

variable {cat : Catalog} {tables : Tables}

theorem TablesConsistent.tablesOk (h : TablesConsistent cat tables) : TablesOk cat tables := by
  refine ⟨h.covers, fun table schema pk row hschema hrow => ?_⟩
  obtain ⟨t, ht, hrow⟩ := Option.bind_eq_some_iff.mp hrow
  obtain rfl : t.schema = schema := by
    have hcovers := h.covers table
    rw [ht, hschema] at hcovers
    simpa using hcovers
  obtain ⟨htyped, hkey⟩ := (h.consistent table t ht).rows pk row hrow
  exact ⟨htyped.1, fun o v c hv hc _ => htyped.2 o v c hv hc, hkey⟩

theorem tablesConsistent_new (cat : Catalog) : TablesConsistent cat (MemStore.new cat).committed := by
  refine ⟨fun table => ?_, fun table t ht => ?_⟩
  · simp [MemStore.new, TableState.empty, Function.comp_def]
  · simp only [MemStore.new, ExtTreeMap.getElem?_map, Option.map_eq_some_iff] at ht
    obtain ⟨schema, -, rfl⟩ := ht
    exact TableState.consistent_empty schema

theorem consistent_highWater (h : t.Consistent) (highWater : Nat) :
    { t with autoIncHighWater := highWater }.Consistent :=
  ⟨⟨h.indexColumns, h.uniqueColumns, h.unique⟩, h.count, h.rows, h.index⟩

theorem TablesConsistent.insert {t t' : TableState} (h : TablesConsistent cat tables)
    (ht : tables[table]? = some t) (ht' : t'.Consistent) (hschema : t'.schema = t.schema) :
    TablesConsistent cat (tables.insert table t') := by
  refine ⟨fun id => ?_, fun id u hu => ?_⟩
  · rw [← h.covers id, OrdMap.lookup_insert]
    split
    · rename_i heq
      simp [← heq, ht, hschema]
    · rfl
  · rw [OrdMap.lookup_insert] at hu
    split at hu
    · exact Option.some.inj hu ▸ ht'
    · exact h.consistent id u hu

end Tables

/-! ### Commits -/

section Commit

variable {cat : Catalog} {tx : Tx} {diff : TxDiff} {s : MemStore}

theorem StoredRow.rowOk {schema : TableSchema} {pk : Bytes}
    (hsealed : ∀ table, cat.sealedColumns table = []) (h : StoredRow cat table schema pk row) :
    TableState.RowOk schema pk row :=
  ⟨⟨h.length, fun o v c hv hc => h.typed o v c hv hc (by simp [hsealed])⟩, h.key⟩

theorem opsOk_of_ok (hsealed : ∀ table, cat.sealedColumns table = []) (hok : tx.Ok cat)
    (ht : tx.base[table]? = some t) : OpsOk t (tx.ops table).toList := by
  intro pk op hmem
  have hop : tx.op table pk = some op := mem_toList_iff_getElem?_eq_some.mp hmem
  refine ⟨rowIn_eq ht pk ▸ hok.overlays table pk op hop, fun row hrow => ?_⟩
  exact (hok.stored table t.schema pk op row (hok.base.schemaAt ht) hop hrow).rowOk hsealed

/-- **A commit keeps every table consistent.** -/
theorem TablesConsistent.commit (hsealed : ∀ table, cat.sealedColumns table = []) (hok : tx.Ok cat)
    (hbase : TablesConsistent cat tx.base) (h : tx.commit cat = .ok (diff, s)) : TablesConsistent cat s.committed := by
  refine ⟨(TablesOk.commit hok h).covers, fun table u hu => ?_⟩
  rcases commit_table h table with ⟨d, -, t, t', highWater, ht, hmerge, ht'⟩ | ⟨-, hsame⟩
  · cases ht'.symm.trans hu
    have hconsistent := mergeTable_ok (hbase.consistent table t ht) (OrdMap.nodup_keys_toList _)
      (opsOk_of_ok hsealed hok ht) hmerge
    exact consistent_highWater hconsistent highWater
  · rcases hsame with ⟨-, h₂⟩ | ⟨t, highWater, h₁, h₂⟩
    · simp [h₂] at hu
    · cases h₂.symm.trans hu
      exact consistent_highWater (hbase.consistent table t h₁) highWater

end Commit

/-! ### Records -/

/-- The rows a record inserts are typed. -/
def RecordOk (cat : Catalog) (r : TxRecord) : Prop :=
  ∀ m ∈ r.mutations, ∀ schema ∈ cat.tables[m.tableId]?, ∀ rows, m.insertRows = .ok rows → ∀ row ∈ rows, Typed schema row

theorem diffOf_tableId : ∀ {ops : PendingOps} {d : TableDiff} {rows : Rows},
    (diffOf d rows ops).tableId = d.tableId
  | [], _, _ => rfl
  | _ :: _, _, _ => by rw [diffOf, diffOf_tableId]; rfl

theorem mem_diffOf_inserts : ∀ {ops : PendingOps} {d : TableDiff} {rows : Rows},
    row ∈ (diffOf d rows ops).inserts → row ∈ d.inserts ∨ ∃ p ∈ ops, p.2.result = some row
  | [], _, _, h => .inl h
  | (pk, op) :: ops, d, rows, h => by
    rw [diffOf] at h
    rcases mem_diffOf_inserts h with h | ⟨p, hp, hrow⟩
    · simp only [TableDiff.add, List.mem_append, Option.mem_toList] at h
      rcases h with h | h
      · exact .inl h
      · exact .inr ⟨(pk, op), by simp, h⟩
    · exact .inr ⟨p, List.mem_cons_of_mem _ hp, hrow⟩

theorem mapM_toRow_rowToLog : ∀ rows : List Row, (rows.map LogValue.rowToLog).mapM LogValue.toRow = .ok rows
  | [] => rfl
  | row :: rows => by
    rw [List.map_cons, List.mapM_cons, toRow_rowToLog, mapM_toRow_rowToLog rows]
    rfl

section Records

variable {cat : Catalog} {tx : Tx} {diff : TxDiff} {s : MemStore}

/-- **The record of a commit has typed rows.** -/
theorem recordOk_fromDiff (hsealed : ∀ table, cat.sealedColumns table = []) (hok : tx.Ok cat)
    (h : tx.commit cat = .ok (diff, s)) (info : CommitMeta) : RecordOk cat (.fromDiff (durableDiff cat diff) info) := by
  intro m hm schema hschema rows hrows row hrow
  simp only [TxRecord.fromDiff, durableDiff, mem_map, mem_filter] at hm
  obtain ⟨d, ⟨hd, -⟩, rfl⟩ := hm
  rw [TableMutation.insertRows, mapM_toRow_rowToLog] at hrows
  cases hrows
  obtain ⟨tables, -, hmerged, -⟩ := commit_eq_ok h
  obtain ⟨⟨table, ops⟩, hmem, t, t', ht, hmerge, -⟩ := forall₂_exists_left hmerged hd
  have hd : d = diffOf ⟨table, [], []⟩ t.rowAt ops.toList := (mergeTable_eq_ok hmerge).2.2.2.1
  have htable : d.tableId = table := by rw [hd, diffOf_tableId]
  rw [hd] at hrow
  rcases mem_diffOf_inserts hrow with hrow | ⟨⟨pk, op⟩, hop, hresult⟩
  · simp at hrow
  have hops : tx.ops table = ops := by simp [Tx.ops, (mem_touched.mp hmem).1]
  have hop : tx.op table pk = some op := by
    rw [Tx.op, hops]
    exact mem_toList_iff_getElem?_eq_some.mp hop
  exact ((hok.stored table schema pk op row (htable ▸ hschema) hop hresult).rowOk hsealed).1

end Records

/-! ### Replicated records -/

section Replicated

variable {cat : Catalog} {s : MemStore}

theorem replicateMutations_ok : ∀ {ms : List TableMutation} {p p' : Tables × List TableDiff},
    TablesConsistent cat p.1 →
    (∀ m ∈ ms, ∀ schema ∈ cat.tables[m.tableId]?, ∀ rows, m.insertRows = .ok rows → ∀ row ∈ rows, Typed schema row) →
    ms.foldlM (replicateMutation cat) p = .ok p' → TablesConsistent cat p'.1
  | [], _, _, hp, _, h => by
    cases h
    exact hp
  | m :: ms, _, _, hp, hms, h => by
    obtain ⟨q, hq, h⟩ := bind_eq_ok.mp h
    refine replicateMutations_ok ?_ (fun m' hm' => hms m' (mem_cons_of_mem m hm')) h
    obtain ⟨schema, hschema, hq⟩ := bind_eq_ok.mp hq
    split at hq
    · simp at hq
    rename_i t ht
    obtain ⟨⟨t', d⟩, ht', hq⟩ := bind_eq_ok.mp hq
    cases hq
    have hcovers := hp.covers m.tableId
    rw [ht] at hcovers
    obtain ⟨hconsistent, hsame⟩ :=
      replicateTable_ok (hp.consistent _ t ht) (hms m (by simp) t.schema hcovers.symm) ht'
    exact hp.insert ht hconsistent hsame

theorem resumeHighWaters_ok : ∀ {l : List (Nat × Nat)} {s : MemStore}, TablesConsistent cat s.committed →
    TablesConsistent cat (l.foldl resumeHighWater s).committed
  | [], _, h => h
  | p :: l, s, h => by
    refine resumeHighWaters_ok (l := l) ?_
    unfold resumeHighWater
    split
    · rename_i t ht
      exact h.insert ht (consistent_highWater (h.consistent _ t ht) _) rfl
    · exact h

/-- **A replicated record keeps every table consistent.** -/
theorem TablesConsistent.applyReplicaRecord {r : TxRecord} {diff : TxDiff} {s' : MemStore}
    (hs : TablesConsistent cat s.committed) (hr : RecordOk cat r) (h : s.applyReplicaRecord cat r = .ok (diff, s')) :
    TablesConsistent cat s'.committed := by
  unfold MemStore.applyReplicaRecord at h
  split at h
  · simp at h
  obtain ⟨⟨tables, diffs⟩, htables, h⟩ := bind_eq_ok.mp h
  cases h
  have htables : TablesConsistent cat tables := replicateMutations_ok hs hr htables
  exact resumeHighWaters_ok (s := { s with committed := tables }) htables

theorem resumeHighWaters_dirty : ∀ {l : List (Nat × Nat)} {s : MemStore},
    (l.foldl resumeHighWater s).writer.highWaterDirty = s.writer.highWaterDirty
  | [], _ => rfl
  | _ :: l, _ => resumeHighWaters_dirty (l := l)

theorem applyReplicaRecord_dirty {r : TxRecord} {diff : TxDiff} {s' : MemStore}
    (h : s.applyReplicaRecord cat r = .ok (diff, s')) : s'.writer.highWaterDirty = s.writer.highWaterDirty := by
  unfold MemStore.applyReplicaRecord at h
  split at h
  · simp at h
  · obtain ⟨⟨tables, diffs⟩, htables, h⟩ := bind_eq_ok.mp h
    cases h
    exact resumeHighWaters_dirty

end Replicated

/-! ### Every reachable state -/

/-- A node's tables are consistent, and its transaction is over them. -/
structure Node.Ok (cat : Catalog) (n : Node) : Prop where
  tables : TablesConsistent cat n.store.committed
  dirty : ∀ table ∈ n.store.writer.highWaterDirty, (cat.tables[table]?).isSome
  tx : ∀ tx ∈ n.tx, tx.OkOver cat n.store.committed

structure Cluster.Ok (cat : Catalog) (s : Cluster) : Prop where
  node : ∀ i, (s.node i).Ok cat
  log : ∀ r ∈ s.log, RecordOk cat r

section Runs

variable {cat : Catalog} {s s' : Cluster}

theorem Cluster.ok_new (cat : Catalog) : (Cluster.new cat).Ok cat :=
  ⟨fun _ => ⟨tablesConsistent_new cat, by simp [Cluster.new, MemStore.new], fun _ h => nomatch h⟩, fun _ h => nomatch h⟩

theorem Cluster.Ok.set (h : s.Ok cat) {i : Nat} {n : Node} (hn : n.Ok cat) : (s.set i n).Ok cat := by
  refine ⟨fun j => ?_, h.log⟩
  by_cases hj : j = i
  · subst hj
    simpa [Cluster.set] using hn
  · simpa [Cluster.set, hj] using h.node j

theorem begin_okOver {store : MemStore} (h : TablesOk cat store.committed)
    (hdirty : ∀ table ∈ store.writer.highWaterDirty, (cat.tables[table]?).isSome) :
    store.begin.OkOver cat store.committed := by
  have hop : ∀ table pk, store.begin.op table pk = none := fun table pk => by
    simp [MemStore.begin, Tx.op, Tx.ops]
  exact ⟨⟨h, fun table pk op hop' => by simp [hop] at hop', fun table pk op hop' => by simp [hop] at hop',
    fun table schema pk op row _ hop' => by simp [hop] at hop', hdirty⟩, rfl⟩

theorem Cluster.step_ok (hsealed : ∀ table, cat.sealedColumns table = []) (l : Cluster.Step cat) (h : s.Ok cat)
    (hstep : s.step cat l = some s') : s'.Ok cat := by
  cases l with
  | begin i =>
    simp only [Cluster.step] at hstep
    split at hstep
    · simp at hstep
    cases hstep
    have htables := (h.node i).tables
    refine h.set ⟨htables, (h.node i).dirty, fun tx htx => ?_⟩
    cases htx
    exact begin_okOver htables.tablesOk (h.node i).dirty
  | call i srv c =>
    obtain ⟨tx, htx, hstep⟩ := Option.bind_eq_some_iff.mp hstep
    obtain ⟨x, hx, hstep⟩ := Option.bind_eq_some_iff.mp hstep
    cases hstep
    refine h.set ⟨(h.node i).tables, (h.node i).dirty, fun tx' htx' => ?_⟩
    cases htx'
    exact call_okOver ((h.node i).tx tx htx) hx
  | commit i info =>
    obtain ⟨tx, htx, hstep⟩ := Option.bind_eq_some_iff.mp hstep
    obtain ⟨hok, hbase⟩ := (h.node i).tx tx htx
    have htables : TablesConsistent cat tx.base := hbase ▸ (h.node i).tables
    split at hstep
    · rename_i diff store hcommit
      cases hstep
      have hset : (s.set i ⟨store, none⟩).Ok cat :=
        h.set ⟨htables.commit hsealed hok hcommit, commit_dirty hcommit, fun _ hno => nomatch hno⟩
      refine ⟨hset.node, fun r hr => ?_⟩
      split at hr
      · rcases mem_append.mp hr with hr | hr
        · exact h.log r hr
        · obtain rfl := mem_singleton.mp hr
          exact recordOk_fromDiff hsealed hok hcommit info
      · exact h.log r hr
    · cases hstep
      exact h.set ⟨htables, hok.dirty, fun _ hno => nomatch hno⟩
  | rollback i =>
    obtain ⟨tx, htx, hstep⟩ := Option.bind_eq_some_iff.mp hstep
    cases hstep
    obtain ⟨hok, hbase⟩ := (h.node i).tx tx htx
    have htables : TablesConsistent cat tx.base := hbase ▸ (h.node i).tables
    exact h.set ⟨htables, hok.dirty, fun _ hno => nomatch hno⟩
  | replicate i k =>
    simp only [Cluster.step] at hstep
    split at hstep
    · rename_i record _ hrecord
      split at hstep
      · rename_i diff store happly
        cases hstep
        have hr := h.log record (mem_of_getElem? hrecord)
        refine h.set ⟨(h.node i).tables.applyReplicaRecord hr happly, ?_, fun _ hno => nomatch hno⟩
        rw [applyReplicaRecord_dirty happly]
        exact (h.node i).dirty
      · exact Option.some.inj hstep ▸ h
    · simp at hstep

/-- Rows and indexes of a table agree. -/
structure IndexIntegrity (t : TableState) : Prop where
  /-- Every declared index is there, and every row has an entry in each. -/
  indexes : t.indexes.map (·.columns) = t.schema.indexes
  index_key : ∀ index ∈ t.indexes, ∀ (pk : Bytes) row, t.rows[pk]? = some row →
    ∃ key, BTreeIndex.entryKey index.columns pk row = .ok key
  /-- An index holds exactly the entries of the rows. -/
  index_entries : ∀ index ∈ t.indexes, ∀ (key : Bytes) pk, index.tree[key]? = some pk ↔
    ∃ row, t.rows[pk]? = some row ∧ BTreeIndex.entryKey index.columns pk row = .ok key
  /-- Every declared constraint is there, and every row has a value of each. -/
  constraints : t.unique.map (·.columns) = t.schema.unique
  unique_key : ∀ constraint ∈ t.unique, ∀ (pk : Bytes) row, t.rows[pk]? = some row →
    ∃ key, columnsKey constraint.columns row = .ok key
  /-- A unique map holds exactly the values of the rows. -/
  unique_entries : ∀ constraint ∈ t.unique, ∀ (key : Bytes) pk, constraint.tree[key]? = some pk ↔
    ∃ row, t.rows[pk]? = some row ∧ columnsKey constraint.columns row = .ok key
  /-- No two rows share a value of a constraint. -/
  unique_values : ∀ constraint ∈ t.unique, ∀ (pk pk' : Bytes) row row' key, t.rows[pk]? = some row →
    t.rows[pk']? = some row' → columnsKey constraint.columns row = .ok key →
    columnsKey constraint.columns row' = .ok key → pk = pk'
  row_count : t.rowCount = t.rows.size

theorem columnsKey_ok {columns : List Nat} {schema : TableSchema} (hrow : Typed schema row)
    (h : ∀ o ∈ columns, o < schema.columns.length) : ∃ key, columnsKey columns row = .ok key := by
  obtain ⟨key, hkey⟩ := keyOf_ok fun o ho => hrow.1.symm ▸ h o ho
  exact ⟨key, columnsKey_eq_ok.mpr hkey⟩

theorem TableState.Consistent.indexIntegrity (h : t.Consistent) : IndexIntegrity t := by
  have hrows := fun pk row hrow => (h.rows pk row hrow).1
  have hindex : ∀ index ∈ t.indexes, ∀ o ∈ index.columns, o < t.schema.columns.length := fun index hmem =>
    (t.schema.indexes_lt _ (h.indexColumns ▸ mem_map_of_mem hmem)).2
  have hunique : ∀ constraint ∈ t.unique, ∀ o ∈ constraint.columns, o < t.schema.columns.length := fun c hmem =>
    (t.schema.unique_lt _ (h.uniqueColumns ▸ mem_map_of_mem hmem)).2
  refine ⟨h.indexColumns, fun index hmem pk row hrow => ?_, fun index hmem key pk => ?_, h.uniqueColumns,
    fun c hmem pk row hrow => ?_, fun c hmem key pk => ?_, fun c hmem pk pk' row row' key hrow hrow' hkey hkey' => ?_,
    h.count⟩
  · obtain ⟨key, hkey⟩ := columnsKey_ok (hrows pk row hrow) (hindex index hmem)
    exact ⟨key ++ pk, BTreeIndex.entryKey_eq_ok.mpr ⟨key, columnsKey_eq_ok.mp hkey, rfl⟩⟩
  · rw [h.index index hmem key pk]
    simp only [toOption_eq_some]
    rfl
  · exact columnsKey_ok (hrows pk row hrow) (hunique c hmem)
  · rw [h.unique c hmem key pk]
    simp only [toOption_eq_some]
    rfl
  · exact Mirror.Mirrors.key_inj (h.unique c hmem) hrow hrow' (toOption_eq_some.mpr hkey) (toOption_eq_some.mpr hkey')

/-- **Rows and indexes never diverge.** In every state that stores without a transform engine reach
under any run of transactions and of records of the primary, in every table of every store the
indexes, the unique maps and the row count are those of its rows. -/
theorem indexes_match_rows (hsealed : ∀ table, cat.sealedColumns table = []) {steps : List (Cluster.Step cat)}
    (h : Runs.run (Cluster.step cat) (.new cat) steps = some s) (i table : Nat) {t : TableState}
    (ht : (s.node i).store.committed[table]? = some t) : IndexIntegrity t := by
  have hok : s.Ok cat :=
    Runs.run_invariant (fun _ l _ h hstep => Cluster.step_ok hsealed l h hstep) (Cluster.ok_new cat) h
  exact ((hok.node i).tables.consistent table t ht).indexIntegrity

end Runs

/-! ### A run of two stores -/

/-- Accounts with an auto-increment id, a unique handle and an index on the age. -/
def accountSchema : TableSchema :=
  { name := "Account"
    columns := [⟨"id", .scalar .u64⟩, ⟨"handle", .scalar .bytes⟩, ⟨"age", .scalar .u32⟩]
    primaryKey := [0]
    autoInc := some 0
    access := .pub
    unique := [[1]]
    indexes := [[2]]
    primaryKey_ne_nil := by decide
    primaryKey_lt := by decide
    autoInc_primaryKey := by simp
    unique_lt := by decide
    indexes_lt := by decide }

def accountCatalog : Catalog :=
  { tables := ExtTreeMap.ofList [(1, accountSchema)]
    computed := fun _ => []
    notNull := fun _ => []
    checks := fun _ => []
    spatial := fun _ _ => true
    fks := []
    sealedColumns := fun _ => []
    autoIncStep := 4096
    fits := fun _ => true
    fks_valid := by simp
    sealed_primaryKey := by simp
    autoIncStep_pos := by decide }

/-- A store with nothing attached. -/
def plainServices (cat : Catalog) : Services cat :=
  let plain : RowTransform cat := ⟨fun _ row _ => some row, by simp, by rintro _ _ _ _ _ ⟨⟩ _; rfl⟩
  ⟨true, none, plain, plain⟩

def account (id : BitVec 64) (handle : Bytes) (age : BitVec 32) : Row :=
  [.scalar (.u64 id), .scalar (.bytes handle), .scalar (.u32 age)]

/-- Two accounts are inserted and swap their handles; the replica follows. -/
def swapRun : List (Cluster.Step accountCatalog) :=
  let srv := plainServices accountCatalog
  let info : CommitMeta := ⟨0, 0, [], "swap"⟩
  [.begin 0, .call 0 srv (.insert 1 (account 0 [7] 30)), .call 0 srv (.insert 1 (account 0 [8] 40)), .commit 0 info,
    .begin 0, .call 0 srv (.delete 1 1 [.scalar (.u64 2)]), .call 0 srv (.upsert 1 (account 1 [8] 31)),
    .call 0 srv (.insert 1 (account 2 [7] 41)), .commit 0 info, .replicate 1 0, .replicate 1 1]

/-- The replica's table after the run. -/
theorem indexes_match_rows_swapRun : ∃ s t, Runs.run (Cluster.step accountCatalog) (.new accountCatalog) swapRun = some s ∧
    (s.node 1).store.committed[1]? = some t ∧ t.rows.size = 2 ∧ IndexIntegrity t := by
  obtain ⟨s, hrun, t, ht, hsize⟩ : ∃ s ∈ Runs.run (Cluster.step accountCatalog) (.new accountCatalog) swapRun,
      ∃ t ∈ (s.node 1).store.committed[1]?, t.rows.size = 2 := by
    decide +kernel
  exact ⟨s, t, hrun, ht, hsize, indexes_match_rows (by simp [accountCatalog]) hrun 1 1 ht⟩

end Fluxum
