/-
# Convergent replay

What recovery makes of the records of commits. A record of a commit says of
each key what the commit left there; applied to working tables it does just
that, whatever they hold. So a checkpoint that is newer than its stamp,
followed by the records after the stamp, recovers to the state after the last
record.
-/
import Fluxum.Checkpoint.Repo
import Fluxum.Lib.Patch
import Fluxum.Txn.Pipeline

namespace Fluxum

open Std Patch Outcome List Function ExtTreeMap OrdMap

/-! ### What a record says of a key -/

/-- The diff that a record carries, without the rows it deletes. -/
def TxRecord.toDiff (r : TxRecord) : TxDiff :=
  { txId := r.txId
    tables := r.mutations.map fun m => ⟨m.tableId, m.insertRows.toOption.getD [], m.deletes.map (·, [])⟩
    autoInc := r.autoInc }

/-- What a record says of a key of a table. -/
def TxRecord.write (r : TxRecord) (cat : Catalog) (table : Nat) (pk : Bytes) : Option (Option Row) :=
  r.toDiff.write cat table pk

/-- The rows of a record read back, and can be stored at distinct keys. -/
structure RecordStored (cat : Catalog) (r : TxRecord) : Prop where
  reads : ∀ m ∈ r.mutations, ∃ rows, m.insertRows = .ok rows
  stored : r.toDiff.Stored cat

variable {schema : TableSchema} {table : Nat} {pk : Bytes} {row : Row}

theorem TxDiff.Stored.of_write {cat : Catalog} {diff : TxDiff}
    (hdiff : diff.Stored cat) (hschema : cat.tables[table]? = some schema) (h : diff.write cat table pk = some (some row)) :
    row.length = schema.columns.length ∧ Storable cat.fits schema pk row := by
  by_cases htable : table ∈ diff.tables.map TableDiff.tableId
  · obtain ⟨d, hd, rfl⟩ := mem_map.mp htable
    obtain ⟨schema', hschema', hstored⟩ := hdiff.table d hd
    cases hschema.symm.trans hschema'
    rw [TxDiff.write_of_mem hdiff.nodup hd hschema] at h
    obtain ⟨hmem, hkey⟩ := TableDiff.mem_of_write h
    obtain ⟨pk', hrow, hfits⟩ := hstored.row row hmem
    cases hkey.symm.trans hrow.key
    exact ⟨hrow.length, hfits⟩
  · rw [TxDiff.write_of_not_mem htable] at h
    cases h

section FromDiff

variable {cat : Catalog} {diff : TxDiff} {info : CommitMeta}

/-- A part of a diff without the rows it deletes. -/
def TableDiff.keysOnly (d : TableDiff) : TableDiff := ⟨d.tableId, d.inserts, d.deletes.map fun p => (p.1, [])⟩

theorem toDiff_fromDiff (diff : TxDiff) (info : CommitMeta) :
    (TxRecord.fromDiff diff info).toDiff = { diff with tables := diff.tables.map TableDiff.keysOnly } := by
  have htable : ∀ d : TableDiff, (⟨d.tableId, ((d.inserts.map LogValue.rowToLog).mapM LogValue.toRow).toOption.getD [],
      (d.deletes.map Prod.fst).map (·, [])⟩ : TableDiff) = d.keysOnly := by
    intro d
    rw [mapM_toRow_rowToLog, List.map_map]
    rfl
  simp only [TxRecord.toDiff, TxRecord.fromDiff, List.map_map]
  congr 1
  exact List.map_congr_left fun d _ => htable d

theorem write_fromDiff (diff : TxDiff) (info : CommitMeta) (table : Nat) (pk : Bytes) :
    (TxRecord.fromDiff diff info).write cat table pk = diff.write cat table pk := by
  unfold TxRecord.write TxDiff.write
  rw [toDiff_fromDiff]
  have hfind : (diff.tables.map TableDiff.keysOnly).find? (·.tableId = table) =
      (diff.tables.find? (·.tableId = table)).map TableDiff.keysOnly := by
    rw [find?_map]
    rfl
  rw [hfind]
  cases diff.tables.find? (·.tableId = table) with
  | none => cases cat.tables[table]? <;> rfl
  | some d =>
    cases cat.tables[table]? with
    | none => rfl
    | some schema =>
      show d.keysOnly.write schema pk = d.write schema pk
      unfold TableDiff.write TableDiff.keysOnly
      rw [List.map_map]
      rfl

theorem write_durableDiff (hdur : cat.isEphemeral table = false) (pk : Bytes) :
    (durableDiff cat diff).write cat table pk = diff.write cat table pk := by
  have hfind : (durableDiff cat diff).tables.find? (·.tableId = table) = diff.tables.find? (·.tableId = table) := by
    unfold durableDiff
    rw [find?_filter]
    congr 1
    funext d
    by_cases h : d.tableId = table
    · simp [h, hdur]
    · simp [h]
  unfold TxDiff.write
  rw [hfind]

theorem recordStored_fromDiff (h : diff.Stored cat) (info : CommitMeta) :
    RecordStored cat (.fromDiff (durableDiff cat diff) info) := by
  refine ⟨fun m hm => ?_, ?_⟩
  · obtain ⟨d, -, rfl⟩ := mem_map.mp hm
    exact ⟨d.inserts, mapM_toRow_rowToLog d.inserts⟩
  rw [toDiff_fromDiff]
  have hsub : (durableDiff cat diff).tables.Sublist diff.tables := filter_sublist
  refine ⟨?_, fun d hd => ?_⟩
  · rw [List.map_map]
    exact h.nodup.sublist (hsub.map _)
  · obtain ⟨d', hd', rfl⟩ := mem_map.mp hd
    obtain ⟨schema, hschema, hrow, hnodup⟩ := h.table d' (hsub.subset hd')
    exact ⟨schema, hschema, hrow, hnodup⟩

end FromDiff

/-! ### Records on working tables -/

def workingRow (working : WorkingTables) (table : Nat) (pk : Bytes) : Option Row :=
  working[table]?.bind (·.rows[pk]?)

/-- The working tables are those of the catalog. -/
def WorkingCovers (cat : Catalog) (working : WorkingTables) : Prop :=
  ∀ table : Nat, working[table]?.map (·.schema) = cat.tables[table]?

section Apply

variable {cat : Catalog} {working : WorkingTables} {w : WorkingTable}

theorem put_eq_ok (h : encodePkOfRow w.schema row = .ok pk) :
    w.put row = .ok { w with rows := w.rows.insert pk row } := by
  simp [WorkingTable.put, h, Except.mapError, bind, Except.bind, pure, Except.pure]

theorem puts_succeed : ∀ {rows : List Row} {w : WorkingTable}, (∀ row ∈ rows, ∃ pk, encodePkOfRow w.schema row = .ok pk) →
    (rows.map fun row => (encodePkOfRow w.schema row).toOption).Nodup →
    ∃ w', rows.foldlM WorkingTable.put w = .ok w' ∧ w'.schema = w.schema ∧
      (fun pk => w'.rows[pk]?) = putRows w.schema rows fun pk => w.rows[pk]?
  | [], w, _, _ => ⟨w, rfl, rfl, rfl⟩
  | row :: rows, w, hkeys, hnodup => by
    obtain ⟨pk, hpk⟩ := hkeys row (by simp)
    obtain ⟨w', hw', hschema, hrows⟩ := puts_succeed (w := { w with rows := w.rows.insert pk row })
      (fun row' hrow' => hkeys row' (mem_cons_of_mem _ hrow')) (nodup_cons.mp hnodup).2
    refine ⟨w', by rw [foldlM_cons, put_eq_ok hpk]; exact hw', hschema, ?_⟩
    rw [hrows, putRows_cons hpk (other_keys hnodup hpk)]
    congr 1
    funext k
    simp only [lookup_insert, update_apply, eq_comm]

/-- The part of a record's diff that a mutation is. -/
def mutationDiff (m : TableMutation) : TableDiff := ⟨m.tableId, m.insertRows.toOption.getD [], m.deletes.map (·, [])⟩

/-- One mutation leaves at each key of its table what it says, and the other tables as they are. -/
theorem applyMutation_ends {m : TableMutation} {slot : WorkingTable} (txId : Nat) (hslot : working[m.tableId]? = some slot)
    (hread : ∃ rows, m.insertRows = .ok rows) (hd : (mutationDiff m).Stored cat slot.schema) :
    Ends (fun _ => False) (applyMutation txId working m) fun working' =>
      (∃ w, working'[m.tableId]? = some w ∧ w.schema = slot.schema ∧
        ∀ pk, w.rows[pk]? = patch slot.rows[pk]? ((mutationDiff m).write slot.schema pk)) ∧
      ∀ table, table ≠ m.tableId → working'[table]? = working[table]? := by
  obtain ⟨rows, hread⟩ := hread
  have hinserts : (mutationDiff m).inserts = rows := by simp [mutationDiff, hread, Except.toOption]
  obtain ⟨w, hw, hschema, hrows⟩ := puts_succeed (w := { slot with rows := m.deletes.foldl erase slot.rows })
    (fun row hrow => (hd.row row (hinserts ▸ hrow)).imp fun _ h => h.1.key) (hinserts ▸ hd.nodup)
  have happly : applyMutation txId working m = .ok (working.insert m.tableId w) := by
    unfold applyMutation
    rw [hslot]
    simp only [hread, Except.mapError, bind, Except.bind, hw, pure, Except.pure]
  refine ends_of_eq_ok happly ⟨⟨w, by simp, hschema, fun pk => ?_⟩, fun table hne => ?_⟩
  · have hwrite := congrFun (putRows_removed (mutationDiff m) slot.schema fun pk => slot.rows[pk]?) pk
    have hpk := congrFun hrows pk
    simp only [getElem?_foldl_erase] at hpk
    simp only [hinserts] at hwrite
    rw [hpk, patch, ← hwrite]
    congr! 3
    simp [mutationDiff, comp_def]
  · rw [lookup_insert, if_neg (Ne.symm hne)]

theorem workingRow_raiseHighWaters (table : Nat) (pk : Bytes) : ∀ (l : List (Nat × Nat)) (working : WorkingTables),
    workingRow (l.foldl raiseHighWater working) table pk = workingRow working table pk
  | [], working => rfl
  | p :: l, working => by
    rw [List.foldl_cons, workingRow_raiseHighWaters table pk l]
    unfold raiseHighWater
    split
    · rename_i slot hslot
      unfold workingRow
      rw [lookup_insert]
      split
      · rename_i heq
        rw [← heq, hslot]
        rfl
      · rfl
    · rfl

/-- **A record leaves at each key what it says**, whatever the working tables hold. -/
theorem applyRecord_stored {r : TxRecord} (hr : RecordStored cat r) (hcovers : WorkingCovers cat working) :
    ∃ working', applyRecord working r = .ok working' ∧ WorkingCovers cat working' ∧
      ∀ table pk, workingRow working' table pk = patch (workingRow working table pk) (r.write cat table pk) := by
  have hids : r.mutations.map (·.tableId) = r.toDiff.tables.map TableDiff.tableId := by
    simp [TxRecord.toDiff, comp_def]
  have hmem : ∀ m ∈ r.mutations, mutationDiff m ∈ r.toDiff.tables := fun m hm => mem_map_of_mem hm
  have hloop := Ends.foldlM_keyed (fun (w : WorkingTables) (k : Nat) => w[k]?) TableMutation.tableId
    (P := fun m (old new : Option WorkingTable) => ∃ slot w, old = some slot ∧ new = some w ∧ w.schema = slot.schema ∧
      ∀ pk, w.rows[pk]? = patch slot.rows[pk]? ((mutationDiff m).write slot.schema pk))
    (f := applyMutation r.txId) (a := working) (hids ▸ hr.stored.nodup) fun m hm b hb => by
      obtain ⟨schema, hschema, hd⟩ := hr.stored.table _ (hmem m hm)
      obtain ⟨slot, hslot, rfl⟩ := Option.map_eq_some_iff.mp ((hcovers m.tableId).trans hschema)
      refine (applyMutation_ends r.txId (hb.trans hslot) (hr.reads m hm) hd).mono fun b' hb' => ?_
      obtain ⟨⟨w, hw⟩, hother⟩ := hb'
      exact ⟨⟨slot, w, hslot, hw⟩, hother⟩
  obtain ⟨working', h'⟩ := hloop.exists_ok
  obtain ⟨hown, hother⟩ := hloop.of_ok h'
  refine ⟨r.autoInc.foldl raiseHighWater working', ?_, fun table => .trans ?_ (hcovers table), fun table pk => ?_⟩
  · simp only [applyRecord, h', bind, Except.bind, pure, Except.pure]
  · have hsame : working'[table]?.map (·.schema) = working[table]?.map (·.schema) := by
      by_cases htable : table ∈ r.mutations.map (·.tableId)
      · obtain ⟨m, hm, rfl⟩ := mem_map.mp htable
        obtain ⟨slot, w, hslot, hw, hschema, -⟩ := hown m hm
        rw [hslot, hw, Option.map_some, Option.map_some, hschema]
      · rw [hother table htable]
    have hhead : _ = (working'[table]?.map WorkingTable.head).map _ := raiseHighWaters_head r.autoInc working'
    rw [← hsame]
    simpa [comp_def, WorkingTable.head] using congrArg (Option.map Prod.fst) hhead
  · rw [workingRow_raiseHighWaters, TxRecord.write]
    by_cases htable : table ∈ r.mutations.map (·.tableId)
    · obtain ⟨m, hm, rfl⟩ := mem_map.mp htable
      obtain ⟨slot, w, hslot, hw, -, hrows⟩ := hown m hm
      have hschema : cat.tables[m.tableId]? = some slot.schema := by rw [← hcovers m.tableId, hslot]; rfl
      rw [workingRow, hw, workingRow, hslot]
      exact (hrows pk).trans (congrArg _ (TxDiff.write_of_mem hr.stored.nodup (hmem m hm) hschema pk).symm)
    · rw [TxDiff.write_of_not_mem (hids ▸ htable), patch_none]
      simp only [workingRow]
      rw [hother table htable]

/-- **The replay leaves at each key what the records after the stamp say**, one after the other. -/
theorem replay_stored (covered : Nat) : ∀ {records : List TxRecord} {working : WorkingTables},
    (∀ r ∈ records, RecordStored cat r) → WorkingCovers cat working →
    ∃ working', records.foldlM (replayRecord covered) working = .ok working' ∧ WorkingCovers cat working' ∧
      ∀ table pk, workingRow working' table pk =
        ((records.filter (covered < ·.txId)).map fun r => r.write cat table pk).foldl patch (workingRow working table pk)
  | [], working, _, hcovers => ⟨working, rfl, hcovers, fun _ _ => rfl⟩
  | r :: records, working, hrecords, hcovers => by
    have hrest : ∀ r ∈ records, RecordStored cat r := fun r hr => hrecords r (by simp [hr])
    rw [foldlM_cons, replayRecord]
    split
    · rename_i hle
      obtain ⟨working', h', hcovers', hrow⟩ := replay_stored covered hrest hcovers
      refine ⟨working', h', hcovers', fun table pk => ?_⟩
      rw [hrow, filter_cons_of_neg (by simpa using hle)]
    · rename_i hlt
      obtain ⟨working₁, h₁, hcovers₁, hrow₁⟩ := applyRecord_stored (hrecords r (by simp)) hcovers
      obtain ⟨working', h', hcovers', hrow⟩ := replay_stored covered hrest hcovers₁
      refine ⟨working', by rw [h₁]; exact h', hcovers', fun table pk => ?_⟩
      rw [hrow, hrow₁, filter_cons_of_pos (by simpa using hlt), map_cons, foldl_cons]

end Apply

/-! ### A checkpoint on working tables -/

def WorkingTable.of (t : TableState) : WorkingTable := ⟨t.schema, t.rows, t.autoIncHighWater⟩

section Load

variable {cat : Catalog} {ids : TableIds cat} {working : WorkingTables} {t : TableState}

/-- The rows of a table stand at their keys. -/
def KeyedRows (t : TableState) : Prop := ∀ pk row, t.rows[pk]? = some row → encodePkOfRow t.schema row = .ok pk

theorem KeyedRows.key (h : KeyedRows t) {p : Bytes × Row} (hp : p ∈ t.rows.toList) : encodePkOfRow t.schema p.2 = .ok p.1 :=
  h p.1 p.2 (mem_toList_iff_getElem?_eq_some.mp hp)

theorem puts_keyed : ∀ {l : List (Bytes × Row)} {w : WorkingTable}, (∀ p ∈ l, encodePkOfRow w.schema p.2 = .ok p.1) →
    (l.map Prod.snd).foldlM WorkingTable.put w = .ok { w with rows := w.rows.insertMany l }
  | [], w, _ => by
    rw [insertMany_nil]
    rfl
  | p :: l, w, h => by
    rw [map_cons, foldlM_cons, put_eq_ok (h p (by simp)), insertMany_cons]
    exact puts_keyed fun q hq => h q (mem_cons_of_mem _ hq)

theorem puts_rows (h : KeyedRows t) :
    (t.rows.toList.map Prod.snd).foldlM WorkingTable.put ⟨t.schema, ∅, t.autoIncHighWater⟩ = .ok (.of t) := by
  rw [puts_keyed fun p hp => h.key hp, insertMany_toList]
  rfl

theorem applyLoaded_eq {p : Nat × TableState} (hschema : cat.tables[p.1]? = some p.2.schema) (hkeys : KeyedRows p.2)
    (hslot : working[p.1]? = some ⟨p.2.schema, ∅, 0⟩) :
    applyLoaded ids working (CheckpointRepo.loaded p) = .ok (working.insert p.1 (.of p.2)) := by
  have hid : ids.idOf (CheckpointRepo.loaded p).tableName = (CheckpointRepo.loaded p).tableId := ids.idOf_name p.1 _ hschema
  have hslot' : working[(CheckpointRepo.loaded p).tableId]? = some ⟨p.2.schema, ∅, 0⟩ := hslot
  unfold applyLoaded
  rw [if_neg (by simpa using hid), hslot']
  dsimp only [CheckpointRepo.loaded]
  rw [puts_rows hkeys]
  rfl

/-- **A checkpoint fills the durable tables** and leaves the others empty. -/
theorem applyCheckpoint_eq (ids : TableIds cat) {snapshot : Tables} (hok : TablesOk cat snapshot) (stamp : Nat) :
    ∃ working, applyCheckpoint ids (workingTables cat) ⟨stamp, (CheckpointRepo.durableTables snapshot).map CheckpointRepo.loaded⟩ =
        .ok working ∧ WorkingCovers cat working ∧
      (∀ (table : Nat) (t : TableState), snapshot[table]? = some t → t.schema.isEphemeral = false →
        working[table]? = some (WorkingTable.of t)) ∧
      ∀ table pk, workingRow working table pk = none ∨ workingRow working table pk = rowIn snapshot table pk := by
  have hmem : ∀ {table : Nat} {t : TableState}, (table, t) ∈ CheckpointRepo.durableTables snapshot ↔
      snapshot[table]? = some t ∧ t.schema.isEphemeral = false := by
    intro table t
    simp [CheckpointRepo.durableTables, mem_toList_iff_getElem?_eq_some]
  have hschema : ∀ {table : Nat} {t : TableState}, snapshot[table]? = some t → cat.tables[table]? = some t.schema := hok.schemaAt
  have hnodup : ((CheckpointRepo.durableTables snapshot).map Prod.fst).Nodup :=
    (nodup_keys_toList snapshot).sublist (filter_sublist.map _)
  have hloop := Ends.foldlM_keyed (E := fun _ => False) (fun (w : WorkingTables) (k : Nat) => w[k]?) Prod.fst
    (P := fun p _ new => new = some (WorkingTable.of p.2)) (f := fun w p => applyLoaded ids w (CheckpointRepo.loaded p))
    (a := workingTables cat) hnodup fun p hp w hw => by
      obtain ⟨table, t⟩ := p
      obtain ⟨ht, -⟩ := hmem.mp hp
      have hslot : w[table]? = some ⟨t.schema, ∅, 0⟩ := hw.trans (by simp [workingTables, ExtTreeMap.getElem?_map, hschema ht])
      have hkeys : KeyedRows t := fun pk row hrow =>
        (hok.stored table t.schema pk row (hschema ht) ((rowIn_eq ht pk).trans hrow)).key
      refine ends_of_eq_ok (applyLoaded_eq (hschema ht) hkeys hslot) ⟨by simp, fun k hk => ?_⟩
      rw [lookup_insert, if_neg (Ne.symm hk)]
  obtain ⟨working, hworking⟩ := hloop.exists_ok
  obtain ⟨hloaded, hrest⟩ := hloop.of_ok hworking
  have hempty : ∀ table : Nat, (workingTables cat)[table]? = cat.tables[table]?.map fun schema => ⟨schema, ∅, 0⟩ := fun table => by
    rw [workingTables, ExtTreeMap.getElem?_map]
  refine ⟨working, by rw [applyCheckpoint, foldlM_map]; exact hworking, fun table => ?_, fun table t ht hdur => hloaded (table, t) (hmem.mpr ⟨ht, hdur⟩), fun table pk => ?_⟩
  · by_cases htable : table ∈ (CheckpointRepo.durableTables snapshot).map Prod.fst
    · obtain ⟨⟨table, t⟩, hp, rfl⟩ := mem_map.mp htable
      rw [hloaded _ hp, hschema (hmem.mp hp).1]
      rfl
    · rw [hrest table htable, hempty, Option.map_map]
      exact Option.map_id_apply ..
  · by_cases htable : table ∈ (CheckpointRepo.durableTables snapshot).map Prod.fst
    · obtain ⟨⟨table, t⟩, hp, rfl⟩ := mem_map.mp htable
      right
      rw [workingRow, hloaded _ hp, rowIn, (hmem.mp hp).1]
      rfl
    · left
      rw [workingRow, hrest table htable, hempty]
      cases cat.tables[table]? <;> simp

end Load

/-! ### Assembly -/

/-- The keys of a tree can be stored. -/
def KeysFit {α : Type} (tree : Tree α) : Prop := ∀ key, key ∈ tree → checkKey key = .ok ()

/-- A table whose staged trees have the declared columns and keys that can be stored. -/
structure Staged (schema : TableSchema) (t : TableState) : Prop where
  indexColumns : t.indexes.map (·.columns) = schema.indexes
  uniqueColumns : t.unique.map (·.columns) = schema.unique
  index : ∀ index ∈ t.indexes, KeysFit index.tree
  unique : ∀ constraint ∈ t.unique, KeysFit constraint.tree
  rows : KeysFit t.rows

section Assembly

variable {fits : Row → Bool} {schema : TableSchema} {t : TableState} {w : WorkingTable}

theorem KeysFit.insert {α : Type} {tree : Tree α} {key : Bytes} (h : KeysFit tree) (hkey : checkKey key = .ok ()) (x : α) :
    KeysFit (tree.insert key x) := by
  intro k hk
  rw [ExtTreeMap.mem_insert] at hk
  rcases hk with heq | hk
  · rwa [← compare_eq_iff_eq.mp heq]
  · exact h k hk

theorem bulkLoad_fits {α : Type} {tree : Tree α} (h : KeysFit tree) : bulkLoad tree = .ok () := by
  refine forM_eq_ok fun p hp => h p.1 ?_
  rw [mem_iff_isSome_getElem?, mem_toList_iff_getElem?_eq_some.mp hp]
  rfl

theorem staged_empty (schema : TableSchema) (mark : Nat) :
    Staged schema { TableState.empty schema with autoIncHighWater := mark } := by
  have hempty : ∀ {α : Type}, KeysFit (∅ : Tree α) := fun {α} key hkey => by simp at hkey
  refine ⟨by simp [TableState.empty, comp_def], by simp [TableState.empty, comp_def],
    fun index hindex => ?_, fun constraint hconstraint => ?_, hempty⟩
  · obtain ⟨columns, -, rfl⟩ := mem_map.mp hindex
    exact hempty
  · obtain ⟨columns, -, rfl⟩ := mem_map.mp hconstraint
    exact hempty

theorem stageRow_succeeds (ht : Staged schema t) (hlen : row.length = schema.columns.length)
    (hrow : Storable fits schema pk row) : ∃ t', stageRow fits t (pk, row) = .ok t' ∧ Staged schema t' ∧
      t'.rows = t.rows.insert pk row ∧ t'.rowCount = t.rowCount + 1 := by
  have hindexOk : ∀ index ∈ t.indexes, index.columns ∈ schema.indexes := fun index hmem =>
    ht.indexColumns ▸ mem_map_of_mem hmem
  have huniqueOk : ∀ constraint ∈ t.unique, constraint.columns ∈ schema.unique := fun constraint hmem =>
    ht.uniqueColumns ▸ mem_map_of_mem hmem
  let stageIndex : BTreeIndex → Except StoreError BTreeIndex := fun index => do
    let key ← BTreeIndex.entryKey index.columns pk row
    return { index with tree := index.tree.insert key pk }
  let stageUnique : UniqueIndex → Except StoreError UniqueIndex := fun constraint => do
    let key ← columnsKey constraint.columns row
    return { constraint with tree := constraint.tree.insert key pk }
  obtain ⟨indexes, hindexes⟩ : ∃ indexes, t.indexes.mapM stageIndex = .ok indexes :=
    exists_mapM_eq_ok fun index hmem => by
      obtain ⟨key, hkey⟩ := exists_entryKey hlen (schema.indexes_lt _ (hindexOk index hmem)).2 pk
      exact ⟨_, bind_eq_ok.mpr ⟨key, hkey, rfl⟩⟩
  obtain ⟨unique, hunique⟩ : ∃ unique, t.unique.mapM stageUnique = .ok unique :=
    exists_mapM_eq_ok fun constraint hmem => by
      obtain ⟨key, hkey⟩ := exists_columnsKey hlen (schema.unique_lt _ (huniqueOk constraint hmem)).2
      exact ⟨_, bind_eq_ok.mpr ⟨key, hkey, rfl⟩⟩
  obtain ⟨hindexFits, hindexColumns⟩ := mapM_forall (P := fun index => index ∈ t.indexes)
    (Q := fun index => KeysFit index.tree) (c := BTreeIndex.columns) (fun index index' hmem h => by
      obtain ⟨key, hkey, h⟩ := bind_eq_ok.mp h
      cases h
      exact ⟨(ht.index index hmem).insert (hrow.index _ (hindexOk index hmem) key hkey) pk, rfl⟩) (fun _ h => h) hindexes
  obtain ⟨huniqueFits, huniqueColumns⟩ := mapM_forall (P := fun constraint => constraint ∈ t.unique)
    (Q := fun constraint => KeysFit constraint.tree) (c := UniqueIndex.columns) (fun constraint constraint' hmem h => by
      obtain ⟨key, hkey, h⟩ := bind_eq_ok.mp h
      cases h
      exact ⟨(ht.unique constraint hmem).insert (hrow.unique _ (huniqueOk constraint hmem) key hkey) pk, rfl⟩) (fun _ h => h)
      hunique
  refine ⟨{ t with indexes, unique, rows := t.rows.insert pk row, rowCount := t.rowCount + 1 },
    bind_eq_ok.mpr ⟨indexes, hindexes, bind_eq_ok.mpr ⟨unique, hunique, ?_⟩⟩,
    ⟨hindexColumns.trans ht.indexColumns, huniqueColumns.trans ht.uniqueColumns, hindexFits, huniqueFits,
      ht.rows.insert hrow.key row⟩, rfl, rfl⟩
  simp [hrow.encodes, pure, Except.pure]

theorem stageRows_succeed : ∀ {l : List (Bytes × Row)} {t : TableState}, Staged schema t →
    (∀ p ∈ l, p.2.length = schema.columns.length ∧ Storable fits schema p.1 p.2) →
    ∃ t', l.foldlM (stageRow fits) t = .ok t' ∧ Staged schema t' ∧ t'.rows = t.rows.insertMany l ∧
      t'.rowCount = t.rowCount + l.length
  | [], t, ht, _ => ⟨t, rfl, ht, insertMany_nil.symm, rfl⟩
  | p :: l, t, ht, hl => by
    obtain ⟨hlen, hrow⟩ := hl p (by simp)
    obtain ⟨t₁, h₁, ht₁, hrows₁, hcount₁⟩ := stageRow_succeeds ht hlen hrow
    obtain ⟨t', h', ht', hrows, hcount⟩ := stageRows_succeed (l := l) ht₁ fun q hq => hl q (by simp [hq])
    refine ⟨t', bind_eq_ok.mpr ⟨t₁, h₁, h'⟩, ht', ?_, ?_⟩
    · rw [hrows, hrows₁, insertMany_cons]
    · rw [hcount, hcount₁, length_cons]
      omega

/-- **Rows that can be stored are assembled**, and counted. -/
theorem assemble_succeeds (h : ∀ pk row, w.rows[pk]? = some row → row.length = w.schema.columns.length ∧ Storable fits w.schema pk row) :
    ∃ t, w.assemble fits = .ok t ∧ t.rows = w.rows ∧ t.rowCount = w.rows.size := by
  obtain ⟨t, ht, hstaged, hrows, hcount⟩ := stageRows_succeed (staged_empty w.schema w.autoIncHighWater)
    fun p hp => h p.1 p.2 (mem_toList_iff_getElem?_eq_some.mp hp)
  refine ⟨t, ?_, hrows.trans (insertMany_toList w.rows), ?_⟩
  · exact bind_eq_ok.mpr ⟨t, ht, bind_eq_ok.mpr
      ⟨_, forM_eq_ok fun index hindex => bulkLoad_fits (hstaged.index index hindex), bind_eq_ok.mpr
        ⟨_, forM_eq_ok fun constraint hconstraint => bulkLoad_fits (hstaged.unique constraint hconstraint),
          bind_eq_ok.mpr ⟨_, bulkLoad_fits hstaged.rows, rfl⟩⟩⟩⟩
  · rw [hcount, length_toList]
    exact Nat.zero_add _

end Assembly

/-! ### The recovered store -/

/-- The tables are in order, and every row can be stored. -/
structure TablesStorable (cat : Catalog) (tables : Tables) : Prop extends TablesOk cat tables where
  storable : ∀ (table : Nat) schema pk row, cat.tables[table]? = some schema → rowIn tables table pk = some row →
    Storable cat.fits schema pk row

def markIn (tables : Tables) (table : Nat) : Nat := (tables[table]?.map (·.autoIncHighWater)).getD 0

/-- What a table is, without what is derived from its rows. -/
def TableState.content (t : TableState) : TableSchema × Tree Row × Nat × Nat := (t.schema, t.rows, t.rowCount, t.autoIncHighWater)

/-- Two states have the same durable tables. -/
def DurableEq (cat : Catalog) (tables tables' : Tables) : Prop :=
  ∀ table, cat.isEphemeral table = false → tables[table]?.map TableState.content = tables'[table]?.map TableState.content

section Recovered

variable {cat : Catalog} {ids : TableIds cat} {snapshot current : Tables} {working : WorkingTables}
  {records : List TxRecord} {stamp : Nat}

theorem installRecovered_succeeds {tables : Tables} {nextTxId : Nat} (hne : nextTxId ≠ 0)
    (hkeys : ∀ table : Nat, table ∈ tables ↔ table ∈ cat.tables) :
    ∃ s, (MemStore.new cat).installRecovered cat tables nextTxId = .ok s ∧ s.committed = tables ∧ s.writer.nextTxId = nextTxId := by
  have hsize : tables.size = cat.tables.size := by
    rw [← length_keys, ← length_keys]
    refine ((perm_ext_iff_of_nodup nodup_keys nodup_keys).mpr fun table => ?_).length_eq
    rw [ExtTreeMap.mem_keys, ExtTreeMap.mem_keys, hkeys]
  have hall : cat.tables.keys.all tables.contains = true := by
    rw [all_eq_true]
    intro table htable
    rw [ExtTreeMap.contains_iff_mem, hkeys]
    exact mem_keys.mp htable
  unfold MemStore.installRecovered
  rw [if_neg hne, if_neg (by simp [hsize, hall]), if_neg (by simp [MemStore.new])]
  exact ⟨_, rfl, rfl, rfl⟩

theorem assemble_replayed (hsnapshot : TablesStorable cat snapshot) (hrecords : ∀ r ∈ records, RecordStored cat r)
    (hrow : ∀ table pk, workingRow working table pk = none ∨ workingRow working table pk = rowIn snapshot table pk)
    {working' : WorkingTables} (hcovers' : WorkingCovers cat working')
    (hrow' : ∀ table pk, workingRow working' table pk =
      ((records.filter (stamp < ·.txId)).map fun r => r.write cat table pk).foldl patch (workingRow working table pk))
    {w : WorkingTable} (hw : working'[table]? = some w) :
    ∃ t, w.assemble cat.fits = .ok t ∧ t.rows = w.rows ∧ t.rowCount = w.rows.size := by
  have hschema : cat.tables[table]? = some w.schema := by
    rw [← hcovers' table, hw]
    rfl
  refine assemble_succeeds fun pk row hpk => ?_
  have hheld : workingRow working' table pk = some row := by
    rw [workingRow, hw, Option.bind_some, hpk]
  rw [hrow'] at hheld
  rcases foldl_patch_cases (workingRow working table pk)
      ((records.filter (stamp < ·.txId)).map fun r => r.write cat table pk) with heq | hmem
  · rw [heq] at hheld
    rcases hrow table pk with hnone | hsame
    · rw [hnone] at hheld
      cases hheld
    · rw [hsame] at hheld
      exact ⟨(hsnapshot.stored table _ pk row hschema hheld).length, hsnapshot.storable table _ pk row hschema hheld⟩
  · rw [hheld] at hmem
    obtain ⟨r, hr, hwrite⟩ := mem_map.mp hmem
    exact (hrecords r (mem_of_mem_filter hr)).stored.of_write hschema hwrite

/-- **A checkpoint and the records after its stamp recover to the state they lead to.** -/
theorem recoverFrom_checkpoint (ids : TableIds cat) (hsnapshot : TablesStorable cat snapshot) (hcurrent : TablesOk cat current)
    (hcount : ∀ (table : Nat) t, current[table]? = some t → t.rowCount = t.rows.size)
    (hrecords : ∀ r ∈ records, RecordStored cat r)
    (hrows : ∀ table pk, cat.isEphemeral table = false → rowIn current table pk =
      ((records.filter (stamp < ·.txId)).map fun r => r.write cat table pk).foldl patch (rowIn snapshot table pk))
    (hmarks : ∀ table, cat.isEphemeral table = false → markIn current table =
      ((records.filter (stamp < ·.txId)).flatMap (·.autoInc)).foldl (raised table) (markIn snapshot table)) :
    ∃ s, recoverFrom ids (some ⟨stamp, (CheckpointRepo.durableTables snapshot).map CheckpointRepo.loaded⟩) records = .ok s ∧
      DurableEq cat s.committed current ∧
      s.writer.nextTxId = (max (records.getLast?.map (·.txId)) (some stamp)).elim 1 (saturatingAdd · 1) := by
  obtain ⟨working₁, h₁, hcovers₁, hloaded, hrow₁⟩ := applyCheckpoint_eq ids hsnapshot.toTablesOk stamp
  obtain ⟨working, h₂, hcovers, hrow⟩ := replay_stored stamp hrecords hcovers₁
  have hassemble : ∀ {table : Nat} {w : WorkingTable}, working[table]? = some w →
      ∃ t, w.assemble cat.fits = .ok t ∧ t.rows = w.rows ∧ t.rowCount = w.rows.size :=
    assemble_replayed hsnapshot hrecords hrow₁ hcovers hrow
  obtain ⟨tables, h₃⟩ : ∃ tables, working.toList.foldlM (assembleTable cat.fits) ∅ = .ok tables :=
    (Ends.foldlM_of_mem (E := fun _ => False) (Q := fun _ => True) (fun _ p hp _ => by
      obtain ⟨t, ht, -⟩ := hassemble (mem_toList_iff_getElem?_eq_some.mp hp)
      rw [assembleTable, ht]
      trivial) trivial).exists_ok
  have htable := assembled_getElem? h₃
  have hkeys : ∀ table : Nat, table ∈ tables ↔ table ∈ cat.tables := fun table => by
    rw [mem_iff_isSome_getElem?, mem_iff_isSome_getElem?, ← hcovers table]
    rcases htable table with ⟨hnone, hnone'⟩ | ⟨w, t, hw, -, ht⟩
    · simp [hnone, hnone']
    · simp [hw, ht]
  have hne : (max (records.getLast?.map (·.txId)) (some stamp)).elim 1 (saturatingAdd · 1) ≠ 0 := by
    cases max (records.getLast?.map (·.txId)) (some stamp) with
    | none => simp
    | some tx =>
      simp only [Option.elim_some, saturatingAdd]
      omega
  obtain ⟨s, h₄, rfl, hnext⟩ := installRecovered_succeeds hne hkeys
  refine ⟨s, ?_, fun table hdur => ?_, hnext⟩
  · refine bind_eq_ok.mpr ⟨working₁, bind_eq_ok.mpr ⟨working₁, h₁, rfl⟩, ?_⟩
    exact bind_eq_ok.mpr ⟨working, h₂, bind_eq_ok.mpr ⟨_, h₃, h₄⟩⟩
  have hcover := hcovers table
  rw [← hcurrent.covers table] at hcover
  rcases htable table with ⟨hnone, hnone'⟩ | ⟨w, t, hw, ht, ht'⟩
  · rw [hnone', Option.map_none]
    cases hcur : current[table]? with
    | none => rfl
    | some t => simp [hnone, hcur] at hcover
  · rw [hw, Option.map_some] at hcover
    obtain ⟨cur, hcur, hschema⟩ := Option.map_eq_some_iff.mp hcover.symm
    obtain ⟨hs, hm⟩ := Prod.mk.inj (assemble_head ht)
    obtain ⟨t', ht'', hrows', hcount'⟩ := hassemble hw
    cases ht.symm.trans ht''
    -- the checkpoint has this table, as it is durable
    have hcat : cat.tables[table]? = some w.schema := by
      rw [← hcurrent.covers table, hcur, Option.map_some, hschema]
    obtain ⟨old, hold, holdSchema⟩ := hsnapshot.exists_table hcat
    have hslot : working₁[table]? = some (WorkingTable.of old) :=
      hloaded table old hold (by simpa [holdSchema, Catalog.isEphemeral, hcat] using hdur)
    have hrows : w.rows = cur.rows := ext_getElem? fun pk => by
      have hpk := hrows table pk hdur
      rw [rowIn, hcur, rowIn, hold] at hpk
      have hpk' := hrow table pk
      rw [workingRow, hw, workingRow, hslot] at hpk'
      exact hpk'.trans hpk.symm
    have hmark : w.autoIncHighWater = cur.autoIncHighWater := by
      have hhead := replay_head table h₂
      rw [hw, hslot] at hhead
      have hmarks := hmarks table hdur
      rw [markIn, hcur, markIn, hold] at hmarks
      exact (Prod.mk.inj (Option.some.inj hhead)).2.trans hmarks.symm
    rw [ht', hcur, Option.map_some, Option.map_some, TableState.content, TableState.content, hs, hm, hrows', hcount',
      hschema, hcount table cur hcur, hrows, hmark]

end Recovered

/-! ### A commit and its record -/

/-- A record of a commit, and the tables before and after it. -/
structure Follows (cat : Catalog) (before : Tables) (r : TxRecord) (after : Tables) : Prop where
  stored : RecordStored cat r
  rows : ∀ table pk, cat.isEphemeral table = false → rowIn after table pk = patch (rowIn before table pk) (r.write cat table pk)
  marks : ∀ table, cat.isEphemeral table = false → markIn after table = r.autoInc.foldl (raised table) (markIn before table)

/-- A store in order whose rows can be stored and are counted, and whose counters are not below the
published marks. -/
structure MemStore.Recoverable (cat : Catalog) (s : MemStore) : Prop extends s.Ok cat where
  storable : ∀ (table : Nat) schema pk row, cat.tables[table]? = some schema → rowIn s.committed table pk = some row →
    Storable cat.fits schema pk row
  count : ∀ (table : Nat) t, s.committed[table]? = some t → t.rowCount = t.rows.size
  counts : ∀ table, (s.writer.counter table).Counts
  marked : ∀ table, markIn s.committed table ≤ (s.writer.counter table).highWater

/-- The counters of a transaction are not below the published marks, and its id is still the next one. -/
structure Tx.Marked (tables : Tables) (n : Nat) (tx : Tx) : Prop where
  txId : tx.txId = n
  nextTxId : tx.writer.nextTxId = n
  counts : ∀ table, (tx.writer.counter table).Counts
  marked : ∀ table, markIn tables table ≤ (tx.writer.counter table).highWater

section Marked

variable {cat : Catalog} {srv : Services cat} {tables : Tables} {n table : Nat} {tx tx' : Tx} {s : MemStore}
  {diff : TxDiff}

theorem Tx.Marked.withWriter {w : WriterState} (h : tx.Marked tables n) (ha : tx.writer.Advances w)
    (hc : ∀ table, (w.counter table).Counts) : { tx with writer := w }.Marked tables n :=
  ⟨h.txId, ha.txId.trans h.nextTxId, hc, fun table => (h.marked table).trans (ha.highWater table)⟩

theorem Tx.Marked.of_eq (h : tx.Marked tables n) (htx : tx'.txId = tx.txId) (hw : tx'.writer = tx.writer) : tx'.Marked tables n :=
  ⟨htx.trans h.txId, hw ▸ h.nextTxId, hw ▸ h.counts, hw ▸ h.marked⟩

theorem kept_marked : Tx.Kept srv (Tx.Marked tables n) := by
  have hadvance : ∀ {tx : Tx} {table : Nat} {schema : TableSchema} {derived assigned : Row} {w : WriterState}, tx.Marked tables n →
      assignAutoInc cat.autoIncStep tx.writer table schema derived = .ok (w, assigned) →
        { tx with writer := w }.Marked tables n := fun h hassign =>
    h.withWriter (advances_assignAutoInc hassign (h.counts _)) (counts_assignAutoInc hassign h.counts)
  refine .of_parts hadvance (fun h hw => ?_) fun _ _ h _ _ _ => h.of_eq rfl rfl
  obtain ⟨schema, derived, writer, assigned, pk, row, t, op, -, hassign, -, -, -, -, -, -, -, rfl⟩ := write_eq_ok hw
  exact (hadvance h hassign).of_eq rfl rfl

theorem MemStore.Recoverable.begin (h : s.Recoverable cat) : s.begin.Marked s.committed s.writer.nextTxId :=
  ⟨rfl, rfl, h.counts, h.marked⟩

end Marked

section Commit

variable {cat : Catalog} {tx : Tx} {diff : TxDiff} {s s' : MemStore} {n table : Nat}

theorem publishHighWaters_mark {counters : ExtTreeMap Nat AutoIncCounter} (table : Nat) : ∀ {l : List Nat}
    {s s' : Tables × List (Nat × Nat)}, l.foldlM (publishHighWater counters) s = .ok s' →
    markIn s'.1 table = if table ∈ l then highWaterOf counters table else markIn s.1 table
  | [], s, s', h => by
    cases h
    simp
  | id :: l, s, s', h => by
    obtain ⟨m, hm, h⟩ := bind_eq_ok.mp h
    rw [publishHighWaters_mark table h]
    unfold publishHighWater at hm
    split at hm
    · simp at hm
    cases hm
    simp only [markIn, lookup_insert, List.mem_cons]
    by_cases hid : id = table
    · simp [hid]
    · simp [hid, Ne.symm hid]

theorem commit_mark (h : tx.commit cat = .ok (diff, s)) (table : Nat) : markIn s.committed table =
    if table ∈ tx.writer.highWaterDirty then (tx.writer.counter table).highWater else markIn tx.base table := by
  obtain ⟨⟨tables, diffs⟩, hmerge, h⟩ := bind_eq_ok.mp h
  obtain ⟨⟨tables', autoInc⟩, hpublish, h⟩ := bind_eq_ok.mp h
  cases h
  obtain ⟨diffs', -, hmerged, hrest⟩ := mergePendings_eq_ok (nodup_keys_toList _) hmerge
  have hbase : markIn tables table = markIn tx.base table := by
    by_cases htouched : table ∈ (touched tx.pending.toList).map Prod.fst
    · obtain ⟨⟨table, ops⟩, hmem, rfl⟩ := mem_map.mp htouched
      obtain ⟨d, -, t, t', ht, hmerge, ht'⟩ := forall₂_exists_right hmerged hmem
      have hmark : t'.autoIncHighWater = t.autoIncHighWater := (mergeTable_eq_ok hmerge).2.2.1
      simp only [markIn]
      rw [ht, ht', Option.map_some, Option.map_some, hmark]
    · rw [markIn, hrest table htouched, markIn]
  have hmark := publishHighWaters_mark table hpublish
  rw [hbase, highWaterOf_eq] at hmark
  simpa using hmark

/-- The marks of a record that is newer than what is there. -/
theorem foldl_raised_eq {l : List (Nat × Nat)} {mark m : Nat} (hm : (table, m) ∈ l) (hle : mark ≤ m)
    (hall : ∀ m', (table, m') ∈ l → m' = m) : l.foldl (raised table) mark = m := by
  refine Nat.le_antisymm (foldl_raised_le.mpr ⟨hle, fun m' hm' => (hall m' hm').le⟩) ?_
  exact (foldl_raised_le.mp le_rfl).2 m hm

theorem foldl_raised_none {l : List (Nat × Nat)} {mark : Nat} (hl : ∀ m, (table, m) ∉ l) : l.foldl (raised table) mark = mark := by
  refine Nat.le_antisymm (foldl_raised_le.mpr ⟨le_rfl, fun m hm => absurd hm (hl m)⟩) ?_
  exact (foldl_raised_le.mp le_rfl).1

theorem MemStore.Recoverable.commit (hs : s.Recoverable cat) (hok : tx.OkOver cat s.committed) (hmarked : tx.Marked s.committed n)
    (h : tx.commit cat = .ok (diff, s')) : s'.Recoverable cat := by
  obtain ⟨hok, hbase⟩ := hok
  obtain ⟨-, -, -, -, -, -, hcounters, -, -⟩ := commit_eq_ok h
  have hsame : ∀ table, s'.writer.counter table = tx.writer.counter table := fun table => by
    rw [WriterState.counter, hcounters, WriterState.counter]
  refine ⟨MemStore.Ok.commit hok (hbase ▸ hs.unique) h, fun table schema pk row hschema hrow => ?_,
    fun table t ht => ?_, fun table => hsame table ▸ hmarked.counts table, fun table => ?_⟩
  · rw [commit_rowIn_write hok h, hbase] at hrow
    cases hwrite : diff.write cat table pk with
    | none =>
      rw [hwrite] at hrow
      exact hs.storable table schema pk row hschema hrow
    | some w =>
      obtain rfl : w = some row := by simpa [hwrite] using hrow
      exact ((commit_stored hok (hbase ▸ hs.unique) h).of_write hschema hwrite).2
  · rcases commit_table h table with ⟨d, -, t₀, t₁, mark, h₀, hmerge, h₁⟩ | ⟨-, ⟨-, hnone⟩ | ⟨t₀, mark, h₀, h₁⟩⟩
    · cases h₁.symm.trans ht
      exact (mergeTable_eq_ok hmerge).2.2.2.2 (hs.count table t₀ (hbase ▸ h₀))
    · simp [hnone] at ht
    · cases h₁.symm.trans ht
      exact hs.count table t₀ (hbase ▸ h₀)
  · rw [commit_mark h, hsame, hbase]
    split
    · exact le_rfl
    · exact hmarked.marked table

theorem MemStore.Recoverable.rollback (hs : s.Recoverable cat) (hok : tx.OkOver cat s.committed)
    (hmarked : tx.Marked s.committed n) : tx.rollback.Recoverable cat := by
  obtain ⟨hok, hbase⟩ := hok
  have hcommitted : tx.rollback.committed = s.committed := hbase
  exact ⟨MemStore.Ok.rollback hok (hbase ▸ hs.unique), hcommitted ▸ hs.storable, hcommitted ▸ hs.count, hmarked.counts,
    hcommitted ▸ hmarked.marked⟩

theorem recoverable_new (cat : Catalog) : (MemStore.new cat).Recoverable cat := by
  have hnone : ∀ table pk, rowIn (MemStore.new cat).committed table pk = none := rowIn_new cat
  have htable : ∀ (table : Nat) t, (MemStore.new cat).committed[table]? = some t → ∃ schema, t = .empty schema := by
    intro table t ht
    simp only [MemStore.new, ExtTreeMap.getElem?_map, Option.map_eq_some_iff] at ht
    obtain ⟨schema, -, rfl⟩ := ht
    exact ⟨schema, rfl⟩
  refine ⟨memStore_ok_new cat, fun table schema pk row _ hrow => ?_, fun table t ht => ?_, fun table => ?_, fun table => ?_⟩
  · rw [hnone] at hrow
    cases hrow
  · obtain ⟨schema, rfl⟩ := htable table t ht
    simp [TableState.empty]
  · rw [counter_new]
    exact ⟨by decide, by decide⟩
  rw [markIn]
  cases ht : (MemStore.new cat).committed[table]? with
  | none => simp
  | some t =>
    obtain ⟨schema, rfl⟩ := htable table t ht
    simp [TableState.empty]

/-- **A job that commits leads to the tables that its record says.** -/
theorem execute_follows {r : Reducer cat} {authoritative : Bool} (hs : s.Recoverable cat)
    (h : s.execute cat (r.body authoritative) = some (some diff, s')) (info : CommitMeta) :
    s'.Recoverable cat ∧ Follows cat s.committed (.fromDiff (durableDiff cat diff) info) s'.committed ∧
      diff.txId = s.writer.nextTxId ∧ s'.writer.nextTxId = saturatingAdd s.writer.nextTxId 1 := by
  obtain ⟨tx, hbody, hcommit⟩ := execute_committed h
  have hok := Reducer.body_okOver hs.toOk hbody
  have hmarked := r.body_kept (fun _ => kept_marked) hs.begin hbody
  obtain ⟨-, htx, -, -, -, hnext, -, -, -⟩ := commit_eq_ok hcommit
  rw [hmarked.txId] at htx hnext
  refine ⟨hs.commit hok hmarked hcommit, ?_, htx, hnext⟩
  obtain ⟨hok, hbase⟩ := hok
  refine ⟨recordStored_fromDiff (commit_stored hok (hbase ▸ hs.unique) hcommit) info, fun table pk hdur => ?_, fun table hdur => ?_⟩
  · rw [write_fromDiff, write_durableDiff hdur, commit_rowIn_write hok hcommit, hbase]
    rfl
  rw [commit_mark hcommit, hbase]
  split
  · rename_i hdirty
    refine (foldl_raised_eq ((mem_autoInc_commit hcommit).mpr ⟨hdirty, rfl, hdur⟩) (hmarked.marked table) fun m hm => ?_).symm
    exact ((mem_autoInc_commit hcommit).mp hm).2.1
  · rename_i hclean
    exact (foldl_raised_none fun m hm => hclean ((mem_autoInc_commit hcommit).mp hm).1).symm

theorem execute_aborted {r : Reducer cat} {authoritative : Bool} (hs : s.Recoverable cat)
    (h : s.execute cat (r.body authoritative) = some (none, s')) :
    s'.Recoverable cat ∧ s'.committed = s.committed ∧ s'.writer.nextTxId = s.writer.nextTxId := by
  obtain ⟨returned, tx, hbody, rfl⟩ := execute_rolledBack h
  have hok := Reducer.body_okOver hs.toOk hbody
  have hmarked := r.body_kept (fun _ => kept_marked) hs.begin hbody
  exact ⟨hs.rollback hok hmarked, hok.2, hmarked.nextTxId⟩

end Commit

/-! ### Records one after the other -/

/-- Commits with these records lead from one state to another. -/
inductive Leads (cat : Catalog) : Tables → List TxRecord → Tables → Prop where
  | nil (tables : Tables) : Leads cat tables [] tables
  | cons {before mid after : Tables} {r : TxRecord} {records : List TxRecord} (first : Follows cat before r mid)
    (rest : Leads cat mid records after) : Leads cat before (r :: records) after

section Leads

variable {cat : Catalog} {early before mid after : Tables} {records records' : List TxRecord} {r : TxRecord}
  {table stamp : Nat}

theorem Leads.append (h : Leads cat before records mid) (h' : Leads cat mid records' after) :
    Leads cat before (records ++ records') after := by
  induction h with
  | nil => exact h'
  | cons first _ ih => exact .cons first (ih h')

theorem Leads.concat (h : Leads cat before records mid) (hr : Follows cat mid r after) : Leads cat before (records ++ [r]) after :=
  h.append (.cons hr (.nil after))

theorem Leads.split : ∀ {records : List TxRecord} {before : Tables}, Leads cat before (records ++ records') after →
    ∃ mid, Leads cat before records mid ∧ Leads cat mid records' after
  | [], before, h => ⟨before, .nil before, h⟩
  | r :: records, before, .cons first rest => by
    obtain ⟨mid, h, h'⟩ := Leads.split rest
    exact ⟨mid, .cons first h, h'⟩

section

variable (h : Leads cat before records after)
include h

theorem Leads.stored : ∀ r ∈ records, RecordStored cat r := by
  induction h with
  | nil => simp
  | cons first _ ih =>
    intro r hr
    rcases mem_cons.mp hr with rfl | hr
    · exact first.stored
    · exact ih r hr

theorem Leads.rows (hdur : cat.isEphemeral table = false) (pk : Bytes) :
    rowIn after table pk = (records.map fun r => r.write cat table pk).foldl patch (rowIn before table pk) := by
  induction h with
  | nil => rfl
  | cons first _ ih => rw [ih, first.rows table pk hdur, map_cons, foldl_cons]

theorem Leads.marks (hdur : cat.isEphemeral table = false) :
    markIn after table = (records.flatMap (·.autoInc)).foldl (raised table) (markIn before table) := by
  induction h with
  | nil => rfl
  | cons first _ ih => rw [ih, first.marks table hdur, flatMap_cons, foldl_append]

end

theorem foldl_raised_again (l l' : List (Nat × Nat)) (mark : Nat) :
    (l ++ l').foldl (raised table) (l.foldl (raised table) mark) = (l ++ l').foldl (raised table) mark := by
  obtain ⟨hmark, hall⟩ := foldl_raised_le.mp (Nat.le_refl ((l ++ l').foldl (raised table) mark))
  obtain ⟨hmark', hall'⟩ := foldl_raised_le.mp (Nat.le_refl ((l ++ l').foldl (raised table) (l.foldl (raised table) mark)))
  have hstart : l.foldl (raised table) mark ≤ (l ++ l').foldl (raised table) mark :=
    foldl_raised_le.mpr ⟨hmark, fun m hm => hall m (mem_append_left _ hm)⟩
  have hraised : mark ≤ l.foldl (raised table) mark := (foldl_raised_le.mp le_rfl).1
  exact Nat.le_antisymm (foldl_raised_le.mpr ⟨hstart, hall⟩) (foldl_raised_le.mpr ⟨hraised.trans hmark', hall'⟩)

/-- **A checkpoint that is newer than its stamp still recovers**: the records it has already are applied again. -/
theorem Leads.recover (ids : TableIds cat) (hearly : Leads cat early records mid) (hlate : Leads cat mid records' after)
    {log : List TxRecord} (hlog : log.filter (stamp < ·.txId) = records ++ records') (hstored : ∀ r ∈ log, RecordStored cat r)
    (hmid : TablesStorable cat mid) (hafter : TablesOk cat after)
    (hcount : ∀ (table : Nat) t, after[table]? = some t → t.rowCount = t.rows.size) :
    ∃ s, recoverFrom ids (some ⟨stamp, (CheckpointRepo.durableTables mid).map CheckpointRepo.loaded⟩) log = .ok s ∧
      DurableEq cat s.committed after ∧
      s.writer.nextTxId = (max (log.getLast?.map (·.txId)) (some stamp)).elim 1 (saturatingAdd · 1) := by
  refine recoverFrom_checkpoint ids hmid hafter hcount hstored (fun table pk hdur => ?_) fun table hdur => ?_
  · rw [hlog, map_append, hearly.rows hdur, foldl_patch_again, foldl_append, ← hearly.rows hdur, hlate.rows hdur]
  · rw [hlog, flatMap_append, hearly.marks hdur, foldl_raised_again, foldl_append, ← hearly.marks hdur, hlate.marks hdur]

end Leads

end Fluxum
