/-
# The diff of a commit, and its replication to other shards

A commit's diff says of each key exactly what the pending operation on it
does. `MemStore::apply_replicated_diff` plays the global tables of such a diff
into another store: it deletes by key and inserts by key, with the indexes and
unique maps of the replica. It succeeds and leaves at each key what the diff
says of it, if the rows that are there on the keys of the diff are the ones
the diff deletes and no unique value is shared afterwards.
-/
import Fluxum.Store.Refinement

namespace Fluxum

open Std TableState Outcome List Function OrdMap Option

/-! ### What a diff says of a key -/

def TxDiff.write (diff : TxDiff) (cat : Catalog) (table : Nat) (pk : Bytes) : Option (Option Row) :=
  match cat.tables[table]?, diff.tables.find? (·.tableId = table) with
  | some schema, some d => d.write schema pk
  | _, _ => none

/-- The rows a diff of a table inserts have distinct keys and can be stored at them. -/
structure TableDiff.Stored (d : TableDiff) (cat : Catalog) (schema : TableSchema) : Prop where
  row : ∀ row ∈ d.inserts, ∃ pk, StoredRow cat d.tableId schema pk row ∧ Storable cat.fits schema pk row
  nodup : (d.inserts.map fun row => (encodePkOfRow schema row).toOption).Nodup

/-- A diff is of tables of the catalog, each once, and inserts rows that can be stored. -/
structure TxDiff.Stored (diff : TxDiff) (cat : Catalog) : Prop where
  nodup : (diff.tables.map TableDiff.tableId).Nodup
  table : ∀ d ∈ diff.tables, ∃ schema, cat.tables[d.tableId]? = some schema ∧ d.Stored cat schema

variable {table : Nat} {d : TableDiff}

section Write

variable {cat : Catalog} {schema : TableSchema} {d : TableDiff} {diff : TxDiff}

theorem TxDiff.find_eq (hnodup : (diff.tables.map TableDiff.tableId).Nodup) (hd : d ∈ diff.tables) :
    diff.tables.find? (·.tableId = d.tableId) = some d := by
  rw [find?_eq_some_iff_append]
  obtain ⟨as, bs, heq⟩ := append_of_mem hd
  refine ⟨by simp, as, bs, heq, fun a ha => ?_⟩
  have hne : a.tableId ≠ d.tableId := by
    intro hsame
    rw [heq, map_append, map_cons, nodup_append] at hnodup
    exact hnodup.2.2 _ (mem_map_of_mem ha) _ (by simp) hsame
  simpa using hne

theorem TxDiff.write_of_mem (hnodup : (diff.tables.map TableDiff.tableId).Nodup) (hd : d ∈ diff.tables)
    (hschema : cat.tables[d.tableId]? = some schema) (pk : Bytes) :
    diff.write cat d.tableId pk = d.write schema pk := by
  unfold TxDiff.write
  rw [hschema, TxDiff.find_eq hnodup hd]

theorem TxDiff.write_of_not_mem (h : table ∉ diff.tables.map TableDiff.tableId) (pk : Bytes) :
    diff.write cat table pk = none := by
  have hnone : diff.tables.find? (·.tableId = table) = none := by
    rw [find?_eq_none]
    intro d hd heq
    exact h (mem_map.mpr ⟨d, hd, by simpa using heq⟩)
  unfold TxDiff.write
  rw [hnone]
  split <;> simp_all

end Write

/-! ### The diff of a commit -/

section Commit

variable {cat : Catalog} {fits : Row → Bool} {tx : Tx} {diff : TxDiff} {s : MemStore} {t t' : TableState} {pk : Bytes} {row : Row}
variable {declared : List (List Nat)}

theorem mapIndexes_storable (row : Row) {put : BTreeIndex → Except StoreError BTreeIndex} (h : t.mapIndexes put = .ok t')
    (hput : ∀ index index' key, put index = .ok index' → BTreeIndex.entryKey index.columns pk row = .ok key → checkKey key = .ok ())
    (hcolumns : t.indexes.map (·.columns) = declared) : ∀ columns ∈ declared, ∀ key,
      BTreeIndex.entryKey columns pk row = .ok key → checkKey key = .ok () := by
  intro columns hmem key hkey
  rw [← hcolumns] at hmem
  obtain ⟨index, hindex, rfl⟩ := mem_map.mp hmem
  obtain ⟨indexes, hloop, -⟩ := mapIndexes_eq_ok h
  obtain ⟨index', -, hindex'⟩ := exists_of_mapM_mem hloop hindex
  exact hput index index' key hindex' hkey

theorem insert_storable {index index' : BTreeIndex} {key : Bytes} (h : index.insert row pk = .ok index')
    (hkey : BTreeIndex.entryKey index.columns pk row = .ok key) : checkKey key = .ok () := by
  obtain ⟨key', hkey', h⟩ := bind_eq_ok.mp h
  cases hkey.symm.trans hkey'
  obtain ⟨tree, htree, -⟩ := bind_eq_ok.mp h
  exact (insertCow_eq_ok.mp htree).1

theorem insertUnique_storable (h : t.insertUnique row pk = .ok t')
    (hcolumns : t.unique.map (·.columns) = declared) : ∀ columns ∈ declared, ∀ key,
      columnsKey columns row = .ok key → checkKey key = .ok () := by
  intro columns hmem key hkey
  rw [← hcolumns] at hmem
  obtain ⟨constraint, hconstraint, rfl⟩ := mem_map.mp hmem
  obtain ⟨unique, hloop, -⟩ := mapUnique_eq_ok h
  obtain ⟨constraint', -, hput⟩ := exists_of_mapM_mem hloop hconstraint
  obtain ⟨key', hkey', hput⟩ := bind_eq_ok.mp hput
  cases hkey.symm.trans hkey'
  split at hput
  · simp at hput
  · obtain ⟨tree, htree, -⟩ := bind_eq_ok.mp hput
    exact (insertCow_eq_ok.mp htree).1

theorem putRow_storable {prev : Option Row} (h : t.putRow fits pk row = .ok (prev, t')) :
    fits row = true ∧ checkKey pk = .ok () := by
  unfold putRow at h
  split at h
  · rename_i hfits
    obtain ⟨rows, hrows, -⟩ := bind_eq_ok.mp h
    exact ⟨hfits, (insertCow_eq_ok.mp hrows).1⟩
  · simp at h

theorem mergeOp_storable {p p' : TableState × TableDiff} {held : Rows} {op : PendingOp}
    (hok : p.1.UniqueOk held) (h : mergeOp fits p (pk, op) = .ok p') (hrow : op.result = some row) :
    Storable fits p.1.schema pk row := by
  cases opMerged h with
  | delete => simp [PendingOp.result] at hrow
  | insert h₁ h₂ h₃ =>
    obtain rfl := Option.some.inj hrow
    have hindex := mapIndexes_storable _ h₁ (fun _ _ _ => insert_storable) hok.indexColumns
    obtain ⟨_, -, rfl⟩ := mapIndexes_eq_ok h₁
    obtain ⟨hfits, hkey⟩ := putRow_storable h₃
    exact ⟨hfits, hkey, hindex, insertUnique_storable h₂ hok.uniqueColumns⟩
  | update h₁ h₂ h₃ =>
    obtain rfl := Option.some.inj hrow
    obtain ⟨hfits, hkey⟩ := putRow_storable h₁
    obtain ⟨-, -, _, _, rfl, -⟩ := putRow_eq_ok h₁
    have hindex := mapIndexes_storable _ h₂ (fun index _ _ hput hkey => by
      obtain ⟨mid, hmid, hput⟩ := bind_eq_ok.mp hput
      exact insert_storable hput (BTreeIndex.remove_columns hmid ▸ hkey)) hok.indexColumns
    obtain ⟨_, -, rfl⟩ := mapIndexes_eq_ok h₂
    exact ⟨hfits, hkey, hindex, insertUnique_storable h₃ hok.uniqueColumns⟩

theorem mergeOps_storable : ∀ {ops : PendingOps} {p p' : TableState × TableDiff},
    p.1.UniqueOk (p.1.heldBut (released ops)) → (ops.map Prod.fst).Nodup → OverlayOk p.1 ops →
    ops.foldlM (mergeOp fits) p = .ok p' → ∀ pk op row, (pk, op) ∈ ops → op.result = some row →
    Storable fits p.1.schema pk row
  | [], p, p', _, _, _, _, pk, op, row, hmem, _ => absurd hmem List.not_mem_nil
  | (pk₀, op₀) :: ops, p, p', hok, hnodup, hops, h, pk, op, row, hmem, hrow => by
    obtain ⟨m, hm, h⟩ := bind_eq_ok.mp h
    rw [map_cons, nodup_cons] at hnodup
    rcases mem_cons.mp hmem with heq | hmem
    · cases heq
      exact mergeOp_storable hok hm hrow
    · have hok' := mergeOp_uniqueOk hok hnodup.1 (hops pk₀ op₀ (by simp)) hm
      rw [← (mergeOp_eq_ok hm).2.1]
      exact mergeOps_storable hok' hnodup.2 (hops.tail hnodup.1 (mergeOp_eq_ok hm).1) h pk op row hmem hrow

section

variable (h : tx.commit cat = .ok (diff, s))
include h

theorem commit_part (hd : d ∈ diff.tables) :
    ∃ t t', tx.base[d.tableId]? = some t ∧ mergeTable cat.fits d.tableId t (tx.ops d.tableId).toList = .ok (t', d) := by
  obtain ⟨tables, -, hmerged, -, -⟩ := commit_eq_ok h
  obtain ⟨⟨table, ops⟩, hmem, t, t', ht, hmerge, -⟩ := forall₂_exists_left hmerged hd
  have hid : d.tableId = table := (congrArg TableDiff.tableId (mergeTable_eq_ok hmerge).2.2.2.1).trans diffOf_tableId
  obtain rfl : tx.ops table = ops := by simp [Tx.ops, (mem_touched.mp hmem).1]
  subst hid
  exact ⟨t, t', ht, hmerge⟩

theorem commit_ids :
    diff.tables.map TableDiff.tableId = (touched tx.pending.toList).map Prod.fst := by
  obtain ⟨tables, -, hmerged, -, -⟩ := commit_eq_ok h
  exact map_tableId_of_merged hmerged

theorem commit_nodup : (diff.tables.map TableDiff.tableId).Nodup := by
  rw [commit_ids h]
  exact (nodup_keys_toList tx.pending).sublist (filter_sublist.map _)

end

section

variable (hok : tx.Ok cat)
include hok

theorem tableDiff_of_part (ht : tx.base[d.tableId]? = some t)
    (hmerge : mergeTable cat.fits d.tableId t (tx.ops d.tableId).toList = .ok (t', d)) :
    d = diffOf ⟨d.tableId, [], []⟩ t.rowAt (tx.ops d.tableId).toList ∧
    ∀ pk op row, (pk, op) ∈ (tx.ops d.tableId).toList → op.result = some row → encodePkOfRow t.schema row = .ok pk :=
  ⟨(mergeTable_eq_ok hmerge).2.2.2.1, fun pk op row hop hrow => (hok.stored d.tableId t.schema pk op row (hok.base.schemaAt ht)
    (ExtTreeMap.mem_toList_iff_getElem?_eq_some.mp hop) hrow).key⟩

/-- **The diff of a commit says of each key what the operation on it does.** -/
theorem commit_write (h : tx.commit cat = .ok (diff, s)) (table : Nat) (pk : Bytes) :
    diff.write cat table pk = (tx.op table pk).map PendingOp.result := by
  by_cases hmem : table ∈ diff.tables.map TableDiff.tableId
  · obtain ⟨d, hd, rfl⟩ := mem_map.mp hmem
    obtain ⟨t, t', ht, hmerge⟩ := commit_part h hd
    obtain ⟨heq, hkeys⟩ := tableDiff_of_part hok ht hmerge
    have hwrite := write_diffOf d.tableId (nodup_keys_toList _) (hok.overlayOk ht) hkeys pk
    rw [← heq] at hwrite
    rw [TxDiff.write_of_mem (commit_nodup h) hd (hok.base.schemaAt ht)]
    cases hop : tx.op d.tableId pk with
    | none =>
      refine hwrite.2 fun hmem => ?_
      obtain ⟨⟨k, op⟩, hk, rfl⟩ := mem_map.mp hmem
      cases hop.symm.trans (ExtTreeMap.mem_toList_iff_getElem?_eq_some.mp hk)
    | some op => exact hwrite.1 op (ExtTreeMap.mem_toList_iff_getElem?_eq_some.mpr hop)
  · rw [TxDiff.write_of_not_mem hmem, op_eq_none_of_not_touched (commit_ids h ▸ hmem)]
    rfl

theorem commit_stored (hunique : UniqueMaps tx.base) (h : tx.commit cat = .ok (diff, s)) :
    diff.Stored cat := by
  refine ⟨commit_nodup h, fun d hd => ?_⟩
  obtain ⟨t, t', ht, hmerge⟩ := commit_part h hd
  obtain ⟨heq, hkeys⟩ := tableDiff_of_part hok ht hmerge
  have hschema := hok.base.schemaAt ht
  have hnodup := nodup_keys_toList (tx.ops d.tableId)
  have hinserts : d.inserts = _ := congrArg TableDiff.inserts (heq.trans (diffOf_eq hnodup))
  refine ⟨t.schema, hschema, fun row hrow => ?_, ?_⟩
  · rw [hinserts] at hrow
    obtain ⟨⟨pk, row⟩, hp, rfl⟩ := mem_map.mp hrow
    obtain ⟨op, hop, hrow⟩ := mem_puts.mp hp
    refine ⟨pk, hok.stored d.tableId t.schema pk op row hschema (ExtTreeMap.mem_toList_iff_getElem?_eq_some.mp hop) hrow, ?_⟩
    obtain ⟨t₁, ht₁, hmerge⟩ := bind_eq_ok.mp hmerge
    have hreleased := releaseOps_uniqueOk (hunique d.tableId t ht) hnodup ht₁
    have hover := hok.overlayOk ht
    obtain ⟨unique, rfl⟩ := releaseOps_eq_ok ht₁
    exact mergeOps_storable hreleased hnodup hover hmerge pk op row hop hrow
  · rw [hinserts]
    exact nodup_putKeys hnodup (key_of_put hkeys)

/-- The diff of a commit deletes the rows that are on its keys. -/
theorem commit_deletes (h : tx.commit cat = .ok (diff, s))
    (hwrite : diff.write cat table pk ≠ none) (hrow : rowIn tx.base table pk = some row) :
    ∃ d ∈ diff.tables, d.tableId = table ∧ (pk, row) ∈ d.deletes := by
  rw [commit_write hok h] at hwrite
  obtain ⟨op, hop⟩ : ∃ op, tx.op table pk = some op := ne_none_iff_exists'.mp fun hnone => hwrite (by rw [hnone]; rfl)
  have hmem : table ∈ diff.tables.map TableDiff.tableId := by
    by_contra hno
    simp [op_eq_none_of_not_touched (commit_ids h ▸ hno)] at hop
  obtain ⟨d, hd, rfl⟩ := mem_map.mp hmem
  obtain ⟨t, t', ht, hmerge⟩ := commit_part h hd
  obtain ⟨heq, -⟩ := tableDiff_of_part hok ht hmerge
  have hdeletes : d.deletes = _ := congrArg TableDiff.deletes (heq.trans (diffOf_eq (nodup_keys_toList _)))
  have hrel : op.releases = true := by
    rw [← hok.overlays _ _ _ hop, hrow]
    rfl
  refine ⟨d, hd, rfl, ?_⟩
  rw [hdeletes]
  exact mem_takes.mpr ⟨op, ExtTreeMap.mem_toList_iff_getElem?_eq_some.mpr hop, hrel, rowIn_eq ht pk ▸ hrow⟩

/-- **A commit leaves at each key what its diff says of it.** -/
theorem commit_rowIn_write (h : tx.commit cat = .ok (diff, s)) (table : Nat) (pk : Bytes) :
    rowIn s.committed table pk = (diff.write cat table pk).getD (rowIn tx.base table pk) := by
  rw [commit_rowIn h, commit_write hok h, Tx.view]
  cases tx.op table pk <;> rfl

end

end Commit

/-! ### Replicated diffs -/

section Replicate

variable (cat : Catalog)

/-- One table of a replicated diff; tables that are unknown or not global are passed over. -/
def applyReplicatedTable (tables : Tables) (d : TableDiff) :
    Except StoreError Tables :=
  match cat.tables[d.tableId]? with
  | none => .ok tables
  | some schema =>
    if schema.access ≠ .global then .ok tables
    else
      match tables[d.tableId]? with
      | none => .ok tables
      | some t => do
        let p ← (d.deletes.map Prod.fst).foldlM replicateDelete (t, ⟨d.tableId, [], []⟩)
        let p ← d.inserts.foldlM (replicateInsert cat.fits) p
        return tables.insert d.tableId p.1

def MemStore.applyReplicatedDiff (s : MemStore) (diff : TxDiff) : Except StoreError MemStore := do
  let tables ← diff.tables.foldlM (applyReplicatedTable cat) s.committed
  return { s with committed := tables }

end Replicate

section Replicated

variable {cat : Catalog} {fits : Row → Bool} {p : TableState × TableDiff} {t : TableState} {pk : Bytes} {row : Row}

theorem replicateDelete_succeeds (hok : p.1.UniqueOk p.1.rowAt) (hfull : FullRows p.1.schema p.1.rowAt) (pk : Bytes) :
    ∃ p', replicateDelete p pk = .ok p' ∧ p'.1.UniqueOk p'.1.rowAt ∧ p'.1.schema = p.1.schema ∧
      p'.1.rowAt = update p.1.rowAt pk none := by
  unfold replicateDelete
  split
  · rename_i existing t ht
    obtain ⟨hold, hrowAt, rows, count, rfl, -⟩ := takeRow_eq_some ht
    have hlen := hfull pk existing hold
    have hok := hok.withRows rows count
    obtain ⟨t, ht⟩ := (removeUnique_ends hok hlen pk).exists_ok
    have hok := hok.removeUnique hold ht
    obtain ⟨unique, -, rfl⟩ := mapUnique_eq_ok ht
    obtain ⟨t, ht'⟩ := (removeIndexes_ends hok hlen pk).exists_ok
    have hok := hok.mapIndexes (fun _ _ h => BTreeIndex.remove_columns h) ht'
    obtain ⟨indexes, -, rfl⟩ := mapIndexes_eq_ok ht'
    refine ⟨_, bind_eq_ok.mpr ⟨_, ht, bind_eq_ok.mpr ⟨_, ht', rfl⟩⟩, ?_, rfl, hrowAt⟩
    rw [← hrowAt] at hok
    exact hok
  · rename_i t ht
    obtain ⟨hnone, rfl⟩ := takeRow_eq_none ht
    refine ⟨_, rfl, hok, rfl, ?_⟩
    rw [eq_comm, update_eq_self_iff]
    exact hnone.symm

/-- The rows without those at `keys`. -/
theorem replicateDeletes_succeed : ∀ (keys : List Bytes) {p : TableState × TableDiff}, p.1.UniqueOk p.1.rowAt →
    FullRows p.1.schema p.1.rowAt → ∃ p', keys.foldlM replicateDelete p = .ok p' ∧ p'.1.UniqueOk p'.1.rowAt ∧
      p'.1.schema = p.1.schema ∧ p'.1.rowAt = p.1.heldBut keys
  | [], p, hok, _ => ⟨p, rfl, hok, rfl, by funext k; simp [heldBut]⟩
  | pk :: keys, p, hok, hfull => by
    obtain ⟨m, hm, hok, hschema, hrowAt⟩ := replicateDelete_succeeds hok hfull pk
    have hfull : FullRows m.1.schema m.1.rowAt := fun k r hr => by
      rw [hrowAt, update_apply] at hr
      rw [hschema]
      split at hr
      · simp at hr
      · exact hfull k r hr
    obtain ⟨p', hp', hok, hschema', hrowAt'⟩ := replicateDeletes_succeed keys hok hfull
    refine ⟨p', bind_eq_ok.mpr ⟨m, hm, hp'⟩, hok, hschema'.trans hschema, ?_⟩
    funext k
    simp only [hrowAt', heldBut, hrowAt, update_apply, mem_cons]
    by_cases hk : k = pk <;> simp [hk]

theorem replicateInsert_succeeds (hok : p.1.UniqueOk p.1.rowAt) (hkey : encodePkOfRow p.1.schema row = .ok pk)
    (hfree : p.1.rowAt pk = none) (hlen : row.length = p.1.schema.columns.length) (hrow : Storable fits p.1.schema pk row)
    (hdistinct : DistinctKeys p.1.schema (update p.1.rowAt pk (some row))) :
    ∃ p', replicateInsert fits p row = .ok p' ∧ p'.1.UniqueOk p'.1.rowAt ∧ p'.1.schema = p.1.schema ∧
      p'.1.rowAt = update p.1.rowAt pk (some row) := by
  obtain ⟨⟨prev, t⟩, hput⟩ := (putRow_ends p.1 hrow.upTo).exists_ok
  obtain ⟨hprev, hrowAt, rows, count, rfl, -⟩ := putRow_eq_ok hput
  obtain rfl : prev = none := hprev.trans hfree
  have hok := hok.withRows rows count
  obtain ⟨t, ht⟩ := (insertIndexes_ends hok hlen hrow.upTo).exists_ok
  have hok := hok.mapIndexes (fun _ _ h => BTreeIndex.insert_columns h) ht
  obtain ⟨indexes, -, rfl⟩ := mapIndexes_eq_ok ht
  obtain ⟨t, ht'⟩ := (insertUnique_ends hok hlen hrow.upTo hdistinct).exists_ok
  have hok := hok.insertUnique hfree ht'
  obtain ⟨unique, -, rfl⟩ := mapUnique_eq_ok ht'
  refine ⟨_, bind_eq_ok.mpr ⟨pk, mapError_eq_ok.mpr hkey, bind_eq_ok.mpr ⟨_, hput,
    bind_eq_ok.mpr ⟨_, rfl, bind_eq_ok.mpr ⟨_, ht, bind_eq_ok.mpr ⟨_, ht', rfl⟩⟩⟩⟩⟩, ?_, rfl, hrowAt⟩
  rw [← hrowAt] at hok
  exact hok

theorem replicateInserts_succeed : ∀ (inserts : List Row) {p : TableState × TableDiff}, p.1.UniqueOk p.1.rowAt →
    (∀ row ∈ inserts, ∃ pk, StoredRow cat table p.1.schema pk row ∧ Storable fits p.1.schema pk row) →
    (inserts.map fun row => (encodePkOfRow p.1.schema row).toOption).Nodup →
    (∀ row ∈ inserts, ∀ pk, encodePkOfRow p.1.schema row = .ok pk → p.1.rowAt pk = none) →
    DistinctKeys p.1.schema (putRows p.1.schema inserts p.1.rowAt) →
    ∃ p', inserts.foldlM (replicateInsert fits) p = .ok p' ∧ p'.1.UniqueOk p'.1.rowAt ∧
      p'.1.schema = p.1.schema ∧ p'.1.rowAt = putRows p.1.schema inserts p.1.rowAt
  | [], p, hok, _, _, _, _ => ⟨p, rfl, hok, rfl, rfl⟩
  | row :: inserts, p, hok, hrows, hnodup, hfree, hdistinct => by
    obtain ⟨pk, hstored, hrow⟩ := hrows row (by simp)
    have hother := other_keys hnodup hstored.key
    have hput := putRows_cons hstored.key hother p.1.rowAt
    -- the rows so far are among the rows at the end
    have hsub : DistinctKeys p.1.schema (update p.1.rowAt pk (some row)) := by
      rw [hput] at hdistinct
      refine hdistinct.mono fun k r hr => ?_
      unfold putRows
      cases hfind : inserts.find? fun r => (encodePkOfRow p.1.schema r).toOption = some k with
      | none => exact hr
      | some r' =>
        exfalso
        have hmem := mem_of_find?_eq_some hfind
        have hkey : encodePkOfRow p.1.schema r' = .ok k := toOption_key.mp (by simpa using find?_some hfind)
        have hne : k ≠ pk := by
          rintro rfl
          exact hother r' hmem hkey
        rw [update_of_ne hne, hfree r' (mem_cons_of_mem _ hmem) k hkey] at hr
        simp at hr
    obtain ⟨m, hm, hok, hschema, hrowAt⟩ :=
      replicateInsert_succeeds hok hstored.key (hfree row (by simp) pk hstored.key) hstored.length hrow hsub
    have hfree' : ∀ r ∈ inserts, ∀ k, encodePkOfRow m.1.schema r = .ok k → m.1.rowAt k = none := by
      intro r hr k hkey
      rw [hschema] at hkey
      have hne : k ≠ pk := by
        rintro rfl
        exact hother r hr hkey
      rw [hrowAt, update_of_ne hne]
      exact hfree r (mem_cons_of_mem _ hr) k hkey
    obtain ⟨p', hp', hok, hschema', hrowAt'⟩ := replicateInserts_succeed inserts hok
      (fun r hr => hschema ▸ hrows r (mem_cons_of_mem _ hr)) (hschema ▸ (nodup_cons.mp hnodup).2) hfree' (by rwa [hschema, hrowAt, ← hput])
    refine ⟨p', bind_eq_ok.mpr ⟨m, hm, hp'⟩, hok, hschema'.trans hschema, ?_⟩
    rw [hrowAt', hschema, hrowAt, hput]

/-- The diff of a table can be played into these rows: those on its keys are deleted by it, and no unique
value is shared afterwards. -/
structure TableDiff.Fits (d : TableDiff) (schema : TableSchema) (rows : Rows) : Prop where
  there : ∀ pk row, d.write schema pk ≠ none → rows pk = some row → pk ∈ d.deletes.map Prod.fst
  distinct : DistinctKeys schema fun pk => (d.write schema pk).getD (rows pk)

variable {tables : Tables} {schema : TableSchema}

/-- **One table of a replicated diff.** -/
theorem applyReplicatedTable_succeeds (htables : TablesOk cat tables) (hunique : UniqueMaps tables)
    (ht : tables[d.tableId]? = some t) (hd : d.Stored cat t.schema) (hglobal : t.schema.access = .global)
    (hfits : d.Fits t.schema t.rowAt) :
    ∃ t', applyReplicatedTable cat tables d = .ok (tables.insert d.tableId t') ∧ t'.UniqueOk t'.rowAt ∧
      t'.schema = t.schema ∧ ∀ pk, t'.rowAt pk = (d.write t.schema pk).getD (t.rowAt pk) := by
  have hschema := htables.schemaAt ht
  have hfull : FullRows t.schema t.rowAt := fun pk row hrow =>
    (htables.stored d.tableId t.schema pk row hschema (by simp [rowIn, ht, hrow])).length
  obtain ⟨m, hm, hok, hsame, hrowAt⟩ := replicateDeletes_succeed (d.deletes.map Prod.fst)
    (p := (t, ⟨d.tableId, [], []⟩)) (hunique d.tableId t ht) hfull
  have hfree : ∀ row ∈ d.inserts, ∀ pk, encodePkOfRow m.1.schema row = .ok pk → m.1.rowAt pk = none := by
    intro row hrow pk hkey
    rw [hsame] at hkey
    simp only [hrowAt, heldBut]
    split
    · rfl
    rename_i hno
    have hwrite : d.write t.schema pk ≠ none := fun hnone => (TableDiff.write_eq_none.mp hnone).1 row hrow hkey
    rw [eq_none_iff_forall_ne_some]
    exact fun row hrow => hno (hfits.there pk row hwrite hrow)
  obtain ⟨p, hp, hok, hsame', hrowAt'⟩ := replicateInserts_succeed d.inserts
    hok (by rw [hsame]; exact hd.row) (by rw [hsame]; exact hd.nodup) hfree
    (by rw [hsame, hrowAt]; exact (putRows_removed d t.schema t.rowAt).symm ▸ hfits.distinct)
  refine ⟨p.1, ?_, hok, hsame'.trans hsame, fun pk => ?_⟩
  · unfold applyReplicatedTable
    simp only [hschema, ne_eq, hglobal, not_true_eq_false, if_false, ht]
    exact bind_eq_ok.mpr ⟨m, hm, bind_eq_ok.mpr ⟨p, hp, rfl⟩⟩
  · rw [hrowAt', hsame, hrowAt]
    exact congrFun (putRows_removed d t.schema t.rowAt) pk

/-- A table is written on the authoritative shard and replicated to the others. -/
def Catalog.isGlobal (cat : Catalog) (table : Nat) : Bool := cat.tables[table]?.any (·.access = .global)

/-- What a diff says of a key of a global table. -/
def TxDiff.globalWrite (diff : TxDiff) (cat : Catalog) (p : Nat × Bytes) : Option (Option Row) :=
  if cat.isGlobal p.1 then diff.write cat p.1 p.2 else none

theorem rowIn_insert (table' : Nat) (t : TableState) :
    rowIn (tables.insert table t) table' = if table = table' then t.rowAt else rowIn tables table' := by
  funext pk
  unfold rowIn
  rw [lookup_insert]
  split <;> rfl

theorem isGlobal_eq (h : cat.tables[table]? = some schema) :
    cat.isGlobal table = decide (schema.access = .global) := by
  simp [Catalog.isGlobal, h]

theorem storeOk_insert (htables : TablesOk cat tables)
    (hunique : UniqueMaps tables) (hschema : cat.tables[table]? = some schema) (hsame : t.schema = schema)
    (hrows : ∀ pk row, t.rowAt pk = some row → StoredRow cat table schema pk row) (hok : t.UniqueOk t.rowAt) :
    TablesOk cat (tables.insert table t) ∧ UniqueMaps (tables.insert table t) := by
  refine ⟨⟨fun table' => ?_, fun table' schema' pk row hschema' hrow => ?_⟩, fun table' t' ht' => ?_⟩
  · rw [lookup_insert]
    split
    · rename_i heq
      rw [← heq, hschema, map_some, hsame]
    · exact htables.covers table'
  · rw [rowIn_insert] at hrow
    split at hrow
    · rename_i heq
      subst heq
      cases hschema.symm.trans hschema'
      exact hrows pk row hrow
    · exact htables.stored table' schema' pk row hschema' hrow
  · rw [lookup_insert] at ht'
    split at ht'
    · cases ht'
      exact hok
    · exact hunique table' t' ht'

theorem applyReplicatedTable_rows (htables : TablesOk cat tables)
    (hunique : UniqueMaps tables) (hschema : cat.tables[d.tableId]? = some schema) (hd : d.Stored cat schema)
    (hfits : schema.access = .global → d.Fits schema (rowIn tables d.tableId)) :
    ∃ tables', applyReplicatedTable cat tables d = .ok tables' ∧ TablesOk cat tables' ∧ UniqueMaps tables' ∧
      ∀ table pk, rowIn tables' table pk =
        if table = d.tableId ∧ cat.isGlobal table then (d.write schema pk).getD (rowIn tables table pk)
        else rowIn tables table pk := by
  by_cases hglobal : schema.access = .global
  · obtain ⟨t, ht, rfl⟩ := htables.exists_table hschema
    have hrowIn := funext (rowIn_eq ht)
    obtain ⟨t', hstep, hok, hsame, hrowAt⟩ :=
      applyReplicatedTable_succeeds htables hunique ht hd hglobal (hrowIn ▸ hfits hglobal)
    have hstored : ∀ pk row, t'.rowAt pk = some row → StoredRow cat d.tableId t.schema pk row := by
      intro pk row hrow
      rw [hrowAt] at hrow
      cases hw : d.write t.schema pk with
      | none =>
        rw [hw] at hrow
        exact htables.stored d.tableId t.schema pk row hschema (by rw [hrowIn]; exact hrow)
      | some x =>
        rw [hw, getD_some] at hrow
        subst hrow
        obtain ⟨hmem, hkey⟩ := TableDiff.mem_of_write hw
        obtain ⟨pk', hrow, -⟩ := hd.row row hmem
        cases hkey.symm.trans hrow.key
        exact hrow
    obtain ⟨h₁, h₂⟩ := storeOk_insert htables hunique hschema hsame hstored hok
    refine ⟨_, hstep, h₁, h₂, fun table pk => ?_⟩
    rw [rowIn_insert]
    by_cases heq : d.tableId = table
    · subst heq
      rw [if_pos rfl, if_pos ⟨rfl, by simp [isGlobal_eq hschema, hglobal]⟩, hrowAt, hrowIn]
    · rw [if_neg heq, if_neg fun h => heq h.1.symm]
  · refine ⟨tables, ?_, htables, hunique, fun table pk => ?_⟩
    · simp [applyReplicatedTable, hschema, hglobal]
    · rw [if_neg]
      rintro ⟨rfl, h⟩
      simp [isGlobal_eq hschema, hglobal] at h

theorem applyReplicatedTables_succeed : ∀ {ds : List TableDiff} {tables : Tables},
    (ds.map TableDiff.tableId).Nodup → TablesOk cat tables → UniqueMaps tables →
    (∀ d ∈ ds, ∃ schema, cat.tables[d.tableId]? = some schema ∧ d.Stored cat schema ∧
      (schema.access = .global → d.Fits schema (rowIn tables d.tableId))) →
    ∃ tables', ds.foldlM (applyReplicatedTable cat) tables = .ok tables' ∧ TablesOk cat tables' ∧ UniqueMaps tables' ∧
      ∀ table pk, rowIn tables' table pk =
        (TxDiff.globalWrite ⟨0, ds, []⟩ cat (table, pk)).getD (rowIn tables table pk)
  | [], tables, _, htables, hunique, _ => by
    refine ⟨tables, rfl, htables, hunique, fun table pk => ?_⟩
    simp [TxDiff.globalWrite, TxDiff.write_of_not_mem]
  | d :: ds, tables, hnodup, htables, hunique, hds => by
    obtain ⟨schema, hschema, hd, hfits⟩ := hds d (by simp)
    have hwriteHead : ∀ pk, TxDiff.write ⟨0, d :: ds, []⟩ cat d.tableId pk = d.write schema pk := by
      refine TxDiff.write_of_mem ?_ ?_ hschema
      · exact hnodup
      · simp
    have hwriteTail : ∀ table pk, table ≠ d.tableId →
        TxDiff.write ⟨0, d :: ds, []⟩ cat table pk = TxDiff.write ⟨0, ds, []⟩ cat table pk := by
      intro table pk hne
      unfold TxDiff.write
      rw [find?_cons_of_neg (by simpa using Ne.symm hne)]
    rw [map_cons, nodup_cons] at hnodup
    obtain ⟨tables₁, hstep, htables₁, hunique₁, hrows₁⟩ := applyReplicatedTable_rows htables hunique hschema hd hfits
    have hds₁ : ∀ d' ∈ ds, ∃ schema, cat.tables[d'.tableId]? = some schema ∧ d'.Stored cat schema ∧
        (schema.access = .global → d'.Fits schema (rowIn tables₁ d'.tableId)) := by
      intro d' hd'
      obtain ⟨schema', hschema', hstored', hfits'⟩ := hds d' (mem_cons_of_mem _ hd')
      have hne : d'.tableId ≠ d.tableId := fun heq => hnodup.1 (heq ▸ mem_map_of_mem hd')
      have hsame : rowIn tables₁ d'.tableId = rowIn tables d'.tableId := by
        funext pk
        rw [hrows₁, if_neg fun h => hne h.1]
      exact ⟨schema', hschema', hstored', fun hg => hsame ▸ hfits' hg⟩
    obtain ⟨tables', hrest, htables', hunique', hrows'⟩ := applyReplicatedTables_succeed hnodup.2 htables₁ hunique₁ hds₁
    refine ⟨tables', bind_eq_ok.mpr ⟨_, hstep, hrest⟩, htables', hunique', fun table pk => ?_⟩
    rw [hrows', hrows₁]
    unfold TxDiff.globalWrite
    by_cases heq : table = d.tableId
    · subst heq
      have htail : TxDiff.write ⟨0, ds, []⟩ cat d.tableId pk = none := TxDiff.write_of_not_mem hnodup.1 pk
      rw [hwriteHead, htail]
      cases cat.isGlobal d.tableId <;> simp
    · have hrest : ¬ (table = d.tableId ∧ cat.isGlobal table = true) := fun h => heq h.1
      rw [hwriteTail table pk heq, if_neg hrest]

/-- **A replicated diff leaves at each key of a global table what it says of it**, and the store in order,
if it can be played into its global tables. -/
theorem applyReplicatedDiff_succeeds {s : MemStore} {diff : TxDiff} (hok : s.Ok cat) (hdiff : diff.Stored cat)
    (hfits : ∀ d ∈ diff.tables, ∀ schema, cat.tables[d.tableId]? = some schema → schema.access = .global →
      d.Fits schema (rowIn s.committed d.tableId)) :
    ∃ s', s.applyReplicatedDiff cat diff = .ok s' ∧ s'.Ok cat ∧
      ∀ table pk, rowIn s'.committed table pk = (diff.globalWrite cat (table, pk)).getD (rowIn s.committed table pk) := by
  obtain ⟨tables, htables, h₁, h₂, hrows⟩ := applyReplicatedTables_succeed hdiff.nodup hok.tables hok.unique fun d hd => by
    obtain ⟨schema, hschema, hstored⟩ := hdiff.table d hd
    exact ⟨schema, hschema, hstored, hfits d hd schema hschema⟩
  exact ⟨_, bind_eq_ok.mpr ⟨_, htables, rfl⟩, ⟨h₁, h₂, hok.dirty⟩, hrows⟩

end Replicated

end Fluxum
