/-
# When a commit succeeds

The checks a transaction makes on every write are meant to leave nothing for
the commit to refuse. What they have to ensure is said here for one table:
the rows that result have distinct values of every constraint, and the rows
that are put can be stored. Then every step of the merge succeeds.

The unique maps are kept even on tables with transformed columns, so this
part of the tables' consistency is stated apart from `TableState.Ok`.
-/
import Fluxum.Store.Replication

namespace Fluxum

open Std Mirror TableState Outcome List Function OrdMap

/-- No two rows share a value of a constraint. -/
def DistinctKeys (schema : TableSchema) (f : Rows) : Prop :=
  ∀ columns ∈ schema.unique, ∀ pk pk' row row' key, f pk = some row → f pk' = some row' →
    columnsKey columns row = .ok key → columnsKey columns row' = .ok key → pk = pk'

/-- The page codec encodes the row, and no key of it is empty or too long for a tree. -/
structure Storable (fits : Row → Bool) (schema : TableSchema) (pk : Bytes) (row : Row) : Prop where
  encodes : fits row = true
  key : checkKey pk = .ok ()
  index : ∀ columns ∈ schema.indexes, ∀ key, BTreeIndex.entryKey columns pk row = .ok key → checkKey key = .ok ()
  unique : ∀ columns ∈ schema.unique, ∀ key, columnsKey columns row = .ok key → checkKey key = .ok ()

/-- The row can be stored, up to errors in `E`. -/
structure StorableUpTo (E : StoreError → Prop) (fits : Row → Bool) (schema : TableSchema) (pk : Bytes) (row : Row) : Prop where
  encodes : fits row = false → E .pageEncode
  key : Ends E (checkKey pk) fun _ => True
  index : ∀ columns ∈ schema.indexes, ∀ key, BTreeIndex.entryKey columns pk row = .ok key →
    Ends E (checkKey key) fun _ => True
  unique : ∀ columns ∈ schema.unique, ∀ key, columnsKey columns row = .ok key → Ends E (checkKey key) fun _ => True

variable {E : StoreError → Prop}

theorem Storable.upTo {fits : Row → Bool} {schema : TableSchema} {pk : Bytes} {row : Row}
    (h : Storable fits schema pk row) : StorableUpTo E fits schema pk row where
  encodes hfits := by simp [h.encodes] at hfits
  key := ends_of_eq_ok h.key trivial
  index columns hcolumns key hkey := ends_of_eq_ok (h.index columns hcolumns key hkey) trivial
  unique columns hcolumns key hkey := ends_of_eq_ok (h.unique columns hcolumns key hkey) trivial

/-! ### The unique maps through a merge -/

section Kept

variable {fits : Row → Bool} {t t' : TableState} {s s' : TableState × TableDiff} {held : Rows} {pk : Bytes}
  {row old : Row} {op : PendingOp} {keys : List Bytes}

theorem TableState.UniqueOk.distinct (h : t.UniqueOk held) : DistinctKeys t.schema held := by
  intro columns hcolumns pk pk' row row' key hrow hrow' hkey hkey'
  rw [← h.uniqueColumns] at hcolumns
  obtain ⟨constraint, hmem, rfl⟩ := mem_map.mp hcolumns
  exact Mirrors.key_inj (h.unique constraint hmem) hrow hrow' (toOption_eq_some.mpr hkey) (toOption_eq_some.mpr hkey')

theorem TableState.UniqueOk.mapIndexes {g : BTreeIndex → Except StoreError BTreeIndex} (hok : t.UniqueOk held)
    (hg : ∀ index index', g index = .ok index' → index'.columns = index.columns) (h : t.mapIndexes g = .ok t') :
    t'.UniqueOk held := by
  obtain ⟨indexes, hloop, rfl⟩ := mapIndexes_eq_ok h
  obtain ⟨-, hcolumns⟩ := mapM_forall (P := fun _ => True) (Q := fun _ => True)
    (fun index index' _ h => ⟨trivial, hg index index' h⟩) (by simp) hloop
  exact ⟨hcolumns.trans hok.indexColumns, hok.uniqueColumns, hok.unique⟩

theorem BTreeIndex.insert_columns {index index' : BTreeIndex} (h : index.insert row pk = .ok index') :
    index'.columns = index.columns := by
  obtain ⟨key, -, h⟩ := bind_eq_ok.mp h
  obtain ⟨tree, -, h⟩ := bind_eq_ok.mp h
  cases h
  rfl

theorem BTreeIndex.remove_columns {index index' : BTreeIndex} (h : index.remove row pk = .ok index') :
    index'.columns = index.columns := by
  obtain ⟨key, -, h⟩ := bind_eq_ok.mp h
  cases h
  rfl

theorem TableState.UniqueOk.replaceIndexes (hok : t.UniqueOk held) (h : t.replaceIndexes old row pk = .ok t') :
    t'.UniqueOk held := by
  refine hok.mapIndexes (fun index index' h => ?_) h
  obtain ⟨mid, hmid, h⟩ := bind_eq_ok.mp h
  exact (BTreeIndex.insert_columns h).trans (BTreeIndex.remove_columns hmid)

theorem TableState.UniqueOk.withRows (hok : t.UniqueOk held) (rows : Tree Row) (rowCount : Nat) :
    { t with rows, rowCount }.UniqueOk held :=
  ⟨hok.indexColumns, hok.uniqueColumns, hok.unique⟩

variable {ops : PendingOps}

theorem mergeOp_uniqueOk (hok : s.1.UniqueOk (s.1.heldBut (released ((pk, op) :: ops)))) (hpk : pk ∉ ops.map Prod.fst)
    (hover : op.Overlays (s.1.rowAt pk)) (h : mergeOp fits s (pk, op) = .ok s') :
    s'.1.UniqueOk (s'.1.heldBut (released ops)) := by
  have hrowAt := (mergeOp_eq_ok h).1
  have hheld := heldBut_self ops hover
  rw [heldBut_released op hpk hrowAt]
  cases opMerged h with
  | insert h₁ h₂ h₃ =>
    have hok := (hok.mapIndexes (fun _ _ h => BTreeIndex.insert_columns h) h₁).insertUnique hheld h₂
    obtain ⟨-, -, _, _, rfl, -⟩ := putRow_eq_ok h₃
    exact hok.withRows _ _
  | delete h₁ h₂ =>
    obtain ⟨-, -, _, _, rfl, -⟩ := takeRow_eq_some h₁
    rw [PendingOp.result, update_eq_self_iff.mpr hheld.symm]
    exact (hok.withRows _ _).mapIndexes (fun _ _ h => BTreeIndex.remove_columns h) h₂
  | update h₁ h₂ h₃ =>
    obtain ⟨-, -, _, _, rfl, -⟩ := putRow_eq_ok h₁
    exact ((hok.withRows _ _).replaceIndexes h₂).insertUnique hheld h₃

def OverlayOk (t : TableState) (ops : PendingOps) : Prop :=
  ∀ pk op, (pk, op) ∈ ops → op.Overlays (t.rowAt pk)

theorem OverlayOk.tail (hops : OverlayOk t ((pk, op) :: ops)) (hpk : pk ∉ ops.map Prod.fst) {row : Option Row}
    (hrowAt : t'.rowAt = update t.rowAt pk row) : OverlayOk t' ops := by
  intro pk' op' hmem
  have hne : pk' ≠ pk := by
    rintro rfl
    exact hpk (mem_map_of_mem hmem)
  rw [hrowAt, update_of_ne hne]
  exact hops pk' op' (mem_cons_of_mem _ hmem)

theorem mergeOps_uniqueOk : ∀ {ops : PendingOps} {s s' : TableState × TableDiff},
    s.1.UniqueOk (s.1.heldBut (released ops)) → (ops.map Prod.fst).Nodup → OverlayOk s.1 ops →
    ops.foldlM (mergeOp fits) s = .ok s' → s'.1.UniqueOk s'.1.rowAt
  | [], s, s', hok, _, _, h => by
    cases h
    rwa [heldBut_released_nil] at hok
  | (pk, op) :: ops, s, s', hok, hnodup, hops, h => by
    obtain ⟨m, hm, h⟩ := bind_eq_ok.mp h
    rw [map_cons, nodup_cons] at hnodup
    have hok' := mergeOp_uniqueOk hok hnodup.1 (hops pk op (by simp)) hm
    exact mergeOps_uniqueOk hok' hnodup.2 (hops.tail hnodup.1 (mergeOp_eq_ok hm).1) h

end Kept

/-! ### The merge succeeds -/

section Succeeds

variable {E : StoreError → Prop} {fits : Row → Bool} {t : TableState} {s : TableState × TableDiff} {held : Rows}
  {pk : Bytes} {row old : Row} {op : PendingOp}

/-- Every row has a value in every column. -/
def FullRows (schema : TableSchema) (f : Rows) : Prop :=
  ∀ pk row, f pk = some row → row.length = schema.columns.length

variable {schema : TableSchema} {ops : PendingOps} {index : BTreeIndex} {key : Bytes}

theorem exists_columnsKey {columns : List Nat} (hrow : row.length = schema.columns.length)
    (h : ∀ o ∈ columns, o < schema.columns.length) : ∃ key, columnsKey columns row = .ok key := by
  obtain ⟨key, hkey⟩ := keyOf_ok fun o ho => hrow.symm ▸ h o ho
  exact ⟨key, columnsKey_eq_ok.mpr hkey⟩

theorem exists_entryKey {columns : List Nat} (hrow : row.length = schema.columns.length)
    (h : ∀ o ∈ columns, o < schema.columns.length) (pk : Bytes) : ∃ key, BTreeIndex.entryKey columns pk row = .ok key := by
  obtain ⟨key, hkey⟩ := exists_columnsKey hrow h
  exact ⟨key ++ pk, BTreeIndex.entryKey_eq_ok.mpr ⟨key, columnsKey_eq_ok.mp hkey, rfl⟩⟩

theorem mapIndexes_ends {g : BTreeIndex → Except StoreError BTreeIndex}
    (h : ∀ index ∈ t.indexes, Ends E (g index) fun _ => True) : Ends E (t.mapIndexes g) fun _ => True :=
  (Ends.mapM h).bind fun _ _ => trivial

theorem mapUnique_ends {g : UniqueIndex → Except StoreError UniqueIndex}
    (h : ∀ c ∈ t.unique, Ends E (g c) fun _ => True) : Ends E (t.mapUnique g) fun _ => True :=
  (Ends.mapM h).bind fun _ _ => trivial

theorem insertCow_ends {α : Type} {tree : Tree α} {value : α} (h : Ends E (checkKey key) fun _ => True) :
    Ends E (tree.insertCow key value) fun _ => True :=
  h.bind fun _ _ => trivial

theorem BTreeIndex.insert_ends
    (hkey : BTreeIndex.entryKey index.columns pk row = .ok key) (hcheck : Ends E (checkKey key) fun _ => True) :
    Ends E (index.insert row pk) fun _ => True := by
  unfold BTreeIndex.insert
  rw [hkey]
  exact (insertCow_ends hcheck).bind fun _ _ => trivial

theorem BTreeIndex.remove_succeeds
    (hkey : BTreeIndex.entryKey index.columns pk row = .ok key) : ∃ index', index.remove row pk = .ok index' :=
  ⟨_, bind_eq_ok.mpr ⟨key, hkey, rfl⟩⟩

section

variable (hok : t.UniqueOk held)
include hok

theorem TableState.UniqueOk.index_lt (h : index ∈ t.indexes) :
    index.columns ∈ t.schema.indexes ∧ ∀ o ∈ index.columns, o < t.schema.columns.length := by
  have hmem : index.columns ∈ t.schema.indexes := hok.indexColumns ▸ mem_map_of_mem h
  exact ⟨hmem, (t.schema.indexes_lt _ hmem).2⟩

theorem TableState.UniqueOk.unique_lt {constraint : UniqueIndex} (h : constraint ∈ t.unique) :
    constraint.columns ∈ t.schema.unique ∧ ∀ o ∈ constraint.columns, o < t.schema.columns.length := by
  have hmem : constraint.columns ∈ t.schema.unique := hok.uniqueColumns ▸ mem_map_of_mem h
  exact ⟨hmem, (t.schema.unique_lt _ hmem).2⟩

theorem insertIndexes_ends (hlen : row.length = t.schema.columns.length)
    (hrow : StorableUpTo E fits t.schema pk row) : Ends E (t.insertIndexes row pk) fun _ => True := by
  refine mapIndexes_ends fun index hmem => ?_
  obtain ⟨hcolumns, hlt⟩ := hok.index_lt hmem
  obtain ⟨key, hkey⟩ := exists_entryKey hlen hlt pk
  exact BTreeIndex.insert_ends hkey (hrow.index _ hcolumns key hkey)

theorem removeIndexes_ends (hlen : row.length = t.schema.columns.length) (pk : Bytes) :
    Ends E (t.removeIndexes row pk) fun _ => True := by
  refine mapIndexes_ends fun index hmem => ?_
  obtain ⟨key, hkey⟩ := exists_entryKey hlen (hok.index_lt hmem).2 pk
  obtain ⟨index', hindex'⟩ := BTreeIndex.remove_succeeds hkey
  exact ends_of_eq_ok hindex' trivial

theorem replaceIndexes_ends (hold : old.length = t.schema.columns.length)
    (hlen : row.length = t.schema.columns.length) (hrow : StorableUpTo E fits t.schema pk row) :
    Ends E (t.replaceIndexes old row pk) fun _ => True := by
  refine mapIndexes_ends fun index hmem => ?_
  obtain ⟨hcolumns, hlt⟩ := hok.index_lt hmem
  obtain ⟨key, hkey⟩ := exists_entryKey hold hlt pk
  obtain ⟨mid, hmid⟩ := BTreeIndex.remove_succeeds hkey
  obtain ⟨key', hkey'⟩ := exists_entryKey hlen hlt pk
  rw [hmid]
  rw [← BTreeIndex.remove_columns hmid] at hkey' hcolumns
  exact BTreeIndex.insert_ends hkey' (hrow.index _ hcolumns key' hkey')

theorem removeUnique_ends (hlen : row.length = t.schema.columns.length) (pk : Bytes) :
    Ends E (t.removeUnique row pk) fun _ => True := by
  refine mapUnique_ends fun constraint hmem => ?_
  obtain ⟨key, hkey⟩ := exists_columnsKey hlen (hok.unique_lt hmem).2
  unfold UniqueIndex.remove
  rw [hkey]
  trivial

theorem insertUnique_ends (hlen : row.length = t.schema.columns.length)
    (hrow : StorableUpTo E fits t.schema pk row) (hdistinct : DistinctKeys t.schema (update held pk (some row))) :
    Ends E (t.insertUnique row pk) fun _ => True := by
  refine mapUnique_ends fun constraint hmem => ?_
  obtain ⟨hcolumns, hlt⟩ := hok.unique_lt hmem
  obtain ⟨key, hkey⟩ := exists_columnsKey hlen hlt
  have hfree : constraint.tree[key]?.filter (· ≠ pk) = none := by
    rw [Option.filter_eq_none_iff]
    intro owner howner
    obtain ⟨row', hrow', hkey'⟩ := (hok.unique constraint hmem key owner).mp howner
    suffices heq : owner = pk by simp [heq]
    by_contra hne
    have hother : update held pk (some row) owner = some row' := by rw [update_of_ne hne, hrow']
    exact hne (hdistinct _ hcolumns owner pk row' row key hother (by simp) (toOption_eq_some.mp hkey') hkey)
  refine (ends_of_eq_ok (Q := fun k => k = key) hkey rfl).bind fun k hk => ?_
  rw [hk, hfree]
  exact (insertCow_ends (hrow.unique _ hcolumns key hkey)).bind fun _ _ => trivial

end

theorem putRow_ends (t : TableState) (hrow : StorableUpTo E fits schema pk row) :
    Ends E (t.putRow fits pk row) fun _ => True := by
  unfold putRow
  by_cases hfits : fits row = true
  · rw [if_pos hfits]
    exact (insertCow_ends hrow.key).bind fun _ _ => trivial
  · rw [if_neg hfits]
    exact hrow.encodes (Bool.not_eq_true _ ▸ hfits)

theorem DistinctKeys.mono {f g : Rows} (h : DistinctKeys schema g)
    (hfg : ∀ pk row, f pk = some row → g pk = some row) : DistinctKeys schema f :=
  fun columns hcolumns pk pk' row row' key hrow hrow' =>
    h columns hcolumns pk pk' row row' key (hfg pk row hrow) (hfg pk' row' hrow')

theorem overlay_of_heldBut (hops : OverlayOk t ops) (h : t.heldBut (released ops) pk = some row) :
    overlay t.rowAt ops pk = some row := by
  unfold heldBut at h
  split at h
  · simp at h
  rename_i hkept
  rw [overlay_of_not_mem, h]
  intro hmem
  obtain ⟨⟨k, op⟩, hk, rfl⟩ := mem_map.mp hmem
  -- an operation that releases nothing is over no row
  have hrel : op.releases = true := by
    have hover := hops k op hk
    rwa [PendingOp.Overlays, h, Option.isSome_some, eq_comm] at hover
  exact hkept (mem_map.mpr ⟨(k, op), mem_filter.mpr ⟨hk, hrel⟩, rfl⟩)

/-- The rows the operations put are full and can be stored, up to errors in `E`. -/
def PutsOk (E : StoreError → Prop) (fits : Row → Bool) (schema : TableSchema) (ops : PendingOps) : Prop :=
  ∀ pk op row, (pk, op) ∈ ops → op.result = some row →
    row.length = schema.columns.length ∧ StorableUpTo E fits schema pk row

theorem mergeOp_ends (hok : s.1.UniqueOk (s.1.heldBut (released ((pk, op) :: ops))))
    (hnodup : (((pk, op) :: ops).map Prod.fst).Nodup) (hops : OverlayOk s.1 ((pk, op) :: ops))
    (hfull : FullRows s.1.schema s.1.rowAt) (hputs : PutsOk E fits s.1.schema ((pk, op) :: ops))
    (hdistinct : DistinctKeys s.1.schema (overlay s.1.rowAt ((pk, op) :: ops))) :
    Ends E (mergeOp fits s (pk, op)) fun _ => True := by
  have hover := hops pk op (by simp)
  have hput : ∀ row, op.result = some row → DistinctKeys s.1.schema
      (update (s.1.heldBut (released ((pk, op) :: ops))) pk (some row)) := by
    intro row hrow
    refine hdistinct.mono fun k r hk => ?_
    by_cases hkpk : k = pk
    · subst hkpk
      rw [overlay_of_mem hnodup (mem_cons_self ..), hrow]
      simpa using hk
    · rw [update_of_ne hkpk] at hk
      exact overlay_of_heldBut hops hk
  cases op with
  | insert row =>
    obtain ⟨hlen, hrow⟩ := hputs pk (.insert row) row (by simp) rfl
    refine (insertIndexes_ends hok hlen hrow).bind_ok fun t₁ ht₁ => ?_
    have hok₁ := hok.mapIndexes (fun _ _ h => BTreeIndex.insert_columns h) ht₁
    obtain ⟨_, -, rfl⟩ := mapIndexes_eq_ok ht₁
    refine (insertUnique_ends hok₁ hlen hrow (hput row rfl)).bind fun t₂ _ => ?_
    exact (putRow_ends t₂ hrow).bind fun _ _ => trivial
  | delete =>
    obtain ⟨old, hold⟩ := Option.isSome_iff_exists.mp hover
    have htake : s.1.takeRow pk = (some old, { s.1 with rows := s.1.rows.erase pk, rowCount := s.1.rowCount - 1 }) := by
      simp [takeRow, hold]
    simp only [mergeOp, htake]
    exact (removeIndexes_ends (hok.withRows (s.1.rows.erase pk) (s.1.rowCount - 1)) (hfull pk old hold) pk).bind
      fun _ _ => trivial
  | update row =>
    obtain ⟨hlen, hrow⟩ := hputs pk (.update row) row (by simp) rfl
    obtain ⟨old, hold⟩ := Option.isSome_iff_exists.mp hover
    refine (putRow_ends s.1 hrow).bind_ok ?_
    rintro ⟨prev, t₁⟩ ht₁
    obtain ⟨hprev, -, rows, rowCount, rfl, -⟩ := putRow_eq_ok ht₁
    obtain rfl : prev = some old := hprev.trans hold
    have hok₁ := hok.withRows rows rowCount
    refine (replaceIndexes_ends hok₁ (hfull pk old hold) hlen hrow).bind_ok fun t₂ ht₂ => ?_
    have hok₂ := hok₁.replaceIndexes ht₂
    obtain ⟨_, -, rfl⟩ := mapIndexes_eq_ok ht₂
    exact (insertUnique_ends hok₂ hlen hrow (hput row rfl)).bind fun _ _ => trivial

theorem mergeOps_ends : ∀ {ops : PendingOps} {s : TableState × TableDiff},
    s.1.UniqueOk (s.1.heldBut (released ops)) → (ops.map Prod.fst).Nodup → OverlayOk s.1 ops →
    FullRows s.1.schema s.1.rowAt → PutsOk E fits s.1.schema ops → DistinctKeys s.1.schema (overlay s.1.rowAt ops) →
    Ends E (ops.foldlM (mergeOp fits) s) fun _ => True
  | [], s, _, _, _, _, _, _ => trivial
  | (pk, op) :: ops, s, hok, hnodup, hops, hfull, hputs, hdistinct => by
    rw [List.foldlM_cons]
    refine (mergeOp_ends hok hnodup hops hfull hputs hdistinct).bind_ok fun m hm => ?_
    obtain ⟨hrowAt, hschema, -⟩ := mergeOp_eq_ok hm
    rw [List.map_cons, List.nodup_cons] at hnodup
    have hfull' : FullRows m.1.schema m.1.rowAt := by
      intro k r hr
      rw [hschema]
      rw [hrowAt] at hr
      by_cases hk : k = pk
      · subst hk
        exact (hputs k op r (by simp) (by simpa using hr)).1
      · exact hfull k r (by simpa [hk] using hr)
    have hputs' : PutsOk E fits m.1.schema ops := hschema ▸ fun k o r hmem => hputs k o r (mem_cons_of_mem _ hmem)
    have hdistinct' : DistinctKeys m.1.schema (overlay m.1.rowAt ops) := by
      rw [hschema, hrowAt]
      exact hdistinct
    exact mergeOps_ends (mergeOp_uniqueOk hok hnodup.1 (hops pk op (by simp)) hm) hnodup.2
      (hops.tail hnodup.1 hrowAt) hfull' hputs' hdistinct'

theorem releaseOps_ends : ∀ {ops : PendingOps} {t : TableState} {keys : List Bytes},
    t.UniqueOk (t.heldBut keys) → (ops.map Prod.fst).Nodup → (∀ pk ∈ ops.map Prod.fst, pk ∉ keys) → OverlayOk t ops →
    FullRows t.schema t.rowAt → Ends E (ops.foldlM releaseOp t) fun _ => True
  | [], t, _, _, _, _, _, _ => trivial
  | (pk, op) :: ops, t, keys, hok, hnodup, hkeys, hops, hfull => by
    have hstep : Ends E (releaseOp t (pk, op)) fun _ => True := by
      have hover := hops pk op (by simp)
      cases op with
      | insert row => trivial
      | delete | update row =>
        obtain ⟨old, hold⟩ := Option.isSome_iff_exists.mp hover
        simp only [releaseOp, hold]
        exact removeUnique_ends hok (hfull pk old hold) pk
    refine hstep.bind_ok fun m hm => ?_
    have hok' := releaseOp_uniqueOk hok (hkeys pk (by simp)) hm
    obtain ⟨unique, rfl⟩ := releaseOp_eq_ok hm
    rw [map_cons, nodup_cons] at hnodup
    have hkeys' := not_mem_released hnodup.1 hkeys
    exact releaseOps_ends hok' hnodup.2 hkeys' (fun k o hmem => hops k o (mem_cons_of_mem _ hmem)) hfull

/-- **The merge of a table** into rows with distinct values of every constraint fails at most where a
row cannot be stored. -/
theorem mergeTable_ends (tableId : Nat) (hok : t.UniqueOk t.rowAt) (hnodup : (ops.map Prod.fst).Nodup)
    (hops : OverlayOk t ops) (hfull : FullRows t.schema t.rowAt) (hputs : PutsOk E fits t.schema ops)
    (hdistinct : DistinctKeys t.schema (overlay t.rowAt ops)) :
    Ends E (mergeTable fits tableId t ops) fun _ => True := by
  have hall : t.heldBut [] = t.rowAt := by
    funext k
    simp [heldBut]
  refine (releaseOps_ends (hall ▸ hok) hnodup (by simp) hops hfull).bind_ok fun t' ht' => ?_
  have hok' := releaseOps_uniqueOk hok hnodup ht'
  obtain ⟨unique, rfl⟩ := releaseOps_eq_ok ht'
  exact mergeOps_ends (s := ({ t with unique }, ⟨tableId, [], []⟩)) hok' hnodup hops hfull hputs hdistinct

end Succeeds

/-! ### The commit succeeds -/

section Commit

variable {cat : Catalog} {fits : Row → Bool} {tx : Tx}

theorem mergePendings_ends {l : List (Nat × Tree PendingOp)}
    {s : Tables × List TableDiff} (hnodup : (l.map Prod.fst).Nodup)
    (h : ∀ p ∈ touched l, ∃ t, s.1[p.1]? = some t ∧ Ends E (mergeTable fits p.1 t p.2.toList) fun _ => True) :
    Ends E (l.foldlM (mergePending fits) s) fun _ => True := by
  induction l generalizing s with
  | nil => trivial
  | cons p l ih =>
    rw [map_cons, nodup_cons] at hnodup
    rw [foldlM_cons]
    by_cases hempty : p.2.isEmpty = true
    · have htouched : touched (p :: l) = touched l := by simp [touched, hempty]
      have hskip : mergePending fits s p = .ok s := by simp [mergePending, hempty]
      rw [hskip]
      exact ih hnodup.2 (htouched ▸ h)
    · have htouched : touched (p :: l) = p :: touched l := by simp [touched, hempty]
      rw [htouched] at h
      obtain ⟨t, ht, hmerge⟩ := h p (by simp)
      have hstep : mergePending fits s p = mergeTable fits p.1 t p.2.toList >>= fun r =>
          pure (s.1.insert p.1 r.1, s.2 ++ [r.2]) := by
        simp only [mergePending, hempty, ht]
        rfl
      rw [hstep, bind_assoc]
      refine hmerge.bind fun r _ => @ih (s.1.insert p.1 r.1, s.2 ++ [r.2]) hnodup.2 fun q hq => ?_
      have hne : p.1 ≠ q.1 := fun heq => hnodup.1 (heq ▸ mem_map_of_mem (mem_of_mem_filter hq))
      rw [lookup_insert, if_neg hne]
      exact h q (mem_cons_of_mem _ hq)

theorem publishHighWaters_succeeds {c : ExtTreeMap Nat AutoIncCounter} : ∀ {l : List Nat}
    {s : Tables × List (Nat × Nat)}, (∀ id ∈ l, (s.1[id]?).isSome) →
    ∃ s', l.foldlM (publishHighWater c) s = .ok s'
  | [], s, _ => ⟨s, rfl⟩
  | id :: l, s, h => by
    obtain ⟨t, ht⟩ := Option.isSome_iff_exists.mp (h id (by simp))
    obtain ⟨s', hs'⟩ := publishHighWaters_succeeds (c := c) (l := l)
      (s := (s.1.insert id { t with autoIncHighWater := highWaterOf c id }, s.2 ++ [(id, highWaterOf c id)]))
      fun id' hid' => by
        rw [lookup_insert]
        split
        · rfl
        · exact h id' (List.mem_cons_of_mem _ hid')
    exact ⟨s', bind_eq_ok.mpr ⟨_, by simp [publishHighWater, ht], hs'⟩⟩

/-- The unique maps of every table hold the values of its rows. -/
def UniqueMaps (tables : Tables) : Prop :=
  ∀ (table : Nat) t, tables[table]? = some t → t.UniqueOk t.rowAt

theorem Tx.Ok.overlayOk (hok : tx.Ok cat) {table : Nat} {t : TableState} (ht : tx.base[table]? = some t) :
    OverlayOk t (tx.ops table).toList := by
  intro pk op hmem
  have hover := hok.overlays table pk op (ExtTreeMap.mem_toList_iff_getElem?_eq_some.mp hmem)
  rwa [rowIn, ht] at hover

theorem publish_of_merged {tables : Tables} {diffs : List TableDiff} (hok : tx.Ok cat)
    (h : tx.pending.toList.foldlM (mergePending cat.fits) (tx.base, []) = .ok (tables, diffs)) :
    ∃ r, tx.writer.highWaterDirty.toList.foldlM (publishHighWater tx.writer.counters) (tables, []) = .ok r := by
  refine publishHighWaters_succeeds fun table hmem => ?_
  obtain ⟨diffs', -, hmerged, hrest⟩ := mergePendings_eq_ok (nodup_keys_toList _) h
  by_cases htouched : table ∈ (touched tx.pending.toList).map Prod.fst
  · obtain ⟨p, hp, rfl⟩ := mem_map.mp htouched
    obtain ⟨d, -, -, t', -, -, ht'⟩ := forall₂_exists_right hmerged hp
    exact Option.isSome_iff_exists.mpr ⟨t', ht'⟩
  · rw [hrest table htouched, ← Option.isSome_map, hok.base.covers]
    exact hok.dirty table (ExtTreeSet.mem_toList.mp hmem)

/-- **A commit** of rows that have distinct values of every constraint fails at most where a pending
row cannot be stored. -/
theorem commit_ends (hok : tx.Ok cat) (hunique : UniqueMaps tx.base)
    (hdistinct : ∀ (table : Nat) schema, cat.tables[table]? = some schema → DistinctKeys schema (tx.view table))
    (hputs : ∀ (table : Nat) schema pk op row, cat.tables[table]? = some schema → tx.op table pk = some op →
      op.result = some row → StorableUpTo E cat.fits schema pk row) : Ends E (tx.commit cat) fun _ => True := by
  have hmerge : ∀ p ∈ touched tx.pending.toList, ∃ t, tx.base[p.1]? = some t ∧
      Ends E (mergeTable cat.fits p.1 t p.2.toList) fun _ => True := by
    rintro ⟨table, ops⟩ hmem
    obtain ⟨pk, op, hop⟩ := exists_op_of_touched hmem
    obtain rfl : tx.ops table = ops := by simp [Tx.ops, (mem_touched.mp hmem).1]
    obtain ⟨schema, hschema⟩ := hok.known table pk op hop
    obtain ⟨t, ht, rfl⟩ := hok.base.exists_table hschema
    have hrowAt := rowIn_eq ht
    refine ⟨t, ht, mergeTable_ends table (hunique table t ht) (nodup_keys_toList _) (hok.overlayOk ht) ?_ ?_ ?_⟩
    · intro k r hr
      exact (hok.base.stored table t.schema k r hschema ((hrowAt k).trans hr)).length
    · intro k o r hmem' hr
      have ho := ExtTreeMap.mem_toList_iff_getElem?_eq_some.mp hmem'
      exact ⟨(hok.stored table t.schema k o r hschema ho hr).length, hputs table t.schema k o r hschema ho hr⟩
    · refine (hdistinct table t.schema hschema).mono fun k r hr => ?_
      rwa [overlay_ops, ← hrowAt] at hr
  refine (mergePendings_ends (s := (tx.base, [])) (nodup_keys_toList _) hmerge).bind_ok ?_
  rintro ⟨tables, diffs⟩ htables
  obtain ⟨r, hauto⟩ := publish_of_merged hok htables
  exact (ends_of_eq_ok (Q := fun _ => True) hauto trivial).bind fun _ _ => trivial

/-! ### Stores in order -/

/-- What every store keeps, whatever is attached to it. -/
structure MemStore.Ok (cat : Catalog) (s : MemStore) : Prop where
  tables : TablesOk cat s.committed
  unique : UniqueMaps s.committed
  dirty : ∀ table ∈ s.writer.highWaterDirty, (cat.tables[table]?).isSome

theorem memStore_ok_new (cat : Catalog) : (MemStore.new cat).Ok cat := by
  refine ⟨(tablesConsistent_new cat).tablesOk, fun table t ht => ?_, by simp [MemStore.new]⟩
  exact ((tablesConsistent_new cat).consistent table t ht).toUniqueOk

theorem MemStore.Ok.rollback (hok : tx.Ok cat) (hunique : UniqueMaps tx.base) : tx.rollback.Ok cat :=
  ⟨hok.base, hunique, hok.dirty⟩

/-- **A commit leaves the store in order.** -/
theorem MemStore.Ok.commit {diff : TxDiff} {s : MemStore} (hok : tx.Ok cat) (hunique : UniqueMaps tx.base)
    (h : tx.commit cat = .ok (diff, s)) : s.Ok cat := by
  refine ⟨TablesOk.commit hok h, fun table u hu => ?_, commit_dirty h⟩
  rcases commit_table h table with ⟨d, -, t, t', highWater, ht, hmerge, ht'⟩ | ⟨-, hsame⟩
  · cases ht'.symm.trans hu
    -- the merge keeps the unique maps, whatever the columns hold
    obtain ⟨t₁, ht₁, hmerge⟩ := bind_eq_ok.mp hmerge
    have hreleased := releaseOps_uniqueOk (hunique table t ht) (nodup_keys_toList _) ht₁
    have hover := hok.overlayOk ht
    obtain ⟨unique, rfl⟩ := releaseOps_eq_ok ht₁
    have hkept := mergeOps_uniqueOk hreleased (nodup_keys_toList _) hover hmerge
    exact ⟨hkept.indexColumns, hkept.uniqueColumns, hkept.unique⟩
  · rcases hsame with ⟨-, h₂⟩ | ⟨t, highWater, h₁, h₂⟩
    · simp [h₂] at hu
    · cases h₂.symm.trans hu
      have hkept := hunique table t h₁
      exact ⟨hkept.indexColumns, hkept.uniqueColumns, hkept.unique⟩

/-- Every store of a replicated system without transforms is in order. -/
theorem Cluster.Ok.store {s : Cluster} (h : s.Ok cat) (i : Nat) : (s.node i).store.Ok cat :=
  ⟨(h.node i).tables.tablesOk, fun table t ht => ((h.node i).tables.consistent table t ht).toUniqueOk, (h.node i).dirty⟩

end Commit

end Fluxum
