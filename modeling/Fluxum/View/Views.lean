/-
# Materialized views equal their definition

The engine, the base tables and a subscriber of each view, commit by commit.
Each commit brings an exact diff: deletes with their old rows, inserts of the
new ones.

* `views_equal_definition`: after every commit the state of a view is the one
  rebuilt from the base table, its rendering is the definition of the view, and
  the update turns the subscriber's rows into the new ones.
* `mixed_scales_wrong_minimum`: `MIN`, `MAX` and a window go by the key of the
  value, and the key of a decimal begins with its unscaled number.
-/
import Fluxum.Lib.Runs
import Fluxum.View.Delta

namespace Fluxum

open Std Grouped Outcome List ExtTreeMap Option Except

/-! ### Commits -/

/-- The rows of a table after the diff. -/
def TableDiff.applyRows (d : TableDiff) (schema : TableSchema) (rows : Tree Row) : Tree Row :=
  d.inserts.foldl (fun t row => t.insert (pkOf schema row) row) (d.deletes.foldl (fun t p => t.erase p.1) rows)

/-- The diff of one table is exact: it deletes rows that are there, and inserts stored rows at free keys
or in the place of rows that it deletes. -/
structure TableDiff.Exact (d : TableDiff) (cat : Catalog) (schema : TableSchema) (rows : Tree Row) : Prop where
  deletes : ∀ p ∈ d.deletes, rows[p.1]? = some p.2
  nodup_deletes : (d.deletes.map Prod.fst).Nodup
  inserts : ∀ row ∈ d.inserts, StoredRow cat d.tableId schema (pkOf schema row) row
  nodup_inserts : (d.inserts.map (pkOf schema)).Nodup
  replaced : ∀ row ∈ d.inserts, rows[pkOf schema row]? = none ∨ pkOf schema row ∈ d.deletes.map Prod.fst

/-- The diff of a commit is exact. -/
structure TxDiff.Exact (diff : TxDiff) (cat : Catalog) (base : Snapshot) : Prop where
  nodup : (diff.tables.map TableDiff.tableId).Nodup
  table : ∀ d ∈ diff.tables, ∃ schema, cat.tables[d.tableId]? = some schema ∧ d.Exact cat schema (base[d.tableId]?.getD ∅)

def Snapshot.commit (cat : Catalog) (base : Snapshot) (diff : TxDiff) : Snapshot :=
  diff.tables.foldl (fun base d =>
    match cat.tables[d.tableId]? with
    | some schema => base.insert d.tableId (d.applyRows schema (base[d.tableId]?.getD ∅))
    | none => base) base

/-- Every table of the catalog is there, with stored rows. -/
def Snapshot.Stored (cat : Catalog) (base : Snapshot) : Prop :=
  ∀ (table : Nat) schema, cat.tables[table]? = some schema → ∀ pk row, (base[table]?.getD ∅)[pk]? = some row →
    StoredRow cat table schema pk row

variable {cat : Catalog} {view : ResolvedView} {schema : TableSchema}

theorem Snapshot.commit_of_not_mem {table : Nat} : ∀ {ds : List TableDiff} {base : Snapshot},
    table ∉ ds.map TableDiff.tableId → (ds.foldl (fun (base : Snapshot) d => match cat.tables[d.tableId]? with
      | some schema => base.insert d.tableId (d.applyRows schema (base[d.tableId]?.getD ∅))
      | none => base) base)[table]? = base[table]?
  | [], _, _ => rfl
  | d :: ds, base, h => by
    rw [List.map_cons, List.mem_cons, not_or] at h
    rw [List.foldl_cons, commit_of_not_mem h.2]
    split
    · rw [OrdMap.lookup_insert, if_neg (Ne.symm h.1)]
    · rfl

theorem Snapshot.commit_getD {table : Nat} (hs : cat.tables[table]? = some schema) :
    ∀ {ds : List TableDiff} {base : Snapshot}, (ds.map TableDiff.tableId).Nodup → (ds.foldl (fun (base : Snapshot) d =>
      match cat.tables[d.tableId]? with
      | some schema => base.insert d.tableId (d.applyRows schema (base[d.tableId]?.getD ∅))
      | none => base) base)[table]?.getD ∅ =
        ((ds.find? (·.tableId = table)).elim (base[table]?.getD ∅) fun d => d.applyRows schema (base[table]?.getD ∅))
  | [], _, _ => rfl
  | d :: ds, base, h => by
    rw [List.map_cons, List.nodup_cons] at h
    rw [List.foldl_cons]
    by_cases hd : d.tableId = table
    · subst hd
      rw [commit_of_not_mem h.1, List.find?_cons_of_pos (by simp), hs]
      simp
    · rw [commit_getD hs h.2, List.find?_cons_of_neg (by simpa using hd)]
      split
      · simp [OrdMap.lookup_insert, hd]
      · rfl

namespace TableDiff

variable {d : TableDiff} {cat : Catalog} {schema : TableSchema} {rows : Tree Row}

theorem foldl_erase : ∀ {ps : List (Bytes × Row)} {rows : Tree Row}, (∀ p ∈ ps, rows[p.1]? = some p.2) →
    (ps.map Prod.fst).Nodup → rows.toList.Perm (ps ++ (ps.foldl (fun (t : Tree Row) p => t.erase p.1) rows).toList) ∧
      ∀ k, (ps.foldl (fun (t : Tree Row) p => t.erase p.1) rows)[k]? = if k ∈ ps.map Prod.fst then none else rows[k]?
  | [], rows, _, _ => ⟨.refl _, fun k => by simp⟩
  | p :: ps, rows, h, hnodup => by
    rw [List.map_cons, List.nodup_cons] at hnodup
    have herase : ∀ q ∈ ps, (rows.erase p.1)[q.1]? = some q.2 := by
      intro q hq
      have hne : p.1 ≠ q.1 := fun heq => hnodup.1 (heq ▸ List.mem_map_of_mem hq)
      rw [OrdMap.lookup_erase, if_neg hne, h q (List.mem_cons_of_mem p hq)]
    obtain ⟨hperm, hget⟩ := foldl_erase herase hnodup.2
    refine ⟨(OrdMap.toList_perm_erase (h p (by simp))).trans (hperm.cons p), fun k => ?_⟩
    rw [List.foldl_cons, hget, OrdMap.lookup_erase, List.map_cons]
    by_cases hk : k ∈ ps.map Prod.fst
    · rw [if_pos hk, if_pos (List.mem_cons_of_mem _ hk)]
    · by_cases hp : p.1 = k
      · rw [if_neg hk, if_pos hp, if_pos (by simp [hp])]
      · rw [if_neg hk, if_neg hp, if_neg (by simp [Ne.symm hp, hk])]

theorem foldl_insert : ∀ {rs : List Row} {rows : Tree Row}, (∀ r ∈ rs, rows[pkOf schema r]? = none) →
    (rs.map (pkOf schema)).Nodup →
      (rs.foldl (fun (t : Tree Row) r => t.insert (pkOf schema r) r) rows).toList.Perm
        (rs.map (fun r => (pkOf schema r, r)) ++ rows.toList)
  | [], rows, _, _ => .refl _
  | r :: rs, rows, h, hnodup => by
    rw [List.map_cons, List.nodup_cons] at hnodup
    have hfree : ∀ r' ∈ rs, (rows.insert (pkOf schema r) r)[pkOf schema r']? = none := by
      intro r' hr'
      have hne : pkOf schema r ≠ pkOf schema r' := fun heq => hnodup.1 (heq ▸ mem_map_of_mem hr')
      rw [OrdMap.lookup_insert, if_neg hne, h r' (List.mem_cons_of_mem r hr')]
    refine (foldl_insert hfree hnodup.2).trans ?_
    refine ((OrdMap.toList_perm_insert (h r (by simp)) r).append_left _).trans ?_
    exact perm_middle

/-- **An exact diff replaces its deletes by its inserts.** -/
theorem Exact.split (h : d.Exact cat schema rows) : ∃ kept : List (Bytes × Row),
    rows.toList.Perm (d.deletes ++ kept) ∧
    (d.applyRows schema rows).toList.Perm (d.inserts.map (fun r => (pkOf schema r, r)) ++ kept) := by
  obtain ⟨hperm, hget⟩ := foldl_erase h.deletes h.nodup_deletes
  refine ⟨_, hperm, foldl_insert (fun r hr => ?_) h.nodup_inserts⟩
  rw [hget]
  rcases h.replaced r hr with hnone | hmem
  · simp [hnone]
  · rw [if_pos hmem]

theorem Exact.stored (h : d.Exact cat schema rows)
    (hrows : ∀ pk row, rows[pk]? = some row → StoredRow cat d.tableId schema pk row) {pk : Bytes} {row : Row}
    (hrow : (d.applyRows schema rows)[pk]? = some row) : StoredRow cat d.tableId schema pk row := by
  obtain ⟨kept, hbefore, hafter⟩ := h.split
  have hmem := hafter.mem_iff.mp (mem_toList_iff_getElem?_eq_some.mpr hrow)
  rcases mem_append.mp hmem with hmem | hmem
  · obtain ⟨r, hr, heq⟩ := mem_map.mp hmem
    obtain ⟨rfl, rfl⟩ := Prod.mk.inj heq
    exact h.inserts r hr
  · exact hrows pk row (mem_toList_iff_getElem?_eq_some.mp (hbefore.mem_iff.mpr (mem_append_right _ hmem)))

end TableDiff

theorem Snapshot.Stored.commit {base : Snapshot} {diff : TxDiff} (h : base.Stored cat) (hexact : diff.Exact cat base) :
    (base.commit cat diff).Stored cat := by
  intro table schema hs pk row hrow
  rw [Snapshot.commit, commit_getD hs hexact.nodup] at hrow
  cases hfind : diff.tables.find? (·.tableId = table) with
  | none =>
    rw [hfind] at hrow
    exact h table schema hs pk row hrow
  | some d =>
    rw [hfind] at hrow
    have hid : d.tableId = table := by simpa using find?_some hfind
    subst hid
    obtain ⟨schema', hs', hd⟩ := hexact.table d (mem_of_find?_eq_some hfind)
    cases hs.symm.trans hs'
    exact hd.stored (h d.tableId schema hs) hrow

/-- The rows of a table before and after a commit: what it does not delete stays beside what it inserts. -/
theorem TxDiff.Exact.scan_commit {base : Snapshot} {diff : TxDiff} (h : diff.Exact cat base) (table : Nat) :
    (diff.tables.find? (·.tableId = table) = none ∧ (base.commit cat diff).scan table = base.scan table) ∨
      ∃ d kept, diff.tables.find? (·.tableId = table) = some d ∧ (base.scan table).Perm (d.deletes.map (·.2) ++ kept) ∧
        ((base.commit cat diff).scan table).Perm (d.inserts ++ kept) := by
  cases hfind : diff.tables.find? (·.tableId = table) with
  | none =>
    refine .inl ⟨rfl, ?_⟩
    rw [Snapshot.scan, Snapshot.commit, Snapshot.commit_of_not_mem, Snapshot.scan]
    intro hmem
    obtain ⟨d, hd, rfl⟩ := mem_map.mp hmem
    simpa using find?_eq_none.mp hfind d hd
  | some d =>
    have hid : d.tableId = table := by simpa using find?_some hfind
    obtain ⟨schema, hs, hd⟩ := h.table d (mem_of_find?_eq_some hfind)
    rw [hid] at hs hd
    obtain ⟨kept, hbefore, hafter⟩ := hd.split
    have hscan : (base.commit cat diff)[table]?.getD ∅ = _ := Snapshot.commit_getD hs h.nodup
    rw [hfind] at hscan
    refine .inr ⟨d, kept.map (·.2), rfl, ?_, ?_⟩
    · rw [← map_append]
      exact hbefore.map _
    have hrows := hafter.map (·.2)
    rw [List.map_append, List.map_map, show (fun p : Bytes × Row => p.2) ∘ (fun r => (pkOf schema r, r)) = id from rfl,
      List.map_id] at hrows
    rw [Snapshot.scan, hscan]
    exact hrows

/-! ### Views over a catalog -/

namespace ResolvedView

/-- The view as `resolve` binds it. -/
structure Bound (cat : Catalog) (view : ResolvedView) : Prop where
  table : cat.tables[view.table]? = some view.tableSchema
  value : ∀ agg value group, view.kind = .aggregate agg value group → agg = .count ∨ value.isSome
  limit : ∀ o desc limit, view.kind = .topN o desc limit → limit < 2 ^ 32

/-- A view of the kinds `COUNT`, `SUM`, `MIN`, `MAX` and top-N over keyable columns without floats, which
are stored in the clear. -/
structure Keyable (cat : Catalog) (view : ResolvedView) : Prop where
  column : ∀ o ∈ view.columns, view.KeyableColumn o ∧ o ∉ cat.sealedColumns view.table
  noAvg : ∀ c value group, view.kind ≠ .aggregate (.avg c) value group

/-- The values that the view shows have a FluxBIN encoding. -/
def Encodable (view : ResolvedView) (rows : List Row) : Prop :=
  ∀ r ∈ rows, (∀ o ∈ view.columns, ∃ b, (valueAt o r).encode = .ok b) ∧
    ∀ o desc limit, view.kind = .topN o desc limit → (pkOf view.tableSchema r).length < 2 ^ 32

variable {cat : Catalog} {view : ResolvedView} {rows out : List Row} {base : Snapshot}

theorem Keyable.supported (h : view.Keyable cat) (hb : view.Bound cat) : view.Supported where
  keyable o ho := (h.column o ho).1
  value agg value group hkind := ⟨hb.value agg value group hkind, fun c hc => h.noAvg c value group (hc ▸ hkind)⟩
  limit := hb.limit

theorem Keyable.baseOk (h : view.Keyable cat) (hb : view.Bound cat) (hstored : base.Stored cat) :
    view.BaseOk (base.scan view.table) := by
  have hrow : ∀ p ∈ (base[view.table]?.getD ∅).toList, StoredRow cat view.table view.tableSchema p.1 p.2 := fun p hp =>
    hstored _ _ hb.table p.1 p.2 (mem_toList_iff_getElem?_eq_some.mp hp)
  have hpk : ∀ p ∈ (base[view.table]?.getD ∅).toList, pkOf view.tableSchema p.2 = p.1 := fun p hp => by
    rw [pkOf, (hrow p hp).key]
    rfl
  refine ⟨fun r hr => ?_, ?_⟩
  · obtain ⟨p, hp, rfl⟩ := mem_map.mp hr
    have hs := hrow p hp
    refine ⟨fun o ho => ?_, by rw [hpk p hp]; exact hs.key⟩
    obtain ⟨⟨c, hc, -, hf⟩, hsealed⟩ := h.column o ho
    have hlt : o < p.2.length := hs.length ▸ (List.getElem?_eq_some_iff.mp hc).1
    exact ⟨c, p.2[o], hc, getElem?_eq_getElem hlt, hs.typed o _ c (getElem?_eq_getElem hlt) hc hsealed, hf⟩
  · have hkeys : (base.scan view.table).map (pkOf view.tableSchema) = (base[view.table]?.getD ∅).toList.map Prod.fst := by
      rw [Snapshot.scan, List.map_map]
      exact map_congr_left hpk
    rw [hkeys]
    exact OrdMap.nodup_keys_toList _

/-- The type of the first column of the view. -/
def firstType (view : ResolvedView) : ScalarType :=
  match view.kind with
  | .aggregate _ _ (some o) =>
    match (view.tableSchema.columns[o]?).map ColumnSchema.ty with
    | some (.scalar t) => t
    | _ => .str
  | .aggregate _ _ none => .str
  | .topN _ _ _ => .u32

theorem Supported.scalar_valueAt (hsup : view.Supported) {o : Nat} (ho : o ∈ view.columns) {r : Row} (hr : view.RowOk r) :
    ∃ s c, valueAt o r = .scalar s ∧ view.tableSchema.columns[o]? = some c ∧ c.ty = .scalar s.type ∧ s.type ≠ .f32 ∧
      s.type ≠ .f64 := by
  obtain ⟨c, v, hc, hv, hty, hf⟩ := hr.typed o ho
  obtain ⟨c', hc', hkey, -⟩ := hsup.keyable o ho
  cases hc.symm.trans hc'
  rw [valueAt, hv, getD_some]
  cases hct : c.ty with
  | scalar t =>
    rw [hct] at hty hf
    cases v <;> simp only [RowValue.matchesType, decide_eq_true_eq, Bool.false_eq_true] at hty
    subst hty
    simp only [FluxType.isFloat, FluxType.scalarOf, some.injEq, Bool.or_eq_false_iff, decide_eq_false_iff_not] at hf
    exact ⟨_, c, rfl, hc, hct, hf.1, hf.2⟩
  | _ => simp [hct, FluxType.isKeyable] at hkey

theorem exists_lenPrefixed {bytes : Bytes} (h : bytes.length < 2 ^ 32) : ∃ b, lenPrefixed bytes = .ok b := ⟨_, if_pos h⟩

theorem exists_encodeAll : ∀ {vs : List RowValue}, (∀ v ∈ vs, ∃ b, v.encode = .ok b) → ∃ b, RowValue.encodeAll vs = .ok b
  | [], _ => ⟨[], rfl⟩
  | v :: vs, h => by
    obtain ⟨a, ha⟩ := h v (by simp)
    obtain ⟨b, hb⟩ := exists_encodeAll fun v' hv' => h v' (mem_cons_of_mem v hv')
    exact ⟨a ++ b, by rw [RowValue.encodeAll, ha, hb]; rfl⟩

theorem plain_i64 (n : BitVec 64) : (RowValue.scalar (.i64 n)).Plain :=
  ⟨_, rfl, by simp [Scalar.type], by simp [Scalar.type]⟩

theorem Supported.group_facts (hsup : view.Supported) {agg : MvAggregate} {value group : Option Nat}
    (hkind : view.kind = .aggregate agg value group) (henc : view.Encodable rows) {r : Row} (hr : r ∈ rows)
    (hok : view.RowOk r) : ∃ s, groupOf group r = .scalar s ∧ s.type = view.firstType ∧ (RowValue.scalar s).Plain ∧
      ∃ b, s.encode = .ok b := by
  cases group with
  | none =>
    refine ⟨.str "*", rfl, by simp only [firstType, hkind]; rfl, ⟨_, rfl, by simp [Scalar.type], by simp [Scalar.type]⟩, ?_⟩
    exact exists_lenPrefixed (by decide)
  | some o =>
    have ho : o ∈ view.columns := by simp [columns, hkind]
    obtain ⟨s, c, hs, hc, hty, h32, h64⟩ := hsup.scalar_valueAt ho hok
    obtain ⟨b, hb⟩ := (henc r hr).1 o ho
    refine ⟨s, hs, ?_, ⟨s, rfl, h32, h64⟩, b, by rw [hs] at hb; exact hb⟩
    simp only [firstType, hkind, hc, map_some, hty]

theorem Supported.aggregate_facts (hsup : view.Supported) {agg : MvAggregate} {value group : Option Nat}
    (hkind : view.kind = .aggregate agg value group) (henc : view.Encodable rows) (hok : view.BaseOk rows) {l : List Row}
    (hl : ∀ r ∈ l, r ∈ rows) {v : RowValue} (h : IsAggregate agg value l v) : v.Plain ∧ ∃ b, v.encode = .ok b := by
  have hcol : ∀ o, value = some o → v ∈ l.map (valueAt o) → v.Plain ∧ ∃ b, v.encode = .ok b := by
    rintro o rfl hv
    obtain ⟨r, hr, rfl⟩ := mem_map.mp hv
    have ho : o ∈ view.columns := by simp [columns, hkind]
    obtain ⟨s, c, hs, -, -, h32, h64⟩ := hsup.scalar_valueAt ho (hok.row r (hl r hr))
    exact ⟨⟨s, hs, h32, h64⟩, (henc r (hl r hr)).1 o ho⟩
  cases agg with
  | count =>
    obtain ⟨n, rfl, -⟩ := h
    exact ⟨plain_i64 n, _, rfl⟩
  | avg c => exact absurd h (by cases value <;> exact id)
  | sum c =>
    cases value with
    | none => exact absurd h id
    | some o =>
      obtain ⟨n, rfl, -⟩ := h
      exact ⟨plain_i64 n, _, rfl⟩
  | min c | max c =>
    cases value with
    | none => exact absurd h id
    | some o => exact hcol o rfl h.1

theorem Supported.viewRows (hsup : view.Supported) (hok : view.BaseOk rows) (henc : view.Encodable rows)
    (h : view.IsView rows out) : ViewRows view.firstType out := by
  cases hkind : view.kind with
  | aggregate agg value group =>
    simp only [IsView, hkind] at h
    have hparts : ∀ row ∈ out, ∃ s v a b, row = [.scalar s, v] ∧ s.type = view.firstType ∧ (RowValue.scalar s).Plain ∧
        s.encode = .ok a ∧ v.Plain ∧ v.encode = .ok b := by
      intro row hrow
      obtain ⟨g, v, rfl, hagg⟩ := h.aggregates row hrow
      have hg : some g ∈ (rows.map (groupOf group)).dedup.map some := h.groups.mem_iff.mp (mem_map.mpr ⟨_, hrow, rfl⟩)
      obtain ⟨g', hg', heq⟩ := mem_map.mp hg
      obtain ⟨r, hr, rfl⟩ := mem_map.mp (mem_dedup.mp hg')
      cases heq
      obtain ⟨s, hs, hty, hplain, a, ha⟩ := hsup.group_facts hkind henc hr (hok.row r hr)
      obtain ⟨hvplain, b, hb⟩ := hsup.aggregate_facts hkind henc hok (fun r' hr' => (mem_filter.mp hr').1) hagg
      exact ⟨s, v, a, b, by rw [hs], hty, hplain, ha, hvplain, hb⟩
    refine ⟨fun row hrow => ?_, fun row hrow => ?_, fun row hrow => ?_, ?_⟩
    · obtain ⟨s, v, a, b, rfl, hty, -⟩ := hparts row hrow
      exact ⟨s, [v], rfl, hty⟩
    · obtain ⟨s, v, a, b, rfl, -, hplain, -, hvplain, -⟩ := hparts row hrow
      simpa using ⟨hplain, hvplain⟩
    · obtain ⟨s, v, a, b, rfl, -, -, ha, -, hb⟩ := hparts row hrow
      have ha : ∃ a, RowValue.encode (.scalar s) = .ok a := ⟨a, ha⟩
      exact exists_encodeAll (by simpa using ⟨ha, b, hb⟩)
    · refine h.groups.nodup_iff.mpr ((nodup_dedup _).map fun _ _ => some.inj)
  | topN o desc limit =>
    simp only [IsView, hkind] at h
    obtain ⟨sorted, hperm, -, rfl⟩ := h
    have ho : o ∈ view.columns := by simp [columns, hkind]
    have hlimit := hsup.limit o desc limit hkind
    have hparts : ∀ row ∈ (sorted.take limit).mapIdx fun i r =>
        [RowValue.scalar (.u32 (BitVec.ofNat 32 (i + 1))), valueAt o r, .scalar (.bytes (pkOf view.tableSchema r))],
        ∃ i, ∃ r ∈ rows, row = [.scalar (.u32 (BitVec.ofNat 32 (i + 1))), valueAt o r, .scalar (.bytes (pkOf view.tableSchema r))] := by
      intro row hrow
      obtain ⟨i, hi, rfl⟩ := mem_mapIdx.mp hrow
      exact ⟨i, _, hperm.mem_iff.mp (mem_of_mem_take (getElem_mem hi)), rfl⟩
    refine ⟨fun row hrow => ?_, fun row hrow => ?_, fun row hrow => ?_, ?_⟩
    · obtain ⟨i, r, -, rfl⟩ := hparts row hrow
      exact ⟨_, _, rfl, by simp [firstType, hkind, Scalar.type]⟩
    · obtain ⟨i, r, hr, rfl⟩ := hparts row hrow
      obtain ⟨s, c, hs, -, -, h32, h64⟩ := hsup.scalar_valueAt ho (hok.row r hr)
      have hfirst : (RowValue.scalar (.u32 (BitVec.ofNat 32 (i + 1)))).Plain := ⟨_, rfl, by simp [Scalar.type], by simp [Scalar.type]⟩
      have hlast : (RowValue.scalar (.bytes (pkOf view.tableSchema r))).Plain := ⟨_, rfl, by simp [Scalar.type], by simp [Scalar.type]⟩
      simpa using ⟨hfirst, ⟨s, hs, h32, h64⟩, hlast⟩
    · obtain ⟨i, r, hr, rfl⟩ := hparts row hrow
      have hrank : ∃ b, RowValue.encode (.scalar (.u32 (BitVec.ofNat 32 (i + 1)))) = .ok b := ⟨_, rfl⟩
      have hpk : ∃ b, RowValue.encode (.scalar (.bytes (pkOf view.tableSchema r))) = .ok b :=
        exists_lenPrefixed ((henc r hr).2 o desc limit hkind)
      exact exists_encodeAll (by simpa using ⟨hrank, (henc r hr).1 o ho, hpk⟩)
    · -- the ranks are distinct below `2 ^ 32`
      refine nodup_iff_injective_getElem.mpr fun i j heq => ?_
      have hi := i.isLt
      have hj := j.isLt
      simp only [length_map, length_mapIdx, length_take] at hi hj
      have heq : BitVec.ofNat 32 (i.val + 1) = BitVec.ofNat 32 (j.val + 1) := by simpa using heq
      have := congrArg BitVec.toNat heq
      simp only [BitVec.toNat_ofNat] at this
      rw [Nat.mod_eq_of_lt (by omega), Nat.mod_eq_of_lt (by omega)] at this
      exact Fin.ext (by simpa using this)

end ResolvedView

/-! ### Declared views -/

theorem mapM_some_eq_ok {α β ε : Type} {f : α → Except ε β} {a : α} {b : Option β} (h : (some a).mapM f = .ok b) :
    b.isSome = true := by
  obtain ⟨y, -, hy⟩ := bind_eq_ok.mp (show (f a >>= fun y => ok (some y)) = .ok b from h)
  rw [← ok.inj hy]
  rfl

/-- What a resolved declaration is: an aggregate with its column, or a window. -/
theorem resolveKind_cases {d : MaterializedViewDef} {kind : ViewKind} (h : resolveKind d schema = .ok kind) :
    (∃ agg value group, kind = .aggregate agg value group ∧ (agg = .count ∨ value.isSome)) ∨
      ∃ o desc limit, kind = .topN o desc limit ∧ limit < 2 ^ 32 := by
  unfold resolveKind at h
  split at h
  · rename_i agg _ _
    simp only [bind_eq_ok] at h
    obtain ⟨value, hvalue, ⟨⟩, -, group, -, h⟩ := h
    refine .inl ⟨agg, value, group, (ok.inj h).symm, ?_⟩
    cases agg with
    | count => exact .inl rfl
    | sum c | avg c | min c | max c => exact .inr (mapM_some_eq_ok hvalue)
  · rename_i top _ _
    split at h
    · simp at h
    · obtain ⟨o, -, h⟩ := bind_eq_ok.mp h
      exact .inr ⟨o, top.descending, _, (ok.inj h).symm, top.limit.isLt⟩
  · simp at h
  · simp at h

theorem resolve_bound {d : MaterializedViewDef} {id : Nat}
    (hid : cat.tables[id]? = some schema) (h : resolve d id schema = .ok view) : view.Bound cat := by
  obtain ⟨kind, hkind, hview⟩ := bind_eq_ok.mp h
  cases hview
  refine ⟨hid, fun agg value group heq => ?_, fun o desc limit heq => ?_⟩
  · obtain ⟨_, _, _, rfl, hvalue⟩ | ⟨_, _, _, rfl, -⟩ := resolveKind_cases hkind
    · obtain ⟨rfl, rfl, -⟩ := ViewKind.aggregate.inj heq
      exact hvalue
    · simp at heq
  · obtain ⟨_, _, _, rfl, -⟩ | ⟨_, _, _, rfl, hlimit⟩ := resolveKind_cases hkind
    · simp at heq
    · obtain ⟨-, -, rfl⟩ := ViewKind.topN.inj heq
      exact hlimit

theorem resolveAll_bound {defs : List MaterializedViewDef} {views : List ResolvedView}
    (h : resolveAll cat defs = .ok views) (hview : view ∈ views) : view.Bound cat := by
  obtain ⟨p, hp, hres⟩ := exists_of_mem_mapM h hview
  obtain ⟨d, -, hd⟩ := mem_filterMap.mp hp
  obtain ⟨q, hq, rfl⟩ := map_eq_some_iff.mp hd
  exact resolve_bound (mem_toList_iff_getElem?_eq_some.mp (mem_of_find?_eq_some hq)) hres

/-! ### The system -/

/-- The base tables, the views over them, and the encoded rows of a subscriber of each view. -/
structure ViewSys where
  base : Snapshot
  engine : List MatView
  clients : List (List Bytes)

/-- A view and its subscriber show what they should. -/
structure Shows (fl : FloatOps) (base : Snapshot) (v : MatView) (client : List Bytes) : Prop where
  /-- The state is the one rebuilt from the base table. -/
  rebuilt : MatView.rebuild fl v.view base = .ok v
  /-- The rendering is the definition of the view. -/
  rendered : v.view.IsView (base.scan v.view.table) (v.view.renderAll fl v.state)
  /-- The subscriber has exactly the rendered rows. -/
  subscriber : ∃ rows, v.snapshotRows fl = .ok rows ∧ client.Perm rows

namespace ViewSys

variable (fl : FloatOps) (cat : Catalog)

/-- Startup: the views are rebuilt, and the subscribers get their rows. -/
def start (defs : List MaterializedViewDef) (base : Snapshot) : Except ViewError ViewSys := do
  let engine ← MatViewEngine.init fl cat defs base
  let clients ← engine.mapM (·.snapshotRows fl)
  return ⟨base, engine, clients⟩

def step (s : ViewSys) (diff : TxDiff) : Option ViewSys :=
  match MatViewEngine.onCommit fl s.engine diff with
  | .ok out => some ⟨s.base.commit cat diff, out.map (·.1), List.zipWith receive s.clients (out.map (·.2))⟩
  | .error _ => none

/-- What a commit is: an exact diff, after which the counts and sums fit an `i64`. -/
def IsCommit (s : ViewSys) (diff : TxDiff) : Prop :=
  diff.Exact cat s.base ∧ ∀ v ∈ s.engine, v.view.FitsI64 ((s.base.commit cat diff).scan v.view.table)

/-- Over these base rows every view compares decimals of one scale and has rows with an encoding. -/
def Plain (engine : List MatView) (base : Snapshot) : Prop :=
  ∀ v ∈ engine, v.view.OneScale (base.scan v.view.table) ∧ v.view.Encodable (base.scan v.view.table)

/-! ### One view -/

/-- A view and its subscriber between commits. -/
structure Inv (base : Snapshot) (v : MatView) (client : List Bytes) : Prop where
  bound : v.view.Bound cat
  keyable : v.view.Keyable cat
  scale : v.view.OneScale (base.scan v.view.table)
  encodes : v.view.Encodable (base.scan v.view.table)
  fits : v.view.FitsI64 (base.scan v.view.table)
  represents : v.view.Represents (base.scan v.view.table) v.state
  subscriber : client.Perm ((v.view.renderAll fl v.state).map viewBytes)

variable {fl cat} {base : Snapshot} {v v' : MatView} {client : List Bytes} {diff : TxDiff}

theorem viewRows_renderAll (fl : FloatOps) {state : ViewState} (hb : view.Bound cat)
    (hk : view.Keyable cat) (hstored : base.Stored cat) (hscale : view.OneScale (base.scan view.table))
    (hfits : view.FitsI64 (base.scan view.table)) (henc : view.Encodable (base.scan view.table))
    (hrep : view.Represents (base.scan view.table) state) : ViewRows view.firstType (view.renderAll fl state) := by
  have hok := hk.baseOk hb hstored
  exact (hk.supported hb).viewRows hok henc (hrep.isView fl (hk.supported hb) hok hscale hfits)

theorem exists_rebuild (fl : FloatOps) (hb : view.Bound cat) (hk : view.Keyable cat)
    (hstored : base.Stored cat) : ∃ state, MatView.rebuild fl view base = .ok ⟨view, state⟩ ∧
      view.Represents (base.scan view.table) state := by
  have hok : view.BaseOk (base.scan view.table ++ []) := by
    rw [append_nil]
    exact hk.baseOk hb hstored
  obtain ⟨state, hstate, hrep⟩ := (ResolvedView.represents_empty view).inserts fl hok
  rw [append_nil] at hrep
  exact ⟨state, by rw [MatView.rebuild, hstate]; rfl, hrep⟩

theorem Inv.shows (h : Inv fl cat base v client) (hstored : base.Stored cat) : Shows fl base v client := by
  have hok := h.keyable.baseOk h.bound hstored
  refine ⟨?_, h.represents.isView fl (h.keyable.supported h.bound) hok h.scale h.fits, ?_⟩
  · obtain ⟨state, hstate, hrep⟩ := exists_rebuild fl h.bound h.keyable hstored
    rw [hstate, hrep.unique h.represents]
  · exact ⟨_, (viewRows_renderAll fl h.bound h.keyable hstored h.scale h.fits h.encodes h.represents).encodeRows_eq, h.subscriber⟩

/-- **One view takes a commit.** -/
theorem Inv.onCommit (h : Inv fl cat base v client) (hstored : base.Stored cat) (hexact : diff.Exact cat base)
    (hscale : v.view.OneScale ((base.commit cat diff).scan v.view.table))
    (henc : v.view.Encodable ((base.commit cat diff).scan v.view.table))
    (hfits : v.view.FitsI64 ((base.commit cat diff).scan v.view.table)) :
    ∃ out, v.onCommit fl diff = .ok out ∧ out.1.view = v.view ∧
      Inv fl cat (base.commit cat diff) out.1 (receive client out.2) := by
  rcases hexact.scan_commit v.view.table with ⟨hfind, hsame⟩ | ⟨d, kept, hfind, hold, hnew⟩
  · refine ⟨(v, none), by simp only [MatView.onCommit, hfind], rfl, h.bound, h.keyable, hscale, henc, hfits, ?_, h.subscriber⟩
    rw [hsame]
    exact h.represents
  · have hok := h.keyable.baseOk h.bound hstored
    have hok' := h.keyable.baseOk h.bound (hstored.commit hexact)
    obtain ⟨s₁, hs₁, hrep₁⟩ := (h.represents.perm hold).deletes fl (hok.perm hold)
    obtain ⟨s₂, hs₂, hrep₂⟩ := hrep₁.inserts fl (hok'.perm hnew)
    have hrep := hrep₂.perm hnew.symm
    have hrows := viewRows_renderAll fl h.bound h.keyable hstored h.scale h.fits h.encodes h.represents
    have hrows' := viewRows_renderAll fl h.bound h.keyable (hstored.commit hexact) hscale hfits henc hrep
    obtain ⟨u, hu, hreceive⟩ := ViewRows.exists_update hrows hrows' h.subscriber
    refine ⟨(⟨v.view, s₂⟩, u), ?_, rfl, h.bound, h.keyable, hscale, henc, hfits, hrep, hreceive⟩
    simp only [MatView.onCommit, hfind]
    exact bind_eq_ok.mpr ⟨s₁, hs₁, bind_eq_ok.mpr ⟨s₂, hs₂, bind_eq_ok.mpr ⟨u, hu, rfl⟩⟩⟩

/-! ### All views -/

theorem Inv.onCommits (hstored : base.Stored cat) (hexact : diff.Exact cat base) : ∀ {engine : List MatView}
    {clients : List (List Bytes)}, List.Forall₂ (Inv fl cat base) engine clients →
      (∀ v ∈ engine, v.view.FitsI64 ((base.commit cat diff).scan v.view.table)) → Plain engine (base.commit cat diff) →
      ∃ out, MatViewEngine.onCommit fl engine diff = .ok out ∧ List.Forall₂ (Inv fl cat (base.commit cat diff)) (out.map (·.1))
        (List.zipWith receive clients (out.map (·.2)))
  | [], _, .nil, _, _ => ⟨[], rfl, .nil⟩
  | v :: engine, _, .cons h hs, hfits, hplain => by
    obtain ⟨hscale, henc⟩ := hplain v (by simp)
    obtain ⟨p, hp, -, hinv⟩ := h.onCommit hstored hexact hscale henc (hfits v (by simp))
    obtain ⟨out, hout, hinvs⟩ := Inv.onCommits hstored hexact hs (fun v' hv' => hfits v' (mem_cons_of_mem v hv'))
      fun v' hv' => hplain v' (mem_cons_of_mem v hv')
    refine ⟨p :: out, ?_, .cons hinv hinvs⟩
    rw [MatViewEngine.onCommit] at hout ⊢
    rw [mapM_cons, hp, hout]
    rfl

/-- Startup: every view is rebuilt, and its subscriber has its rows. -/
theorem inv_start {defs : List MaterializedViewDef} {s : ViewSys} (hstart : start fl cat defs base = .ok s)
    (hstored : base.Stored cat) (hkeyable : ∀ v ∈ s.engine, v.view.Keyable cat)
    (hfits : ∀ v ∈ s.engine, v.view.FitsI64 (base.scan v.view.table)) (hplain : Plain s.engine base) :
    s.base = base ∧ List.Forall₂ (Inv fl cat base) s.engine s.clients := by
  obtain ⟨engine, hinit, hstart⟩ := bind_eq_ok.mp hstart
  obtain ⟨clients, hclients, hstart⟩ := bind_eq_ok.mp hstart
  cases hstart
  obtain ⟨views, hviews, hengine⟩ := bind_eq_ok.mp hinit
  have hclients := mapM_eq_ok.mp hclients
  refine ⟨rfl, ((forall₂_and_left engine clients).mpr ⟨fun v hv => hv, hclients⟩).imp ?_⟩
  rintro v client ⟨hv, hclient⟩
  obtain ⟨view, hview, hrebuild⟩ := exists_of_mem_mapM hengine hv
  have hb := resolveAll_bound hviews hview
  obtain rfl : v.view = view := by
    obtain ⟨state, -, hstate⟩ := bind_eq_ok.mp hrebuild
    rw [← ok.inj hstate]
  obtain ⟨state, hstate, hrep⟩ := exists_rebuild fl hb (hkeyable v hv) hstored
  rw [ok.inj (hrebuild.symm.trans hstate)] at hclient ⊢
  obtain ⟨hscale, henc⟩ := hplain v hv
  have hrows := viewRows_renderAll fl hb (hkeyable v hv) hstored hscale (hfits v hv) henc hrep
  refine ⟨hb, hkeyable v hv, hscale, henc, hfits v hv, hrep, ?_⟩
  rw [← ok.inj (hrows.encodeRows_eq.symm.trans hclient)]

end ViewSys

/-- **Materialized views equal their definition.** Over keyable columns without floats, with exact diffs
and counts and sums that fit an `i64`, every commit goes through, and after it each view shows its
definition and its subscriber the same rows, if the decimals that the view compares have one scale
and the shown values have an encoding. -/
theorem views_equal_definition {fl : FloatOps} {cat : Catalog} {defs : List MaterializedViewDef} {base : Snapshot}
    {s : ViewSys} (diffs : List TxDiff) (hstart : ViewSys.start fl cat defs base = .ok s) (hstored : base.Stored cat)
    (hkeyable : ∀ v ∈ s.engine, v.view.Keyable cat) (hfits : ∀ v ∈ s.engine, v.view.FitsI64 (base.scan v.view.table))
    (hcommits : Runs.Meets (ViewSys.step fl cat) (ViewSys.IsCommit cat) s diffs)
    (hplain : ViewSys.Plain s.engine base)
    (hplains : Runs.Meets (ViewSys.step fl cat) (fun s diff => ViewSys.Plain s.engine (s.base.commit cat diff)) s diffs) :
    ∃ s', Runs.run (ViewSys.step fl cat) s diffs = some s' ∧ List.Forall₂ (Shows fl s'.base) s'.engine s'.clients := by
  obtain ⟨hbase, hinv⟩ := ViewSys.inv_start hstart hstored hkeyable hfits hplain
  obtain ⟨s', hrun, hstored', hinv'⟩ := Runs.exists_run_of_meets
    (I := fun s => s.base.Stored cat ∧ Forall₂ (ViewSys.Inv fl cat s.base) s.engine s.clients)
    (fun s diff hI hC => by
      obtain ⟨out, hout, hinv⟩ := ViewSys.Inv.onCommits hI.1 hC.1.1 hI.2 hC.1.2 hC.2
      exact ⟨_, by rw [ViewSys.step, hout], hI.1.commit hC.1.1, hinv⟩)
    (by rw [hbase]; exact ⟨hstored, hinv⟩) (hcommits.and hplains)
  exact ⟨s', hrun, hinv'.imp fun _ _ h => h.shows hstored'⟩

/-! ### Prices -/

/-- Prices with an id and a decimal amount. -/
def priceSchema : TableSchema :=
  { name := "Price"
    columns := [⟨"id", .scalar .u64⟩, ⟨"amount", .scalar .decimal⟩]
    primaryKey := [0]
    autoInc := none
    access := .pub
    unique := []
    indexes := []
    primaryKey_ne_nil := single_key_ne_nil
    primaryKey_lt := fun _ ho => (List.mem_singleton.mp ho).symm ▸ (Nat.two_pos : 0 < 2)
    autoInc_primaryKey := fun _ ho => absurd ho (Option.not_mem_none _)
    unique_lt := fun _ hcols => absurd hcols List.not_mem_nil
    indexes_lt := fun _ hcols => absurd hcols List.not_mem_nil }

def priceCatalog : Catalog :=
  { tables := ExtTreeMap.ofList [(1, priceSchema)]
    computed := fun _ => []
    notNull := fun _ => []
    checks := fun _ => []
    spatial := fun _ _ => true
    fks := []
    sealedColumns := fun _ => []
    autoIncStep := 1
    fits := fun _ => true
    fks_valid := fun _ hfk => absurd hfk List.not_mem_nil
    sealed_primaryKey := fun _ _ _ _ _ => List.not_mem_nil
    autoIncStep_pos := Nat.one_pos }

def price (id : BitVec 64) (unscaled : BitVec 128) (scale : UInt8) : Row :=
  [.scalar (.u64 id), .scalar (.decimal unscaled scale)]

/-- The lowest amount. -/
def lowest : MaterializedViewDef := ⟨"Lowest", "Price", some (.min "amount"), none, none⟩

/-- A commit that inserts prices. -/
def addPrices (rows : List Row) : TxDiff := ⟨1, [⟨1, rows, []⟩], []⟩

/-- No float is computed. -/
def noFloats : FloatOps := ⟨fun _ => 0, fun _ => 0, fun _ _ => 0, fun _ _ => 0, fun _ _ => 0⟩

/-- The view of the lowest amount, resolved. -/
def lowestView : ResolvedView := ⟨"Lowest", 1, priceSchema, .aggregate (.min "amount") (some 1) none⟩

theorem start_lowest : ViewSys.start noFloats priceCatalog [lowest] ∅ = .ok ⟨∅, [⟨lowestView, .empty⟩], [[]]⟩ := by
  rfl

theorem keyable_lowest : lowestView.Keyable priceCatalog := by
  refine ⟨fun o ho => ?_, by simp [lowestView]⟩
  obtain rfl : o = 1 := by simpa [ResolvedView.columns, lowestView] using ho
  exact ⟨⟨_, rfl, rfl, rfl⟩, not_mem_nil⟩

theorem stored_price (id : BitVec 64) (unscaled : BitVec 128) (scale : UInt8) :
    StoredRow priceCatalog 1 priceSchema (pkOf priceSchema (price id unscaled scale)) (price id unscaled scale) where
  length := rfl
  typed o v c hv hc _ := (@typed_of_checkRow priceSchema _ rfl).2 o v c hv hc
  key := rfl

theorem exact_addPrices (u u' : BitVec 128) (s s' : UInt8) :
    (addPrices [price 1 u s, price 2 u' s']).Exact priceCatalog ∅ := by
  refine ⟨by simp [addPrices], fun d hd => ⟨priceSchema, ?_, ?_⟩⟩ <;>
    obtain rfl : d = ⟨1, [price 1 u s, price 2 u' s'], []⟩ := by simpa [addPrices] using hd
  · rfl
  refine ⟨by simp, nodup_nil, ?_, ?_, ?_⟩
  · intro row hrow
    rcases mem_pair.mp hrow with rfl | rfl <;> exact stored_price _ _ _
  · show [Bytes.leBytes 8 1 ++ [], Bytes.leBytes 8 2 ++ []].Nodup
    decide
  · exact fun _ _ => .inl rfl

/-- Amounts of one scale: `1.50` and `2.25`. -/
theorem views_equal_definition_addPrices : ∃ s s', ViewSys.start noFloats priceCatalog [lowest] ∅ = .ok s ∧
    Runs.run (ViewSys.step noFloats priceCatalog) s [addPrices [price 1 225 2, price 2 150 2]] = some s' ∧
    List.Forall₂ (Shows noFloats s'.base) s'.engine s'.clients := by
  have hstored : Snapshot.Stored priceCatalog ∅ := fun _ _ _ _ _ hrow => by simp at hrow
  have hview : ∀ v ∈ [(⟨lowestView, .empty⟩ : MatView)], v.view = lowestView := by simp
  have hplain : ∀ base : Snapshot, (∀ r ∈ base.scan 1, ∃ id u, r = price id u 2) →
      ViewSys.Plain [⟨lowestView, .empty⟩] base := by
    intro base hbase v hv
    rw [hview v hv]
    refine ⟨fun o r hr r' hr' hcmp => ?_, fun r hr => ⟨fun o ho => ?_, by simp [lowestView]⟩⟩
    · obtain ⟨id, u, rfl⟩ := hbase r hr
      obtain ⟨id', u', rfl⟩ := hbase r' hr'
      obtain rfl := some.inj hcmp.1
      rfl
    · obtain ⟨id, u, rfl⟩ := hbase r hr
      obtain rfl : o = 1 := by simpa [ResolvedView.columns, lowestView] using ho
      exact ⟨_, rfl⟩
  obtain ⟨s', hrun, hshows⟩ := views_equal_definition [addPrices [price 1 225 2, price 2 150 2]] start_lowest hstored
    (fun v hv => by rw [hview v hv]; exact keyable_lowest)
    (fun v hv => by rw [hview v hv]; exact Nat.two_pow_pos 63)
    ⟨⟨exact_addPrices 225 150 2 2, fun v hv => by rw [hview v hv]; exact (by decide : (2 : Nat) < 2 ^ 63)⟩, fun _ _ => trivial⟩
    (hplain ∅ (by simp [Snapshot.scan]))
    ⟨hplain _ fun r hr => by
      rcases mem_pair.mp hr with rfl | rfl <;> exact ⟨_, _, rfl⟩, fun _ _ => trivial⟩
  exact ⟨_, s', start_lowest, hrun, hshows⟩

/-- **Mixed scales.** Of `2` and `1.5` the view shows `2` as the lowest. -/
theorem mixed_scales_wrong_minimum : ∃ s s', ViewSys.start noFloats priceCatalog [lowest] ∅ = .ok s ∧
    (∀ v ∈ s.engine, v.view.Keyable priceCatalog) ∧ s.IsCommit priceCatalog (addPrices [price 1 2 0, price 2 15 1]) ∧
    s.step noFloats priceCatalog (addPrices [price 1 2 0, price 2 15 1]) = some s' ∧
    s'.engine.map (fun v => v.view.renderAll noFloats v.state) = [[[globalGroup, .scalar (.decimal 2 0)]]] ∧
    ¬ List.Forall₂ (Shows noFloats s'.base) s'.engine s'.clients := by
  have hview : ∀ v ∈ [(⟨lowestView, .empty⟩ : MatView)], v.view = lowestView := by simp
  refine ⟨_, _, start_lowest, fun v hv => by rw [hview v hv]; exact keyable_lowest,
    ⟨exact_addPrices 2 15 0 1, fun v hv => by rw [hview v hv]; exact (by decide : (2 : Nat) < 2 ^ 63)⟩, rfl, rfl, ?_⟩
  rintro (_ | ⟨hshows, -⟩)
  obtain ⟨g, v, hrow, -, hleast⟩ := hshows.rendered.aggregates [globalGroup, .scalar (.decimal 2 0)] (by exact mem_singleton.mpr rfl)
  obtain ⟨rfl, hv⟩ := cons.inj hrow
  obtain rfl := (cons.inj hv).1
  exact hleast (.scalar (.decimal 15 1)) (by exact mem_cons_of_mem _ (mem_singleton.mpr rfl)) (by decide)

end Fluxum
