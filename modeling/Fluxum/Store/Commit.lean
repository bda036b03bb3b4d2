/-
# Commits

What a commit publishes: in every table the rows the transaction sees, with
the diff of its pending operations.
-/
import Fluxum.Store.Buffer

namespace Fluxum

open Std Outcome List Function ExtTreeMap

/-! ### The rows under pending operations -/

theorem overlay_of_not_mem : ∀ {ops : PendingOps} {rows : Rows} {pk : Bytes},
    pk ∉ ops.map Prod.fst → overlay rows ops pk = rows pk
  | [], _, _, _ => rfl
  | (k, op) :: ops, rows, pk, h => by
    have hstep : overlay rows ((k, op) :: ops) = overlay (update rows k op.result) ops := rfl
    rw [map_cons, mem_cons, not_or] at h
    rw [hstep, overlay_of_not_mem h.2, update_of_ne h.1]

theorem overlay_of_mem : ∀ {ops : PendingOps} {rows : Rows} {pk : Bytes} {op : PendingOp},
    (ops.map Prod.fst).Nodup → (pk, op) ∈ ops → overlay rows ops pk = op.result
  | (k, op') :: ops, rows, pk, op, hnodup, h => by
    have hstep : overlay rows ((k, op') :: ops) = overlay (update rows k op'.result) ops := rfl
    rw [map_cons, nodup_cons] at hnodup
    rcases mem_cons.mp h with heq | hmem
    · cases heq
      rw [hstep, overlay_of_not_mem hnodup.1, update_self]
    · rw [hstep, overlay_of_mem hnodup.2 hmem]

/-- Merging a transaction's operations on a table makes its view. -/
theorem overlay_ops (tx : Tx) (table : Nat) (pk : Bytes) (rows : Rows) :
    overlay rows (tx.ops table).toList pk = Tx.under (tx.op table pk) (rows pk) := by
  have hnodup := OrdMap.nodup_keys_toList (tx.ops table)
  rcases hop : tx.op table pk with _ | op
  · refine overlay_of_not_mem fun hmem => ?_
    obtain ⟨⟨k, op⟩, hk, rfl⟩ := mem_map.mp hmem
    have hsome : tx.op table k = some op := mem_toList_iff_getElem?_eq_some.mp hk
    rw [hop] at hsome
    simp at hsome
  · exact overlay_of_mem hnodup (mem_toList_iff_getElem?_eq_some.mpr hop)

/-! ### The merge of every table -/

section Merge

variable {fits : Row → Bool}

def touched (l : List (Nat × Tree PendingOp)) : List (Nat × Tree PendingOp) := l.filter (!·.2.isEmpty)

/-- One table's merge, as part of a commit. -/
def Merged (fits : Row → Bool) (tables tables' : Tables) (p : Nat × Tree PendingOp) (d : TableDiff) :
    Prop :=
  ∃ t t', tables[p.1]? = some t ∧ mergeTable fits p.1 t p.2.toList = .ok (t', d) ∧ tables'[p.1]? = some t'

/-- What the merge makes of the tables: each touched one is merged from what it was, the others stay. -/
theorem mergePendings_eq_ok : ∀ {l : List (Nat × Tree PendingOp)} {s s' : Tables × List TableDiff},
    (l.map Prod.fst).Nodup → l.foldlM (mergePending fits) s = .ok s' →
    ∃ diffs, s'.2 = s.2 ++ diffs ∧ List.Forall₂ (Merged fits s.1 s'.1) (touched l) diffs ∧
      ∀ id, id ∉ (touched l).map Prod.fst → s'.1[id]? = s.1[id]?
  | [], s, s', _, h => by
    cases h
    exact ⟨[], by simp, .nil, fun _ _ => rfl⟩
  | p :: l, s, s', hnodup, h => by
    obtain ⟨m, hm, h⟩ := bind_eq_ok.mp h
    rw [List.map_cons, List.nodup_cons] at hnodup
    obtain ⟨diffs, hdiffs, hmerged, hrest⟩ := mergePendings_eq_ok hnodup.2 h
    have hfresh : p.1 ∉ (touched l).map Prod.fst := fun hmem => by
      obtain ⟨q, hq, heq⟩ := List.mem_map.mp hmem
      exact hnodup.1 (heq ▸ List.mem_map_of_mem (List.mem_of_mem_filter hq))
    unfold mergePending at hm
    split at hm
    · rename_i hempty
      cases hm
      have htouched : touched (p :: l) = touched l := by simp [touched, hempty]
      rw [htouched]
      exact ⟨diffs, hdiffs, hmerged, hrest⟩
    · rename_i hempty
      have htouched : touched (p :: l) = p :: touched l := by simp [touched, hempty]
      split at hm
      · simp at hm
      rename_i t ht
      obtain ⟨⟨t', d⟩, hmerge, hm⟩ := bind_eq_ok.mp hm
      cases hm
      refine ⟨d :: diffs, by simp [hdiffs], ?_, fun id hid => ?_⟩
      · rw [htouched]
        refine .cons ⟨t, t', ht, hmerge, ?_⟩ ?_
        · rw [hrest p.1 hfresh]
          simp
        have hne : ∀ q ∈ touched l, q.1 ≠ p.1 := fun q hq heq => hfresh (heq ▸ mem_map_of_mem hq)
        refine ((forall₂_and_left _ _).mpr ⟨hne, hmerged⟩).imp fun q d ⟨hq, t₁, t₂, h₁, h₂, h₃⟩ => ?_
        rw [OrdMap.lookup_insert, if_neg (Ne.symm hq)] at h₁
        exact ⟨t₁, t₂, h₁, h₂, h₃⟩
      · rw [htouched, map_cons, mem_cons, not_or] at hid
        rw [hrest id hid.2, OrdMap.lookup_insert, if_neg (Ne.symm hid.1)]

/-- The same table but for the high-water mark. -/
def SameButHighWater (tables tables' : Tables) (id : Nat) : Prop :=
  tables[id]? = none ∧ tables'[id]? = none ∨
    ∃ t highWater, tables[id]? = some t ∧ tables'[id]? = some { t with autoIncHighWater := highWater }

theorem publishHighWaters_eq_ok {counters : ExtTreeMap Nat AutoIncCounter} : ∀ {l : List Nat}
    {s s' : Tables × List (Nat × Nat)}, l.foldlM (publishHighWater counters) s = .ok s' →
    (∀ id, SameButHighWater s.1 s'.1 id) ∧ s'.2 = s.2 ++ l.map fun id => (id, highWaterOf counters id)
  | [], s, s', h => by
    cases h
    refine ⟨fun id => ?_, by simp⟩
    rcases ht : s.1[id]? with _ | t
    · exact .inl ⟨ht, ht⟩
    · exact .inr ⟨t, t.autoIncHighWater, ht, ht⟩
  | table :: l, s, s', h => by
    obtain ⟨m, hm, h⟩ := bind_eq_ok.mp h
    obtain ⟨hsame, hlist⟩ := publishHighWaters_eq_ok h
    unfold publishHighWater at hm
    split at hm
    · simp at hm
    rename_i t ht
    cases hm
    refine ⟨fun id => ?_, by simp [hlist]⟩
    have hid := hsame id
    unfold SameButHighWater at hid
    simp only [OrdMap.lookup_insert] at hid
    by_cases heq : table = id
    · subst heq
      rcases hid with ⟨h₁, -⟩ | ⟨t₁, highWater, h₁, h₂⟩
      · simp at h₁
      · obtain rfl : _ = t₁ := by simpa using h₁
        exact .inr ⟨t, highWater, ht, h₂⟩
    · simpa [heq, SameButHighWater] using hid

end Merge

/-! ### The commit -/

theorem forall₂_exists_right {α β : Type} {R : α → β → Prop} {xs : List α} {ys : List β} (h : List.Forall₂ R xs ys)
    {x : α} (hx : x ∈ xs) : ∃ y ∈ ys, R x y := by
  induction h with
  | nil => simp at hx
  | cons hxy _ ih =>
    rcases mem_cons.mp hx with rfl | hx
    · exact ⟨_, by simp, hxy⟩
    · obtain ⟨y, hy, hR⟩ := ih hx
      exact ⟨y, mem_cons_of_mem _ hy, hR⟩

theorem forall₂_exists_left {α β : Type} {R : α → β → Prop} {xs : List α} {ys : List β} (h : List.Forall₂ R xs ys)
    {y : β} (hy : y ∈ ys) : ∃ x ∈ xs, R x y :=
  forall₂_exists_right h.flip hy

section Commit

variable {cat : Catalog} {tx : Tx} {diff : TxDiff} {s : MemStore} {table : Nat}

/-- **The tables and the diff of a commit that succeeds.** -/
theorem commit_eq_ok (h : tx.commit cat = .ok (diff, s)) :
    ∃ tables, diff.txId = tx.txId ∧
      List.Forall₂ (Merged cat.fits tx.base tables) (touched tx.pending.toList) diff.tables ∧
      (∀ id, id ∉ (touched tx.pending.toList).map Prod.fst → tables[id]? = tx.base[id]?) ∧
      (∀ id, SameButHighWater tables s.committed id) ∧
      s.writer.nextTxId = saturatingAdd tx.txId 1 ∧ s.writer.counters = tx.writer.counters ∧
      s.writer.highWaterDirty = ∅ ∧
      diff.autoInc = tx.writer.highWaterDirty.toList.map fun id => (id, highWaterOf tx.writer.counters id) := by
  obtain ⟨⟨tables, diffs⟩, hmerge, h⟩ := bind_eq_ok.mp h
  obtain ⟨⟨tables', autoInc⟩, hpublish, h⟩ := bind_eq_ok.mp h
  cases h
  obtain ⟨diffs', hdiffs, hmerged, hrest⟩ := mergePendings_eq_ok (OrdMap.nodup_keys_toList _) hmerge
  obtain ⟨hsame, hauto⟩ := publishHighWaters_eq_ok hpublish
  cases hdiffs
  exact ⟨tables, rfl, hmerged, hrest, hsame, rfl, rfl, rfl, by simpa using hauto⟩

theorem commit_dirty (h : tx.commit cat = .ok (diff, s)) :
    ∀ table ∈ s.writer.highWaterDirty, (cat.tables[table]?).isSome := by
  obtain ⟨-, -, -, -, -, -, -, hdirty, -⟩ := commit_eq_ok h
  simp [hdirty]

theorem mem_touched {ops : Tree PendingOp} :
    (table, ops) ∈ touched tx.pending.toList ↔ tx.pending[table]? = some ops ∧ ops.isEmpty = false := by
  simp [touched, mem_toList_iff_getElem?_eq_some]

theorem op_eq_none_of_not_touched (h : table ∉ (touched tx.pending.toList).map Prod.fst) (pk : Bytes) :
    tx.op table pk = none := by
  rcases hops : tx.pending[table]? with _ | ops
  · simp [Tx.op, Tx.ops, hops]
  have hempty : ops.isEmpty = true := by
    by_contra hne
    exact h (mem_map.mpr ⟨(table, ops), mem_touched.mpr ⟨hops, by simpa using hne⟩, rfl⟩)
  simp [Tx.op, Tx.ops, hops, isEmpty_iff.mp hempty]

theorem exists_op_of_touched {ops : Tree PendingOp} (h : (table, ops) ∈ touched tx.pending.toList) :
    ∃ pk op, tx.op table pk = some op := by
  obtain ⟨hpending, hne⟩ := mem_touched.mp h
  obtain rfl : tx.ops table = ops := by simp [Tx.ops, hpending]
  by_contra hno
  have hnone : ∀ pk, tx.op table pk = none := fun pk =>
    Option.eq_none_iff_forall_ne_some.mpr fun op hop => hno ⟨pk, op, hop⟩
  have hempty : tx.ops table = ∅ := ext_getElem? fun pk => (hnone pk).trans (by simp)
  simp [hempty] at hne

/-- What a commit makes of one table: it merges the operations, or leaves the table without any. -/
theorem commit_table (h : tx.commit cat = .ok (diff, s)) (table : Nat) :
    (∃ d ∈ diff.tables, ∃ t t' highWater, tx.base[table]? = some t ∧
      mergeTable cat.fits table t (tx.ops table).toList = .ok (t', d) ∧
      s.committed[table]? = some { t' with autoIncHighWater := highWater }) ∨
    ((∀ pk, tx.op table pk = none) ∧ SameButHighWater tx.base s.committed table) := by
  obtain ⟨tables, -, hmerged, hrest, hsame, -⟩ := commit_eq_ok h
  by_cases htouched : table ∈ (touched tx.pending.toList).map Prod.fst
  · obtain ⟨⟨table, ops⟩, hmem, rfl⟩ := mem_map.mp htouched
    obtain ⟨d, hd, t, t', ht, hmerge, ht'⟩ := forall₂_exists_right hmerged hmem
    have hops : tx.ops table = ops := by simp [Tx.ops, (mem_touched.mp hmem).1]
    rcases hsame table with ⟨hnone, -⟩ | ⟨t₁, highWater, h₁, h₂⟩
    · simp [hnone] at ht'
    · cases ht'.symm.trans h₁
      exact .inl ⟨d, hd, t, t', highWater, ht, hops ▸ hmerge, h₂⟩
  · refine .inr ⟨op_eq_none_of_not_touched htouched, ?_⟩
    have hkept := hsame table
    unfold SameButHighWater at hkept ⊢
    rwa [hrest table htouched] at hkept

/-- **A commit publishes what the transaction sees.** -/
theorem commit_rowIn (h : tx.commit cat = .ok (diff, s)) (table : Nat) (pk : Bytes) :
    rowIn s.committed table pk = tx.view table pk := by
  rcases commit_table h table with ⟨d, -, t, t', highWater, ht, hmerge, ht'⟩ | ⟨hnone, hsame⟩
  · have hrow : t'.rowAt pk = Tx.under (tx.op table pk) (t.rowAt pk) := by
      rw [(mergeTable_eq_ok hmerge).1, overlay_ops]
    rw [Tx.view, rowIn_eq ht, ← hrow, rowIn_eq ht']
    rfl
  · rw [Tx.view, hnone pk]
    rcases hsame with ⟨h₁, h₂⟩ | ⟨t, highWater, h₁, h₂⟩
    · simp [rowIn, h₁, h₂, Tx.under]
    · simp [rowIn, h₁, h₂, Tx.under, TableState.rowAt]

theorem Tx.Ok.storedRow_of_view {schema : TableSchema} {pk : Bytes} {row : Row} (hok : tx.Ok cat)
    (hschema : cat.tables[table]? = some schema) (h : tx.view table pk = some row) :
    StoredRow cat table schema pk row := by
  rw [Tx.view] at h
  rcases hop : tx.op table pk with _ | op
  · rw [hop] at h
    exact hok.base.stored table schema pk row hschema h
  · rw [hop] at h
    exact hok.stored table schema pk op row hschema hop h

theorem TablesOk.commit (hok : tx.Ok cat) (h : tx.commit cat = .ok (diff, s)) : TablesOk cat s.committed := by
  refine ⟨fun table => ?_, fun table schema pk row hschema hrow => ?_⟩
  · rw [← hok.base.covers table]
    rcases commit_table h table with ⟨d, -, t, t', highWater, ht, hmerge, ht'⟩ | ⟨-, hsame⟩
    · have hschema : t'.schema = t.schema := (mergeTable_eq_ok hmerge).2.1
      simp [ht, ht', hschema]
    · rcases hsame with ⟨h₁, h₂⟩ | ⟨t, highWater, h₁, h₂⟩ <;> simp [h₁, h₂]
  · rw [commit_rowIn h] at hrow
    exact hok.storedRow_of_view hschema hrow

end Commit

end Fluxum
