/-
# A transaction refines sequential execution

A transaction on tables that no foreign key references, call by call.

* `tx_refines_sequential`: what a scan shows is the committed map with the
  accepted calls applied one after the other, a commit publishes that map, and
  the diff it returns is the net effect, if each call meets `CallOk`.
* `upsert_back_reports_unchanged_row`: a replaced row is written back to its
  committed content; the pending replacement stays, and the diff deletes and
  inserts the same row.

`CallOk` also excludes a deleted row brought back by a write that is equal to
it but encodes differently (`0.0` and `-0.0` in a unique column) after another
row took its value: the commit fails.
-/
import Fluxum.Lib.Runs
import Fluxum.Store.Publish

namespace Fluxum

open Std Outcome List Function ExtTreeMap OrdMap Option Prod Except

/-! ### Sequential execution -/

/-- What an accepted call does to a map of rows: the row a write returned, with the row it wrote; or
a key it deleted. -/
inductive Effect where
  | put (table : Nat) (pk : Bytes) (wrote row : Row)
  | drop (table : Nat) (pk : Bytes)

def Effect.apply (m : Nat → Rows) : Effect → Nat → Rows
  | .put table pk _ row => fun table' pk' => if table = table' ∧ pk = pk' then some row else m table' pk'
  | .drop table pk => fun table' pk' => if table = table' ∧ pk = pk' then none else m table' pk'

/-- The map after the accepted calls, one after the other. -/
def sequential (base : Nat → Rows) (effects : List Effect) : Nat → Rows :=
  effects.foldl Effect.apply base

section Session

variable {cat : Catalog}

/-- The row a write call writes, and its key: computed columns, the auto-increment id and the
transforms in place. -/
def Tx.written (srv : Services cat) (tx : Tx) (table : Nat) (values : Row) : Except StoreError (Bytes × Row) := do
  let (schema, values) ← prepare srv table values
  let (_, values) ← assignAutoInc cat.autoIncStep tx.writer table schema values
  let pk ← (encodePkOfRow schema values).mapError .row
  return (pk, ← srv.onWriteRow.run table values pk)

/-- The effect of an accepted call, from its arguments and what it returned. -/
def effectOf (srv : Services cat) (tx : Tx) (c : TxCall) (r : Returned) : Option Effect :=
  match c, r with
  | .insert table values, .stored row | .upsert table values, .stored row =>
    (tx.written srv table values).toOption.map fun (pk, wrote) => .put table pk wrote row
  | .delete _ table pkValues, .deleted _ => do
    let schema ← cat.tables[table]?
    let pk ← (encodePkValues schema pkValues).toOption
    return .drop table pk
  | _, _ => none

/-- The calls of one transaction so far. -/
structure Session where
  tx : Tx
  effects : List Effect

/-- One call; a rejected one has no effect. -/
def Session.step (s : Session) (l : Services cat × TxCall) : Option Session := do
  match ← s.tx.call l.1 l.2 with
  | .ok (tx, r) => return ⟨tx, s.effects ++ (effectOf l.1 s.tx l.2 r).toList⟩
  | .error (_, tx) => return ⟨tx, s.effects⟩

end Session

/-! ### What is claimed of a session -/

/-- Take the row at a key out of a map. -/
def removeEntry (f : Rows) (p : Bytes × Row) : Rows := update f p.1 none

/-- Put a row into a map at its key. -/
def putEntry (schema : TableSchema) (f : Rows) (row : Row) : Rows :=
  match encodePkOfRow schema row with
  | .ok pk => update f pk (some row)
  | .error _ => f

/-- What the diff of a table says of a key: nothing, or the row that is there afterwards. -/
def TableDiff.write (d : TableDiff) (schema : TableSchema) (pk : Bytes) : Option (Option Row) :=
  (d.inserts.find? fun row => (encodePkOfRow schema row).toOption = some pk).elim
    (if (d.deletes.map Prod.fst).contains pk then some none else none) fun row => some (some row)

/-- Delete the keys, then insert the rows at theirs. -/
def TableDiff.applyTo (d : TableDiff) (schema : TableSchema) (rows : Rows) : Rows :=
  d.inserts.foldl (putEntry schema) (d.deletes.foldl removeEntry rows)

/-- A diff of one table is the exact net effect between the rows before and after. -/
structure TableDiff.NetEffect (d : TableDiff) (schema : TableSchema) (before after : Rows) : Prop where
  apply : d.applyTo schema before = after
  deletes : ∀ p ∈ d.deletes, before p.1 = some p.2
  nodup_deletes : (d.deletes.map Prod.fst).Nodup
  nodup_inserts : (d.inserts.map fun row => (encodePkOfRow schema row).toOption).Nodup
  /-- A key whose row is equal before and after does not appear. -/
  unchanged : ∀ pk row row', before pk = some row → after pk = some row' → Row.same row row' = true →
    pk ∉ d.deletes.map Prod.fst ∧ ∀ r ∈ d.inserts, encodePkOfRow schema r ≠ .ok pk

/-- A diff is the exact net effect between the tables before and after. -/
structure TxDiff.NetEffect (diff : TxDiff) (cat : Catalog) (before after : Nat → Rows) : Prop where
  nodup : (diff.tables.map TableDiff.tableId).Nodup
  table : ∀ d ∈ diff.tables, ∃ schema, cat.tables[d.tableId]? = some schema ∧
    d.NetEffect schema (before d.tableId) (after d.tableId)
  others : ∀ table, table ∉ diff.tables.map TableDiff.tableId → after table = before table

/-- Scans, commit and diff agree with sequential execution from the committed tables. -/
structure Session.Exact (cat : Catalog) (committed : Tables) (s : Session) : Prop where
  /-- A write stores the row it writes, or leaves the equal row that was committed. -/
  wrote : ∀ table pk wrote row, .put table pk wrote row ∈ s.effects →
    row = wrote ∨ rowIn committed table pk = some row ∧ Row.same row wrote = true
  /-- A scan shows the rows of the sequential map, each key once. -/
  scan : ∀ (table : Nat) schema, cat.tables[table]? = some schema → ∃ entries : List (Bytes × Row),
    s.tx.scanAll table = .ok (entries.map Prod.snd) ∧ (entries.map Prod.fst).Nodup ∧
    ∀ pk row, ((pk, row) ∈ entries ↔ sequential (rowIn committed) s.effects table pk = some row) ∧
      ((pk, row) ∈ entries → encodePkOfRow schema row = .ok pk)
  /-- A commit succeeds if the pending rows can be stored. -/
  commits : (∀ (table : Nat) schema pk op row, cat.tables[table]? = some schema → s.tx.op table pk = some op →
    op.result = some row → Storable cat.fits schema pk row) → ∃ r, s.tx.commit cat = .ok r
  /-- It publishes the sequential map, and its diff is the net effect. -/
  publishes : ∀ diff store, s.tx.commit cat = .ok (diff, store) →
    rowIn store.committed = sequential (rowIn committed) s.effects ∧
    diff.NetEffect cat (rowIn committed) (sequential (rowIn committed) s.effects)

/-! ### The condition on a call -/

section Condition

variable {cat : Catalog}

/-- A write of a row equal to the committed one at its key: an upsert finds no replacement of that
row pending, and if the row was deleted no other row the transaction sees has a constraint value of
it. -/
def WriteOk (srv : Services cat) (tx : Tx) (table : Nat) (values : Row) (replace : Bool) : Prop :=
  ∀ schema pk row b, cat.tables[table]? = some schema → tx.written srv table values = .ok (pk, row) →
    rowIn tx.base table pk = some b → Row.same b row = true →
    (replace = true → ∀ r, tx.op table pk ≠ some (.update r)) ∧
    (tx.op table pk = some .delete → ∀ columns ∈ schema.unique, ∀ pk' row' key, pk' ≠ pk →
      tx.view table pk' = some row' → columnsKey columns row' = .ok key → columnsKey columns b ≠ .ok key)

def CallOk (s : Session) (l : Services cat × TxCall) : Prop :=
  match l.2 with
  | .insert table values => WriteOk l.1 s.tx table values false
  | .upsert table values => WriteOk l.1 s.tx table values true
  | .delete .. => True

/-- A call on a table that no foreign key references; a delete there ends after one round. -/
def Unreferenced (cat : Catalog) : TxCall → Prop
  | .insert table _ | .upsert table _ => cat.fksIn table = []
  | .delete fuel table _ => cat.fksIn table = [] ∧ 0 < fuel

end Condition

/-! ### Constraints over the view -/

section Unique

variable {cat : Catalog} {tx : Tx} {table : Nat} {schema : TableSchema} {pk : Bytes} {row : Row} {t : TableState}

theorem pendingClash_eq_false {columns : List Nat} {key : Bytes} : ∀ {ops : PendingOps},
    pendingClash columns key pk ops = .ok false → ∀ pk' op row', (pk', op) ∈ ops → pk' ≠ pk → op.result = some row' →
    columnsKey columns row' ≠ .ok key
  | [], _, _, _, _, hmem, _, _ => by simp at hmem
  | (other, op₀) :: ops, h, pk', op, row', hmem, hne, hrow => by
    rw [pendingClash] at h
    split at h
    · rename_i hskip
      rcases List.mem_cons.mp hmem with heq | hmem
      · cases heq
        simp [hne, hrow] at hskip
      · exact pendingClash_eq_false h pk' op row' hmem hne hrow
    · rename_i row₀ hrow₀
      obtain ⟨key₀, hkey₀, h⟩ := bind_eq_ok.mp h
      split at h
      · simp [pure, Except.pure] at h
      rename_i hdiff
      rcases List.mem_cons.mp hmem with heq | hmem
      · cases heq
        obtain rfl : row' = row₀ := by simpa [hne, hrow] using hrow₀
        rw [hkey₀]
        exact fun heq => hdiff (ok.inj heq)
      · exact pendingClash_eq_false h pk' op row' hmem hne hrow

theorem checkUnique_eq_ok {ops : Tree PendingOp} : ∀ {constraints : List UniqueIndex},
    checkUnique schema ops row pk constraints = .ok () → ∀ c ∈ constraints, ∃ key, columnsKey c.columns row = .ok key ∧
      pendingClash c.columns key pk ops.toList = .ok false ∧ committedClash c.tree ops key pk = false
  | [], _, _, hmem => by simp at hmem
  | c₀ :: constraints, h, c, hmem => by
    obtain ⟨key, hkey, h⟩ := bind_eq_ok.mp h
    obtain ⟨clash, hclash, h⟩ := bind_eq_ok.mp h
    split at h
    · simp at h
    rename_i hfree
    rcases mem_cons.mp hmem with rfl | hmem
    · simp only [Bool.or_eq_true, not_or, Bool.not_eq_true] at hfree
      exact ⟨key, hkey, hfree.1 ▸ hclash, hfree.2⟩
    · exact checkUnique_eq_ok h c hmem

/-- **An admitted row has a value of no other row** the transaction sees. -/
theorem checkUnique_view (ht : tx.base[table]? = some t) (hunique : t.UniqueOk t.rowAt)
    (h : checkUnique schema (tx.ops table) row pk t.unique = .ok ()) : ∀ columns ∈ t.schema.unique, ∀ pk' row' key,
      pk' ≠ pk → tx.view table pk' = some row' → columnsKey columns row' = .ok key → columnsKey columns row ≠ .ok key := by
  intro columns hcolumns pk' row' key hne hview hkey' hkey
  rw [← hunique.uniqueColumns] at hcolumns
  obtain ⟨c, hc, rfl⟩ := mem_map.mp hcolumns
  obtain ⟨key₀, hkey₀, hpending, hcommitted⟩ := checkUnique_eq_ok h c hc
  obtain rfl : key = key₀ := ok.inj (hkey.symm.trans hkey₀)
  rw [Tx.view] at hview
  rcases hop : tx.op table pk' with _ | op
  · -- a committed row without a pending operation is in the unique map
    rw [hop] at hview
    have hrow : t.rowAt pk' = some row' := by simpa [Tx.under, rowIn, ht] using hview
    have hown := Mirror.Mirrors.entry (hunique.unique c hc) hrow (toOption_eq_some.mpr hkey')
    have hnone : (tx.ops table)[pk']? = none := hop
    simp [committedClash, hown, hnone, hne] at hcommitted
  · rw [hop] at hview
    have hmem : (pk', op) ∈ (tx.ops table).toList := mem_toList_iff_getElem?_eq_some.mpr hop
    exact pendingClash_eq_false hpending pk' op row' hmem hne hview hkey'

theorem DistinctKeys.update {f : Rows} (h : DistinctKeys schema f)
    (hrow : ∀ columns ∈ schema.unique, ∀ pk' row' key, pk' ≠ pk → f pk' = some row' →
      columnsKey columns row' = .ok key → columnsKey columns row ≠ .ok key) :
    DistinctKeys schema (Function.update f pk (some row)) := by
  intro columns hcolumns pk₁ pk₂ row₁ row₂ key h₁ h₂ hkey₁ hkey₂
  by_cases hpk₁ : pk₁ = pk <;> by_cases hpk₂ : pk₂ = pk
  · rw [hpk₁, hpk₂]
  · subst hpk₁
    obtain rfl : row = row₁ := by simpa using h₁
    rw [update_of_ne hpk₂] at h₂
    exact absurd hkey₁ (hrow columns hcolumns pk₂ row₂ key hpk₂ h₂ hkey₂)
  · subst hpk₂
    obtain rfl : row = row₂ := by simpa using h₂
    rw [update_of_ne hpk₁] at h₁
    exact absurd hkey₂ (hrow columns hcolumns pk₁ row₁ key hpk₁ h₁ hkey₁)
  · rw [update_of_ne hpk₁] at h₁
    rw [update_of_ne hpk₂] at h₂
    exact h columns hcolumns pk₁ pk₂ row₁ row₂ key h₁ h₂ hkey₁ hkey₂

end Unique

/-! ### The session invariant -/

/-- What the calls of a session keep. -/
structure Session.Ok (cat : Catalog) (committed : Tables) (s : Session) : Prop where
  tx : s.tx.OkOver cat committed
  view : s.tx.view = sequential (rowIn committed) s.effects
  distinct : ∀ (table : Nat) schema, cat.tables[table]? = some schema → DistinctKeys schema (s.tx.view table)
  /-- A pending replacement differs from the committed row. -/
  changed : ∀ table pk row b, s.tx.op table pk = some (.update row) → rowIn committed table pk = some b →
    Row.same b row = false
  wrote : ∀ table pk wrote row, .put table pk wrote row ∈ s.effects →
    row = wrote ∨ rowIn committed table pk = some row ∧ Row.same row wrote = true

variable {tx : Tx} {pk : Bytes} {row : Row}

section Steps

variable {cat : Catalog} {srv : Services cat} {committed : Tables} {s : Session} {tx' : Tx} {table : Nat}

theorem sequential_append (m : Nat → Rows) (effects : List Effect) (e : Effect) :
    sequential m (effects ++ [e]) = e.apply (sequential m effects) := by
  simp [sequential]

theorem write_written {values stored : Row} {replace : Bool}
    (h : tx.write srv table values replace = .ok (tx', stored)) :
    ∃ pk row t op, tx.written srv table values = .ok (pk, row) ∧ tx.base[table]? = some t ∧
      cat.tables[table]?.isSome ∧ (occupied (tx.op table pk) (t.rowAt pk) = true → replace = true) ∧
      (∃ schema, checkUnique schema (tx.ops table) row pk t.unique = .ok ()) ∧
      place (tx.op table pk) (t.rowAt pk) row = .ok (op, stored) ∧
      (∀ table' pk', tx'.view table' pk' = if table = table' ∧ pk = pk' then some stored else tx.view table' pk') ∧
      ∃ writer, tx' = { tx with writer }.setOp table pk op := by
  obtain ⟨schema, derived, writer, assigned, pk, row, t, op, hprepare, hassign, -, hpk, hrow, ht, hocc, hunique, hplace, rfl⟩ :=
    write_eq_ok h
  refine ⟨pk, row, t, op, ?_, ht, by simp [(prepare_eq_ok hprepare).1], hocc, ⟨schema, hunique⟩, hplace,
    fun table' pk' => ?_, writer, rfl⟩
  · unfold Tx.written
    rw [hprepare]
    refine bind_eq_ok.mpr ⟨_, rfl, bind_eq_ok.mpr ⟨_, hassign, ?_⟩⟩
    exact bind_eq_ok.mpr ⟨pk, mapError_eq_ok.mpr hpk, bind_eq_ok.mpr ⟨row, hrow, rfl⟩⟩
  · rw [Tx.view_setOp]
    split
    · exact (congrArg (Tx.under op) (rowIn_eq ht pk)).trans (place_under hplace)
    · rfl

theorem view_update {row : Option Row}
    (h : ∀ table' pk', tx'.view table' pk' = if table = table' ∧ pk = pk' then row else tx.view table' pk') (table' : Nat) :
    tx'.view table' = if table = table' then update (tx.view table) pk row else tx.view table' := by
  funext pk'
  rw [h]
  by_cases ht : table = table'
  · subst ht
    by_cases hpk : pk' = pk
    · simp [hpk]
    · simp [hpk, Ne.symm hpk]
  · simp [ht]

/-- The values of the constraints stay distinct through an accepted write, if a deleted row that comes
back has none that another row took. -/
theorem distinct_write {stored : Row} {t : TableState} {op : Option PendingOp}
    {schema sch : TableSchema} (hok : tx.Ok cat) (hunique : UniqueMaps tx.base) (hschema : cat.tables[table]? = some schema)
    (hdistinct : DistinctKeys schema (tx.view table)) (ht : tx.base[table]? = some t)
    (hcheck : checkUnique sch (tx.ops table) row pk t.unique = .ok ())
    (hplace : place (tx.op table pk) (t.rowAt pk) row = .ok (op, stored))
    (hfree : tx.op table pk = some .delete → rowIn tx.base table pk = some stored → Row.same stored row = true →
      ∀ columns ∈ schema.unique, ∀ pk' row' key, pk' ≠ pk → tx.view table pk' = some row' →
        columnsKey columns row' = .ok key → columnsKey columns stored ≠ .ok key) :
    DistinctKeys schema (update (tx.view table) pk (some stored)) := by
  have hbase := rowIn_eq ht pk
  cases hschema.symm.trans (hok.base.schemaAt ht)
  have hnew := hdistinct.update (checkUnique_view ht (hunique table t ht) hcheck)
  rcases place_cases hplace with ⟨-, hcommitted, hsame, hnone | hdelete⟩ | ⟨-, rfl, -⟩ | ⟨-, rfl, -⟩
  · -- the committed row was visible before
    have hview : update (tx.view table) pk (some stored) = tx.view table := by
      rw [update_eq_self_iff, Tx.view, hnone, hbase, hcommitted]
      rfl
    rw [hview]
    exact hdistinct
  · -- a deleted row comes back as it was
    exact hdistinct.update (hfree hdelete (hbase.trans hcommitted) hsame)
  · exact hnew
  · exact hnew

/-- **An accepted write is one put.** -/
theorem Session.Ok.write {values stored : Row} {replace : Bool} (hs : s.Ok cat committed) (hunique : UniqueMaps committed)
    (hcond : WriteOk srv s.tx table values replace) (h : s.tx.write srv table values replace = .ok (tx', stored)) :
    ∃ pk row, s.tx.written srv table values = .ok (pk, row) ∧
      Session.Ok cat committed ⟨tx', s.effects ++ [.put table pk row stored]⟩ := by
  obtain ⟨pk, row, t, op, hwritten, ht, hknown, hocc, ⟨sch, hcheck⟩, hplace, hview, writer, htx'⟩ := write_written h
  have hcommitted : rowIn committed table pk = t.rowAt pk := hs.tx.2 ▸ rowIn_eq ht pk
  refine ⟨pk, row, hwritten, ⟨hs.tx.1.write h, ?_⟩, ?_, fun table' schema hschema => ?_, ?_, ?_⟩
  · rw [htx']
    exact hs.tx.2
  · funext table' pk'
    rw [hview, sequential_append, Effect.apply, hs.view]
  · rw [view_update hview]
    split
    · rename_i heq
      subst heq
      refine distinct_write hs.tx.1 (hs.tx.2 ▸ hunique) hschema (hs.distinct table schema hschema) ht hcheck hplace ?_
      intro hdelete hrow hsame
      exact (hcond schema pk row stored hschema hwritten hrow hsame).2 hdelete
    · exact hs.distinct table' schema hschema
  · intro table' pk' row' b hop hb
    rw [htx'] at hop
    rcases Tx.op_setOp_eq_some hop with ⟨rfl, rfl, hop⟩ | hop
    · rcases place_cases hplace with ⟨rfl, -, -, -⟩ | ⟨rfl, -, ⟨r, hr⟩ | ⟨c, hc, hdiff, -⟩⟩ | ⟨rfl, -, -⟩
      · simp at hop
      · -- a replacement was pending, so the row differs by the condition
        obtain rfl : row = row' := by simpa using hop
        have hreplace : replace = true := hocc (by simp [hr, occupied, PendingOp.result])
        obtain ⟨schema, hschema⟩ := isSome_iff_exists.mp hknown
        by_contra hsame
        have hb' : rowIn s.tx.base table pk = some b := hs.tx.2 ▸ hb
        exact (hcond schema pk row b hschema hwritten hb' (by simpa using hsame)).1 hreplace r hr
      · obtain rfl : row = row' := by simpa using hop
        obtain rfl : c = b := some.inj (hc.symm.trans (hcommitted.symm.trans hb))
        exact hdiff
      · simp at hop
    · exact hs.changed table' pk' row' b hop hb
  · intro table' pk' wrote' row' hmem
    rcases mem_append.mp hmem with hmem | hmem
    · exact hs.wrote table' pk' wrote' row' hmem
    · obtain ⟨rfl, rfl, rfl, rfl⟩ : table' = table ∧ pk' = pk ∧ wrote' = row ∧ row' = stored := by simpa using hmem
      rw [hcommitted]
      exact place_stored hplace

theorem delete_unreferenced {fuel : Nat} {pkValues : List RowValue} (hfks : cat.fksIn table = []) (hfuel : 0 < fuel) :
    tx.delete srv fuel table pkValues = some ((tx.deleteOne srv table pkValues).map fun r => (r.1, r.2.isSome)) := by
  obtain ⟨fuel, rfl⟩ := Nat.exists_eq_add_of_lt hfuel
  unfold Tx.delete
  rcases tx.deleteOne srv table pkValues with e | ⟨tx₁, _ | old⟩
  · rfl
  · rfl
  simp only [Nat.zero_add, Tx.deleteLoop, hfks]
  rw [foldlM_nil]
  simp only [pure, Except.pure, Tx.deleteLoop]
  rfl

/-- **An accepted delete is one drop.** -/
theorem Session.Ok.delete {pkValues : List RowValue} {old : Option Row} (hs : s.Ok cat committed)
    (h : s.tx.deleteOne srv table pkValues = .ok (tx', old)) :
    ∃ schema pk, cat.tables[table]? = some schema ∧ encodePkValues schema pkValues = .ok pk ∧
      Session.Ok cat committed ⟨tx', s.effects ++ [.drop table pk]⟩ := by
  obtain ⟨schema, pk, hschema, hpk, hold, hbase, hview⟩ := deleteOne_view hs.tx.1 h
  obtain ⟨_, pk₁, hschema₁, -, hpk₁, -, hcases⟩ := deleteOne_cases hs.tx.1 h
  cases hschema₁.symm.trans hschema
  cases hpk₁.symm.trans hpk
  refine ⟨_, _, hschema, hpk, ⟨hs.tx.1.deleteOne h, hbase.trans hs.tx.2⟩, ?_, fun table' schema hschema => ?_, ?_, ?_⟩
  · funext table' pk'
    rw [hview, sequential_append, Effect.apply, hs.view]
  · refine (hs.distinct table' schema hschema).mono fun k r hk => ?_
    rw [hview] at hk
    split at hk
    · simp at hk
    · exact hk
  · intro table' pk' row' b hop hb
    rcases hcases with ⟨rfl, -⟩ | ⟨rfl, -, -⟩ | ⟨rfl, -, -⟩
    · exact hs.changed table' pk' row' b hop hb
    all_goals
      rcases Tx.op_setOp_eq_some hop with ⟨-, -, hop⟩ | hop
      · cases hop
      · exact hs.changed table' pk' row' b hop hb
  · intro table' pk' wrote' row' hmem
    rcases mem_append.mp hmem with hmem | hmem
    · exact hs.wrote table' pk' wrote' row' hmem
    · simp at hmem

/-- **One call**, accepted or rejected, keeps the invariant. -/
theorem Session.Ok.step (hs : s.Ok cat committed) (hunique : UniqueMaps committed) {l : Services cat × TxCall}
    (hcond : CallOk s l ∧ Unreferenced cat l.2) : ∃ s', s.step l = some s' ∧ s'.Ok cat committed := by
  obtain ⟨srv, c⟩ := l
  obtain ⟨hcall, hfree⟩ := hcond
  have hokOver : ∀ {x}, s.tx.call srv c = some x → (Tx.after x).OkOver cat committed := call_okOver hs.tx
  cases c with
  | insert table values | upsert table values =>
    simp only [Tx.call] at hokOver
    unfold Session.step
    simp only [Tx.call, bind_eq_bind, bind_some]
    rcases hw : s.tx.write srv table values _ with ⟨e, tx₁⟩ | ⟨tx₁, stored⟩
    · obtain ⟨writer, rfl, -⟩ := write_error hw
      have hok := hokOver rfl
      rw [hw] at hok
      exact ⟨_, rfl, hok, hs.view, hs.distinct, hs.changed, hs.wrote⟩
    · obtain ⟨pk, row, hwritten, hok⟩ := hs.write hunique hcall hw
      refine ⟨_, rfl, ?_⟩
      simpa [effectOf, hwritten, Except.toOption] using hok
  | delete fuel table pkValues =>
    obtain ⟨hfks, hfuel⟩ := hfree
    unfold Session.step
    simp only [Tx.call, delete_unreferenced hfks hfuel, map_some, bind_eq_bind, bind_some]
    rcases hd : s.tx.deleteOne srv table pkValues with ⟨e, tx₁⟩ | ⟨tx₁, old⟩
    · obtain rfl : tx₁ = s.tx := deleteOne_error hd
      exact ⟨_, rfl, hs⟩
    · obtain ⟨schema, pk, hschema, hpk, hok⟩ := hs.delete hd
      refine ⟨_, rfl, ?_⟩
      simpa [effectOf, hschema, hpk, Except.toOption] using hok

end Steps

/-! ### Rows at their keys -/

section Keys

variable {schema : TableSchema} {inserts : List Row} {d : TableDiff}

theorem find_key_eq_some (hnodup : (inserts.map fun row => (encodePkOfRow schema row).toOption).Nodup) (hrow : row ∈ inserts)
    (hkey : encodePkOfRow schema row = .ok pk) :
    inserts.find? (fun row => (encodePkOfRow schema row).toOption = some pk) = some row := by
  induction inserts with
  | nil => simp at hrow
  | cons r inserts ih =>
    rw [map_cons, nodup_cons] at hnodup
    rcases mem_cons.mp hrow with rfl | hmem
    · simp [hkey, Except.toOption]
    have hne : (encodePkOfRow schema r).toOption ≠ some pk := by
      intro heq
      refine hnodup.1 (mem_map.mpr ⟨row, hmem, ?_⟩)
      rw [heq, hkey]
      rfl
    rw [find?_cons_of_neg (by simpa using hne), ih hnodup.2 hmem]

theorem toOption_key {x : Except RowError Bytes} : x.toOption = some pk ↔ x = .ok pk := by
  cases x <;> simp [Except.toOption]

theorem TableDiff.write_eq_none : d.write schema pk = none ↔
    (∀ row ∈ d.inserts, encodePkOfRow schema row ≠ .ok pk) ∧ pk ∉ d.deletes.map Prod.fst := by
  unfold TableDiff.write
  cases hfind : d.inserts.find? fun row => (encodePkOfRow schema row).toOption = some pk with
  | some row =>
    have hkey : (encodePkOfRow schema row).toOption = some pk := by simpa using find?_some hfind
    constructor
    · intro h
      simp at h
    · intro h
      exact absurd (toOption_key.mp hkey) (h.1 row (mem_of_find?_eq_some hfind))
  | none =>
    rw [find?_eq_none] at hfind
    have hno : ∀ row ∈ d.inserts, encodePkOfRow schema row ≠ .ok pk := fun row hrow hkey =>
      hfind row hrow (by simpa using toOption_key.mpr hkey)
    rw [elim_none]
    by_cases hmem : pk ∈ d.deletes.map fst
    · rw [if_pos (contains_iff_mem.mpr hmem)]
      constructor
      · intro h
        simp at h
      · intro h
        exact absurd hmem h.2
    · rw [if_neg (contains_iff_mem.not.mpr hmem)]
      exact ⟨fun _ => ⟨hno, hmem⟩, fun _ => rfl⟩

theorem TableDiff.mem_of_write (h : d.write schema pk = some (some row)) :
    row ∈ d.inserts ∧ encodePkOfRow schema row = .ok pk := by
  unfold TableDiff.write at h
  cases hfind : d.inserts.find? fun row => (encodePkOfRow schema row).toOption = some pk with
  | some row' =>
    rw [hfind, elim_some] at h
    cases h
    refine ⟨mem_of_find?_eq_some hfind, toOption_key.mp ?_⟩
    simpa using find?_some hfind
  | none =>
    rw [hfind, elim_none] at h
    split at h <;> simp at h

/-- The rows with `inserts` put at their keys. -/
def putRows (schema : TableSchema) (inserts : List Row) (f : Rows) (pk : Bytes) : Option Row :=
  (inserts.find? fun row => (encodePkOfRow schema row).toOption = some pk).elim (f pk) some

theorem putRows_cons (hkey : encodePkOfRow schema row = .ok pk)
    (hother : ∀ r ∈ inserts, encodePkOfRow schema r ≠ .ok pk) (f : Rows) :
    putRows schema (row :: inserts) f = putRows schema inserts (update f pk (some row)) := by
  funext k
  unfold putRows
  by_cases hk : k = pk
  · subst hk
    have hnone : inserts.find? (fun r => (encodePkOfRow schema r).toOption = some k) = none := by
      rw [find?_eq_none]
      intro r hr hkey
      exact hother r hr (toOption_key.mp (by simpa using hkey))
    rw [find?_cons_of_pos (by simpa using toOption_key.mpr hkey), hnone]
    simp
  · have hne : ¬ (encodePkOfRow schema row).toOption = some k := fun hkey' =>
      hk (ok.inj ((toOption_key.mp hkey').symm.trans hkey))
    rw [find?_cons_of_neg (by simpa using hne), update_of_ne hk]

theorem other_keys (hnodup : ((row :: inserts).map fun row => (encodePkOfRow schema row).toOption).Nodup)
    (hkey : encodePkOfRow schema row = .ok pk) : ∀ r ∈ inserts, encodePkOfRow schema r ≠ .ok pk := fun r hr hkey' =>
  (nodup_cons.mp hnodup).1 (mem_map.mpr ⟨r, hr, by simp only [hkey, hkey']⟩)

theorem putRows_removed (d : TableDiff) (schema : TableSchema) (f : Rows) :
    putRows schema d.inserts (fun pk => if pk ∈ d.deletes.map Prod.fst then none else f pk) =
      fun pk => (d.write schema pk).getD (f pk) := by
  funext pk
  unfold putRows TableDiff.write
  cases d.inserts.find? fun row => (encodePkOfRow schema row).toOption = some pk with
  | some row => rfl
  | none =>
    simp only [elim_none, List.contains_iff_mem]
    split <;> rfl

theorem foldl_removeEntry : ∀ (l : List (Bytes × Row)) (f : Rows),
    l.foldl removeEntry f = fun pk => if pk ∈ l.map Prod.fst then none else f pk
  | [], f => by simp
  | p :: l, f => by
    rw [foldl_cons, foldl_removeEntry l]
    funext pk
    simp only [removeEntry, update_apply, map_cons, mem_cons]
    by_cases hpk : pk = p.1
    · simp [hpk]
    · simp only [hpk, false_or, if_false]

theorem foldl_putEntry : ∀ {inserts : List Row} {f : Rows},
    (∀ row ∈ inserts, ∃ pk, encodePkOfRow schema row = .ok pk) →
    (inserts.map fun row => (encodePkOfRow schema row).toOption).Nodup →
    inserts.foldl (putEntry schema) f = putRows schema inserts f
  | [], _, _, _ => rfl
  | row :: inserts, f, hkeys, hnodup => by
    obtain ⟨pk, hkey⟩ := hkeys row (by simp)
    rw [putRows_cons hkey (other_keys hnodup hkey), foldl_cons, putEntry, hkey]
    exact foldl_putEntry (fun r hr => hkeys r (mem_cons_of_mem _ hr)) (nodup_cons.mp hnodup).2

end Keys

/-! ### The diff is the net effect -/

section Diff

variable {schema : TableSchema} {rows : Rows}

/-- The rows the operations put, with their keys. -/
def puts (ops : PendingOps) : List (Bytes × Row) := ops.filterMap fun p => p.2.result.map (p.1, ·)

/-- The rows the operations take away, with their keys. -/
def takes (rows : Rows) (ops : PendingOps) : List (Bytes × Row) :=
  ops.filterMap fun p => (p.2.removed (rows p.1)).map (p.1, ·)

variable {ops : PendingOps}

theorem mem_puts : (pk, row) ∈ puts ops ↔ ∃ op, (pk, op) ∈ ops ∧ op.result = some row := by
  simp only [puts, mem_filterMap, Option.map_eq_some_iff, Prod.exists, Prod.mk.injEq]
  constructor
  · rintro ⟨k, op, hmem, r, hr, rfl, rfl⟩
    exact ⟨op, hmem, hr⟩
  · rintro ⟨op, hmem, hr⟩
    exact ⟨pk, op, hmem, row, hr, rfl, rfl⟩

theorem mem_takes :
    (pk, row) ∈ takes rows ops ↔ ∃ op, (pk, op) ∈ ops ∧ op.releases = true ∧ rows pk = some row := by
  simp only [takes, mem_filterMap, Option.map_eq_some_iff, Prod.exists, Prod.mk.injEq, PendingOp.removed]
  constructor
  · rintro ⟨k, op, hmem, r, hr, rfl, rfl⟩
    split at hr
    · exact ⟨op, hmem, ‹_›, hr⟩
    · simp at hr
  · rintro ⟨op, hmem, hrel, hr⟩
    exact ⟨pk, op, hmem, row, by simp [hrel, hr], rfl, rfl⟩

theorem nodup_puts (h : (ops.map Prod.fst).Nodup) : ((puts ops).map Prod.fst).Nodup :=
  nodup_keys_filterMap (fun p q hq => by obtain ⟨r, -, rfl⟩ := map_eq_some_iff.mp hq; rfl) h

theorem nodup_putKeys (hnodup : (ops.map Prod.fst).Nodup) (hkeys : ∀ p ∈ puts ops, encodePkOfRow schema p.2 = .ok p.1) :
    (((puts ops).map Prod.snd).map fun row => (encodePkOfRow schema row).toOption).Nodup := by
  have hkeyOf : ((puts ops).map snd).map (fun row => (encodePkOfRow schema row).toOption) =
      ((puts ops).map Prod.fst).map some := by
    rw [List.map_map, List.map_map]
    refine map_congr_left fun p hp => ?_
    simp [hkeys p hp, Except.toOption]
  rw [hkeyOf]
  exact (nodup_puts hnodup).map (some_injective _)

theorem nodup_takes (h : (ops.map Prod.fst).Nodup) : ((takes rows ops).map Prod.fst).Nodup :=
  nodup_keys_filterMap (fun p q hq => by obtain ⟨r, -, rfl⟩ := map_eq_some_iff.mp hq; rfl) h

theorem diffOf_eq : ∀ {ops : PendingOps} {d : TableDiff} {rows : Rows},
    (ops.map Prod.fst).Nodup →
    diffOf d rows ops = ⟨d.tableId, d.inserts ++ (puts ops).map Prod.snd, d.deletes ++ takes rows ops⟩
  | [], d, rows, _ => by simp [diffOf, puts, takes]
  | (pk, op) :: ops, d, rows, hnodup => by
    rw [List.map_cons, List.nodup_cons] at hnodup
    have htakes : takes (update rows pk op.result) ops = takes rows ops :=
      List.filterMap_congr fun p hp => by
        rw [update_of_ne (by rintro rfl; exact hnodup.1 (List.mem_map.mpr ⟨p, hp, rfl⟩))]
    rw [diffOf, diffOf_eq hnodup.2, htakes]
    have hputs : puts ((pk, op) :: ops) = (op.result.map (pk, ·)).toList ++ puts ops := by
      cases hr : op.result <;> simp [puts, hr]
    have htakes' : takes rows ((pk, op) :: ops) = ((op.removed (rows pk)).map (pk, ·)).toList ++ takes rows ops := by
      cases hr : op.removed (rows pk) <;> simp [takes, hr]
    rw [hputs, htakes']
    cases hr : op.result <;> simp [TableDiff.add, hr]

section Ops

variable (tableId : Nat) (hnodup : (ops.map Prod.fst).Nodup) (hover : ∀ pk op, (pk, op) ∈ ops → op.Overlays (rows pk))
variable (hkeys : ∀ pk op row, (pk, op) ∈ ops → op.result = some row → encodePkOfRow schema row = .ok pk)
include hkeys

theorem key_of_put : ∀ p ∈ puts ops, encodePkOfRow schema p.2 = .ok p.1 := by
  intro p hp
  obtain ⟨op, hmem, hrow⟩ := mem_puts.mp hp
  exact hkeys p.1 op p.2 hmem hrow

include hnodup hover

/-- **The diff of a table's operations says of each key what the operation on it does.** -/
theorem write_diffOf (pk : Bytes) :
    (∀ op, (pk, op) ∈ ops → (diffOf ⟨tableId, [], []⟩ rows ops).write schema pk = some op.result) ∧
    (pk ∉ ops.map Prod.fst → (diffOf ⟨tableId, [], []⟩ rows ops).write schema pk = none) := by
  have hputs := key_of_put hkeys
  rw [diffOf_eq hnodup]
  refine ⟨fun op hop => ?_, fun hno => TableDiff.write_eq_none.mpr ⟨fun row hrow hkey => ?_, fun hdel => ?_⟩⟩
  · unfold TableDiff.write
    cases hres : op.result with
    | some row =>
      have hput : (pk, row) ∈ puts ops := mem_puts.mpr ⟨op, hop, hres⟩
      rw [nil_append, find_key_eq_some (nodup_putKeys hnodup hputs) (mem_map_of_mem hput) (hputs _ hput)]
      rfl
    | none =>
      -- a delete: the row that was there is taken away, and none is put
      have hnone : ((puts ops).map snd).find? (fun row => (encodePkOfRow schema row).toOption = some pk) = none := by
        rw [find?_eq_none]
        intro row hrow hkey
        obtain ⟨p, hp, rfl⟩ := mem_map.mp hrow
        obtain rfl := ok.inj ((hputs p hp).symm.trans (toOption_key.mp (by simpa using hkey)))
        obtain ⟨op', hop', hrow'⟩ := mem_puts.mp hp
        have hsame : overlay rows ops p.1 = op.result := overlay_of_mem hnodup hop
        rw [overlay_of_mem hnodup hop', hres, hrow'] at hsame
        cases hsame
      have hrel : op.releases = true := by cases op <;> simp_all [PendingOp.result, PendingOp.releases]
      obtain ⟨row, hrow⟩ := isSome_iff_exists.mp ((hover pk op hop).trans hrel)
      have hdel : pk ∈ (takes rows ops).map fst := mem_map_of_mem (mem_takes.mpr ⟨op, hop, hrel, hrow⟩)
      rw [nil_append, nil_append, hnone, elim_none, if_pos (List.contains_iff_mem.mpr hdel)]
  · obtain ⟨p, hp, rfl⟩ := mem_map.mp hrow
    obtain rfl := ok.inj ((hputs p hp).symm.trans hkey)
    obtain ⟨op, hop, -⟩ := mem_puts.mp hp
    exact hno (mem_map_of_mem hop)
  · obtain ⟨p, hp, rfl⟩ := mem_map.mp hdel
    obtain ⟨op, hop, -⟩ := mem_takes.mp hp
    exact hno (mem_map_of_mem hop)

/-- **Applying a diff to the rows before gives the rows after.** -/
theorem applyTo_diffOf : (diffOf ⟨tableId, [], []⟩ rows ops).applyTo schema rows = overlay rows ops := by
  have hputs := key_of_put hkeys
  have hwrite := write_diffOf tableId hnodup hover hkeys
  have hinserts : (diffOf ⟨tableId, [], []⟩ rows ops).inserts = (puts ops).map snd := by
    rw [diffOf_eq hnodup]
    rfl
  rw [TableDiff.applyTo, foldl_removeEntry, foldl_putEntry, putRows_removed]
  · funext pk
    by_cases hmem : pk ∈ ops.map fst
    · obtain ⟨⟨k, op⟩, hk, rfl⟩ := mem_map.mp hmem
      rw [(hwrite k).1 op hk, overlay_of_mem hnodup hk]
      rfl
    · rw [(hwrite pk).2 hmem, overlay_of_not_mem hmem]
      rfl
  · intro row hrow
    rw [hinserts] at hrow
    obtain ⟨p, hp, rfl⟩ := mem_map.mp hrow
    exact ⟨p.1, hputs p hp⟩
  · rw [hinserts]
    exact nodup_putKeys hnodup hputs

/-- **The diff of a table's operations is their net effect**, if no replacement is equal to the row
it replaces. -/
theorem netEffect_diffOf (hchanged : ∀ pk row b, (pk, .update row) ∈ ops → rows pk = some b → Row.same b row = false) :
    (diffOf ⟨tableId, [], []⟩ rows ops).NetEffect schema rows (overlay rows ops) := by
  have heq : diffOf ⟨tableId, [], []⟩ rows ops = ⟨tableId, (puts ops).map snd, takes rows ops⟩ := by
    rw [diffOf_eq hnodup]
    rfl
  refine ⟨applyTo_diffOf tableId hnodup hover hkeys, ?_, ?_, ?_, ?_⟩
  · rw [heq]
    rintro ⟨pk, row⟩ hp
    obtain ⟨-, -, -, hrow⟩ := mem_takes.mp hp
    exact hrow
  · rw [heq]
    exact nodup_takes hnodup
  · rw [heq]
    exact nodup_putKeys hnodup (key_of_put hkeys)
  · intro pk row row' hbefore hafter hsame
    -- an operation on the key would be an insert over a row, a delete that leaves one, or an unchanged update
    have hno : pk ∉ ops.map fst := by
      intro hmem
      obtain ⟨⟨k, op⟩, hk, rfl⟩ := mem_map.mp hmem
      have hoverlay := hover k op hk
      rw [overlay_of_mem hnodup hk] at hafter
      cases op with
      | insert r => simp [hbefore, PendingOp.Overlays, PendingOp.releases] at hoverlay
      | delete => simp [PendingOp.result] at hafter
      | update r =>
        obtain rfl : r = row' := by simpa [PendingOp.result] using hafter
        simp [hchanged k r row hk hbefore] at hsame
    exact (TableDiff.write_eq_none.mp ((write_diffOf tableId hnodup hover hkeys pk).2 hno)).symm

end Ops

end Diff

/-! ### Transactions refine sequential execution -/

section Exact

variable {cat : Catalog} {committed : Tables} {s : Session}

theorem map_tableId_of_merged {tables : Tables} {diffs : List TableDiff}
    (h : List.Forall₂ (Merged cat.fits tx.base tables) (touched tx.pending.toList) diffs) :
    diffs.map TableDiff.tableId = (touched tx.pending.toList).map Prod.fst := by
  have hpairs : Forall₂ (· = ·) ((touched tx.pending.toList).map fst) (diffs.map TableDiff.tableId) := by
    rw [forall₂_map_left_iff, forall₂_map_right_iff]
    refine h.imp fun p d hmerged => ?_
    obtain ⟨t, t', -, hmerge, -⟩ := hmerged
    have hd : d = diffOf ⟨p.1, [], []⟩ t.rowAt p.2.toList := (mergeTable_eq_ok hmerge).2.2.2.1
    rw [hd, diffOf_tableId]
  rw [forall₂_eq_eq_eq] at hpairs
  exact hpairs.symm

theorem Session.Ok.netEffect (hs : s.Ok cat committed) {diff : TxDiff} {store : MemStore}
    (h : s.tx.commit cat = .ok (diff, store)) : diff.NetEffect cat (rowIn committed) s.tx.view := by
  obtain ⟨tables, -, hmerged, -, -⟩ := commit_eq_ok h
  have hid := map_tableId_of_merged hmerged
  refine ⟨?_, fun d hd => ?_, fun table htable => ?_⟩
  · rw [hid]
    exact (nodup_keys_toList s.tx.pending).sublist (filter_sublist.map _)
  · obtain ⟨⟨table, ops⟩, hmem, hd⟩ := forall₂_exists_left hmerged hd
    obtain ⟨t, t', ht, hmerge, -⟩ := hd
    obtain rfl : s.tx.ops table = ops := by simp [Tx.ops, (mem_touched.mp hmem).1]
    obtain rfl := (mergeTable_eq_ok hmerge).2.2.2.1
    have hschema := hs.tx.1.base.schemaAt ht
    have hrows : rowIn committed table = t.rowAt := funext (rowIn_eq (hs.tx.2 ▸ ht))
    have hafter : s.tx.view table = overlay t.rowAt (s.tx.ops table).toList := by
      funext pk
      rw [overlay_ops, Tx.view, hs.tx.2, hrows]
    rw [diffOf_tableId]
    refine ⟨t.schema, hschema, ?_⟩
    rw [hafter, hrows]
    refine netEffect_diffOf table (nodup_keys_toList _) (hs.tx.1.overlayOk ht) ?_ ?_
    · intro pk op row hop hrow
      have hop := mem_toList_iff_getElem?_eq_some.mp hop
      exact (hs.tx.1.stored table t.schema pk op row hschema hop hrow).key
    · intro pk row b hop hb
      have hop := mem_toList_iff_getElem?_eq_some.mp hop
      exact hs.changed table pk row b hop (by rw [hrows, hb])
  · funext pk
    rw [hid] at htable
    rw [Tx.view, op_eq_none_of_not_touched htable, hs.tx.2]
    rfl

theorem Session.Ok.exact (hs : s.Ok cat committed) (hunique : UniqueMaps committed) : s.Exact cat committed := by
  refine ⟨hs.wrote, fun table schema hschema => ?_, fun hputs => ?_, fun diff store h => ?_⟩
  · obtain ⟨t, ht, rfl⟩ := hs.tx.1.base.exists_table hschema
    refine ⟨s.tx.entries table t, Tx.scanAll_eq ht, Tx.nodup_entries hs.tx.1 ht, fun pk row => ⟨?_, fun hmem => ?_⟩⟩
    · rw [Tx.mem_entries hs.tx.1 ht, hs.view]
    · exact (hs.tx.1.storedRow_of_view hschema ((Tx.mem_entries hs.tx.1 ht).mp hmem)).key
  · refine (commit_ends hs.tx.1 (hs.tx.2 ▸ hunique) hs.distinct fun table schema pk op row hschema hop hrow => ?_).exists_ok
    exact (hputs table schema pk op row hschema hop hrow).upTo
  · rw [← hs.view]
    refine ⟨?_, hs.netEffect h⟩
    funext table pk
    exact commit_rowIn h table pk

/-- **A transaction refines sequential execution.** From every store in order, for every list of
calls on tables that no foreign key references: if every call meets the condition in the state it
is made in, then after the calls scans show the sequential map, a commit publishes it, and the diff
is its net effect. -/
theorem tx_refines_sequential {store : MemStore} (hstore : store.Ok cat) {calls : List (Services cat × TxCall)}
    (htables : ∀ l ∈ calls, Unreferenced cat l.2) (hcalls : Runs.Meets Session.step CallOk ⟨store.begin, []⟩ calls) :
    ∃ s, Runs.run Session.step ⟨store.begin, []⟩ calls = some s ∧ s.Exact cat store.committed := by
  have hbegin : Session.Ok cat store.committed ⟨store.begin, []⟩ := by
    have hop : ∀ table pk, store.begin.op table pk = none := fun table pk => by simp [MemStore.begin, Tx.op, Tx.ops]
    have hview : store.begin.view = rowIn store.committed := by
      funext table pk
      rw [Tx.view, hop]
      rfl
    refine ⟨begin_okOver hstore.tables hstore.dirty, hview, fun table schema hschema => ?_, ?_, by simp⟩
    · obtain ⟨t, ht, rfl⟩ := hstore.tables.exists_table hschema
      rw [hview, funext (rowIn_eq ht)]
      exact (hstore.unique table t ht).distinct
    · intro table pk row b hupdate
      simp [hop] at hupdate
  have hmeets := hcalls.and (Runs.meets_of_forall (D := fun l => Unreferenced cat l.2) htables)
  obtain ⟨s, hrun, hs⟩ := Runs.exists_run_of_meets (I := fun s => s.Ok cat store.committed)
    (fun s l hs hc => hs.step hstore.unique hc) hbegin hmeets
  exact ⟨s, hrun, hs.exact hstore.unique⟩

end Exact

/-! ### Runs on one table -/

/-- The call writes no row equal to the committed one at its key. -/
def Session.fresh {cat : Catalog} (s : Session) (l : Services cat × TxCall) : Bool :=
  match l.2 with
  | .insert table values | .upsert table values =>
    match s.tx.written l.1 table values with
    | .ok (pk, row) => !(rowIn s.tx.base table pk).any (Row.same · row)
    | .error _ => true
  | .delete .. => true

theorem callOk_of_fresh {cat : Catalog} {s : Session} {l : Services cat × TxCall} (h : s.fresh l = true) : CallOk s l := by
  obtain ⟨srv, c⟩ := l
  cases c with
  | insert table values | upsert table values =>
    intro schema pk row b _ hwritten hb hsame
    simp [Session.fresh, hwritten, hb, hsame] at h
  | delete fuel table pkValues => trivial

/-- One account is committed. -/
def openRun : List (Cluster.Step accountCatalog) :=
  [.begin 0, .call 0 (plainServices _) (.insert 1 (account 1 [7] 30)), .commit 0 ⟨0, 0, [], "open"⟩]

/-- The account is renamed, deleted, opened again, and its first handle given to another. -/
def renameCalls : List (Services accountCatalog × TxCall) :=
  let srv := plainServices accountCatalog
  [(srv, .upsert 1 (account 1 [8] 30)), (srv, .delete 1 1 [.scalar (.u64 1)]), (srv, .insert 1 (account 1 [9] 30)),
    (srv, .insert 1 (account 2 [9] 40)), (srv, .insert 1 (account 2 [7] 40))]

theorem tx_refines_sequential_renameCalls : ∃ c s,
    Runs.run (Cluster.step accountCatalog) (.new accountCatalog) openRun = some c ∧
    Runs.run Session.step ⟨(c.node 0).store.begin, []⟩ renameCalls = some s ∧ s.effects.length = 4 ∧
    s.Exact accountCatalog (c.node 0).store.committed := by
  obtain ⟨c, hc, hfresh, s', hs', hlen⟩ : ∃ c ∈ Runs.run (Cluster.step accountCatalog) (.new accountCatalog) openRun,
      Runs.Meets Session.step (fun s l => s.fresh l = true) ⟨(c.node 0).store.begin, []⟩ renameCalls ∧
      ∃ s ∈ Runs.run Session.step ⟨(c.node 0).store.begin, []⟩ renameCalls, s.effects.length = 4 := by
    decide +kernel
  have hok : c.Ok accountCatalog :=
    Runs.run_invariant (fun _ l _ h hstep => Cluster.step_ok (by simp [accountCatalog]) l h hstep) (Cluster.ok_new _) hc
  have hfks : ∀ table, accountCatalog.fksIn table = [] := fun _ => rfl
  have htables : ∀ l ∈ renameCalls, Unreferenced accountCatalog l.2 := by simp [renameCalls, Unreferenced, hfks]
  obtain ⟨s, hs, hexact⟩ := tx_refines_sequential (hok.store 0) htables (hfresh.imp fun _ _ => callOk_of_fresh)
  cases hs.symm.trans hs'
  exact ⟨c, _, hc, hs, hlen, hexact⟩

/-- The account is renamed and renamed back. -/
def renameBack : List (Services accountCatalog × TxCall) :=
  let srv := plainServices accountCatalog
  [(srv, .upsert 1 (account 1 [8] 30)), (srv, .upsert 1 (account 1 [7] 30))]

/-- The diff of a transaction that restores a row deletes and inserts it. -/
theorem upsert_back_reports_unchanged_row : ∃ c s,
    Runs.run (Cluster.step accountCatalog) (.new accountCatalog) openRun = some c ∧
    Runs.run Session.step ⟨(c.node 0).store.begin, []⟩ renameBack = some s ∧
    ¬ s.Exact accountCatalog (c.node 0).store.committed := by
  obtain ⟨c, hc, s, hs, ⟨diff, store⟩, hcommit, d, hd, p, hp, before, hbefore, after, hafter, hsame⟩ :
      ∃ c ∈ Runs.run (Cluster.step accountCatalog) (.new accountCatalog) openRun,
        ∃ s ∈ Runs.run Session.step ⟨(c.node 0).store.begin, []⟩ renameBack,
          ∃ r ∈ (s.tx.commit accountCatalog).toOption, ∃ d ∈ r.1.tables, ∃ p ∈ d.deletes,
            ∃ before ∈ rowIn (c.node 0).store.committed d.tableId p.1,
              ∃ after ∈ sequential (rowIn (c.node 0).store.committed) s.effects d.tableId p.1,
                Row.same before after := by
    decide +kernel
  refine ⟨c, s, hc, hs, fun hexact => ?_⟩
  obtain ⟨schema, -, hnet⟩ := (hexact.publishes diff store (toOption_eq_some_iff.mp hcommit)).2.table d hd
  exact (hnet.unchanged p.1 before after hbefore hafter hsame).1 (mem_map_of_mem hp)

end Fluxum
