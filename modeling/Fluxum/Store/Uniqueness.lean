/-
# Eager uniqueness

`Tx::write` checks every `#[unique]` constraint against the rows the
transaction sees, so that the commit has nothing left to refuse.

* `unique_check_exact`: the check is exact in every buffer, and the commit finds
  no clash unless a write revives a deleted row under another key.
* `restored_row_clashes`: a write that equals the committed row of its key,
  deleted before, puts that row back as it was, and equal rows may have
  different constraint keys (`0.0` and `-0.0`).
-/
import Fluxum.Store.Refinement
import Fluxum.Store.RejectedDelete

namespace Fluxum

open Std (ExtTreeMap)
open Outcome List Std.ExtTreeMap Option

/-! ### The check -/

/-- Another row the transaction sees has the key that `row` has over the columns. -/
def Tx.Shares (tx : Tx) (table : Nat) (columns : List Nat) (pk : Bytes) (row : Row) : Prop :=
  ∃ pk' row' key, pk' ≠ pk ∧ tx.view table pk' = some row' ∧ columnsKey columns row' = .ok key ∧
    columnsKey columns row = .ok key

/-- The row at `pk` would break a constraint of the table. -/
def Tx.Conflicts (tx : Tx) (table : Nat) (schema : TableSchema) (pk : Bytes) (row : Row) : Prop :=
  ∃ columns ∈ schema.unique, tx.Shares table columns pk row

section Check

variable {cat : Catalog} {tx : Tx} {table : Nat} {t : TableState} {pk : Bytes} {row : Row}

/-- A pending row other than the one at `pk` has the key. -/
def PendingShares (columns : List Nat) (key pk : Bytes) (ops : PendingOps) : Prop :=
  ∃ pk' op row', (pk', op) ∈ ops ∧ pk' ≠ pk ∧ op.result = some row' ∧ columnsKey columns row' = .ok key

theorem PendingShares.cons {columns : List Nat} {key : Bytes} {p : Bytes × PendingOp} {ops : PendingOps}
    (h : PendingShares columns key pk ops) : PendingShares columns key pk (p :: ops) := by
  obtain ⟨pk', op, row', hmem, h⟩ := h
  exact ⟨pk', op, row', mem_cons_of_mem _ hmem, h⟩

end Check

/-! ### A write -/

/-- A write of `values` gets as far as the unique check, with the row it is about to store and its key. -/
def Reaches {cat : Catalog} (srv : Services cat) (tx : Tx) (table : Nat) (values : Row) (replace : Bool)
    (schema : TableSchema) (pk : Bytes) (row : Row) : Prop :=
  ∃ derived writer assigned t, prepare srv table values = .ok (schema, derived) ∧
    assignAutoInc cat.autoIncStep tx.writer table schema derived = .ok (writer, assigned) ∧
    tx.checkConstraints cat table schema assigned = .ok () ∧ encodePkOfRow schema assigned = .ok pk ∧
    srv.onWriteRow.run table assigned pk = .ok row ∧ tx.base[table]? = some t ∧
    (occupied (tx.op table pk) (t.rowAt pk) = true → replace = true)

section Errors

variable {cat : Catalog} {srv : Services cat} {tx : Tx} {table : Nat} {schema : TableSchema} {values : Row}

end Errors

section Write

variable {cat : Catalog} {srv : Services cat} {tx : Tx} {table : Nat} {schema : TableSchema} {values : Row} {replace : Bool}
  {pk : Bytes} {row : Row}

theorem Reaches.length (h : Reaches srv tx table values replace schema pk row) :
    cat.tables[table]? = some schema ∧ row.length = schema.columns.length := by
  obtain ⟨derived, writer, assigned, t, hprepare, hassign, -, hpk, hrow, -, -⟩ := h
  obtain ⟨hschema, -, -, htyped⟩ := prepare_eq_ok hprepare
  exact ⟨hschema, (storedRow_of_run hschema ((assignAutoInc_eq_ok hassign).2.2 htyped) hpk hrow).length⟩

end Write

/-! ### Constraint keys stay distinct -/

/-- No two rows the transaction sees share a constraint key. -/
def Tx.Distinct (cat : Catalog) (tx : Tx) : Prop :=
  ∀ (table : Nat) schema, cat.tables[table]? = some schema → DistinctKeys schema (tx.view table)

/-- A write equals the committed row of its key, which the transaction deleted, and another row the transaction sees has
a constraint key of that committed row. -/
def Revives {cat : Catalog} (srv : Services cat) (tx : Tx) (table : Nat) (values : Row) : Prop :=
  ∃ schema pk row b, cat.tables[table]? = some schema ∧ tx.written srv table values = .ok (pk, row) ∧
    tx.op table pk = some .delete ∧ rowIn tx.base table pk = some b ∧ Row.same b row = true ∧ tx.Conflicts table schema pk b

/-- A column that `set_null` clears in the key of a table is in a table without constraints. -/
def Catalog.NullsKeep (cat : Catalog) : Prop :=
  ∀ fk ∈ cat.fks, fk.onDelete = .setNull → fk.childOrdinal ∈ fk.childSchema.primaryKey → fk.childSchema.unique = []

/-- What the calls of a transaction keep. -/
structure Orderly (cat : Catalog) (base : Tables) (tx : Tx) : Prop where
  going : Going cat base tx
  distinct : tx.Distinct cat

section Distinct

variable {cat : Catalog} {srv : Services cat} {base : Tables} {tx tx' : Tx} {table : Nat}

theorem Orderly.writer {writer : WriterState} (h : Orderly cat base tx) (hgoing : Going cat base { tx with writer }) :
    Orderly cat base { tx with writer } :=
  ⟨hgoing, h.distinct⟩

theorem Tx.Distinct.write {values stored : Row} {replace : Bool} (h : tx.Distinct cat) (hok : tx.Ok cat)
    (hunique : UniqueMaps tx.base) (hfree : ¬ Revives srv tx table values)
    (hw : tx.write srv table values replace = .ok (tx', stored)) : tx'.Distinct cat := by
  obtain ⟨pk, row, t, op, hwritten, ht, hknown, -, ⟨sch, hcheck⟩, hplace, hview, writer, -⟩ := write_written hw
  intro table' schema hschema
  rw [view_update hview]
  split
  · rename_i heq
    subst heq
    refine distinct_write hok hunique hschema (h table schema hschema) ht hcheck hplace ?_
    intro hdelete hrow hsame columns hcolumns pk' row' key hne hseen hkey' hkey
    exact hfree ⟨schema, pk, row, stored, hschema, hwritten, hdelete, hrow, hsame, columns, hcolumns, pk', row', key, hne,
      hseen, hkey', hkey⟩
  · exact h table' schema hschema

theorem Orderly.deleteOne (h : Orderly cat base tx) (table : Nat) (pkValues : List RowValue) :
    Tx.Keeps (Orderly cat base) (tx.deleteOne srv table pkValues) := by
  have hgoing := (kept_going srv).deleteOne tx h.going table pkValues
  rcases hd : tx.deleteOne srv table pkValues with e | ⟨tx', old⟩
  · simp only [Tx.Keeps, Ends, deleteOne_error hd]
    exact h
  refine ⟨hgoing.of_ok hd, fun table' schema hschema => ?_⟩
  obtain ⟨_, _, -, -, -, -, hview⟩ := deleteOne_view h.going.ok.1 hd
  refine (h.distinct table' schema hschema).mono fun k r hk => ?_
  rw [hview] at hk
  split at hk
  · cases hk
  · exact hk

theorem Orderly.write {values : Row} (replace : Bool) (h : Orderly cat base tx) (hunique : UniqueMaps base)
    (hfree : ¬ Revives srv tx table values) :
    Tx.Keeps (Orderly cat base) (tx.write srv table values replace) := by
  have hgoing := (kept_going srv).write tx h.going table values replace
  rcases hw : tx.write srv table values replace with e | ⟨tx', stored⟩
  · obtain ⟨writer, he, -⟩ := write_error hw
    have hwriter := hgoing.of_error hw
    simp only [Tx.Keeps, Ends]
    rw [he] at hwriter ⊢
    exact h.writer hwriter
  · exact ⟨hgoing.of_ok hw, h.distinct.write h.going.ok.1 (h.going.ok.2 ▸ hunique) hfree hw⟩

theorem setNull_revives_not {fk : ResolvedFk} {child values : Row} {k k' : Bytes} (hcat : cat.KeysStored)
    (hnulls : cat.NullsKeep) (hfk : fk ∈ cat.fks) (hnull : fk.onDelete = .setNull)
    (hstored : StoredRow cat fk.child fk.childSchema k child) (hid : NoPlaceholder fk.childSchema child)
    (hseen : (tx.view fk.child k).isSome) (hread : srv.onReadRow.run fk.child child k' = .ok values) :
    ¬ Revives srv tx fk.child (values.set fk.childOrdinal .optNone) := by
  have hvalid := cat.fks_valid fk hfk
  rintro ⟨schema, pk, row, b, hschema, hwritten, hdelete, -, -, columns, hcolumns, -⟩
  cases hvalid.child.symm.trans hschema
  by_cases hin : fk.childOrdinal ∈ fk.childSchema.primaryKey
  · rw [hnulls fk hfk hnull hin] at hcolumns
    cases hcolumns
  -- the key written is the child's own, and the child was not deleted
  unfold Tx.written at hwritten
  simp only [bind_eq_ok] at hwritten
  obtain ⟨⟨schema', derived⟩, hprepare, ⟨writer, assigned⟩, hassign, pk', hpk, row', -, hwritten⟩ := hwritten
  cases hwritten
  obtain ⟨hschema', -, hderive, -⟩ := prepare_eq_ok hprepare
  cases hvalid.child.symm.trans hschema'
  have hown := setNull_key hcat hvalid.child hstored hid hread hin hderive hassign
  obtain rfl := Except.ok.inj (hown.symm.trans (mapError_eq_ok.mp hpk))
  rw [Tx.view, hdelete] at hseen
  cases hseen

/-- The loop over the children of a `set_null`: what was there stays there. -/
theorem distinct_setNulls {fk : ResolvedFk} {v : RowValue} {rows : List Row} {t : TableState} {deleted : List (Nat × Row)}
    (hcat : cat.KeysStored) (hnulls : cat.NullsKeep) (hunique : UniqueMaps base) (hfk : fk ∈ cat.fks)
    (hnull : fk.onDelete = .setNull) (ht : tx.base[fk.child]? = some t) (h : Orderly cat base tx)
    (hrows : tx.scanAll fk.child = .ok rows) {children : List Row} (hsub : ∀ child ∈ children, child ∈ rows) :
    Tx.Keeps (Orderly cat base) (children.foldlM (Tx.refActionOn srv fk v) (tx, deleted)) := by
  have hloop : Ends (fun e => Orderly cat base e.2) (children.foldlM (Tx.refActionOn srv fk v) (tx, deleted))
      (fun r => Orderly cat base r.1 ∧ ∀ k, (tx.view fk.child k).isSome → (r.1.view fk.child k).isSome) := by
    refine Ends.foldlM_of_mem (fun s child hchild hs => ?_) ⟨h, fun k hk => hk⟩
    obtain ⟨hs, hkept⟩ := hs
    rw [Tx.scanAll_eq ht] at hrows
    cases hrows
    obtain ⟨⟨k, row⟩, hmem, rfl⟩ := mem_map.mp (hsub child hchild)
    have hview := (Tx.mem_entries h.going.ok.1 ht).mp hmem
    have hvalid := cat.fks_valid fk hfk
    have hstored := h.going.ok.1.storedRow_of_view hvalid.child hview
    have hid := h.going.assigned.of_view hvalid.child hview
    have hseen : (s.1.view fk.child k).isSome := hkept k (by rw [hview]; rfl)
    unfold Tx.refActionOn
    simp only [hnull]
    refine (Tx.Kept.fail (P := Orderly cat base) hs _).bind fun k' _ => ?_
    refine (Tx.Kept.fail (P := Orderly cat base) hs _).bind_ok fun values hread => ?_
    have hfree := setNull_revives_not hcat hnulls hfk hnull hstored hid hseen (Tx.fail_eq_ok.mp hread)
    refine (hs.write true hunique hfree).bind_ok ?_
    rintro ⟨tx', stored⟩ hw
    refine ⟨(hs.write true hunique hfree).of_ok hw, fun k₁ hk₁ => ?_⟩
    obtain ⟨_, _, -, -, hview'⟩ := write_view hw
    rw [hview']
    split
    · rfl
    · exact hkept k₁ hk₁
  exact hloop.mono fun r hr => hr.1

/-- **Every referential action keeps the constraint keys distinct.** -/
theorem distinct_applyRefAction (hcat : cat.KeysStored) (hnulls : cat.NullsKeep) (hunique : UniqueMaps base) :
    Tx.KeptByRefs srv (Orderly cat base) := by
  intro tx h fk hfk v deleted
  have hvalid := cat.fks_valid fk hfk
  obtain ⟨t, ht, -⟩ := h.going.ok.1.base.exists_table hvalid.child
  refine (Tx.Kept.fail (P := Orderly cat base) h _).bind_ok fun rows hrows => ?_
  cases haction : fk.onDelete with
  | restrict =>
    refine Ends.foldlM (Q := fun r : Tx × List (Nat × Row) => Orderly cat base r.1) (fun s child hs => ?_) h
    unfold Tx.refActionOn
    simp only [haction]
    exact hs
  | cascade =>
    refine Ends.foldlM (Q := fun r : Tx × List (Nat × Row) => Orderly cat base r.1) (fun s child hs => ?_) h
    unfold Tx.refActionOn
    simp only [haction]
    exact (hs.deleteOne _ _).bind fun _ h' => h'
  | setNull =>
    exact distinct_setNulls hcat hnulls hunique hfk haction ht h (Tx.fail_eq_ok.mp hrows)
      fun child hchild => (mem_filter.mp hchild).1

end Distinct

/-! ### Runs of a writer -/

/-- A store and the transaction that is open on it. -/
structure Writing where
  store : MemStore
  tx : Option Tx

namespace Writing

/-- A step of the writer: a call may be accepted or rejected, and a refused commit drops the transaction. -/
inductive Label (cat : Catalog) where
  | begin
  | call (srv : Services cat) (c : TxCall)
  | commit
  | rollback

def new (cat : Catalog) : Writing := ⟨MemStore.new cat, none⟩

def step (cat : Catalog) (s : Writing) : Label cat → Option Writing
  | .begin => if s.tx.isNone then some { s with tx := some s.store.begin } else none
  | .call srv c => do
    let tx ← s.tx
    let x ← tx.call srv c
    return { s with tx := some (Tx.after x) }
  | .commit => do
    let tx ← s.tx
    match tx.commit cat with
    | .ok (_, store) => return ⟨store, none⟩
    | .error _ => return ⟨tx.rollback, none⟩
  | .rollback => do
    let tx ← s.tx
    return ⟨tx.rollback, none⟩

/-- A write revives no row whose value is taken, and a delete clears no key column under constraints. -/
def WritesOk {cat : Catalog} (s : Writing) : Label cat → Prop
  | .call srv (.insert table values) | .call srv (.upsert table values) => ∀ tx ∈ s.tx, ¬ Revives srv tx table values
  | .call _ (.delete ..) => cat.NullsKeep
  | _ => True

/-- What the steps keep. -/
structure Ok (cat : Catalog) (s : Writing) : Prop where
  store : s.store.Ok cat
  assigned : s.store.begin.Assigned cat
  tx : ∀ tx ∈ s.tx, Orderly cat s.store.committed tx

end Writing

section Runs

variable {cat : Catalog} {s s' : Writing}

theorem MemStore.Ok.orderly_begin {store : MemStore} (h : store.Ok cat) (hassigned : store.begin.Assigned cat) :
    Orderly cat store.committed store.begin := by
  refine ⟨⟨begin_okOver h.tables h.dirty, hassigned⟩, fun table schema hschema => ?_⟩
  obtain ⟨t, ht, rfl⟩ := h.tables.exists_table hschema
  have hview : store.begin.view table = t.rowAt := funext (rowIn_eq ht)
  rw [hview]
  exact (h.unique table t ht).distinct

theorem Writing.ok_new (cat : Catalog) : (Writing.new cat).Ok cat :=
  ⟨memStore_ok_new cat, assigned_new cat, fun _ htx => nomatch htx⟩

/-- **One call** keeps the buffer orderly. -/
theorem Orderly.call {base : Tables} {srv : Services cat} {tx : Tx} {c : TxCall}
    {x : Except (StoreError × Tx) (Tx × Returned)} (hcat : cat.KeysStored) (hunique : UniqueMaps base) (h : Orderly cat base tx)
    (hcond : ∀ store, Writing.WritesOk ⟨store, some tx⟩ (.call srv c)) (hx : tx.call srv c = some x) :
    Orderly cat base (Tx.after x) := by
  cases c with
  | insert table values | upsert table values =>
    cases hx
    rw [after_map]
    exact after_of_ends (h.write _ hunique (hcond ⟨base, tx.writer⟩ tx rfl))
  | delete fuel table pkValues =>
    obtain ⟨y, hy, rfl⟩ := map_eq_some_iff.mp hx
    rw [after_map]
    have hrefs : Tx.KeptByRefs srv (Orderly cat base) := distinct_applyRefAction hcat (hcond ⟨base, tx.writer⟩) hunique
    exact after_of_ends (hrefs.delete (h.deleteOne table pkValues) hy)

/-- **One step** keeps the writer in order. -/
theorem Writing.Ok.step (hcat : cat.KeysStored) (l : Writing.Label cat) (h : s.Ok cat) (hcond : s.WritesOk l)
    (hstep : Writing.step cat s l = some s') : s'.Ok cat := by
  cases l with
  | begin =>
    simp only [Writing.step] at hstep
    split at hstep
    · cases hstep
      refine ⟨h.store, h.assigned, fun tx htx => ?_⟩
      cases htx
      exact h.store.orderly_begin h.assigned
    · cases hstep
  | call srv c =>
    obtain ⟨tx, htx, hstep⟩ := bind_eq_some_iff.mp hstep
    obtain ⟨x, hx, hstep⟩ := bind_eq_some_iff.mp hstep
    cases hstep
    refine ⟨h.store, h.assigned, fun tx' htx' => ?_⟩
    cases htx'
    refine (h.tx tx htx).call hcat h.store.unique (fun store => ?_) hx
    cases c with
    | insert table values | upsert table values =>
      intro tx₁ htx₁
      cases htx₁
      exact hcond tx htx
    | delete fuel table pkValues => exact hcond
  | commit =>
    obtain ⟨tx, htx, hstep⟩ := bind_eq_some_iff.mp hstep
    have horderly := h.tx tx htx
    have hunique : UniqueMaps tx.base := horderly.going.ok.2 ▸ h.store.unique
    split at hstep
    · rename_i diff store hcommit
      cases hstep
      exact ⟨MemStore.Ok.commit horderly.going.ok.1 hunique hcommit, horderly.going.assigned.commit hcommit,
        fun _ htx' => nomatch htx'⟩
    · cases hstep
      exact ⟨MemStore.Ok.rollback horderly.going.ok.1 hunique, horderly.going.assigned.rollback, fun _ htx' => nomatch htx'⟩
  | rollback =>
    obtain ⟨tx, htx, hstep⟩ := bind_eq_some_iff.mp hstep
    have horderly := h.tx tx htx
    cases hstep
    exact ⟨MemStore.Ok.rollback horderly.going.ok.1 (horderly.going.ok.2 ▸ h.store.unique), horderly.going.assigned.rollback,
      fun _ htx' => nomatch htx'⟩

end Runs

/-! ### Runs on one table -/

/-- The step writes no row equal to the committed one at its key. -/
def Writing.fresh {cat : Catalog} (s : Writing) : Writing.Label cat → Bool
  | .call srv c => s.tx.all fun tx => Session.fresh ⟨tx, []⟩ (srv, c)
  | _ => true

end Fluxum
