/-
# The write buffer

What a transaction sees is the committed rows under its pending operations.
The specification of each call over that view, and what every transaction
keeps of its buffer: an insert stands over no committed row, a delete or a
replacement over one, and every row is as the write path stores it.
-/
import Fluxum.Store.Tx

namespace Fluxum

open Std List ExtTreeMap OrdMap Outcome Option

def rowIn (tables : Tables) (table : Nat) (pk : Bytes) : Option Row :=
  tables[table]?.bind (·.rowAt pk)

/-- A row as the write path stores it at its key. -/
structure StoredRow (cat : Catalog) (table : Nat) (schema : TableSchema) (pk : Bytes) (row : Row) : Prop where
  length : row.length = schema.columns.length
  typed : ∀ (o : Nat) (v : RowValue) (c : ColumnSchema), row[o]? = some v → schema.columns[o]? = some c →
    o ∉ cat.sealedColumns table → v.matchesType c.ty = true
  key : encodePkOfRow schema row = .ok pk

/-- The tables of the catalog, with stored rows. -/
structure TablesOk (cat : Catalog) (tables : Tables) : Prop where
  covers : ∀ table : Nat, tables[table]?.map TableState.schema = cat.tables[table]?
  stored : ∀ (table : Nat) schema pk row, cat.tables[table]? = some schema → rowIn tables table pk = some row →
    StoredRow cat table schema pk row

section Tables

variable {cat : Catalog} {tables : Tables} {table : Nat} {t : TableState} {schema : TableSchema}

theorem rowIn_eq (ht : tables[table]? = some t) (pk : Bytes) : rowIn tables table pk = t.rowAt pk := by
  simp [rowIn, ht]

theorem TablesOk.exists_table (h : TablesOk cat tables) (hschema : cat.tables[table]? = some schema) :
    ∃ t, tables[table]? = some t ∧ t.schema = schema :=
  map_eq_some_iff.mp ((h.covers table).trans hschema)

theorem TablesOk.schemaAt (h : TablesOk cat tables) (ht : tables[table]? = some t) : cat.tables[table]? = some t.schema := by
  rw [← h.covers table, ht]
  rfl

end Tables

variable {pk : Bytes} {e : StoreError × Tx} {α : Type}

namespace Tx

/-- The row the pending operation leaves of the committed one. -/
def under (pending : Option PendingOp) (committed : Option Row) : Option Row :=
  match pending with
  | some op => op.result
  | none => committed

/-- The row the transaction sees at a key. -/
def view (tx : Tx) (table : Nat) (pk : Bytes) : Option Row := under (tx.op table pk) (rowIn tx.base table pk)

/-- The buffer is in order. -/
structure Ok (cat : Catalog) (tx : Tx) : Prop where
  base : TablesOk cat tx.base
  known : ∀ (table : Nat) pk op, tx.op table pk = some op → ∃ schema, cat.tables[table]? = some schema
  overlays : ∀ table pk op, tx.op table pk = some op → op.Overlays (rowIn tx.base table pk)
  stored : ∀ (table : Nat) schema pk op row, cat.tables[table]? = some schema → tx.op table pk = some op →
    op.result = some row → StoredRow cat table schema pk row
  dirty : ∀ table ∈ tx.writer.highWaterDirty, (cat.tables[table]?).isSome

/-! ### The buffer -/

section Buffer

variable (tx : Tx) (table : Nat) (pk : Bytes) (o : Option PendingOp)

@[simp] theorem setOp_base : (tx.setOp table pk o).base = tx.base := rfl
@[simp] theorem setOp_writer : (tx.setOp table pk o).writer = tx.writer := rfl
@[simp] theorem setOp_txId : (tx.setOp table pk o).txId = tx.txId := rfl

theorem ops_setOp (table' : Nat) : (tx.setOp table pk o).ops table' =
    if table = table' then (match o with | some op => (tx.ops table).insert pk op | none => (tx.ops table).erase pk)
    else tx.ops table' := by
  unfold setOp ops
  simp only [lookup_insert]
  split <;> rfl

@[simp] theorem op_setOp (table' : Nat) (pk' : Bytes) :
    (tx.setOp table pk o).op table' pk' = if table = table' ∧ pk = pk' then o else tx.op table' pk' := by
  unfold op
  rw [ops_setOp]
  by_cases ht : table = table'
  · subst ht
    cases o <;> by_cases hp : pk = pk' <;> simp [lookup_insert, lookup_erase, hp]
  · simp [ht]

variable {tx table pk o} in
theorem op_setOp_eq_some {table' : Nat} {pk' : Bytes} {op : PendingOp} (h : (tx.setOp table pk o).op table' pk' = some op) :
    (table = table' ∧ pk = pk' ∧ o = some op) ∨ tx.op table' pk' = some op := by
  rw [op_setOp] at h
  split at h
  · rename_i heq
    exact .inl ⟨heq.1, heq.2, h⟩
  · exact .inr h

theorem view_setOp (table' : Nat) (pk' : Bytes) : (tx.setOp table pk o).view table' pk' =
    if table = table' ∧ pk = pk' then under o (rowIn tx.base table pk) else tx.view table' pk' := by
  unfold view
  rw [op_setOp, setOp_base]
  split
  · rename_i h
    obtain ⟨rfl, rfl⟩ := h
    rfl
  · rfl

theorem fail_eq_ok {tx : Tx} {x : Except StoreError α} {a : α} : tx.fail x = .ok a ↔ x = .ok a := by
  cases x <;> simp [fail, Except.mapError]

theorem fail_eq_error {tx : Tx} {x : Except StoreError α} (h : tx.fail x = .error e) :
    e.2 = tx := by
  cases x <;> simp_all [fail, Except.mapError]
  rw [← h]

theorem baseTable_eq_ok {tx : Tx} {table : Nat} {t : TableState} : tx.baseTable table = .ok t ↔ tx.base[table]? = some t := by
  unfold baseTable
  split <;> simp_all

end Buffer

end Tx

/-! ### The row that is written -/

theorem encodePkColumns_congr {table : String} {v w : Row} : ∀ {os : List Nat}, (∀ o ∈ os, v[o]? = w[o]?) →
    encodePkColumns table v os = encodePkColumns table w os
  | [], _ => rfl
  | o :: os, h => by
    rw [encodePkColumns, encodePkColumns, h o (by simp), encodePkColumns_congr fun o' ho' => h o' (by simp [ho'])]

theorem mapError_eq_ok {ε α : Type} {f : ε → StoreError} {x : Except ε α} {a : α} : x.mapError f = .ok a ↔ x = .ok a := by
  cases x <;> simp [Except.mapError]

section Written

variable {cat : Catalog} {srv : Services cat} {table : Nat} {schema : TableSchema} {values values' : Row}

theorem schemaOf_eq_ok : cat.schemaOf table = .ok schema ↔ cat.tables[table]? = some schema := by
  unfold Catalog.schemaOf
  split <;> simp_all

theorem prepare_eq_ok (h : prepare srv table values = .ok (schema, values')) :
    cat.tables[table]? = some schema ∧ checkGlobal srv schema = .ok () ∧
      deriveColumns table (cat.computed table) values = .ok values' ∧ Typed schema values' := by
  obtain ⟨sch, hsch, h⟩ := bind_eq_ok.mp h
  obtain ⟨⟨⟩, hglobal, h⟩ := bind_eq_ok.mp h
  obtain ⟨vals, hvals, h⟩ := bind_eq_ok.mp h
  obtain ⟨⟨⟩, -, h⟩ := bind_eq_ok.mp h
  obtain ⟨⟨⟩, hcheck, h⟩ := bind_eq_ok.mp h
  split at h
  · cases h
    exact ⟨schemaOf_eq_ok.mp hsch, hglobal, hvals, typed_of_checkRow (mapError_eq_ok.mp hcheck)⟩
  · simp at h

/-- Assigning the auto-increment column changes no other column, and keeps the row typed. -/
theorem assignAutoInc_eq_ok {step : Nat} {writer writer' : WriterState}
    (h : assignAutoInc step writer table schema values = .ok (writer', values')) :
    writer'.nextTxId = writer.nextTxId ∧ (∀ o, some o ≠ schema.autoInc → values'[o]? = values[o]?) ∧
      (Typed schema values → Typed schema values') := by
  unfold assignAutoInc at h
  split at h
  · cases h
    exact ⟨rfl, fun _ _ => rfl, id⟩
  rename_i o ho
  split at h
  · rename_i current hcur
    cases h
    refine ⟨rfl, fun o' ho' => ?_, fun htyped => ⟨by simpa using htyped.1, fun o' v c hv hc => ?_⟩⟩
    · have hne : o ≠ o' := fun heq => ho' (by rw [ho, heq])
      rw [getElem?_set_ne hne]
    by_cases heq : o = o'
    · subst heq
      have hty := (schema.autoInc_primaryKey o ho).2 c hc
      obtain ⟨hlt, -⟩ := List.getElem?_eq_some_iff.mp hcur
      rw [getElem?_set_self hlt] at hv
      cases hv
      rw [hty]
      rfl
    · rw [getElem?_set_ne heq] at hv
      exact htyped.2 o' v c hv hc
  · simp at h

theorem RowTransform.run_eq_ok {f : RowTransform cat} (h : f.run table values pk = .ok values') :
    values'.length = values.length ∧ ∀ o, o ∉ cat.sealedColumns table → values'[o]? = values[o]? := by
  unfold RowTransform.run at h
  split at h
  · cases h
    exact ⟨rfl, fun _ _ => rfl⟩
  split at h
  · rename_i row hrow
    cases h
    exact ⟨f.length hrow, fun o ho => f.other hrow ho⟩
  · simp at h

theorem storedRow_of_run {f : RowTransform cat} (hschema : cat.tables[table]? = some schema)
    (htyped : Typed schema values) (hpk : encodePkOfRow schema values = .ok pk)
    (h : f.run table values pk = .ok values') : StoredRow cat table schema pk values' := by
  obtain ⟨hlen, hother⟩ := RowTransform.run_eq_ok h
  refine ⟨hlen.trans htyped.1, fun o v c hv hc ho => htyped.2 o v c (hother o ho ▸ hv) hc, ?_⟩
  rw [← hpk]
  exact encodePkColumns_congr fun o ho => hother o (cat.sealed_primaryKey table schema hschema o ho)

end Written

/-! ### Writes -/

section Write

variable {cat : Catalog} {srv : Services cat} {tx tx' : Tx} {table : Nat} {values stored : Row} {replace : Bool}
variable {schema : TableSchema}

theorem checkReferences_writer {writer : WriterState} : ∀ {fks : List ResolvedFk},
    { tx with writer }.checkReferences schema values fks = tx.checkReferences schema values fks
  | [] => rfl
  | fk :: fks => by
    rw [Tx.checkReferences, Tx.checkReferences]
    simp only [checkReferences_writer]
    rfl

theorem checkConstraints_writer {writer : WriterState} :
    { tx with writer }.checkConstraints cat table schema values = tx.checkConstraints cat table schema values := by
  simp only [Tx.checkConstraints, checkReferences_writer]

theorem write_eq_ok (h : tx.write srv table values replace = .ok (tx', stored)) :
    ∃ schema derived writer assigned pk row t op,
      prepare srv table values = .ok (schema, derived) ∧
      assignAutoInc cat.autoIncStep tx.writer table schema derived = .ok (writer, assigned) ∧
      tx.checkConstraints cat table schema assigned = .ok () ∧
      encodePkOfRow schema assigned = .ok pk ∧
      srv.onWriteRow.run table assigned pk = .ok row ∧
      tx.base[table]? = some t ∧
      (occupied (tx.op table pk) (t.rowAt pk) = true → replace = true) ∧
      checkUnique schema (tx.ops table) row pk t.unique = .ok () ∧
      place (tx.op table pk) (t.rowAt pk) row = .ok (op, stored) ∧
      tx' = { tx with writer }.setOp table pk op := by
  obtain ⟨⟨schema, derived⟩, hprepare, h⟩ := bind_eq_ok.mp h
  obtain ⟨⟨writer, assigned⟩, hassign, h⟩ := bind_eq_ok.mp h
  obtain ⟨⟨pk, row, committed⟩, hvalid, h⟩ := bind_eq_ok.mp h
  obtain ⟨⟨op, row'⟩, hplace, h⟩ := bind_eq_ok.mp h
  cases h
  have hvalid := Tx.fail_eq_ok.mp hvalid
  obtain ⟨⟨⟩, hconstraints, hvalid⟩ := bind_eq_ok.mp hvalid
  obtain ⟨pk', hpk, hvalid⟩ := bind_eq_ok.mp hvalid
  obtain ⟨row'', hrow, hvalid⟩ := bind_eq_ok.mp hvalid
  obtain ⟨t, ht, hvalid⟩ := bind_eq_ok.mp hvalid
  split at hvalid
  · simp at hvalid
  rename_i hocc
  obtain ⟨⟨⟩, hunique, hvalid⟩ := bind_eq_ok.mp hvalid
  obtain ⟨rfl, rfl, rfl⟩ : pk' = pk ∧ row'' = row ∧ t.rowAt pk' = committed := by
    simpa [Prod.ext_iff] using Except.ok.inj hvalid
  refine ⟨schema, derived, writer, assigned, pk', row'', t, op, Tx.fail_eq_ok.mp hprepare, Tx.fail_eq_ok.mp hassign,
    checkConstraints_writer ▸ hconstraints, mapError_eq_ok.mp hpk, hrow, Tx.baseTable_eq_ok.mp ht, ?_, hunique,
    Tx.fail_eq_ok.mp hplace, rfl⟩
  have hfree : ¬ (occupied (tx.op table pk') (t.rowAt pk') && !replace) = true := hocc
  simpa using hfree

/-- A rejected write leaves the buffer; it may have moved the counter of its table. -/
theorem write_error (h : tx.write srv table values replace = .error e) :
    ∃ writer, e.2 = { tx with writer } ∧ (writer = tx.writer ∨ ∃ schema derived assigned,
      prepare srv table values = .ok (schema, derived) ∧
      assignAutoInc cat.autoIncStep tx.writer table schema derived = .ok (writer, assigned)) := by
  rcases bind_eq_error h with h | ⟨⟨schema, derived⟩, hprepare, h⟩
  · exact ⟨tx.writer, Tx.fail_eq_error h, .inl rfl⟩
  rcases bind_eq_error h with h | ⟨⟨writer, assigned⟩, hassign, h⟩
  · exact ⟨tx.writer, Tx.fail_eq_error h, .inl rfl⟩
  have hmoved : writer = tx.writer ∨ ∃ schema derived assigned, prepare srv table values = .ok (schema, derived) ∧
      assignAutoInc cat.autoIncStep tx.writer table schema derived = .ok (writer, assigned) :=
    .inr ⟨schema, derived, assigned, Tx.fail_eq_ok.mp hprepare, Tx.fail_eq_ok.mp hassign⟩
  rcases bind_eq_error h with h | ⟨⟨pk, row, committed⟩, -, h⟩
  · exact ⟨writer, Tx.fail_eq_error h, hmoved⟩
  rcases bind_eq_error h with h | ⟨⟨op, stored⟩, -, h⟩
  · exact ⟨writer, Tx.fail_eq_error h, hmoved⟩
  · nomatch h

section Place

variable {pending op : Option PendingOp} {committed : Option Row} {row stored : Row}

section

variable (h : place pending committed row = .ok (op, stored))
include h

/-- The three things a write makes of its key: it leaves the committed row, replaces it, or inserts. -/
theorem place_cases :
    (op = none ∧ committed = some stored ∧ Row.same stored row = true ∧ (pending = none ∨ pending = some .delete)) ∨
    (op = some (.update row) ∧ stored = row ∧ ((∃ r, pending = some (.update r)) ∨
      ∃ c, committed = some c ∧ Row.same c row = false ∧ (pending = none ∨ pending = some .delete))) ∨
    (op = some (.insert row) ∧ stored = row ∧
      ((∃ r, pending = some (.insert r)) ∨ pending = none ∧ committed = none)) := by
  unfold place at h
  split at h
  · nomatch h
  all_goals try split at h
  all_goals
    cases h
    simp_all

theorem place_under : Tx.under op committed = some stored := by
  rcases place_cases h with ⟨rfl, hc, -, -⟩ | ⟨rfl, rfl, -⟩ | ⟨rfl, rfl, -⟩
  · exact hc
  · rfl
  · rfl

theorem place_stored :
    stored = row ∨ committed = some stored ∧ Row.same stored row = true := by
  rcases place_cases h with ⟨-, hc, hsame, -⟩ | ⟨-, rfl, -⟩ | ⟨-, rfl, -⟩
  · exact .inr ⟨hc, hsame⟩
  · exact .inl rfl
  · exact .inl rfl

end

theorem place_overlays (hpending : ∀ o ∈ pending, o.Overlays committed)
    (h : place pending committed row = .ok (op, stored)) : ∀ o ∈ op, o.Overlays committed := by
  rcases place_cases h with ⟨rfl, -, -, -⟩ | ⟨rfl, -, ⟨r, rfl⟩ | ⟨c, rfl, -, -⟩⟩ | ⟨rfl, -, ⟨r, rfl⟩ | ⟨rfl, rfl⟩⟩
  · simp
  · simpa [PendingOp.Overlays, PendingOp.releases] using hpending
  · simp [PendingOp.Overlays, PendingOp.releases]
  · simpa [PendingOp.Overlays, PendingOp.releases] using hpending
  · simp [PendingOp.Overlays, PendingOp.releases]

end Place

theorem write_view (h : tx.write srv table values replace = .ok (tx', stored)) :
    ∃ schema pk, cat.tables[table]? = some schema ∧ tx'.base = tx.base ∧
      (∀ table' pk', tx'.view table' pk' = if table = table' ∧ pk = pk' then some stored else tx.view table' pk') := by
  obtain ⟨schema, derived, writer, assigned, pk, row, t, op, hprepare, -, -, -, -, ht, -, -, hplace, rfl⟩ := write_eq_ok h
  refine ⟨schema, pk, (prepare_eq_ok hprepare).1, rfl, fun table' pk' => ?_⟩
  rw [Tx.view_setOp]
  split
  · exact (congrArg (Tx.under op) (rowIn_eq ht pk)).trans (place_under hplace)
  · rfl

theorem Tx.Ok.dirty_assign {writer : WriterState} {derived assigned : Row} (hok : tx.Ok cat)
    (hprepare : prepare srv table values = .ok (schema, derived))
    (hassign : assignAutoInc cat.autoIncStep tx.writer table schema derived = .ok (writer, assigned)) :
    ∀ id ∈ writer.highWaterDirty, (cat.tables[id]?).isSome := by
  intro id hid
  unfold assignAutoInc at hassign
  split at hassign
  · cases hassign
    exact hok.dirty id hid
  split at hassign
  · cases hassign
    simp only at hid
    split at hid
    · rcases (mem_insert _ _ _).mp hid with rfl | hid
      · rw [(prepare_eq_ok hprepare).1]
        rfl
      · exact hok.dirty id hid
    · exact hok.dirty id hid
  · simp at hassign

/-- An operation that fits the committed row, with a row as stored, can be set at its key. -/
theorem Tx.Ok.setOp {op : Option PendingOp} (hok : tx.Ok cat) (hschema : cat.tables[table]? = some schema)
    (hover : ∀ o ∈ op, o.Overlays (rowIn tx.base table pk))
    (hstored : ∀ o ∈ op, ∀ row ∈ o.result, StoredRow cat table schema pk row) : (tx.setOp table pk op).Ok cat := by
  refine ⟨hok.base, fun table' pk' op' hop' => ?_, fun table' pk' op' hop' => ?_,
    fun table' schema' pk' op' row' hschema' hop' hrow' => ?_, hok.dirty⟩
  all_goals rcases op_setOp_eq_some hop' with ⟨rfl, rfl, hop⟩ | hop
  · exact ⟨schema, hschema⟩
  · exact hok.known table' pk' op' hop
  · exact hover op' hop
  · exact hok.overlays table' pk' op' hop
  · cases hschema.symm.trans hschema'
    exact hstored op' hop row' hrow'
  · exact hok.stored table' schema' pk' op' row' hschema' hop hrow'

theorem Tx.Ok.write (hok : tx.Ok cat) (h : tx.write srv table values replace = .ok (tx', stored)) : tx'.Ok cat := by
  obtain ⟨schema, derived, writer, assigned, pk, row, t, op, hprepare, hassign, -, hpk, hrow, ht, -, -, hplace, rfl⟩ :=
    write_eq_ok h
  obtain ⟨hschema, -, -, htyped⟩ := prepare_eq_ok hprepare
  have hstored := storedRow_of_run hschema ((assignAutoInc_eq_ok hassign).2.2 htyped) hpk hrow
  have hover := hok.overlays table pk
  have hok' : { tx with writer }.Ok cat := ⟨hok.base, hok.known, hok.overlays, hok.stored, hok.dirty_assign hprepare hassign⟩
  refine hok'.setOp hschema ?_ fun o ho row' hrow' => ?_
  · rw [rowIn_eq ht] at hover ⊢
    exact place_overlays hover hplace
  rcases place_cases hplace with ⟨rfl, -, -, -⟩ | ⟨rfl, -, -⟩ | ⟨rfl, -, -⟩
  · cases ho
  all_goals
    cases ho
    cases hrow'
    exact hstored

end Write

/-! ### Deletes -/

section Delete

variable {cat : Catalog} {srv : Services cat} {tx tx' : Tx} {table : Nat} {pkValues : List RowValue} {old : Option Row}

theorem deleteOne_eq_ok (h : tx.deleteOne srv table pkValues = .ok (tx', old)) :
    ∃ schema pk t, cat.tables[table]? = some schema ∧ checkGlobal srv schema = .ok () ∧
      encodePkValues schema pkValues = .ok pk ∧ tx.base[table]? = some t ∧
      (tx', old) = match tx.op table pk with
        | some (.insert row) => (tx.setOp table pk none, some row)
        | some (.update row) => (tx.setOp table pk (some .delete), some row)
        | some .delete => (tx, none)
        | none =>
          match t.rowAt pk with
          | some row => (tx.setOp table pk (some .delete), some row)
          | none => (tx, none) := by
  obtain ⟨schema, hschema, h⟩ := bind_eq_ok.mp h
  obtain ⟨⟨⟩, hglobal, h⟩ := bind_eq_ok.mp h
  obtain ⟨pk, hpk, h⟩ := bind_eq_ok.mp h
  obtain ⟨t, ht, h⟩ := bind_eq_ok.mp h
  exact ⟨schema, pk, t, schemaOf_eq_ok.mp (Tx.fail_eq_ok.mp hschema), Tx.fail_eq_ok.mp hglobal,
    mapError_eq_ok.mp (Tx.fail_eq_ok.mp hpk), Tx.baseTable_eq_ok.mp (Tx.fail_eq_ok.mp ht), (Except.ok.inj h).symm⟩

theorem deleteOne_error (h : tx.deleteOne srv table pkValues = .error e) : e.2 = tx := by
  rcases bind_eq_error h with h | ⟨schema, -, h⟩
  · exact Tx.fail_eq_error h
  rcases bind_eq_error h with h | ⟨⟨⟩, -, h⟩
  · exact Tx.fail_eq_error h
  rcases bind_eq_error h with h | ⟨pk, -, h⟩
  · exact Tx.fail_eq_error h
  rcases bind_eq_error h with h | ⟨t, -, h⟩
  · exact Tx.fail_eq_error h
  · nomatch h

section

variable (hok : tx.Ok cat)
include hok

theorem deleteOne_cases (h : tx.deleteOne srv table pkValues = .ok (tx', old)) :
    ∃ schema pk, cat.tables[table]? = some schema ∧ checkGlobal srv schema = .ok () ∧
      encodePkValues schema pkValues = .ok pk ∧ old = tx.view table pk ∧
      ((tx' = tx ∧ old = none) ∨
       (tx' = tx.setOp table pk none ∧ old.isSome ∧ rowIn tx.base table pk = none) ∨
       (tx' = tx.setOp table pk (some .delete) ∧ old.isSome ∧ (rowIn tx.base table pk).isSome)) := by
  obtain ⟨schema, pk, t, hschema, hglobal, hpk, ht, h⟩ := deleteOne_eq_ok h
  have hcommitted := rowIn_eq ht pk
  have hover := hok.overlays table pk
  refine ⟨schema, pk, hschema, hglobal, hpk, ?_⟩
  rw [hcommitted] at hover ⊢
  unfold Tx.view Tx.under
  split at h
  all_goals try split at h
  all_goals
    cases h
    simp_all [PendingOp.result, PendingOp.Overlays, PendingOp.releases]

theorem deleteOne_view (h : tx.deleteOne srv table pkValues = .ok (tx', old)) :
    ∃ schema pk, cat.tables[table]? = some schema ∧ encodePkValues schema pkValues = .ok pk ∧ old = tx.view table pk ∧
      tx'.base = tx.base ∧
      ∀ table' pk', tx'.view table' pk' = if table = table' ∧ pk = pk' then none else tx.view table' pk' := by
  obtain ⟨schema, pk, hschema, -, hpk, hold, hcases⟩ := deleteOne_cases hok h
  refine ⟨schema, pk, hschema, hpk, hold, ?_⟩
  rcases hcases with ⟨rfl, hnone⟩ | ⟨rfl, -, hnone⟩ | ⟨rfl, -, -⟩
  · refine ⟨rfl, fun table' pk' => ?_⟩
    split
    · rename_i heq
      rw [← heq.1, ← heq.2, ← hold, hnone]
    · rfl
  · refine ⟨rfl, fun table' pk' => ?_⟩
    rw [Tx.view_setOp, hnone]
    rfl
  · refine ⟨rfl, fun table' pk' => ?_⟩
    rw [Tx.view_setOp]
    rfl

theorem Tx.Ok.deleteOne (h : tx.deleteOne srv table pkValues = .ok (tx', old)) : tx'.Ok cat := by
  obtain ⟨schema, pk, hschema, -, -, -, hcases⟩ := deleteOne_cases hok h
  rcases hcases with ⟨rfl, -⟩ | ⟨rfl, -, -⟩ | ⟨rfl, -, hrow⟩
  · exact hok
  · exact hok.setOp hschema (by simp) (by simp)
  · exact hok.setOp hschema (by simpa [PendingOp.Overlays, PendingOp.releases] using hrow) (by simp [PendingOp.result])

end

end Delete

/-! ### Calls -/

/-- The buffer is in order over the committed tables `base`. -/
def Tx.OkOver (cat : Catalog) (base : Tables) (tx : Tx) : Prop := tx.Ok cat ∧ tx.base = base

section Calls

variable {cat : Catalog} {srv : Services cat} {base : Tables} {tx : Tx}

theorem Tx.OkOver.writer {writer : WriterState} (h : tx.OkOver cat base)
    (hdirty : ∀ table ∈ writer.highWaterDirty, (cat.tables[table]?).isSome) : { tx with writer }.OkOver cat base :=
  ⟨⟨h.1.base, h.1.known, h.1.overlays, h.1.stored, hdirty⟩, h.2⟩

/-- The call ends in a buffer with `P`, accepted or rejected. -/
def Tx.Keeps (P : Tx → Prop) (x : Except (StoreError × Tx) (Tx × α)) : Prop := Ends (fun e => P e.2) x (fun r => P r.1)

theorem write_okOver (h : tx.OkOver cat base) (table : Nat) (values : Row) (replace : Bool) :
    Tx.Keeps (Tx.OkOver cat base) (tx.write srv table values replace) := by
  rcases hw : tx.write srv table values replace with e | ⟨tx', stored⟩
  · obtain ⟨writer, he, hwriter⟩ := write_error hw
    simp only [Tx.Keeps, Ends, he]
    refine h.writer ?_
    rcases hwriter with rfl | ⟨schema, derived, assigned, hprepare, hassign⟩
    · exact h.1.dirty
    · exact h.1.dirty_assign hprepare hassign
  · obtain ⟨-, -, -, hbase, -⟩ := write_view hw
    exact ⟨h.1.write hw, hbase.trans h.2⟩

theorem deleteOne_okOver (h : tx.OkOver cat base) (table : Nat) (pkValues : List RowValue) :
    Tx.Keeps (Tx.OkOver cat base) (tx.deleteOne srv table pkValues) := by
  rcases hd : tx.deleteOne srv table pkValues with e | ⟨tx', old⟩
  · simp only [Tx.Keeps, Ends, deleteOne_error hd]
    exact h
  · obtain ⟨-, -, -, -, -, hbase, -⟩ := deleteOne_view h.1 hd
    exact ⟨h.1.deleteOne hd, hbase.trans h.2⟩

theorem after_map {α β : Type} (f : α → β) (x : Except (StoreError × Tx) (Tx × α)) :
    Tx.after (x.map (Prod.map id f)) = Tx.after x := by
  cases x <;> rfl

theorem after_of_ends {P : Tx → Prop} {x : Except (StoreError × Tx) (Tx × α)}
    (h : Tx.Keeps P x) : P (Tx.after x) := by
  cases x <;> exact h

/-- A property of buffers that the writes and the deletes of one row keep, accepted or rejected. -/
structure Tx.Kept (srv : Services cat) (P : Tx → Prop) : Prop where
  write : ∀ tx, P tx → ∀ table values replace,
    Tx.Keeps P (tx.write srv table values replace)
  deleteOne : ∀ tx, P tx → ∀ table pkValues,
    Tx.Keeps P (tx.deleteOne srv table pkValues)

/-- The same of the tables that a foreign key may change. -/
structure Tx.KeptByActions (srv : Services cat) (P : Tx → Prop) : Prop where
  write : ∀ tx, P tx → ∀ fk ∈ cat.fks, ∀ values replace,
    Tx.Keeps P (tx.write srv fk.child values replace)
  deleteOne : ∀ tx, P tx → ∀ fk ∈ cat.fks, ∀ pkValues,
    Tx.Keeps P (tx.deleteOne srv fk.child pkValues)

/-- A property that every referential action keeps, accepted or rejected. -/
def Tx.KeptByRefs (srv : Services cat) (P : Tx → Prop) : Prop :=
  ∀ tx, P tx → ∀ fk ∈ cat.fks, ∀ v deleted, Tx.Keeps P (tx.applyRefAction srv fk v deleted)

theorem Tx.Kept.fail {P : Tx → Prop} (h : P tx) (x : Except StoreError α) :
    Ends (fun e => P e.2) (tx.fail x) (fun _ => True) := by
  rcases hx : tx.fail x with e | a
  · simp only [Ends, Tx.fail_eq_error hx]
    exact h
  · trivial

namespace Tx.KeptByRefs

variable {P : Tx → Prop}

theorem refActions (hP : KeptByRefs srv P) {s : Tx × List (Nat × Row)} (h : P s.1) (old : Row) {fk : ResolvedFk}
    (hfk : fk ∈ cat.fks) : Keeps P (Tx.refActions srv old s fk) := by
  unfold Tx.refActions
  split
  · exact hP s.1 h fk hfk _ s.2
  · exact h

theorem deleteLoop (hP : KeptByRefs srv P) : ∀ {fuel : Nat} {tx : Tx} {deleted : List (Nat × Row)}
    {x : Except (StoreError × Tx) Tx}, P tx → tx.deleteLoop srv fuel deleted = some x → Ends (fun e => P e.2) x P
  | _, tx, [], x, h, hx => by
    rw [Tx.deleteLoop] at hx
    cases hx
    exact h
  | 0, tx, _ :: _, x, h, hx => by simp [Tx.deleteLoop] at hx
  | fuel + 1, tx, (parent, old) :: deleted, x, h, hx => by
    have hloop : Keeps P ((cat.fksIn parent).foldlM (Tx.refActions srv old) (tx, deleted)) :=
      Ends.foldlM_of_mem (fun s fk hfk h' => hP.refActions h' old (mem_of_mem_filter hfk)) h
    rw [Tx.deleteLoop] at hx
    split at hx
    · rename_i e he
      cases hx
      exact hloop.of_error he
    · rename_i tx' deleted' hok
      exact hP.deleteLoop (hloop.of_ok hok) hx

theorem delete (hP : KeptByRefs srv P) {fuel table : Nat} {pkValues : List RowValue} {x : Except (StoreError × Tx) (Tx × Bool)}
    (hone : Keeps P (tx.deleteOne srv table pkValues))
    (hx : tx.delete srv fuel table pkValues = some x) : Keeps P x := by
  unfold Tx.delete at hx
  split at hx
  · rename_i e he
    cases hx
    exact hone.of_error he
  · rename_i tx' htx'
    cases hx
    exact hone.of_ok htx'
  · rename_i tx' old htx'
    obtain ⟨z, hz, rfl⟩ := map_eq_some_iff.mp hx
    have hloop := hP.deleteLoop (hone.of_ok htx') hz
    cases z <;> exact hloop

end Tx.KeptByRefs

namespace Tx.KeptByActions

variable {P : Tx → Prop}

theorem refActionOn (hP : KeptByActions srv P) {s : Tx × List (Nat × Row)} (h : P s.1) {fk : ResolvedFk} (hfk : fk ∈ cat.fks)
    (v : RowValue) (child : Row) : Keeps P (Tx.refActionOn srv fk v s child) := by
  unfold Tx.refActionOn
  split
  · exact h
  · exact (hP.deleteOne _ h fk hfk _).bind fun _ h' => h'
  · refine (Kept.fail h _).bind fun pk _ => (Kept.fail h _).bind fun values _ => ?_
    exact (hP.write _ h fk hfk _ _).bind fun _ h' => h'

theorem byRefs (hP : KeptByActions srv P) : KeptByRefs srv P := by
  intro tx h fk hfk v deleted
  refine (Kept.fail h _).bind fun rows _ => ?_
  exact Ends.foldlM (fun _ child h' => hP.refActionOn h' hfk _ child) h

end Tx.KeptByActions

namespace Tx.Kept

variable {P : Tx → Prop}

theorem byActions (hP : Kept srv P) : KeptByActions srv P :=
  ⟨fun tx h fk _ => hP.write tx h fk.child, fun tx h fk _ => hP.deleteOne tx h fk.child⟩

theorem delete (hP : Kept srv P) {fuel table : Nat} {pkValues : List RowValue} {x : Except (StoreError × Tx) (Tx × Bool)}
    (h : P tx) (hx : tx.delete srv fuel table pkValues = some x) : Keeps P x :=
  hP.byActions.byRefs.delete (hP.deleteOne tx h table pkValues) hx

/-- **Invariant rule.** Every call keeps the property, accepted or rejected. -/
theorem call (hP : Kept srv P) {c : TxCall} {x : Except (StoreError × Tx) (Tx × Returned)} (h : P tx)
    (hx : tx.call srv c = some x) : P (Tx.after x) := by
  cases c with
  | insert table values | upsert table values =>
    cases hx
    rw [after_map]
    exact after_of_ends (hP.write tx h table values _)
  | delete fuel table pkValues =>
    obtain ⟨y, hy, rfl⟩ := map_eq_some_iff.mp hx
    rw [after_map]
    exact after_of_ends (hP.delete h hy)

/-- A property that a move of the counters, an accepted write and an operation that leaves no row keep. -/
theorem of_parts (hassign : ∀ {tx : Tx} {table schema derived w assigned}, P tx →
      assignAutoInc cat.autoIncStep tx.writer table schema derived = .ok (w, assigned) → P { tx with writer := w })
    (hwrite : ∀ {tx tx' : Tx} {table values replace stored}, P tx →
      tx.write srv table values replace = .ok (tx', stored) → P tx')
    (hset : ∀ {tx : Tx} {table schema} pk op, P tx → cat.tables[table]? = some schema → checkGlobal srv schema = .ok () →
      (∀ p ∈ op, p.result = none) → P (tx.setOp table pk op)) : Kept srv P where
  write := by
    intro tx h table values replace
    rcases hw : tx.write srv table values replace with e | ⟨tx', stored⟩
    · obtain ⟨writer, he, hwriter⟩ := write_error hw
      simp only [Keeps, Ends, he]
      rcases hwriter with rfl | ⟨schema, derived, assigned, -, hassigned⟩
      · exact h
      · exact hassign h hassigned
    · exact hwrite h hw
  deleteOne := by
    intro tx h table pkValues
    rcases hd : tx.deleteOne srv table pkValues with e | ⟨tx', old⟩
    · simp only [Keeps, Ends, deleteOne_error hd]
      exact h
    obtain ⟨schema, pk, t, hschema, hcheck, -, -, heq⟩ := deleteOne_eq_ok hd
    have hnone := hset pk none h hschema hcheck (by simp)
    have hdelete := hset pk (some .delete) h hschema hcheck (by simp [PendingOp.result])
    split at heq
    all_goals try split at heq
    all_goals
      cases heq
      assumption

end Tx.Kept

theorem kept_okOver : Tx.Kept srv (Tx.OkOver cat base) := ⟨fun _ h => write_okOver h, fun _ h => deleteOne_okOver h⟩

/-- **Every call keeps the buffer in order**, accepted or rejected. -/
theorem call_okOver {c : TxCall} {x : Except (StoreError × Tx) (Tx × Returned)} (h : tx.OkOver cat base)
    (hx : tx.call srv c = some x) : (Tx.after x).OkOver cat base :=
  kept_okOver.call h hx

end Calls

/-! ### Scans -/

namespace Tx

variable {cat : Catalog} {tx : Tx} {table : Nat} {t : TableState}

/-- The entry of a committed row under the pending operations. -/
def keptEntry (ops : Tree PendingOp) (p : Bytes × Row) : Option (Bytes × Row) :=
  match ops[p.1]? with
  | none => some p
  | some (.update replacement) => some (p.1, replacement)
  | some .delete | some (.insert _) => none

/-- The entry of a pending insert. -/
def insertedEntry (p : Bytes × PendingOp) : Option (Bytes × Row) :=
  match p.2 with
  | .insert row => some (p.1, row)
  | _ => none

def entries (tx : Tx) (table : Nat) (t : TableState) : List (Bytes × Row) :=
  t.rows.toList.filterMap (keptEntry (tx.ops table)) ++ (tx.ops table).toList.filterMap insertedEntry

theorem scanAll_eq (ht : tx.base[table]? = some t) : tx.scanAll table = .ok ((tx.entries table t).map Prod.snd) := by
  unfold scanAll
  rw [baseTable_eq_ok.mpr ht]
  simp only [bind, Except.bind, pure, Except.pure, entries, map_append, map_filterMap]
  congr 3
  · funext p
    unfold keptEntry
    split <;> simp_all
  · funext p
    unfold insertedEntry
    split <;> simp_all

theorem keptEntry_eq_some {ops : Tree PendingOp} {k pk : Bytes} {r row : Row} :
    keptEntry ops (k, r) = some (pk, row) ↔ k = pk ∧ (ops[pk]? = none ∧ r = row ∨ ops[pk]? = some (.update row)) := by
  constructor
  · intro h
    unfold keptEntry at h
    split at h <;> simp_all
  · rintro ⟨rfl, ⟨hop, rfl⟩ | hop⟩ <;> simp [keptEntry, hop]

theorem insertedEntry_eq_some {k pk : Bytes} {op : PendingOp} {row : Row} :
    insertedEntry (k, op) = some (pk, row) ↔ k = pk ∧ op = .insert row := by
  cases op <;> simp [insertedEntry]

/-- **A scan shows exactly the rows of the view.** -/
theorem mem_entries (hok : tx.Ok cat) (ht : tx.base[table]? = some t) {row : Row} :
    (pk, row) ∈ tx.entries table t ↔ tx.view table pk = some row := by
  have hkept : (pk, row) ∈ t.rows.toList.filterMap (keptEntry (tx.ops table)) ↔
      ∃ r, t.rowAt pk = some r ∧ (tx.op table pk = none ∧ r = row ∨ tx.op table pk = some (.update row)) := by
    simp only [mem_filterMap, Prod.exists, keptEntry_eq_some, mem_toList_iff_getElem?_eq_some]
    constructor
    · rintro ⟨k, r, hr, rfl, hop⟩
      exact ⟨r, hr, hop⟩
    · rintro ⟨r, hr, hop⟩
      exact ⟨pk, r, hr, rfl, hop⟩
  have hinserted : (pk, row) ∈ (tx.ops table).toList.filterMap insertedEntry ↔ tx.op table pk = some (.insert row) := by
    simp only [mem_filterMap, Prod.exists, insertedEntry_eq_some, mem_toList_iff_getElem?_eq_some]
    constructor
    · rintro ⟨k, op, hop, rfl, rfl⟩
      exact hop
    · intro hop
      exact ⟨pk, _, hop, rfl, rfl⟩
  rw [entries, mem_append, hkept, hinserted, view, rowIn_eq ht]
  have hover := hok.overlays table pk
  rw [rowIn_eq ht] at hover
  rcases hop : tx.op table pk with _ | op
  · simp [under]
  · cases op <;> cases hrow : t.rowAt pk <;>
      simp_all [under, PendingOp.result, PendingOp.Overlays, PendingOp.releases]

theorem nodup_entries (hok : tx.Ok cat) (ht : tx.base[table]? = some t) : ((tx.entries table t).map Prod.fst).Nodup := by
  rw [entries, map_append, nodup_append]
  refine ⟨?_, ?_, ?_⟩
  · refine nodup_keys_filterMap (fun p q h => ?_) (nodup_keys_toList _)
    exact (keptEntry_eq_some.mp h).1.symm
  · refine nodup_keys_filterMap (fun p q h => ?_) (nodup_keys_toList _)
    exact (insertedEntry_eq_some.mp h).1.symm
  -- a kept key has a committed row, an inserted one has none
  rintro pk hkept pk' hins rfl
  obtain ⟨⟨pk₁, row₁⟩, hmem₁, rfl⟩ := mem_map.mp hkept
  obtain ⟨⟨pk₂, row₂⟩, hmem₂, heq⟩ := mem_map.mp hins
  obtain ⟨⟨k, r⟩, hk, hkr⟩ := mem_filterMap.mp hmem₁
  obtain ⟨⟨k', op⟩, hk', hop⟩ := mem_filterMap.mp hmem₂
  obtain ⟨rfl, -⟩ := keptEntry_eq_some.mp hkr
  obtain ⟨rfl, rfl⟩ := insertedEntry_eq_some.mp hop
  obtain rfl : k' = k := heq
  have hrow : t.rowAt k' = some r := mem_toList_iff_getElem?_eq_some.mp hk
  have hover := hok.overlays table k' _ (mem_toList_iff_getElem?_eq_some.mp hk')
  simp [rowIn_eq ht, hrow, PendingOp.Overlays, PendingOp.releases] at hover

end Tx

end Fluxum
