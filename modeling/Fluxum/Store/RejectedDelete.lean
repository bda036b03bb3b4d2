/-
# Rejected deletes

`Tx::delete` takes the row out of the buffer first and works through the
referential actions after. Whatever stops it then, the row stays out: nothing
puts back what was buffered, and the actions of the call never restore every
row it deleted. A `set_null` can bring back a deleted key only if the cleared
column is in the key, and then that key is nested one option deeper than the
key of the parent whose delete caused it.

* `rejected_delete_iff`: a rejected delete leaves the pending operations exactly
  if it found no row to delete.
* `restricted_delete_stays`: a delete that is refused and stays buffered.
-/
import Fluxum.Store.Counters

namespace Fluxum

open Std (ExtTreeMap)
open Outcome List Option

/-- How many options a type is nested in. -/
def FluxType.optionDepth : FluxType → Nat
  | .option t => t.optionDepth + 1
  | _ => 0

/-- How deep the single key column of a table is nested in options; a key of several columns counts as deepest. -/
def keyDepth (schema : TableSchema) : WithTop Nat :=
  match schema.primaryKey.map (schema.columns[·]?) with
  | [some c] => c.ty.optionDepth
  | _ => ⊤

theorem keyDepth_lt_of_setNull {fk : ResolvedFk} {tables : ExtTreeMap Nat TableSchema}
    {computed : Nat → List (Nat × (Row → Option RowValue))} (hfk : fk.Valid tables computed) (hnull : fk.onDelete = .setNull)
    (hkey : fk.childOrdinal ∈ fk.childSchema.primaryKey) : keyDepth fk.parentSchema < keyDepth fk.childSchema := by
  obtain ⟨o, parentColumn, childColumn, hpk, hparent, hchild, href, hopt⟩ := hfk.key
  obtain ⟨inner, hty⟩ := hopt hnull
  have hinner : inner = parentColumn.ty := by
    rw [hty] at href
    exact href
  have hparentDepth : keyDepth fk.parentSchema = parentColumn.ty.optionDepth := by
    simp [keyDepth, hpk, hparent]
  rw [hparentDepth]
  unfold keyDepth
  split
  · rename_i c hc
    obtain ⟨o', hsingle, hcol⟩ := map_eq_singleton_iff.mp hc
    rw [hsingle, mem_singleton] at hkey
    rw [← hkey, hchild] at hcol
    cases hcol
    rw [hty, hinner, FluxType.optionDepth]
    exact_mod_cast Nat.lt_succ_self _
  · exact WithTop.coe_lt_top _

/-- The row that `before` saw at a key is gone, from a table with a key of depth `d`, and every row that is new is in a
table with a deeper key. -/
structure GoneAt (cat : Catalog) (before now : Tx) (table : Nat) (pk : Bytes) (d : WithTop Nat) : Prop where
  depth : ∀ schema : TableSchema, cat.tables[table]? = some schema → keyDepth schema = d
  seen : (before.view table pk).isSome
  lost : now.view table pk = none
  new : ∀ (table : Nat) (schema : TableSchema) (pk : Bytes), cat.tables[table]? = some schema → (now.view table pk).isSome →
    (before.view table pk).isSome ∨ d < keyDepth schema

def Gone (cat : Catalog) (before now : Tx) (d : WithTop Nat) : Prop := ∃ table pk, GoneAt cat before now table pk d

/-- A row is gone, and no table of the worklist has a key less deep than its table. -/
def Shrunk (cat : Catalog) (before : Tx) (bound : WithTop Nat) (s : Tx × List (Nat × Row)) : Prop :=
  ∃ d ≤ bound, Gone cat before s.1 d ∧
    ∀ p ∈ s.2, ∀ schema : TableSchema, cat.tables[p.1]? = some schema → d ≤ keyDepth schema

section Actions

variable {cat : Catalog} {srv : Services cat} {before tx tx' : Tx} {d bound : WithTop Nat} {fk : ResolvedFk} {table : Nat} {pk : Bytes}

theorem GoneAt.writer (h : GoneAt cat before tx table pk d) (writer : WriterState) : GoneAt cat before { tx with writer } table pk d :=
  ⟨h.depth, h.seen, h.lost, h.new⟩

theorem setNull_key {child values : Row} {schema : TableSchema} {k pk : Bytes} {derived assigned : Row} {writer writer' : WriterState}
    (hcat : cat.KeysStored) (hschema : cat.tables[fk.child]? = some schema) (hstored : StoredRow cat fk.child schema k child)
    (hid : NoPlaceholder schema child) (hread : srv.onReadRow.run fk.child child pk = .ok values)
    (hoff : fk.childOrdinal ∉ schema.primaryKey)
    (hprepare : deriveColumns fk.child (cat.computed fk.child) (values.set fk.childOrdinal .optNone) = .ok derived)
    (hassign : assignAutoInc cat.autoIncStep writer fk.child schema derived = .ok (writer', assigned)) :
    encodePkOfRow schema assigned = .ok k := by
  have hcolumn : ∀ o ∈ schema.primaryKey, derived[o]? = child[o]? := by
    intro o ho
    have hne : fk.childOrdinal ≠ o := by
      rintro rfl
      exact hoff ho
    rw [(deriveColumns_eq_ok hprepare).2 o (hcat fk.child schema hschema o ho), getElem?_set_ne hne,
      (RowTransform.run_eq_ok hread).2 o (cat.sealed_primaryKey fk.child schema hschema o ho)]
  have hexplicit : NoPlaceholder schema derived := by
    intro o ho
    rw [hcolumn o (by rw [(schema.autoInc_primaryKey o ho).1]; simp)]
    exact hid o ho
  rw [← hstored.key]
  -- an explicit id is stored as it is
  rcases assignAutoInc_cases hassign with ⟨-, -, rfl⟩ | ⟨o, ho, hzero, -, -⟩ | ⟨-, -, -, -, -, -, rfl⟩
  · exact encodePkColumns_congr hcolumn
  · exact absurd hzero (hexplicit o ho)
  · exact encodePkColumns_congr hcolumn

/-- What is known of a child row that a scan shows while the row at `pk` is gone. -/
structure ChildOf (cat : Catalog) (before : Tx) (fk : ResolvedFk) (table : Nat) (pk : Bytes) (d : WithTop Nat) (child : Row) (k : Bytes) :
    Prop where
  stored : StoredRow cat fk.child fk.childSchema k child
  assigned : NoPlaceholder fk.childSchema child
  other : ¬ (fk.child = table ∧ k = pk)
  known : (before.view fk.child k).isSome ∨ d < keyDepth fk.childSchema

/-- The state of a loop over the children of one deleted row. -/
structure Going (cat : Catalog) (base : Tables) (tx : Tx) : Prop where
  ok : tx.OkOver cat base
  assigned : tx.Assigned cat

theorem GoneAt.setNull {child values stored : Row} {k k' : Bytes} (hcat : cat.KeysStored) (hfk : fk.Valid cat.tables cat.computed)
    (hnull : fk.onDelete = .setNull) (hdepth : d ≤ keyDepth fk.parentSchema) (hchild : ChildOf cat before fk table pk d child k)
    (hgone : GoneAt cat before tx table pk d) (hread : srv.onReadRow.run fk.child child k' = .ok values)
    (hw : tx.write srv fk.child (values.set fk.childOrdinal .optNone) true = .ok (tx', stored)) :
    GoneAt cat before tx' table pk d := by
  obtain ⟨schema, derived, writer, assigned, key, row, t, op, hprepare, hassign, -, hkey, -, ht, -, -, hplace, rfl⟩ := write_eq_ok hw
  obtain ⟨hschema, -, hderive, -⟩ := prepare_eq_ok hprepare
  cases hfk.child.symm.trans hschema
  -- the key written is the child's own, or it is in a table with a deeper key
  have hwritten : ¬ (fk.child = table ∧ key = pk) ∧ ((before.view fk.child key).isSome ∨ d < keyDepth fk.childSchema) := by
    by_cases hin : fk.childOrdinal ∈ fk.childSchema.primaryKey
    · have hdeeper := hdepth.trans_lt (keyDepth_lt_of_setNull hfk hnull hin)
      refine ⟨?_, .inr hdeeper⟩
      rintro ⟨rfl, -⟩
      exact hdeeper.ne (hgone.depth _ hfk.child).symm
    · have hown := setNull_key hcat hfk.child hchild.stored hchild.assigned hread hin hderive hassign
      cases hown.symm.trans hkey
      exact ⟨hchild.other, hchild.known⟩
  refine ⟨hgone.depth, hgone.seen, ?_, fun table' schema' pk' hschema' hsome => ?_⟩
  · rw [Tx.view_setOp, if_neg hwritten.1]
    exact hgone.lost
  rw [Tx.view_setOp] at hsome
  split at hsome
  · rename_i heq
    obtain ⟨rfl, rfl⟩ := heq
    cases hfk.child.symm.trans hschema'
    exact hwritten.2
  · exact hgone.new table' schema' pk' hschema' hsome

variable {base : Tables} {s : Tx × List (Nat × Row)} {v : RowValue} {child : Row}

theorem kept_going (srv : Services cat) : Tx.Kept srv (Going cat base) where
  write tx h table values replace := (write_okOver h.ok table values replace).both
    (kept_assigned.write tx h.assigned table values replace) (fun _ => Going.mk) fun _ => Going.mk
  deleteOne tx h table pkValues := (deleteOne_okOver h.ok table pkValues).both
    (kept_assigned.deleteOne tx h.assigned table pkValues) (fun _ => Going.mk) fun _ => Going.mk

theorem gone_setNull {k : Bytes} (hcat : cat.KeysStored)
    (hfk : fk.Valid cat.tables cat.computed) (hnull : fk.onDelete = .setNull) (hdepth : d ≤ keyDepth fk.parentSchema)
    (hchild : ChildOf cat before fk table pk d child k) (hgoing : Going cat base s.1)
    (hgone : GoneAt cat before s.1 table pk d) :
    Ends (fun e => ∃ d, Gone cat before e.2 d) (Tx.refActionOn srv fk v s child)
      (fun r => Going cat base r.1 ∧ GoneAt cat before r.1 table pk d ∧ r.2 = s.2) := by
  have hstay : ∃ d, Gone cat before s.1 d := ⟨d, table, pk, hgone⟩
  unfold Tx.refActionOn
  simp only [hnull]
  refine (Tx.Kept.fail (P := fun tx => ∃ d, Gone cat before tx d) hstay _).bind fun k' _ => ?_
  rcases hread : s.1.fail (srv.onReadRow.run fk.child child k') with e | values
  · simp only [Ends, bind, Except.bind, Tx.fail_eq_error hread]
    exact hstay
  rcases hw : s.1.write srv fk.child (values.set fk.childOrdinal .optNone) true with e | ⟨tx', stored⟩
  · obtain ⟨writer, he, -⟩ := write_error hw
    simp only [Ends, bind, Except.bind, hw, he]
    exact ⟨d, table, pk, hgone.writer writer⟩
  · simp only [Ends, bind, Except.bind, hw]
    exact ⟨((kept_going srv).write s.1 hgoing fk.child _ true).of_ok hw,
      hgone.setNull hcat hfk hnull hdepth hchild (Tx.fail_eq_ok.mp hread) hw, rfl⟩

/-- A delete of one more row keeps a row gone: the same one, or the new one if the key of its table is less deep. -/
theorem Shrunk.deleteOne {pkValues : List RowValue} {old : Option Row} (hok : s.1.Ok cat)
    (h : Shrunk cat before bound s) (hd : s.1.deleteOne srv table pkValues = .ok (tx', old)) :
    Shrunk cat before bound (tx', (old.map (table, ·)).toList ++ s.2) := by
  obtain ⟨schema, key, hschema, -, hold, -, hview⟩ := deleteOne_view hok hd
  obtain ⟨d, hbound, ⟨goneTable, gonePk, hgone⟩, hlist⟩ := h
  have hsub : ∀ table' pk', (tx'.view table' pk').isSome → (s.1.view table' pk').isSome := by
    intro table' pk' hsome
    rw [hview] at hsome
    split at hsome
    · cases hsome
    · exact hsome
  have hnew : ∀ (table' : Nat) (schema' : TableSchema) (pk' : Bytes), cat.tables[table']? = some schema' →
      (tx'.view table' pk').isSome → (before.view table' pk').isSome ∨ d < keyDepth schema' :=
    fun table' schema' pk' hschema' hsome => hgone.new table' schema' pk' hschema' (hsub table' pk' hsome)
  have hlost : tx'.view goneTable gonePk = none := by
    rw [hview]
    split
    · rfl
    · exact hgone.lost
  by_cases hkeep : old = none ∨ d ≤ keyDepth schema
  · refine ⟨d, hbound, ⟨goneTable, gonePk, hgone.depth, hgone.seen, hlost, hnew⟩, fun p hp schema' hschema' => ?_⟩
    rcases mem_append.mp hp with hp | hp
    · obtain ⟨row, hrow, rfl⟩ := map_eq_some_iff.mp (mem_toList.mp hp)
      cases hschema.symm.trans hschema'
      exact hkeep.resolve_left (by simp [hrow])
    · exact hlist p hp schema' hschema'
  · obtain ⟨hfound, hless⟩ := not_or.mp hkeep
    have hless := not_le.mp hless
    have hseen : (before.view table key).isSome := by
      refine (hgone.new table schema key hschema ?_).resolve_right hless.not_gt
      rw [← hold]
      exact isSome_iff_ne_none.mpr hfound
    refine ⟨keyDepth schema, hless.le.trans hbound, ⟨table, key, fun schema' hschema' => ?_, hseen, ?_, ?_⟩,
      fun p hp schema' hschema' => ?_⟩
    · rw [some.inj (hschema.symm.trans hschema')]
    · rw [hview, if_pos ⟨rfl, rfl⟩]
    · exact fun table' schema' pk' hschema' hsome => (hnew table' schema' pk' hschema' hsome).imp_right hless.trans
    rcases mem_append.mp hp with hp | hp
    · obtain ⟨row, hrow, rfl⟩ := map_eq_some_iff.mp (mem_toList.mp hp)
      rw [some.inj (hschema.symm.trans hschema')]
    · exact hless.le.trans (hlist p hp schema' hschema')

/-- The state of the worklist: in order, with a row gone. -/
def Working (cat : Catalog) (before : Tx) (base : Tables) (bound : WithTop Nat) (s : Tx × List (Nat × Row)) : Prop :=
  Going cat base s.1 ∧ Shrunk cat before bound s

theorem Working.gone (h : Working cat before base bound s) : ∃ d, Gone cat before s.1 d := by
  obtain ⟨-, d, -, hgone, -⟩ := h
  exact ⟨d, hgone⟩

theorem working_cascade (hcascade : fk.onDelete = .cascade) (h : Working cat before base bound s) :
    Ends (fun e => ∃ d, Gone cat before e.2 d) (Tx.refActionOn srv fk v s child) (Working cat before base bound) := by
  unfold Tx.refActionOn
  simp only [hcascade]
  rcases hd : s.1.deleteOne srv fk.child (fk.childSchema.primaryKey.filterMap (child[·]?)) with e | ⟨tx', old⟩
  · simp only [Ends, bind, Except.bind, deleteOne_error hd]
    exact h.gone
  · exact ⟨((kept_going srv).deleteOne s.1 h.1 fk.child _).of_ok hd, h.2.deleteOne h.1.ok.1 hd⟩

theorem childOf_mem {t : TableState} {rows : List Row} (hfk : fk.Valid cat.tables cat.computed)
    (hok : tx.Ok cat) (hassigned : tx.Assigned cat) (ht : tx.base[fk.child]? = some t) (hgone : GoneAt cat before tx table pk d)
    (hrows : tx.scanAll fk.child = .ok rows) (hchild : child ∈ rows) : ∃ k, ChildOf cat before fk table pk d child k := by
  rw [Tx.scanAll_eq ht] at hrows
  cases hrows
  obtain ⟨⟨k, row⟩, hmem, rfl⟩ := mem_map.mp hchild
  have hview := (Tx.mem_entries hok ht).mp hmem
  refine ⟨k, hok.storedRow_of_view hfk.child hview, hassigned.of_view hfk.child hview, ?_, ?_⟩
  · rintro ⟨rfl, rfl⟩
    rw [hgone.lost] at hview
    cases hview
  · exact hgone.new fk.child fk.childSchema k hfk.child (by rw [hview]; rfl)

/-- **One referential action** keeps a row gone. -/
theorem working_applyRefAction {deleted : List (Nat × Row)} (hcat : cat.KeysStored)
    (hfk : fk.Valid cat.tables cat.computed) (hbound : bound ≤ keyDepth fk.parentSchema)
    (h : Working cat before base bound (tx, deleted)) :
    Ends (fun e => ∃ d, Gone cat before e.2 d) (tx.applyRefAction srv fk v deleted) (Working cat before base bound) := by
  obtain ⟨t, ht, -⟩ := h.1.ok.1.base.exists_table hfk.child
  unfold Tx.applyRefAction
  rcases hrows : tx.fail (tx.scanAll fk.child) with e | rows
  · simp only [Ends, bind, Except.bind, Tx.fail_eq_error hrows]
    exact h.gone
  have hrows := Tx.fail_eq_ok.mp hrows
  cases haction : fk.onDelete with
  | restrict =>
    refine Ends.foldlM (fun s child hs => ?_) h
    unfold Tx.refActionOn
    simp only [haction]
    exact hs.gone
  | cascade => exact Ends.foldlM (fun s child hs => working_cascade haction hs) h
  | setNull =>
    -- no row is deleted here, so the row that is gone stays the same through the loop
    obtain ⟨hgoing, d, hd, ⟨goneTable, gonePk, hgone⟩, hlist⟩ := h
    have hloop : Ends (fun e => ∃ d, Gone cat before e.2 d)
        ((rows.filter fun row => fkValueMatches row[fk.childOrdinal]? v).foldlM (Tx.refActionOn srv fk v) (tx, deleted))
        (fun r => Going cat base r.1 ∧ GoneAt cat before r.1 goneTable gonePk d ∧ r.2 = deleted) := by
      refine Ends.foldlM_of_mem (fun s child hchild hs => ?_) ⟨hgoing, hgone, rfl⟩
      obtain ⟨k, hk⟩ := childOf_mem hfk hgoing.ok.1 hgoing.assigned ht hgone hrows (mem_filter.mp hchild).1
      refine (gone_setNull hcat hfk haction (hd.trans hbound) hk hs.1 hs.2.1).mono fun r hr => ?_
      exact ⟨hr.1, hr.2.1, hr.2.2.trans hs.2.2⟩
    refine hloop.mono fun r hr => ⟨hr.1, d, hd, ⟨goneTable, gonePk, hr.2.1⟩, ?_⟩
    rw [hr.2.2]
    exact hlist

/-- **Through the whole worklist a row stays gone.** -/
theorem working_deleteLoop (hcat : cat.KeysStored) : ∀ {fuel : Nat} {tx : Tx}
    {deleted : List (Nat × Row)} {x : Except (StoreError × Tx) Tx}, Working cat before base ⊤ (tx, deleted) →
    tx.deleteLoop srv fuel deleted = some x → Ends (fun e => ∃ d, Gone cat before e.2 d) x (fun _ => True)
  | _, tx, [], x, _, hx => by
    rw [Tx.deleteLoop] at hx
    cases hx
    trivial
  | 0, tx, _ :: _, x, _, hx => by simp [Tx.deleteLoop] at hx
  | fuel + 1, tx, (parent, old) :: deleted, x, h, hx => by
    obtain ⟨hgoing, d, -, hgone, hlist⟩ := h
    have hstart : Working cat before base d (tx, deleted) :=
      ⟨hgoing, d, le_rfl, hgone, fun p hp => hlist p (List.mem_cons_of_mem _ hp)⟩
    have hround : Ends (fun e => ∃ d, Gone cat before e.2 d) ((cat.fksIn parent).foldlM (Tx.refActions srv old) (tx, deleted))
        (Working cat before base d) := by
      refine Ends.foldlM_of_mem (fun s fk hfk hs => ?_) hstart
      obtain ⟨hmem, hparent⟩ := mem_filter.mp hfk
      have hvalid := cat.fks_valid fk hmem
      unfold Tx.refActions
      split
      · refine working_applyRefAction hcat hvalid (hlist (parent, old) (by simp) _ ?_) hs
        rw [← of_decide_eq_true hparent]
        exact hvalid.parent
      · exact hs
    rw [Tx.deleteLoop] at hx
    split at hx
    · rename_i e he
      cases hx
      exact hround.of_error he
    · rename_i tx' deleted' hok
      obtain ⟨hgoing', d', -, hgone', hlist'⟩ := hround.of_ok hok
      exact working_deleteLoop hcat ⟨hgoing', d', le_top, hgone', hlist'⟩ hx

end Actions

/-! ### Deletes -/

section Deletes

variable {cat : Catalog} {srv : Services cat} {tx : Tx} {fuel table : Nat} {pkValues : List RowValue} {e : StoreError × Tx}

/-- A delete finds a row to take out: the table takes writes, and the transaction sees a row at the key. -/
def Finds (srv : Services cat) (tx : Tx) (table : Nat) (pkValues : List RowValue) : Prop :=
  ∃ schema pk, cat.tables[table]? = some schema ∧ checkGlobal srv schema = .ok () ∧ encodePkValues schema pkValues = .ok pk ∧
    (tx.view table pk).isSome

theorem deleteOne_of_finds (hok : tx.Ok cat) (h : Finds srv tx table pkValues) : ∃ r, tx.deleteOne srv table pkValues = .ok r := by
  obtain ⟨schema, pk, hschema, hglobal, hpk, -⟩ := h
  obtain ⟨t, ht, -⟩ := hok.base.exists_table hschema
  unfold Tx.deleteOne
  rw [schemaOf_eq_ok.mpr hschema]
  simp only [Tx.fail, Except.mapError, bind, Except.bind, hglobal, hpk, Tx.baseTable_eq_ok.mpr ht, pure, Except.pure]
  exact ⟨_, rfl⟩

/-- A rejected delete that found its row leaves that row, or one that it cascaded to, deleted. -/
theorem gone_of_rejected {tx' : Tx} {old : Row} (hcat : cat.KeysStored) (hok : tx.Ok cat) (hassigned : tx.Assigned cat)
    (hone : tx.deleteOne srv table pkValues = .ok (tx', some old)) (h : tx'.deleteLoop srv fuel [(table, old)] = some (.error e)) :
    ∃ d, Gone cat tx e.2 d := by
  have hgoing := ((kept_going srv).deleteOne tx ⟨⟨hok, rfl⟩, hassigned⟩ table pkValues).of_ok hone
  obtain ⟨schema, pk, hschema, -, hold, -, hview⟩ := deleteOne_view hok hone
  have hgone : GoneAt cat tx tx' table pk (keyDepth schema) := by
    refine ⟨fun schema' hschema' => ?_, ?_, ?_, fun table' schema' pk' _ hsome => ?_⟩
    · rw [some.inj (hschema.symm.trans hschema')]
    · rw [← hold]
      rfl
    · rw [hview, if_pos ⟨rfl, rfl⟩]
    rw [hview] at hsome
    split at hsome
    · cases hsome
    · exact .inl hsome
  have hworking : Working cat tx tx.base ⊤ (tx', [(table, old)]) := by
    refine ⟨hgoing, keyDepth schema, le_top, ⟨table, pk, hgone⟩, fun p hp schema' hschema' => ?_⟩
    obtain rfl := mem_singleton.mp hp
    rw [some.inj (hschema.symm.trans hschema')]
  exact working_deleteLoop hcat hworking h

theorem view_congr {a b : Tx} (hbase : a.base = b.base) {table : Nat} (hops : a.ops table = b.ops table) (pk : Bytes) :
    a.view table pk = b.view table pk := by
  rw [Tx.view, Tx.view, Tx.op, Tx.op, hbase, hops]

/-- **A rejected delete leaves the pending operations exactly if it found no row to delete.** -/
theorem rejected_delete_iff (cat : Catalog) (srv : Services cat) (tx : Tx) (fuel table : Nat) (pkValues : List RowValue)
    (e : StoreError × Tx) (hcat : cat.KeysStored) (hok : tx.Ok cat) (hassigned : tx.Assigned cat)
    (h : tx.delete srv fuel table pkValues = some (.error e)) :
    (∀ table', e.2.ops table' = tx.ops table') ↔ ¬ Finds srv tx table pkValues := by
  have hbase : e.2.base = tx.base := (kept_okOver.delete ⟨hok, rfl⟩ h).2
  unfold Tx.delete at h
  split at h
  · rename_i e' hone
    obtain rfl := Except.error.inj (some.inj h)
    refine ⟨fun _ hfinds => ?_, fun _ table' => by rw [deleteOne_error hone]⟩
    obtain ⟨r, hr⟩ := deleteOne_of_finds hok hfinds
    rw [hone] at hr
    cases hr
  · cases h
  · rename_i tx' old hone
    obtain ⟨z, hz, hzx⟩ := map_eq_some_iff.mp h
    cases z with
    | ok a => cases hzx
    | error e' =>
      obtain rfl := Except.error.inj hzx
      obtain ⟨schema, pk, hschema, hglobal, hpk, hold, -⟩ := deleteOne_cases hok hone
      have hfinds : Finds srv tx table pkValues := ⟨schema, pk, hschema, hglobal, hpk, by rw [← hold]; rfl⟩
      refine ⟨fun hops => ?_, fun hno => absurd hfinds hno⟩
      obtain ⟨d, goneTable, gonePk, hgone⟩ := gone_of_rejected hcat hok hassigned hone hz
      have hseen := hgone.seen
      rw [← view_congr hbase (hops goneTable) gonePk, hgone.lost] at hseen
      cases hseen

end Deletes

/-! ### A delete that a child restricts -/

def familyParent : TableSchema :=
  { name := "Parent"
    columns := [⟨"id", .scalar .u64⟩]
    primaryKey := [0]
    autoInc := none
    access := .pub
    unique := []
    indexes := []
    primaryKey_ne_nil := single_key_ne_nil
    primaryKey_lt := by decide
    autoInc_primaryKey := by simp
    unique_lt := by simp
    indexes_lt := by simp }

def familyChild : TableSchema :=
  { name := "Child"
    columns := [⟨"id", .scalar .u64⟩, ⟨"parent", .scalar .u64⟩]
    primaryKey := [0]
    autoInc := none
    access := .pub
    unique := []
    indexes := []
    primaryKey_ne_nil := single_key_ne_nil
    primaryKey_lt := by decide
    autoInc_primaryKey := by simp
    unique_lt := by simp
    indexes_lt := by simp }

/-- The child references the parent, with the default action. -/
def childFk : ResolvedFk := ⟨2, familyChild, 1, 1, familyParent, .restrict⟩

def familyTables : ExtTreeMap Nat TableSchema := ExtTreeMap.ofList [(1, familyParent), (2, familyChild)]

theorem childFk_valid : childFk.Valid familyTables fun _ => [] where
  child := rfl
  parent := rfl
  key := ⟨0, ⟨"id", .scalar .u64⟩, ⟨"parent", .scalar .u64⟩, rfl, rfl, rfl, rfl, by simp [childFk]⟩
  notComputed := by simp

theorem familyFks_valid : ∀ fk ∈ [childFk], fk.Valid familyTables fun _ => [] := fun _ hfk =>
  (mem_singleton.mp hfk).symm ▸ childFk_valid

def familyCatalog : Catalog :=
  { tables := familyTables
    computed := fun _ => []
    notNull := fun _ => []
    checks := fun _ => []
    spatial := fun _ _ => true
    fks := [childFk]
    sealedColumns := fun _ => []
    autoIncStep := 4096
    fits := fun _ => true
    fks_valid := familyFks_valid
    sealed_primaryKey := fun _ _ _ _ _ => List.not_mem_nil
    autoIncStep_pos := Nat.succ_pos 4095 }

/-- A parent and its child are committed, and another transaction begins. -/
def familyRun : List (Cluster.Step familyCatalog) :=
  let srv := plainServices familyCatalog
  [.begin 0, .call 0 srv (.insert 1 [.scalar (.u64 7)]), .call 0 srv (.insert 2 [.scalar (.u64 1), .scalar (.u64 7)]),
    .commit 0 ⟨0, 0, [], "family"⟩, .begin 0]

/-- The refused delete of the parent stays in the buffer. -/
theorem restricted_delete_stays : ∃ s tx e, Runs.run (Cluster.step familyCatalog) (.new familyCatalog) familyRun = some s ∧
    (s.node 0).tx = some tx ∧ tx.delete (plainServices familyCatalog) 2 1 [.scalar (.u64 7)] = some (.error e) ∧
    e.2.ops 1 ≠ tx.ops 1 := by
  obtain ⟨s, hrun, tx, htx, x, hx, hrefused⟩ : ∃ s ∈ Runs.run (Cluster.step familyCatalog) (.new familyCatalog) familyRun,
      ∃ tx ∈ (s.node 0).tx, ∃ x ∈ tx.delete (plainServices familyCatalog) 2 1 [.scalar (.u64 7)],
        (match x with
          | .ok _ => false
          | .error e => decide ((e.2.ops 1).size ≠ (tx.ops 1).size)) = true := by
    decide +kernel
  cases x with
  | ok r => cases hrefused
  | error e => exact ⟨s, tx, e, hrun, htx, hx, fun heq => of_decide_eq_true hrefused (by rw [heq])⟩

/-- A parent is inserted. -/
def parentInserted : Option Tx :=
  ((MemStore.new familyCatalog).begin.call (plainServices familyCatalog) (.insert 1 [.scalar (.u64 7)])).map Tx.after

/-- A delete without a key is refused, and the insert stays. -/
theorem rejected_delete_iff_noKey : ∃ tx e, parentInserted = some tx ∧ (tx.ops 1).size = 1 ∧
    tx.delete (plainServices familyCatalog) 1 1 [] = some (.error e) ∧ ∀ table, e.2.ops table = tx.ops table := by
  obtain ⟨tx, htx, hsize, x, hx, hrefused⟩ : ∃ tx ∈ parentInserted, (tx.ops 1).size = 1 ∧
      ∃ x ∈ tx.delete (plainServices familyCatalog) 1 1 [], x.toOption.isNone = true := by
    decide +kernel
  obtain ⟨y, hy, rfl⟩ := map_eq_some_iff.mp htx
  have hnew := memStore_ok_new familyCatalog
  have hok := call_okOver (begin_okOver hnew.tables hnew.dirty) hy
  have hassigned := kept_assigned.call (assigned_new familyCatalog) hy
  cases x with
  | ok r => cases hrefused
  | error e =>
    refine ⟨_, e, htx, hsize, hx, (rejected_delete_iff familyCatalog (plainServices familyCatalog) _ 1 1 [] e
      (by simp [Catalog.KeysStored, familyCatalog]) hok.1 hassigned hx).mpr ?_⟩
    rintro ⟨schema, pk, hschema, -, hpk, -⟩
    cases hschema
    cases hpk

end Fluxum
