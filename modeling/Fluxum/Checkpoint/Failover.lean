/-
# Auto-increment ids through crashes and promotions

A primary runs transactions and logs their records; other processes apply
the records, any process may crash and recover from its own log, and a process
that has applied all records may be promoted. A counter resumes from the
marks that the log publishes: in batches, and by later transactions than the
ones that advanced it. A primary that is demoted and applies the records of its
successor may have its counter set back to their marks, below ids it has
already assigned. An ephemeral table is not logged at all.

* `assigned_ids_fresh`: while `CountersKept` holds, an assigned id is of no row
  ever committed to a durable table, and new in the lifetime of its process.
* `ids_reissued`: ids assigned twice, without it and in an ephemeral table.
-/
import Fluxum.Checkpoint.Recover
import Fluxum.Store.Diff

namespace Fluxum

open Std Outcome List Function Option

/-! ### The ids of rows -/

/-- The id of a row, if the table has an auto-increment column. -/
def rowId (schema : TableSchema) (row : Row) : Option Nat :=
  match schema.autoInc.bind (row[·]?) with
  | some (.scalar (.u64 id)) => some id.toNat
  | _ => none

def Catalog.idsOf (cat : Catalog) (table : Nat) (rows : List Row) : List (Nat × Nat) :=
  (cat.tables[table]?).elim [] fun schema => rows.filterMap fun row => (rowId schema row).map (table, ·)

def TxDiff.ids (cat : Catalog) (diff : TxDiff) : List (Nat × Nat) :=
  diff.tables.flatMap fun d => cat.idsOf d.tableId d.inserts

def TxRecord.ids (cat : Catalog) (r : TxRecord) : List (Nat × Nat) :=
  r.mutations.flatMap fun m => cat.idsOf m.tableId (m.insertRows.toOption.getD [])

/-- The ids of the rows the records insert. -/
def logIds (cat : Catalog) (records : List TxRecord) : List (Nat × Nat) := records.flatMap (·.ids cat)

def Catalog.HasIds (cat : Catalog) (table : Nat) : Prop := (cat.tables[table]?.bind (·.autoInc)).isSome

def isPlaceholder : Option RowValue → Bool
  | some (.scalar (.u64 id)) => id == 0
  | _ => false

/-- The id that an insert or upsert assigns to a placeholder; a rejected call assigns it as well. -/
def Tx.assignedId {cat : Catalog} (srv : Services cat) (tx : Tx) : TxCall → Option (Nat × Nat)
  | .insert table values | .upsert table values => do
    let (schema, derived) ← (prepare srv table values).toOption
    let o ← schema.autoInc
    if isPlaceholder derived[o]? then
      let (_, assigned) ← (assignAutoInc cat.autoIncStep tx.writer table schema derived).toOption
      (rowId schema assigned).map (table, ·)
    else none
  -- the rows that a delete rewrites have their ids
  | .delete .. => none

/-! ### The processes of a shard -/

/-- One process: its store, the transaction in flight, and how many records its own log has. The rest is
of its lifetime: whether it has run a transaction, the ids it has assigned, and those of the rows it committed. -/
structure Process where
  store : MemStore
  tx : Option Tx
  applied : Nat
  served : Bool
  issued : List (Nat × Nat)
  rows : List (Nat × Nat)

/-- The processes, the records of all committed transactions, and the ids of all rows ever committed. -/
structure Group where
  process : Nat → Process
  primary : Nat
  history : List TxRecord
  committed : List (Nat × Nat)

namespace Group

inductive Step (cat : Catalog) where
  | begin
  | call (srv : Services cat) (c : TxCall)
  | commit (info : CommitMeta)
  | rollback
  | replicate (i : Nat)
  /-- Crash, and recover from the first `kept` records; a primary has synced all of them. -/
  | restart (i kept : Nat)
  | promote (i : Nat)

def new (cat : Catalog) : Group := ⟨fun _ => ⟨.new cat, none, 0, false, [], []⟩, 0, [], []⟩

def set (s : Group) (i : Nat) (p : Process) : Group := { s with process := update s.process i p }

def step {cat : Catalog} (ids : TableIds cat) (s : Group) : Step cat → Option Group
  | .begin =>
    let p := s.process s.primary
    if p.tx.isSome then none else some (s.set s.primary { p with tx := some p.store.begin, served := true })
  | .call srv c => do
    let p := s.process s.primary
    let tx ← p.tx
    let x ← tx.call srv c
    return s.set s.primary { p with tx := some (Tx.after x), issued := p.issued ++ (tx.assignedId srv c).toList }
  | .commit info => do
    let p := s.process s.primary
    let tx ← p.tx
    match tx.commit cat with
    | .ok (diff, store) =>
      let p := { p with store, tx := none, applied := p.applied + 1, rows := p.rows ++ diff.ids cat }
      return { s.set s.primary p with
        history := s.history ++ [.fromDiff (durableDiff cat diff) info], committed := s.committed ++ diff.ids cat }
    | .error _ => return s.set s.primary { p with store := tx.rollback, tx := none }
  | .rollback => do
    let p := s.process s.primary
    let tx ← p.tx
    return s.set s.primary { p with store := tx.rollback, tx := none }
  | .replicate i => do
    let p := s.process i
    let record ← s.history[p.applied]?
    if p.tx.isSome then none
    else do
      let (_, store) ← (p.store.applyReplicaRecord cat record).toOption
      return s.set i { p with store, applied := p.applied + 1 }
  | .restart i kept =>
    if kept ≤ (s.process i).applied ∧ (i = s.primary → kept = s.history.length) then do
      let store ← (recoverFrom ids none (s.history.take kept)).toOption
      return s.set i ⟨store, none, kept, false, [], []⟩
    else none
  | .promote i =>
    let p := s.process i
    if p.applied = s.history.length ∧ p.tx.isNone then some { s with primary := i } else none

end Group

/-! ### Ids of diffs and records -/

variable {schema : TableSchema}

section Ids

variable {cat : Catalog} {table id : Nat} {rows : List Row} {diff : TxDiff} {q : Nat × Nat}

theorem mem_idsOf : q ∈ cat.idsOf table rows ↔ q.1 = table ∧ ∃ schema row, cat.tables[table]? = some schema ∧
    row ∈ rows ∧ rowId schema row = some q.2 := by
  unfold Catalog.idsOf
  rcases hschema : cat.tables[table]? with _ | schema
  · simp
  simp only [elim_some, mem_filterMap, map_eq_some_iff, Prod.ext_iff]
  constructor
  · rintro ⟨row, hrow, id, hid, rfl, rfl⟩
    exact ⟨rfl, schema, row, rfl, hrow, hid⟩
  · rintro ⟨rfl, schema', row, hs, hrow, hid⟩
    cases hs
    exact ⟨row, hrow, q.2, hid, rfl, rfl⟩

theorem hasIds_of_rowId {row : Row} (hschema : cat.tables[table]? = some schema)
    (h : rowId schema row = some id) : cat.HasIds table := by
  unfold rowId at h
  rw [Catalog.HasIds, hschema, bind_some]
  cases hinc : schema.autoInc with
  | none => simp [hinc] at h
  | some o => rfl

theorem TxDiff.mem_ids : q ∈ diff.ids cat ↔ ∃ d ∈ diff.tables, q ∈ cat.idsOf d.tableId d.inserts := by
  rw [TxDiff.ids, mem_flatMap]

theorem ids_fromDiff (diff : TxDiff) (info : CommitMeta) : (TxRecord.fromDiff diff info).ids cat = diff.ids cat := by
  unfold TxRecord.ids TxDiff.ids TxRecord.fromDiff
  rw [flatMap_map]
  refine flatMap_congr fun d _ => ?_
  rw [TableMutation.insertRows, mapM_toRow_rowToLog]
  rfl

theorem mem_ids_durableDiff : q ∈ (durableDiff cat diff).ids cat ↔ q ∈ diff.ids cat ∧ cat.isEphemeral q.1 = false := by
  simp only [TxDiff.mem_ids, durableDiff, mem_filter, Bool.not_eq_true']
  constructor
  · rintro ⟨d, ⟨hd, hdur⟩, hq⟩
    exact ⟨⟨d, hd, hq⟩, (mem_idsOf.mp hq).1 ▸ hdur⟩
  · rintro ⟨⟨d, hd, hq⟩, hdur⟩
    exact ⟨d, ⟨hd, (mem_idsOf.mp hq).1 ▸ hdur⟩, hq⟩

theorem logIds_append (l : List TxRecord) (r : TxRecord) : logIds cat (l ++ [r]) = logIds cat l ++ r.ids cat := by
  simp [logIds]

end Ids

/-! ### Counters that have passed an id -/

/-- The counter assigns no id up to this one any more, or it has reached the last. -/
def AutoIncCounter.Passed (c : AutoIncCounter) (id : Nat) : Prop := id < c.next ∨ c.next = 2 ^ 64 - 1

section Passed

variable {c c' : AutoIncCounter} {id id' : Nat}

theorem AutoIncCounter.Passed.mono (h : c.Passed id) (hle : c.next ≤ c'.next) (hc : c'.Counts) : c'.Passed id := by
  unfold AutoIncCounter.Passed at *
  have := hc.2
  omega

theorem AutoIncCounter.Passed.of_le (h : c.Passed id) (hle : id' ≤ id) : c.Passed id' := by
  unfold AutoIncCounter.Passed at *
  omega

/-- The counter that resumes from a mark; a new one resumes from 0. -/
def AutoIncCounter.resumed (mark : Nat) : AutoIncCounter := ⟨saturatingAdd mark 1, mark⟩

theorem passed_resumed (mark : Nat) : (AutoIncCounter.resumed mark).Passed mark := by
  unfold AutoIncCounter.Passed AutoIncCounter.resumed saturatingAdd
  dsimp only
  omega

theorem counts_resumed (mark : Nat) : (AutoIncCounter.resumed mark).Counts := by
  unfold AutoIncCounter.Counts AutoIncCounter.resumed saturatingAdd
  dsimp only
  omega

end Passed

/-! ### What an assignment does to the ids -/

section Assign

variable {table step id : Nat} {schema : TableSchema} {values values' : Row} {w w' : WriterState}

theorem assigned_passed (h : assignAutoInc step w table schema values = .ok (w', values'))
    (hc : (w.counter table).Counts) (hid : rowId schema values' = some id) :
    id ≤ (w'.counter table).highWater ∧ (w'.counter table).Passed id := by
  have hlt := hc.2
  rcases assignAutoInc_cases h with ⟨hnone, -, -⟩ | ⟨o, ho, hcur, rfl, rfl⟩ | ⟨o, explicit, ho, hcur, -, rfl, rfl⟩
  · simp [rowId, hnone] at hid
  · obtain ⟨hlen, -⟩ := List.getElem?_eq_some_iff.mp hcur
    have hid : (w.counter table).next % 2 ^ 64 = id := by simpa [rowId, ho, getElem?_set_self hlen] using hid
    rw [Nat.mod_eq_of_lt hlt] at hid
    rw [WriterState.counter_move, if_pos rfl]
    simp only [AutoIncCounter.allocate, AutoIncCounter.Passed, saturatingAdd]
    refine ⟨?_, by omega⟩
    split <;> simp_all
    omega
  · have hid : explicit.toNat = id := by simpa [rowId, ho, hcur] using hid
    rw [WriterState.counter_move, if_pos rfl, AutoIncCounter.Passed, AutoIncCounter.observeExplicit_next]
    unfold saturatingAdd AutoIncCounter.observeExplicit
    dsimp only
    refine ⟨?_, ?_⟩
    · split <;> dsimp only <;> omega
    · split <;> omega

end Assign

/-! ### Counters that cover the log -/

/-- The counters stand against the records of a log and the ids in use. -/
structure WriterState.Covers (cat : Catalog) (log : List TxRecord) (used : List (Nat × Nat)) (w : WriterState) : Prop where
  txId : 0 < w.nextTxId
  counts : ∀ table, (w.counter table).Counts
  marked : ∀ table, cat.HasIds table → markOf log table ≤ (w.counter table).highWater
  published : ∀ table, cat.HasIds table → cat.isEphemeral table = false → table ∉ w.highWaterDirty →
    (w.counter table).highWater ≤ markOf log table
  passed : ∀ q ∈ used, (w.counter q.1).Passed q.2

/-- The same of a transaction, whose rows are covered by the marks it will publish. -/
structure Tx.Covers (cat : Catalog) (log : List TxRecord) (used : List (Nat × Nat)) (tx : Tx) : Prop where
  txId : 0 < tx.txId
  writer : tx.writer.Covers cat log used
  pending : ∀ (table : Nat) schema pk op row id, cat.tables[table]? = some schema → tx.op table pk = some op →
    op.result = some row → rowId schema row = some id →
      id ≤ (tx.writer.counter table).highWater ∧ (tx.writer.counter table).Passed id

variable {q : Nat × Nat} {diff : TxDiff}

section Covers

variable {cat : Catalog} {srv : Services cat} {log : List TxRecord} {used : List (Nat × Nat)} {w w' : WriterState} {tx tx' : Tx}
  {table : Nat}

theorem WriterState.Covers.withUsed {used' : List (Nat × Nat)} (h : w.Covers cat log used)
    (hused : ∀ q ∈ used', (w.counter q.1).Passed q.2) : w.Covers cat log used' :=
  { h with passed := hused }

theorem Tx.Covers.withWriter (h : tx.Covers cat log used) (ha : tx.writer.Advances w') (hc : ∀ table, (w'.counter table).Counts) :
    { tx with writer := w' }.Covers cat log used := by
  have hw := h.writer
  refine ⟨h.txId, ⟨ha.txId ▸ hw.txId, hc, fun table ht => (hw.marked table ht).trans (ha.highWater table),
    fun table ht hdur hdirty => ?_, fun q hq => (hw.passed q hq).mono (ha.next q.1) (hc q.1)⟩,
    fun table schema pk op row id hschema hop hrow hid => ?_⟩
  · obtain ⟨hclean, hsame⟩ := ha.dirty table hdirty
    rw [hsame]
    exact hw.published table ht hdur hclean
  obtain ⟨hle, hpassed⟩ := h.pending table schema pk op row id hschema hop hrow hid
  exact ⟨hle.trans (ha.highWater table), hpassed.mono (ha.next table) (hc table)⟩

theorem Tx.Covers.setOp {pk : Bytes} {op : Option PendingOp} (h : tx.Covers cat log used)
    (hop : ∀ p ∈ op, ∀ row ∈ p.result, ∀ schema ∈ cat.tables[table]?, ∀ id, rowId schema row = some id →
      id ≤ (tx.writer.counter table).highWater ∧ (tx.writer.counter table).Passed id) :
    (tx.setOp table pk op).Covers cat log used := by
  refine ⟨h.txId, h.writer, fun table' schema' pk' op' row' id hschema' hop' hrow' hid => ?_⟩
  rcases op_setOp_eq_some hop' with ⟨rfl, rfl, hnew⟩ | hop'
  · exact hop op' hnew row' hrow' schema' hschema' id hid
  · exact h.pending table' schema' pk' op' row' id hschema' hop' hrow' hid

theorem Tx.Covers.write {values stored : Row} {replace : Bool} (h : tx.Covers cat log used)
    (hw : tx.write srv table values replace = .ok (tx', stored)) : tx'.Covers cat log used := by
  obtain ⟨schema, derived, writer, assigned, pk, row, t, op, hprepare, hassign, -, -, hrow, -, -, -, hplace, rfl⟩ :=
    write_eq_ok hw
  have hschema := (prepare_eq_ok hprepare).1
  have hcounts := counts_assignAutoInc hassign h.writer.counts
  have hadvance := advances_assignAutoInc hassign (h.writer.counts table)
  refine (h.withWriter hadvance hcounts).setOp fun p hp row' hrow' schema' hschema' id hid => ?_
  cases hschema.symm.trans hschema'
  have hresult : row' = row := by
    rcases place_cases hplace with ⟨rfl, -⟩ | ⟨rfl, -⟩ | ⟨rfl, -⟩
    · cases hp
    all_goals
      cases hp
      exact (some.inj hrow').symm
  -- the auto-increment column is a key column, which no transform touches
  have hrowId : rowId schema row = rowId schema assigned := by
    unfold rowId
    cases hinc : schema.autoInc with
    | none => rfl
    | some o =>
      have hkey : o ∈ schema.primaryKey := by rw [(schema.autoInc_primaryKey o hinc).1]; simp
      simp only [bind_some]
      rw [(RowTransform.run_eq_ok hrow).2 o (cat.sealed_primaryKey table schema hschema o hkey)]
  rw [hresult, hrowId] at hid
  exact assigned_passed hassign (h.writer.counts table) hid

/-- **Every call keeps the counters ahead.** -/
theorem kept_covers : Tx.Kept srv (Tx.Covers cat log used) := by
  refine .of_parts (fun h hassign => ?_) (fun h hw => h.write hw) fun pk op h _ _ hop => h.setOp fun p hp row hrow => ?_
  · exact h.withWriter (advances_assignAutoInc hassign (h.writer.counts _)) (counts_assignAutoInc hassign h.writer.counts)
  · simp [hop p hp] at hrow

/-! ### The id a call assigns -/

theorem assignedId_write_eq_some (table : Nat) (values : Row)
    (h : tx.assignedId srv (.insert table values) = some q) : q.1 = table ∧ ∃ schema derived w assigned,
      prepare srv table values = .ok (schema, derived) ∧
      assignAutoInc cat.autoIncStep tx.writer table schema derived = .ok (w, assigned) ∧
      (∃ o, schema.autoInc = some o ∧ isPlaceholder derived[o]? = true) ∧ rowId schema assigned = some q.2 := by
  obtain ⟨⟨schema, derived⟩, hprepare, h⟩ := bind_eq_some_iff.mp h
  obtain ⟨o, ho, h⟩ := bind_eq_some_iff.mp h
  split at h
  · rename_i hzero
    obtain ⟨⟨w, assigned⟩, hassign, h⟩ := bind_eq_some_iff.mp h
    obtain ⟨id, hid, rfl⟩ := map_eq_some_iff.mp h
    exact ⟨rfl, schema, derived, w, assigned, toOption_eq_some.mp hprepare, toOption_eq_some.mp hassign, ⟨o, ho, hzero⟩, hid⟩
  · cases h

theorem after_write_writer {values derived assigned : Row} {replace : Bool}
    (hprepare : prepare srv table values = .ok (schema, derived))
    (hassign : assignAutoInc cat.autoIncStep tx.writer table schema derived = .ok (w, assigned)) :
    (Tx.after (tx.write srv table values replace)).writer = w := by
  unfold Tx.write
  rw [hprepare]
  simp only [Tx.fail, Except.mapError, bind, Except.bind, hassign]
  cases Tx.validate srv { tx with writer := w } table schema assigned replace with
  | error e => rfl
  | ok r =>
    dsimp only
    cases place (Tx.op { tx with writer := w } table r.1) r.2.2 r.2.1 <;> rfl

theorem passed_after_call {c : TxCall} {x : Except (StoreError × Tx) (Tx × Returned)}
    (h : tx.Covers cat log used) (hx : tx.call srv c = some x) (hq : tx.assignedId srv c = some q) :
    ((Tx.after x).writer.counter q.1).Passed q.2 := by
  cases c with
  | insert table values | upsert table values =>
    obtain ⟨rfl, schema, derived, w, assigned, hprepare, hassign, -, hid⟩ :=
      assignedId_write_eq_some table values hq
    cases hx
    rw [after_map, after_write_writer hprepare hassign]
    exact (assigned_passed hassign (h.writer.counts _) hid).2
  | delete fuel table pkValues => cases hq

/-- **The id is fresh** unless it is the last one: it is the next of the counter, which has passed all in use. -/
theorem assignedId_not_used {c : TxCall} (h : tx.Covers cat log used) (hq : tx.assignedId srv c = some q)
    (hmax : q.2 < 2 ^ 64 - 1) : q ∉ used := by
  cases c with
  | insert table values | upsert table values =>
    obtain ⟨rfl, schema, derived, w, assigned, -, hassign, ⟨o, ho, hzero⟩, hid⟩ :=
      assignedId_write_eq_some table values hq
    have hlt := (h.writer.counts q.1).2
    rcases assignAutoInc_cases hassign with ⟨hnone, -, -⟩ | ⟨o', ho', hcur, -, rfl⟩ | ⟨o', id, ho', hcur, hne, -, -⟩
    · rw [hnone] at ho
      cases ho
    · obtain ⟨hlen, -⟩ := List.getElem?_eq_some_iff.mp hcur
      have hnext : (tx.writer.counter q.1).next % 2 ^ 64 = q.2 := by
        simpa [rowId, ho', getElem?_set_self hlen] using hid
      rw [Nat.mod_eq_of_lt hlt] at hnext
      intro hmem
      rcases h.writer.passed q hmem with hpassed | hlast <;> omega
    · cases ho.symm.trans ho'
      rw [hcur] at hzero
      exact absurd (by simpa [isPlaceholder] using hzero) hne
  | delete fuel table pkValues => cases hq

end Covers

/-! ### Marked logs -/

/-- The marks of a record cover the ids logged up to it; they only rise, and are of durable tables. -/
structure RecordMarked (cat : Catalog) (log : List TxRecord) (r : TxRecord) : Prop where
  txId : 0 < r.txId
  unique : ∀ table m m', (table, m) ∈ r.autoInc → (table, m') ∈ r.autoInc → m = m'
  durable : ∀ table m, (table, m) ∈ r.autoInc → cat.isEphemeral table = false
  rises : ∀ table m, (table, m) ∈ r.autoInc → cat.HasIds table → markOf log table ≤ m
  covers : ∀ q ∈ r.ids cat, q.2 ≤ markOf (log ++ [r]) q.1

/-- Every record of the log is marked. -/
def WellMarked (cat : Catalog) (log : List TxRecord) : Prop := ∀ l r, l ++ [r] <+: log → RecordMarked cat l r

section Marked

variable {cat : Catalog} {log log' : List TxRecord} {r : TxRecord}

theorem markOf_mono (h : ∀ r ∈ log, r ∈ log') (table : Nat) : markOf log table ≤ markOf log' table :=
  markOf_le.mpr fun r hr _ hm => le_markOf (h r hr) hm

theorem markOf_append_le {table bound : Nat} (h : markOf log table ≤ bound)
    (hr : ∀ m, (table, m) ∈ r.autoInc → m ≤ bound) : markOf (log ++ [r]) table ≤ bound := by
  refine markOf_le.mpr fun r' hr' m hm => ?_
  rcases mem_append.mp hr' with hr' | hr'
  · exact markOf_le.mp h r' hr' m hm
  · rw [mem_singleton] at hr'
    exact hr m (hr' ▸ hm)

theorem WellMarked.of_isPrefix (h : WellMarked cat log') (hp : log <+: log') : WellMarked cat log :=
  fun l r hl => h l r (hl.trans hp)

theorem WellMarked.concat (h : WellMarked cat log) (hr : RecordMarked cat log r) : WellMarked cat (log ++ [r]) := by
  intro l r' hl
  rcases prefix_concat_iff.mp hl with heq | hl
  · obtain ⟨rfl, heq⟩ := append_inj' heq rfl
    obtain rfl : r' = r := by simpa using heq
    exact hr
  · exact h l r' hl

/-- **The marks of a log cover its ids.** -/
theorem WellMarked.id_le (h : WellMarked cat log) (hq : q ∈ logIds cat log) : q.2 ≤ markOf log q.1 := by
  obtain ⟨r, hr, hid⟩ := mem_flatMap.mp hq
  obtain ⟨l, l', rfl⟩ := append_of_mem hr
  have hmarked := h l r ⟨l', by simp⟩
  refine (hmarked.covers q hid).trans (markOf_mono (fun r' hr' => ?_) q.1)
  simp only [mem_append, mem_cons, not_mem_nil, or_false] at hr' ⊢
  tauto

theorem hasIds_of_logIds (hq : q ∈ logIds cat log) : cat.HasIds q.1 := by
  obtain ⟨r, -, hq⟩ := mem_flatMap.mp hq
  obtain ⟨m, -, hq⟩ := mem_flatMap.mp hq
  obtain ⟨heq, schema, row, hschema, -, hid⟩ := mem_idsOf.mp hq
  exact hasIds_of_rowId (heq ▸ hschema) hid

end Marked

/-! ### Commits -/

section Commit

variable {cat : Catalog} {log : List TxRecord} {used : List (Nat × Nat)} {tx : Tx} {diff : TxDiff} {s : MemStore}
  {info : CommitMeta}

/-- The rows of the diff are pending rows, which the marks cover. -/
theorem Tx.Covers.diff_ids (h : tx.Covers cat log used) (hc : tx.commit cat = .ok (diff, s))
    (hq : q ∈ diff.ids cat) : cat.HasIds q.1 ∧ q.2 ≤ (tx.writer.counter q.1).highWater ∧ (tx.writer.counter q.1).Passed q.2 := by
  obtain ⟨d, hd, hq⟩ := TxDiff.mem_ids.mp hq
  obtain ⟨heq, schema, row, hschema, hrow, hid⟩ := mem_idsOf.mp hq
  obtain ⟨t, t', -, hmerge⟩ := commit_part hc hd
  have hdiff : d = diffOf ⟨d.tableId, [], []⟩ t.rowAt (tx.ops d.tableId).toList := (mergeTable_eq_ok hmerge).2.2.2.1
  rcases mem_diffOf_inserts (hdiff ▸ hrow) with hrow | ⟨⟨pk, op⟩, hop, hresult⟩
  · simp at hrow
  · rw [heq]
    exact ⟨hasIds_of_rowId hschema hid, h.pending d.tableId schema pk op row q.2 hschema
      (ExtTreeMap.mem_toList_iff_getElem?_eq_some.mp hop) hresult hid⟩

/-- **The record of a commit is marked**: what it inserts is covered by a mark it publishes, or by an older one. -/
theorem recordMarked_commit (h : tx.Covers cat log used) (hc : tx.commit cat = .ok (diff, s)) :
    RecordMarked cat log (.fromDiff (durableDiff cat diff) info) where
  txId := by
    obtain ⟨-, htx, -⟩ := commit_eq_ok hc
    show 0 < diff.txId
    exact htx ▸ h.txId
  unique table m m' hm hm' := by
    rw [((mem_autoInc_commit hc).mp hm).2.1, ((mem_autoInc_commit hc).mp hm').2.1]
  durable table m hm := ((mem_autoInc_commit hc).mp hm).2.2
  rises table m hm hids := ((mem_autoInc_commit hc).mp hm).2.1 ▸ h.writer.marked table hids
  covers q hq := by
    rw [ids_fromDiff, mem_ids_durableDiff] at hq
    obtain ⟨hids, hle, -⟩ := h.diff_ids hc hq.1
    by_cases hdirty : q.1 ∈ tx.writer.highWaterDirty
    · exact hle.trans (le_markOf (mem_concat_self ..) ((mem_autoInc_commit hc).mpr ⟨hdirty, rfl, hq.2⟩))
    · refine (hle.trans (h.writer.published q.1 hids hq.2 hdirty)).trans (markOf_mono (fun r hr => ?_) q.1)
      exact mem_append_left _ hr

theorem Tx.Covers.commit (h : tx.Covers cat log used) (info : CommitMeta) (hc : tx.commit cat = .ok (diff, s)) :
    s.writer.Covers cat (log ++ [.fromDiff (durableDiff cat diff) info]) (used ++ diff.ids cat) := by
  obtain ⟨-, -, -, -, -, htx, hcounters, -, -⟩ := commit_eq_ok hc
  have hsame : ∀ table, s.writer.counter table = tx.writer.counter table := fun table => by
    rw [WriterState.counter, hcounters, WriterState.counter]
  refine ⟨?_, fun table => hsame table ▸ h.writer.counts table, fun table hids => ?_, fun table hids hdur _ => ?_, ?_⟩
  · rw [htx]
    unfold saturatingAdd
    omega
  · rw [hsame]
    refine markOf_append_le (h.writer.marked table hids) fun m hm => ?_
    exact ((mem_autoInc_commit hc).mp hm).2.1.le
  · rw [hsame]
    by_cases hdirty : table ∈ tx.writer.highWaterDirty
    · exact le_markOf (mem_concat_self ..) ((mem_autoInc_commit hc).mpr ⟨hdirty, rfl, hdur⟩)
    · exact (h.writer.published table hids hdur hdirty).trans (markOf_mono (fun r hr => mem_append_left _ hr) table)
  · intro q hq
    rw [hsame]
    rcases mem_append.mp hq with hq | hq
    · exact h.writer.passed q hq
    · exact (h.diff_ids hc hq).2.2

end Commit

/-! ### Resumed counters -/

/-- No counter is below its mark: nothing was assigned out of a batch. -/
def WriterState.Resumed (w : WriterState) : Prop := ∀ table, (w.counter table).Passed (w.counter table).highWater

section Resume

variable {cat : Catalog} {ids : TableIds cat} {log : List TxRecord} {used : List (Nat × Nat)} {r : TxRecord} {s s' : MemStore}

theorem counter_resumeHighWaters (table : Nat) : ∀ (l : List (Nat × Nat)) (s : MemStore),
    (∃ m, (table, m) ∈ l ∧ (l.foldl resumeHighWater s).writer.counter table = .resumed m) ∨
    (∀ m, (table, m) ∉ l) ∧ (l.foldl resumeHighWater s).writer.counter table = s.writer.counter table
  | [], s => .inr ⟨by simp, rfl⟩
  | p :: l, s => by
    rw [List.foldl_cons]
    rcases counter_resumeHighWaters table l (resumeHighWater s p) with ⟨m, hm, hc⟩ | ⟨hno, hc⟩
    · exact .inl ⟨m, List.mem_cons_of_mem _ hm, hc⟩
    have hone : (resumeHighWater s p).writer.counter table =
        if p.1 = table then .resumed p.2 else s.writer.counter table := by
      unfold resumeHighWater WriterState.counter
      rw [OrdMap.lookup_insert]
      split <;> rfl
    rw [hc, hone]
    by_cases heq : p.1 = table
    · exact .inl ⟨p.2, by simp [← heq], by rw [if_pos heq]⟩
    refine .inr ⟨fun m hm => ?_, by rw [if_neg heq]⟩
    rcases mem_cons.mp hm with rfl | hm
    · exact heq rfl
    · exact hno m hm

theorem applyReplicaRecord_writer (h : s.applyReplicaRecord cat r = .ok (diff, s')) :
    ∃ tables, s'.writer =
      { (r.autoInc.foldl resumeHighWater { s with committed := tables }).writer with nextTxId := saturatingAdd r.txId 1 } := by
  unfold MemStore.applyReplicaRecord at h
  split at h
  · simp at h
  · obtain ⟨⟨tables, diffs⟩, -, h⟩ := bind_eq_ok.mp h
    cases h
    exact ⟨tables, rfl⟩

theorem counter_applyReplicaRecord (h : s.applyReplicaRecord cat r = .ok (diff, s')) (table : Nat) :
    (∃ m, (table, m) ∈ r.autoInc ∧ s'.writer.counter table = .resumed m) ∨
      (∀ m, (table, m) ∉ r.autoInc) ∧ s'.writer.counter table = s.writer.counter table := by
  obtain ⟨tables, hw⟩ := applyReplicaRecord_writer h
  rw [hw]
  exact counter_resumeHighWaters table r.autoInc { s with committed := tables }

theorem WriterState.Resumed.replicate (hres : s.writer.Resumed) (h : s.applyReplicaRecord cat r = .ok (diff, s')) :
    s'.writer.Resumed := by
  intro table
  rcases counter_applyReplicaRecord h table with ⟨m, -, hc⟩ | ⟨-, hc⟩ <;> rw [hc]
  · exact passed_resumed m
  · exact hres table

/-- The counters of a process that applies records follow the marks of its log. -/
theorem WriterState.Covers.replicate (used' : List (Nat × Nat)) (hcov : s.writer.Covers cat log used)
    (hr : RecordMarked cat log r) (h : s.applyReplicaRecord cat r = .ok (diff, s'))
    (hused : (∀ table, (s'.writer.counter table).Counts) → ∀ q ∈ used', (s'.writer.counter q.1).Passed q.2) :
    s'.writer.Covers cat (log ++ [r]) used' := by
  have hcounter := counter_applyReplicaRecord h
  have hdirty := applyReplicaRecord_dirty h
  have hcounts : ∀ table, (s'.writer.counter table).Counts := fun table => by
    rcases hcounter table with ⟨m, -, hc⟩ | ⟨-, hc⟩ <;> rw [hc]
    · exact counts_resumed m
    · exact hcov.counts table
  refine ⟨?_, hcounts, fun table hids => ?_, fun table hids hdur hclean => ?_, hused hcounts⟩
  · obtain ⟨tables, hw⟩ := applyReplicaRecord_writer h
    rw [hw]
    unfold saturatingAdd
    dsimp only
    omega
  · rcases hcounter table with ⟨m, hm, hc⟩ | ⟨hno, hc⟩ <;> rw [hc]
    · exact markOf_append_le (hr.rises table m hm hids) fun m' hm' => (hr.unique table m' m hm' hm).le
    · exact markOf_append_le (hcov.marked table hids) fun m hm => absurd hm (hno m)
  · rcases hcounter table with ⟨m, hm, hc⟩ | ⟨-, hc⟩ <;> rw [hc]
    · exact le_markOf (mem_concat_self ..) hm
    · exact (hcov.published table hids hdur (hdirty ▸ hclean)).trans
        (markOf_mono (fun r' hr' => mem_append_left _ hr') table)

/-- The marks of the record are not below the counters, which have passed the ids that it has without a mark. -/
def WriterState.Receives (cat : Catalog) (w : WriterState) (r : TxRecord) : Prop :=
  (∀ p ∈ r.autoInc, (w.counter p.1).next ≤ saturatingAdd p.2 1) ∧
    ∀ q ∈ r.ids cat, q.1 ∈ r.autoInc.map Prod.fst ∨ (w.counter q.1).Passed q.2

/-- Such a record sets no counter back. -/
theorem WriterState.Receives.passed (hw : s.writer.Receives cat r) (hr : RecordMarked cat log r)
    (hcov : s.writer.Covers cat log used) (h : s.applyReplicaRecord cat r = .ok (diff, s'))
    (hcounts : ∀ table, (s'.writer.counter table).Counts) (hq : q ∈ used ∨ q ∈ r.ids cat) :
    (s'.writer.counter q.1).Passed q.2 := by
  rcases counter_applyReplicaRecord h q.1 with ⟨m, hm, hc⟩ | ⟨hno, hc⟩
  · rcases hq with hq | hq
    · exact (hcov.passed q hq).mono (hc ▸ hw.1 _ hm) (hcounts q.1)
    · have hlogged : q ∈ logIds cat [r] := by simpa [logIds] using hq
      rw [hc]
      refine (passed_resumed m).of_le ((hr.covers q hq).trans (markOf_append_le ?_ ?_))
      · exact hr.rises q.1 m hm (hasIds_of_logIds hlogged)
      · exact fun m' hm' => (hr.unique q.1 m' m hm' hm).le
  · rw [hc]
    rcases hq with hq | hq
    · exact hcov.passed q hq
    · refine (hw.2 q hq).resolve_left fun hmem => ?_
      obtain ⟨p, hp, heq⟩ := mem_map.mp hmem
      exact hno p.2 (heq ▸ hp)

/-- A process that has assigned no id has passed all that its log has. -/
theorem WriterState.Covers.passed_log {w : WriterState} (h : w.Covers cat log []) (hres : w.Resumed) (hlog : WellMarked cat log) :
    w.Covers cat log (logIds cat log) :=
  h.withUsed fun q hq => (hres q.1).of_le ((hlog.id_le hq).trans (h.marked q.1 (hasIds_of_logIds hq)))

theorem covers_new (cat : Catalog) : (MemStore.new cat).writer.Covers cat [] [] where
  txId := by simp [MemStore.new]
  counts table := by
    rw [counter_new]
    exact ⟨le_rfl, by decide⟩
  marked table _ := by simp [markOf]
  published table _ _ _ := by
    rw [counter_new]
    exact Nat.zero_le _
  passed := by simp

/-- **A recovered process** resumes each counter from the marks of its log. -/
theorem recovered_covers (hlog : WellMarked cat log) (h : recoverFrom ids none log = .ok s) :
    s.writer.Resumed ∧ s.writer.Covers cat log [] := by
  have hfilter : log.filter (0 < ·.txId) = log := by
    rw [filter_eq_self]
    intro r hr
    obtain ⟨l, l', rfl⟩ := append_of_mem hr
    simpa using (hlog l r ⟨l', by simp⟩).txId
  have hcounter : ∀ table, ∃ m, s.writer.counter table = .resumed m ∧ (cat.HasIds table → m = markOf log table) := by
    intro table
    cases hschema : cat.tables[table]? with
    | none => exact ⟨0, counter_recovered_unknown h hschema, by simp [Catalog.HasIds, hschema]⟩
    | some schema =>
      have hc := recoverFrom_counter h hschema
      rw [hfilter] at hc
      cases hinc : schema.autoInc with
      | none => exact ⟨0, (by simpa [hinc] using hc : _ = AutoIncCounter.new), by simp [Catalog.HasIds, hschema, hinc]⟩
      | some o => exact ⟨_, by simpa [hinc, AutoIncCounter.resumed] using hc, fun _ => rfl⟩
  refine ⟨fun table => ?_, recoverFrom_txId h, fun table => ?_, fun table hids => ?_, fun table hids _ _ => ?_, by simp⟩ <;>
    obtain ⟨m, hc, hm⟩ := hcounter table <;> rw [hc]
  · exact passed_resumed m
  · exact counts_resumed m
  · exact (hm hids).ge
  · exact (hm hids).le

end Resume

/-! ### Whole runs -/

/-- What a process keeps, against the records of its log. -/
structure Process.Ok (cat : Catalog) (log : List TxRecord) (p : Process) : Prop where
  idle : p.tx = none → p.store.writer.Covers cat log (logIds cat log ++ p.issued ++ p.rows)
  busy : ∀ tx ∈ p.tx, tx.Covers cat log (logIds cat log ++ p.issued ++ p.rows)
  waiting : p.served = false → p.tx = none ∧ p.issued = [] ∧ p.rows = [] ∧ p.store.writer.Resumed

/-- What the processes keep. -/
structure Group.Ok (cat : Catalog) (s : Group) : Prop where
  history : WellMarked cat s.history
  applied : ∀ i, (s.process i).applied ≤ s.history.length
  primary : (s.process s.primary).applied = s.history.length
  process : ∀ i, (s.process i).Ok cat (s.history.take (s.process i).applied)
  committed : ∀ q ∈ s.committed, cat.isEphemeral q.1 = false → q ∈ logIds cat s.history

/-- A process that applies a record has run no transaction since it started, or keeps what its counters have passed. -/
def Group.CountersKept {cat : Catalog} (s : Group) : Group.Step cat → Prop
  | .replicate i => (s.process i).served = false ∨
      ∀ r ∈ s.history[(s.process i).applied]?, (s.process i).store.writer.Receives cat r
  | _ => True

instance (c : AutoIncCounter) (id : Nat) : Decidable (c.Passed id) := inferInstanceAs (Decidable (_ ∨ _))

instance (cat : Catalog) (w : WriterState) (r : TxRecord) : Decidable (w.Receives cat r) := inferInstanceAs (Decidable (_ ∧ _))

instance Group.decidableCountersKept {cat : Catalog} (s : Group) : (l : Group.Step cat) → Decidable (s.CountersKept l)
  | .replicate _ => inferInstanceAs (Decidable (_ ∨ _))
  | .begin | .call .. | .commit .. | .rollback | .restart .. | .promote .. => .isTrue trivial

section Runs

variable {cat : Catalog} {ids : TableIds cat} {s s' : Group} {i : Nat} {p : Process}

theorem Group.process_set (s : Group) (i j : Nat) (p : Process) :
    (s.set i p).process j = if j = i then p else s.process j := by
  show update s.process i p j = _
  rw [update_apply]

theorem Group.Ok.set (h : s.Ok cat) (happlied : p.applied ≤ s.history.length) (hp : p.Ok cat (s.history.take p.applied))
    (hprimary : i = s.primary → p.applied = s.history.length) : (s.set i p).Ok cat := by
  refine ⟨h.history, fun j => ?_, ?_, fun j => ?_, h.committed⟩
  · rw [Group.process_set]
    split
    · exact happlied
    · exact h.applied j
  · rw [Group.process_set]
    split
    · rename_i heq
      exact hprimary heq.symm
    · exact h.primary
  · rw [Group.process_set]
    split
    · exact hp
    · exact h.process j

theorem Group.Ok.setPrimary (h : s.Ok cat) (happlied : p.applied = (s.process s.primary).applied)
    (hp : p.Ok cat s.history) : (s.set s.primary p).Ok cat := by
  have hlen := happlied.trans h.primary
  exact h.set hlen.le (by rwa [hlen, take_length]) fun _ => hlen

theorem Group.Ok.primaryOk (h : s.Ok cat) : (s.process s.primary).Ok cat s.history := by
  have := h.process s.primary
  rwa [h.primary, take_length] at this

theorem Process.Ok.not_waiting {log : List TxRecord} (h : p.Ok cat log) {tx : Tx} (htx : p.tx = some tx)
    (hserved : p.served = false) : False := by
  have := (h.waiting hserved).1
  simp [htx] at this

theorem Process.Ok.rollback {log : List TxRecord} (h : p.Ok cat log) {tx : Tx} (htx : p.tx = some tx) :
    { p with store := tx.rollback, tx := none }.Ok cat log where
  idle _ := (h.busy tx htx).writer
  busy := by simp
  waiting hserved := (h.not_waiting htx hserved).elim

theorem Group.Ok.commit (h : s.Ok cat) {tx : Tx} {store : MemStore} (info : CommitMeta)
    (htx : (s.process s.primary).tx = some tx) (hc : tx.commit cat = .ok (diff, store)) :
    { s.set s.primary { s.process s.primary with
        store, tx := none, applied := (s.process s.primary).applied + 1, rows := (s.process s.primary).rows ++ diff.ids cat } with
      history := s.history ++ [TxRecord.fromDiff (durableDiff cat diff) info],
      committed := s.committed ++ diff.ids cat : Group }.Ok cat := by
  have hp := h.primaryOk
  have hcov := hp.busy tx htx
  have hlogged : ∀ q ∈ diff.ids cat, cat.isEphemeral q.1 = false →
      q ∈ logIds cat (s.history ++ [TxRecord.fromDiff (durableDiff cat diff) info]) := fun q hq hdur => by
    rw [logIds_append, ids_fromDiff]
    exact mem_append_right _ (mem_ids_durableDiff.mpr ⟨hq, hdur⟩)
  refine ⟨h.history.concat (recordMarked_commit hcov hc), fun j => ?_, ?_, fun j => ?_, fun q hq hdur => ?_⟩
  · rw [Group.process_set]
    have := h.applied j
    split
    · simp [h.primary]
    · simp only [length_append, length_singleton]
      omega
  · show ((s.set s.primary _).process s.primary).applied = _
    rw [Group.process_set, if_pos rfl]
    simp [h.primary]
  · rw [Group.process_set]
    split
    · rw [h.primary, ← length_singleton, ← length_append, take_length]
      have hafter := hcov.commit info hc
      refine ⟨fun _ => hafter.withUsed fun q hq => hafter.passed q ?_, by simp,
        fun hserved => (hp.not_waiting htx hserved).elim⟩
      rw [logIds_append, ids_fromDiff] at hq
      simp only [mem_append, mem_ids_durableDiff] at hq ⊢
      tauto
    · rw [take_append_of_le_length (h.applied j)]
      exact h.process j
  · rcases mem_append.mp hq with hq | hq
    · rw [logIds_append]
      exact mem_append_left _ (h.committed q hq hdur)
    · exact hlogged q hq hdur

/-- **Every step keeps it.** -/
theorem Group.Ok.step (h : s.Ok cat) {l : Group.Step cat} (hl : s.CountersKept l) (hs : s.step ids l = some s') :
    s'.Ok cat := by
  have hp := h.primaryOk
  cases l with
  | begin =>
    simp only [Group.step] at hs
    split at hs
    · cases hs
    rename_i hidle
    cases hs
    have hnone : (s.process s.primary).tx = none := by simpa using hidle
    refine h.setPrimary rfl ⟨by simp, fun tx htx => ?_, by simp⟩
    cases htx
    refine ⟨(hp.idle hnone).txId, hp.idle hnone, fun table schema pk op row id _ hop => ?_⟩
    cases hop
  | call srv c =>
    obtain ⟨tx, htx, hs⟩ := bind_eq_some_iff.mp hs
    obtain ⟨x, hx, hs⟩ := bind_eq_some_iff.mp hs
    cases hs
    have hcov := hp.busy tx htx
    have hafter := kept_covers.call hcov hx
    refine h.setPrimary rfl ⟨by simp, fun tx' htx' => ?_, fun hserved => (hp.not_waiting htx hserved).elim⟩
    cases htx'
    refine { hafter with writer := hafter.writer.withUsed fun q hq => ?_ }
    simp only [mem_append, mem_toList] at hq
    rcases hq with (hq | hq | hq) | hq
    · exact hafter.writer.passed q (by simp [hq])
    · exact hafter.writer.passed q (by simp [hq])
    · exact passed_after_call hcov hx hq
    · exact hafter.writer.passed q (by simp [hq])
  | commit info =>
    obtain ⟨tx, htx, hs⟩ := bind_eq_some_iff.mp hs
    split at hs
    · rename_i diff store hc
      cases hs
      exact h.commit info htx hc
    · cases hs
      exact h.setPrimary rfl (hp.rollback htx)
  | rollback =>
    obtain ⟨tx, htx, hs⟩ := bind_eq_some_iff.mp hs
    cases hs
    exact h.setPrimary rfl (hp.rollback htx)
  | replicate i =>
    obtain ⟨r, hr, hs⟩ := bind_eq_some_iff.mp hs
    split at hs
    · cases hs
    next hidle =>
    obtain ⟨⟨diff, store⟩, happly, hs⟩ := bind_eq_some_iff.mp hs
    cases hs
    have hpi := h.process i
    have hnone : (s.process i).tx = none := by simpa using hidle
    have happly := toOption_eq_some.mp happly
    obtain ⟨hlt, -⟩ := List.getElem?_eq_some_iff.mp hr
    have htake : s.history.take ((s.process i).applied + 1) = s.history.take (s.process i).applied ++ [r] := by
      rw [take_add_one, hr]
      rfl
    have hmarked : RecordMarked cat (s.history.take (s.process i).applied) r :=
      h.history _ r (htake ▸ take_prefix _ _)
    have hcov := hpi.idle hnone
    refine h.set hlt ?_ fun heq => ?_
    · rw [htake]
      by_cases hserved : (s.process i).served = false
      · obtain ⟨-, hissued, hrows, hres⟩ := hpi.waiting hserved
        have hlog' : WellMarked cat (s.history.take (s.process i).applied ++ [r]) :=
          h.history.of_isPrefix (htake ▸ take_prefix _ _)
        have hcov' := (hcov.replicate [] hmarked happly (by simp)).passed_log (hres.replicate happly) hlog'
        refine ⟨fun _ => ?_, by simp [hnone], fun _ => ⟨hnone, hissued, hrows, hres.replicate happly⟩⟩
        simpa [hissued, hrows] using hcov'
      · have hreceives := hl.resolve_left hserved r hr
        refine ⟨fun _ => hcov.replicate _ hmarked happly fun hcounts q hq => ?_, by simp [hnone], fun hno => absurd hno hserved⟩
        refine hreceives.passed hmarked hcov happly hcounts ?_
        simp only [logIds_append, mem_append] at hq ⊢
        tauto
    · have := heq ▸ h.primary
      omega
  | restart i kept =>
    simp only [Group.step] at hs
    split at hs
    · rename_i hkept
      obtain ⟨store, hstore, hs⟩ := bind_eq_some_iff.mp hs
      cases hs
      have hlog : WellMarked cat (s.history.take kept) := h.history.of_isPrefix ( take_prefix _ _)
      obtain ⟨hres, hcov⟩ := recovered_covers hlog (toOption_eq_some_iff.mp hstore)
      refine h.set (hkept.1.trans (h.applied i)) ⟨fun _ => ?_, by simp, fun _ => ⟨rfl, rfl, rfl, hres⟩⟩ hkept.2
      simpa using hcov.passed_log hres hlog
    · cases hs
  | promote i =>
    simp only [Group.step] at hs
    split at hs
    · rename_i hall
      cases hs
      exact ⟨h.history, h.applied, hall.1, h.process, h.committed⟩
    · cases hs

theorem Group.ok_new (cat : Catalog) : (Group.new cat).Ok cat := by
  have hprocess : Process.Ok cat [] ⟨.new cat, none, 0, false, [], []⟩ :=
    ⟨fun _ => by simpa [logIds] using covers_new cat, by simp, fun _ => ⟨rfl, rfl, rfl, fun table => by rw [counter_new]; exact .inl (by decide)⟩⟩
  refine ⟨fun l r hl => ?_, fun _ => Nat.zero_le _, rfl, fun _ => hprocess, by simp [Group.new]⟩
  have := hl.length_le
  simp [Group.new] at this

/-- **Ids are not assigned twice.** The id that a call assigns to a placeholder differs from the id of every row
ever committed to a durable table, of every row committed in the lifetime of the process, and of every id
assigned in it. -/
theorem assigned_ids_fresh {labels : List (Group.Step cat)}
    (hmeets : Runs.Meets (Group.step ids) Group.CountersKept (Group.new cat) labels)
    (hrun : Runs.run (Group.step ids) (Group.new cat) labels = some s) {tx : Tx} (htx : (s.process s.primary).tx = some tx)
    (srv : Services cat) (c : TxCall) {table id : Nat} (hid : tx.assignedId srv c = some (table, id))
    (hmax : id < 2 ^ 64 - 1) :
    (cat.isEphemeral table = false → (table, id) ∉ s.committed) ∧
      (table, id) ∉ (s.process s.primary).rows ∧ (table, id) ∉ (s.process s.primary).issued := by
  have hok : s.Ok cat := Runs.run_invariant_of_meets (fun s l s' h hl hs => h.step hl hs) (Group.ok_new cat) hmeets hrun
  have hfresh := assignedId_not_used (hok.primaryOk.busy tx htx) hid hmax
  simp only [mem_append, not_or] at hfresh
  exact ⟨fun hdur hmem => hfresh.1.1 (hok.committed _ hmem hdur), hfresh.2, hfresh.1.2⟩

end Runs

/-- Visitors, who are kept in memory only. -/
def visitorSchema : TableSchema := { accountSchema with name := "Visitor", access := .ephemeral }

def visitorCatalog : Catalog :=
  { accountCatalog with
    tables := ((∅ : ExtTreeMap Nat TableSchema).insert 1 accountSchema).insert 2 visitorSchema
    fks_valid := by simp [accountCatalog]
    sealed_primaryKey := by simp [accountCatalog] }

def visitorIds : TableIds visitorCatalog where
  idOf name := if name = "Visitor" then 2 else 1
  idOf_name table schema h := by
    simp only [visitorCatalog, OrdMap.lookup_insert] at h
    split at h
    · rename_i heq
      cases h
      exact heq
    · split at h
      · rename_i heq
        cases h
        exact heq
      · simp at h

/-- A call that inserts an account or a visitor with a placeholder. -/
def insertNew (table : Nat) : TxCall := .insert table (account 0 [7] 30)

/-- Two accounts are opened, the second by the replica after it took over; the first process applies that and
takes over again. -/
def promoteRun : List (Group.Step visitorCatalog) :=
  [.begin, .call (plainServices _) (insertNew 1), .commit ⟨0, 0, [], "open"⟩, .replicate 1, .promote 1,
    .begin, .call (plainServices _) (.insert 1 (account 0 [8] 40)), .commit ⟨0, 0, [], "open"⟩, .replicate 0, .promote 0, .begin]

/-- It goes on after the batch that the replica had published. -/
theorem assigned_ids_fresh_promoteRun : ∃ s tx, Runs.run (Group.step visitorIds) (.new visitorCatalog) promoteRun = some s ∧
    (s.process s.primary).tx = some tx ∧ s.committed = [(1, 1), (1, 4097)] ∧
    tx.assignedId (plainServices visitorCatalog) (insertNew 1) = some (1, 8193) ∧ (1, 8193) ∉ s.committed := by
  obtain ⟨s, hrun, tx, htx, hcommitted, hid⟩ : ∃ s ∈ Runs.run (Group.step visitorIds) (.new visitorCatalog) promoteRun,
      ∃ tx ∈ (s.process s.primary).tx, s.committed = [(1, 1), (1, 4097)] ∧
        tx.assignedId (plainServices visitorCatalog) (insertNew 1) = some (1, 8193) := by
    decide +kernel
  have hmeets : Runs.Meets (Group.step visitorIds) Group.CountersKept (.new visitorCatalog) promoteRun := by decide +kernel
  exact ⟨s, tx, hrun, htx, hcommitted, hid, (assigned_ids_fresh hmeets hrun htx _ _ hid (by decide)).1 (by decide +kernel)⟩

/-- A visitor is committed, and the process crashes. -/
def crashRun : List (Group.Step visitorCatalog) :=
  [.begin, .call (plainServices _) (insertNew 2), .commit ⟨0, 0, [], "visit"⟩, .restart 0 1, .begin]

/-- Two ids are assigned and rolled back; the successor publishes a lower mark, which the old primary
applies before it takes over again. -/
def demoteRun : List (Group.Step visitorCatalog) :=
  [.begin, .call (plainServices _) (insertNew 1), .call (plainServices _) (insertNew 1), .rollback, .promote 1,
    .begin, .call (plainServices _) (.insert 1 (account 1 [7] 30)), .commit ⟨0, 0, [], "open"⟩,
    .replicate 0, .promote 0, .begin]

/-- Ids are assigned twice: that of an ephemeral row after a crash, and one of a durable table by a primary
that was demoted in between. -/
theorem ids_reissued :
    (∃ s tx, Runs.run (Group.step visitorIds) (.new visitorCatalog) crashRun = some s ∧ (s.process s.primary).tx = some tx ∧
      tx.assignedId (plainServices visitorCatalog) (insertNew 2) = some (2, 1) ∧ (2, 1) ∈ s.committed) ∧
    ∃ s tx, Runs.run (Group.step visitorIds) (.new visitorCatalog) demoteRun = some s ∧ (s.process s.primary).tx = some tx ∧
      tx.assignedId (plainServices visitorCatalog) (insertNew 1) = some (1, 2) ∧ (1, 2) ∈ (s.process s.primary).issued := by
  obtain ⟨s, hrun, tx, htx, hs⟩ : ∃ s ∈ Runs.run (Group.step visitorIds) (.new visitorCatalog) crashRun,
      ∃ tx ∈ (s.process s.primary).tx, tx.assignedId (plainServices visitorCatalog) (insertNew 2) = some (2, 1) ∧
        (2, 1) ∈ s.committed := by
    decide +kernel
  obtain ⟨s', hrun', tx', htx', hs'⟩ : ∃ s ∈ Runs.run (Group.step visitorIds) (.new visitorCatalog) demoteRun,
      ∃ tx ∈ (s.process s.primary).tx, tx.assignedId (plainServices visitorCatalog) (insertNew 1) = some (1, 2) ∧
        (1, 2) ∈ (s.process s.primary).issued := by
    decide +kernel
  exact ⟨⟨s, tx, hrun, htx, hs⟩, s', tx', hrun', htx', hs'⟩

end Fluxum
