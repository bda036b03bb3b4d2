/-
# Transactions

The write transaction of `store/memstore/tx.rs` over the store of
`store/memstore.rs`: a buffer of pending operations over the committed
tables, eager validation on every write, referential actions on deletes, and
the commit. Functions generated from the schema (`#[computed]` and `#[check]`
expressions, the spatial check) and the column transforms are parameters.
-/
import Fluxum.Store.Merge

namespace Fluxum

open Std

/-- What deleting a parent row does to the rows that reference it. -/
inductive RefAction where
  | restrict
  | cascade
  | setNull
deriving DecidableEq, Repr

/-- A `#[references]` declaration resolved against the catalog. -/
structure ResolvedFk where
  child : Nat
  childSchema : TableSchema
  childOrdinal : Nat
  parent : Nat
  parentSchema : TableSchema
  onDelete : RefAction

/-- A referencing column has the type of the parent key, or `Option` of it. -/
def FluxType.References (child parent : FluxType) : Prop :=
  match child with
  | .option inner => inner = parent
  | other => other = parent

/-- What `build_foreign_keys` and the table macro check of a foreign key. -/
structure ResolvedFk.Valid (fk : ResolvedFk) (tables : ExtTreeMap Nat TableSchema)
    (computed : Nat → List (Nat × (Row → Option RowValue))) : Prop where
  child : tables[fk.child]? = some fk.childSchema
  parent : tables[fk.parent]? = some fk.parentSchema
  key : ∃ o parentColumn childColumn, fk.parentSchema.primaryKey = [o] ∧
    fk.parentSchema.columns[o]? = some parentColumn ∧ fk.childSchema.columns[fk.childOrdinal]? = some childColumn ∧
    childColumn.ty.References parentColumn.ty ∧ (fk.onDelete = .setNull → ∃ inner, childColumn.ty = .option inner)
  notComputed : ∀ c ∈ computed fk.child, c.1 ≠ fk.childOrdinal

/-- The fixed part of a store: the schema and what is generated from it. -/
structure Catalog where
  tables : ExtTreeMap Nat TableSchema
  /-- The `#[computed]` columns by table: ordinal and derivation. -/
  computed : Nat → List (Nat × (Row → Option RowValue))
  /-- The `#[not_null]` columns by table. -/
  notNull : Nat → List Nat
  checks : Nat → List (Row → Option Bool)
  /-- The insertion check of the table's spatial index, if it has one. -/
  spatial : Nat → Row → Bool
  fks : List ResolvedFk
  /-- The columns that a transform stores in another form. -/
  sealedColumns : Nat → List Nat
  autoIncStep : Nat
  /-- The rows that the page codec encodes. -/
  fits : Row → Bool
  fks_valid : ∀ fk ∈ fks, fk.Valid tables computed
  sealed_primaryKey : ∀ table schema, tables[table]? = some schema → ∀ o ∈ schema.primaryKey, o ∉ sealedColumns table
  autoIncStep_pos : 0 < autoIncStep

/-- The foreign keys of a child table. -/
def Catalog.fksOut (cat : Catalog) (table : Nat) : List ResolvedFk := cat.fks.filter (·.child = table)

/-- The foreign keys that reference a parent table. -/
def Catalog.fksIn (cat : Catalog) (table : Nat) : List ResolvedFk := cat.fks.filter (·.parent = table)

/-- A transform of one row: it may fail, and it changes the sealed columns alone. -/
structure RowTransform (cat : Catalog) where
  apply : Nat → Row → Bytes → Option Row
  length : ∀ {table row pk row'}, apply table row pk = some row' → row'.length = row.length
  other : ∀ {table row pk row' o}, apply table row pk = some row' → o ∉ cat.sealedColumns table → row'[o]? = row[o]?

/-- Run the transform, on the tables it has columns of. -/
def RowTransform.run {cat : Catalog} (f : RowTransform cat) (table : Nat) (row : Row) (pk : Bytes) :
    Except StoreError Row :=
  if cat.sealedColumns table = [] then .ok row
  else
    match f.apply table row pk with
    | some row => .ok row
    | none => .error .seal

/-- What is attached to the store, as one call finds it. -/
structure Services (cat : Catalog) where
  globalWritesAllowed : Bool
  /-- Whether the blob store, if there is one, has the object. -/
  blobs : Option (Vector UInt8 32 → Bool)
  /-- The transform engine on the way in. -/
  onWriteRow : RowTransform cat
  /-- The transform engine on the way out. -/
  onReadRow : RowTransform cat

/-! ### Auto-increment counters -/

/-- Addition in `u64` that stays at the largest value. -/
def saturatingAdd (a b : Nat) : Nat := min (a + b) (2 ^ 64 - 1)

structure AutoIncCounter where
  next : Nat
  highWater : Nat
deriving DecidableEq, Repr

namespace AutoIncCounter

def new : AutoIncCounter := ⟨1, 0⟩

/-- The next value, the counter after it, and whether the high-water mark advanced. -/
def allocate (c : AutoIncCounter) (step : Nat) : Nat × AutoIncCounter × Bool :=
  let advanced := c.highWater < c.next
  let highWater := if advanced then saturatingAdd c.next (step - 1) else c.highWater
  (c.next, ⟨saturatingAdd c.next 1, highWater⟩, advanced)

/-- The counter after an explicit id, and whether the high-water mark advanced. -/
def observeExplicit (c : AutoIncCounter) (value : Nat) : AutoIncCounter × Bool :=
  let next := if c.next ≤ value then saturatingAdd value 1 else c.next
  if c.highWater < value then (⟨next, value⟩, true) else (⟨next, c.highWater⟩, false)

end AutoIncCounter

/-- The state guarded by the writer lock. -/
structure WriterState where
  nextTxId : Nat
  counters : ExtTreeMap Nat AutoIncCounter
  highWaterDirty : ExtTreeSet Nat

structure MemStore where
  committed : Tables
  writer : WriterState

structure Tx where
  writer : WriterState
  base : Tables
  txId : Nat
  pending : ExtTreeMap Nat (Tree PendingOp)

def MemStore.new (cat : Catalog) : MemStore :=
  { committed := cat.tables.map fun _ schema => .empty schema
    writer :=
      { nextTxId := 1
        counters := cat.tables.filterMap fun _ schema => schema.autoInc.map fun _ => .new
        highWaterDirty := ∅ } }

def MemStore.begin (s : MemStore) : Tx := ⟨s.writer, s.committed, s.writer.nextTxId, ∅⟩

/-- Dropping the transaction: the counters it moved stay. -/
def Tx.rollback (tx : Tx) : MemStore := ⟨tx.base, tx.writer⟩

namespace Tx

def ops (tx : Tx) (table : Nat) : Tree PendingOp := tx.pending[table]?.getD ∅

def op (tx : Tx) (table : Nat) (pk : Bytes) : Option PendingOp := (tx.ops table)[pk]?

/-- Put or drop the pending operation on a key. -/
def setOp (tx : Tx) (table : Nat) (pk : Bytes) (op : Option PendingOp) : Tx :=
  let ops := tx.ops table
  let ops := match op with
    | some op => ops.insert pk op
    | none => ops.erase pk
  { tx with pending := tx.pending.insert table ops }

def baseTable (tx : Tx) (table : Nat) : Except StoreError TableState :=
  match tx.base[table]? with
  | some t => .ok t
  | none => .error (.unknownTable table)

/-- The error of a step, with the transaction it leaves. -/
def fail {α : Type} (tx : Tx) (x : Except StoreError α) : Except (StoreError × Tx) α := x.mapError (·, tx)

end Tx

/-! ### Insert and upsert -/

section Write

variable {cat : Catalog} (srv : Services cat)

def Catalog.schemaOf (cat : Catalog) (table : Nat) : Except StoreError TableSchema :=
  match cat.tables[table]? with
  | some schema => .ok schema
  | none => .error (.unknownTable table)

/-- Global tables are written on the authoritative shard alone. -/
def checkGlobal (schema : TableSchema) : Except StoreError Unit :=
  if schema.access = .global ∧ srv.globalWritesAllowed = false then .error .globalWrite else .ok ()

/-- Overwrite the `#[computed]` columns with their derivations. -/
def deriveColumns (table : Nat) : List (Nat × (Row → Option RowValue)) → Row → Except StoreError Row
  | [], values => .ok values
  | (o, compute) :: columns, values =>
    match compute values with
    | some derived => deriveColumns table columns (values.set o derived)
    | none => .error (.compute table o)

def blobOrdinals (schema : TableSchema) : List Nat :=
  (List.range schema.columns.length).filter fun o =>
    match schema.columns[o]? with
    | some ⟨_, .scalar .blob⟩ => true
    | _ => false

/-- Every blob reference names a stored object. -/
def checkBlobs (schema : TableSchema) (values : Row) : List Nat → Except StoreError Unit
  | [] => .ok ()
  | o :: os =>
    match values[o]? with
    | some (.scalar (.blob hash)) =>
      match srv.blobs with
      | none => .error (.noBlobStore schema.name)
      | some contains =>
        if contains hash then checkBlobs schema values os else .error (.unknownBlob schema.name hash)
    | _ => checkBlobs schema values os

/-- The checks of a write up to the assignment of the auto-increment column. -/
def prepare (table : Nat) (values : Row) : Except StoreError (TableSchema × Row) := do
  let schema ← cat.schemaOf table
  checkGlobal srv schema
  let values ← deriveColumns table (cat.computed table) values
  checkBlobs srv schema values (blobOrdinals schema)
  (checkRow schema values).mapError .row
  if cat.spatial table values then return (schema, values) else .error (.spatial schema.name)

/-- Assign or observe the `#[auto_inc]` column. -/
def assignAutoInc (step : Nat) (writer : WriterState) (table : Nat) (schema : TableSchema) (values : Row) :
    Except StoreError (WriterState × Row) :=
  match schema.autoInc with
  | none => .ok (writer, values)
  | some o =>
    match values[o]? with
    | some (.scalar (.u64 current)) =>
      let counter := writer.counters[table]?.getD .new
      let (value, counter, advanced) :=
        if current = 0 then
          let (assigned, counter, advanced) := counter.allocate step
          (BitVec.ofNat 64 assigned, counter, advanced)
        else
          let (counter, advanced) := counter.observeExplicit current.toNat
          (current, counter, advanced)
      let dirty := if advanced then writer.highWaterDirty.insert table else writer.highWaterDirty
      .ok ({ writer with counters := writer.counters.insert table counter, highWaterDirty := dirty },
        values.set o (.scalar (.u64 value)))
    | _ => .error (.autoIncType schema.name)

/-- What a referencing value names; `None` names nothing. -/
def fkTarget : RowValue → Option RowValue
  | .optNone => none
  | .optSome inner => some inner
  | other => some other

def checkNotNull (table : Nat) (values : Row) : List Nat → Except StoreError Unit
  | [] => .ok ()
  | o :: os => if values[o]? = some .optNone then .error (.notNull table o) else checkNotNull table values os

/-- The `#[check]` predicates, numbered from `n`. -/
def checkChecks (table : Nat) (values : Row) (n : Nat) : List (Row → Option Bool) → Except StoreError Unit
  | [] => .ok ()
  | check :: checks =>
    match check values with
    | some true => checkChecks table values (n + 1) checks
    | some false => .error (.checkViolated table n)
    | none => .error (.checkFailed table n)

/-- Whether the transaction sees the parent row. -/
def Tx.parentExists (tx : Tx) (fk : ResolvedFk) (value : RowValue) : Except StoreError Bool := do
  let pk ← (encodePkValues fk.parentSchema [value]).mapError .row
  match tx.op fk.parent pk with
  | some op => return op.result.isSome
  | none => return ((← tx.baseTable fk.parent).rowAt pk).isSome

def Tx.checkReferences (tx : Tx) (schema : TableSchema) (values : Row) : List ResolvedFk → Except StoreError Unit
  | [] => .ok ()
  | fk :: fks =>
    match values[fk.childOrdinal]?.bind fkTarget with
    | none => tx.checkReferences schema values fks
    | some target => do
      if ← tx.parentExists fk target then tx.checkReferences schema values fks
      else .error (.fkViolated schema.name fk.parentSchema.name target)

/-- `check_constraints`: `#[not_null]`, then `#[check]`, then `#[references]`. -/
def Tx.checkConstraints (tx : Tx) (cat : Catalog) (table : Nat) (schema : TableSchema) (values : Row) :
    Except StoreError Unit := do
  checkNotNull table values (cat.notNull table)
  checkChecks table values 0 (cat.checks table)
  tx.checkReferences schema values (cat.fksOut table)

/-- Whether another pending row has the constraint key. -/
def pendingClash (columns : List Nat) (key pk : Bytes) : PendingOps → Except StoreError Bool
  | [] => .ok false
  | (other, op) :: ops =>
    match if other = pk then none else op.result with
    | none => pendingClash columns key pk ops
    | some row => do if (← columnsKey columns row) = key then return true else pendingClash columns key pk ops

/-- Whether a committed row other than the one at `pk` that the transaction neither deleted nor
replaced has the constraint key. -/
def committedClash (tree : Tree Bytes) (ops : Tree PendingOp) (key pk : Bytes) : Bool :=
  match tree[key]? with
  | none => false
  | some owner => owner ≠ pk && !(ops[owner]?.any (·.releases))

def checkUnique (schema : TableSchema) (ops : Tree PendingOp) (values : Row) (pk : Bytes) :
    List UniqueIndex → Except StoreError Unit
  | [] => .ok ()
  | constraint :: constraints => do
    let key ← columnsKey constraint.columns values
    if (← pendingClash constraint.columns key pk ops.toList) || committedClash constraint.tree ops key pk then
      .error (.uniqueViolated schema.name constraint.columns)
    else checkUnique schema ops values pk constraints

/-- The key holds a row the transaction sees. -/
def occupied (pending : Option PendingOp) (committed : Option Row) : Bool :=
  match pending with
  | some op => op.result.isSome
  | none => committed.isSome

/-- The checks of a write after the auto-increment column: the key, the row as it is stored, and the
committed row of the key. -/
def Tx.validate (tx : Tx) (table : Nat) (schema : TableSchema) (values : Row) (replace : Bool) :
    Except StoreError (Bytes × Row × Option Row) := do
  tx.checkConstraints cat table schema values
  let pk ← (encodePkOfRow schema values).mapError .row
  let values ← srv.onWriteRow.run table values pk
  let t ← tx.baseTable table
  if occupied (tx.op table pk) (t.rowAt pk) && !replace then .error (.pkConflict schema.name pk)
  else do
    checkUnique schema (tx.ops table) values pk t.unique
    return (pk, values, t.rowAt pk)

/-- The new pending operation of a written key, and the row as stored. -/
def place (pending : Option PendingOp) (committed : Option Row) (values : Row) :
    Except StoreError (Option PendingOp × Row) :=
  match pending, committed with
  | some .delete, none => .error .missingRow
  | some .delete, some row | none, some row =>
    -- identical content leaves the committed row
    if Row.same row values then .ok (none, row) else .ok (some (.update values), values)
  | some (.insert _), _ | none, none => .ok (some (.insert values), values)
  | some (.update _), _ => .ok (some (.update values), values)

/-- `Tx::write`: insert, or upsert with `replace`. A rejected write may have moved a counter. -/
def Tx.write (tx : Tx) (table : Nat) (values : Row) (replace : Bool) : Except (StoreError × Tx) (Tx × Row) := do
  let (schema, values) ← tx.fail (prepare srv table values)
  let (writer, values) ← tx.fail (assignAutoInc cat.autoIncStep tx.writer table schema values)
  let tx := { tx with writer }
  let (pk, values, committed) ← tx.fail (tx.validate srv table schema values replace)
  let (op, stored) ← tx.fail (place (tx.op table pk) committed values)
  return (tx.setOp table pk op, stored)

end Write

/-! ### Delete -/

section Delete

variable {cat : Catalog} (srv : Services cat)

/-- Delete one row; the row that was there, if any. -/
def Tx.deleteOne (tx : Tx) (table : Nat) (pkValues : List RowValue) : Except (StoreError × Tx) (Tx × Option Row) := do
  let schema ← tx.fail (cat.schemaOf table)
  tx.fail (checkGlobal srv schema)
  let pk ← tx.fail ((encodePkValues schema pkValues).mapError .row)
  let t ← tx.fail (tx.baseTable table)
  return match tx.op table pk with
    | some (.insert row) => (tx.setOp table pk none, some row)
    | some (.update row) => (tx.setOp table pk (some .delete), some row)
    | some .delete => (tx, none)
    | none =>
      match t.rowAt pk with
      | some row => (tx.setOp table pk (some .delete), some row)
      | none => (tx, none)

/-- The rows a transaction sees: the committed ones in key order, replacements in place, then the
inserted ones in key order. -/
def Tx.scanAll (tx : Tx) (table : Nat) : Except StoreError (List Row) := do
  let t ← tx.baseTable table
  let ops := tx.ops table
  let kept := t.rows.toList.filterMap fun (pk, row) =>
    match ops[pk]? with
    | none => some row
    | some (.update replacement) => some replacement
    | some .delete | some (.insert _) => none
  let inserted := ops.toList.filterMap fun (_, op) =>
    match op with
    | .insert row => some row
    | _ => none
  return kept ++ inserted

def fkValueMatches (value : Option RowValue) (parent : RowValue) : Bool :=
  match value with
  | some (.optSome inner) => inner.same parent
  | some other => other.same parent
  | none => false

/-- The referential action on one child row. `deleted` is the worklist, the last entry first. -/
def Tx.refActionOn (fk : ResolvedFk) (parentValue : RowValue) (s : Tx × List (Nat × Row)) (child : Row) :
    Except (StoreError × Tx) (Tx × List (Nat × Row)) :=
  match fk.onDelete with
  | .restrict => .error (.restricted fk.parentSchema.name fk.childSchema.name parentValue, s.1)
  | .cascade => do
    let (tx, old) ← s.1.deleteOne srv fk.child (fk.childSchema.primaryKey.filterMap (child[·]?))
    return (tx, (old.map (fk.child, ·)).toList ++ s.2)
  | .setNull => do
    let pk ← s.1.fail ((encodePkOfRow fk.childSchema child).mapError .row)
    let values ← s.1.fail (srv.onReadRow.run fk.child child pk)
    let (tx, _) ← s.1.write srv fk.child (values.set fk.childOrdinal .optNone) true
    return (tx, s.2)

def Tx.applyRefAction (tx : Tx) (fk : ResolvedFk) (parentValue : RowValue) (deleted : List (Nat × Row)) :
    Except (StoreError × Tx) (Tx × List (Nat × Row)) := do
  let rows ← tx.fail (tx.scanAll fk.child)
  let children := rows.filter fun row => fkValueMatches row[fk.childOrdinal]? parentValue
  children.foldlM (Tx.refActionOn srv fk parentValue) (tx, deleted)

/-- The actions of one deleted row, over the foreign keys that reference its table. -/
def Tx.refActions (old : Row) (s : Tx × List (Nat × Row)) (fk : ResolvedFk) :
    Except (StoreError × Tx) (Tx × List (Nat × Row)) :=
  match fk.parentSchema.primaryKey.map (old[·]?) with
  | [some parentValue] => s.1.applyRefAction srv fk parentValue s.2
  | _ => .ok s

/-- The worklist of `Tx::delete`; `none` if `fuel` rounds do not end it. -/
def Tx.deleteLoop : Nat → Tx → List (Nat × Row) → Option (Except (StoreError × Tx) Tx)
  | _, tx, [] => some (.ok tx)
  | 0, _, _ :: _ => none
  | fuel + 1, tx, (parent, old) :: deleted =>
    match (cat.fksIn parent).foldlM (Tx.refActions srv old) (tx, deleted) with
    | .error e => some (.error e)
    | .ok (tx, deleted) => Tx.deleteLoop fuel tx deleted

/-- `Tx::delete`: the row, then the referential actions. -/
def Tx.delete (fuel : Nat) (tx : Tx) (table : Nat) (pkValues : List RowValue) :
    Option (Except (StoreError × Tx) (Tx × Bool)) :=
  match tx.deleteOne srv table pkValues with
  | .error e => some (.error e)
  | .ok (tx, none) => some (.ok (tx, false))
  | .ok (tx, some old) => (tx.deleteLoop srv fuel [(table, old)]).map (·.map (·, true))

end Delete

/-! ### Calls -/

/-- A write call of a reducer. `fuel` bounds the rounds of a delete's worklist. -/
inductive TxCall where
  | insert (table : Nat) (values : Row)
  | upsert (table : Nat) (values : Row)
  | delete (fuel table : Nat) (pkValues : List RowValue)

/-- What a call that succeeds returns. -/
inductive Returned where
  | stored (row : Row)
  | deleted (found : Bool)

/-- Make a call; `none` if a delete does not end within its fuel. -/
def Tx.call {cat : Catalog} (srv : Services cat) (tx : Tx) : TxCall → Option (Except (StoreError × Tx) (Tx × Returned))
  | .insert table values => some ((tx.write srv table values false).map (Prod.map id .stored))
  | .upsert table values => some ((tx.write srv table values true).map (Prod.map id .stored))
  | .delete fuel table pkValues => (tx.delete srv fuel table pkValues).map (·.map (Prod.map id .deleted))

/-- The transaction after a call, accepted or rejected. -/
def Tx.after {α : Type} : Except (StoreError × Tx) (Tx × α) → Tx
  | .ok (tx, _) => tx
  | .error (_, tx) => tx

/-! ### Commit -/

/-- The effect of a committed transaction. -/
structure TxDiff where
  txId : Nat
  tables : List TableDiff
  autoInc : List (Nat × Nat)

/-- Merge the operations on one table; a table without any is passed over. -/
def mergePending (fits : Row → Bool) (s : Tables × List TableDiff) (p : Nat × Tree PendingOp) :
    Except StoreError (Tables × List TableDiff) :=
  if p.2.isEmpty then .ok s
  else
    match s.1[p.1]? with
    | none => .error (.unknownTable p.1)
    | some t => do
      let (t, diff) ← mergeTable fits p.1 t p.2.toList
      return (s.1.insert p.1 t, s.2 ++ [diff])

def highWaterOf (counters : ExtTreeMap Nat AutoIncCounter) (table : Nat) : Nat :=
  (counters[table]?.map (·.highWater)).getD 0

def publishHighWater (counters : ExtTreeMap Nat AutoIncCounter)
    (s : Tables × List (Nat × Nat)) (table : Nat) :
    Except StoreError (Tables × List (Nat × Nat)) :=
  match s.1[table]? with
  | none => .error (.unknownTable table)
  | some t =>
    .ok (s.1.insert table { t with autoIncHighWater := highWaterOf counters table },
      s.2 ++ [(table, highWaterOf counters table)])

def Tx.commit (cat : Catalog) (tx : Tx) : Except StoreError (TxDiff × MemStore) := do
  let (tables, diffs) ← tx.pending.toList.foldlM (mergePending cat.fits) (tx.base, [])
  let (tables, autoInc) ← tx.writer.highWaterDirty.toList.foldlM (publishHighWater tx.writer.counters) (tables, [])
  let writer := { tx.writer with nextTxId := saturatingAdd tx.txId 1, highWaterDirty := ∅ }
  return (⟨tx.txId, diffs, autoInc⟩, ⟨tables, writer⟩)

end Fluxum
