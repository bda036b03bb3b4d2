/-
# Materialized views

The view engine (`subscription/matview.rs`): a declared aggregate or top-N
window over one base table, kept up to date from the rows that a commit
deletes and inserts. Groups and values are held in maps with memcomparable
keys; a descending window inverts the bytes of its keys.

Float arithmetic is not part of the source: it is the parameter `FloatOps`.
-/
import Fluxum.Store.Buffer

namespace Fluxum

open Std

/-! ### Declarations -/

/-- The aggregate of a declaration, with its column. -/
inductive MvAggregate where
  | count
  | sum (column : String)
  | avg (column : String)
  | min (column : String)
  | max (column : String)
deriving DecidableEq, Repr

def MvAggregate.column : MvAggregate → Option String
  | .count => none
  | .sum c | .avg c | .min c | .max c => some c

structure MvTopN where
  column : String
  descending : Bool
  limit : BitVec 32

structure MaterializedViewDef where
  name : String
  table : String
  aggregate : Option MvAggregate
  groupBy : Option String
  topN : Option MvTopN

/-- A declaration bound to ordinals. -/
inductive ViewKind where
  | aggregate (agg : MvAggregate) (value group : Option Nat)
  | topN (ordinal : Nat) (descending : Bool) (limit : Nat)
deriving DecidableEq

structure ResolvedView where
  name : String
  table : Nat
  tableSchema : TableSchema
  kind : ViewKind

inductive ViewError where
  | unknownColumn (view : String) (column : String)
  | notNumeric (view : String) (ty : FluxType)
  | zeroLimit (view : String)
  | both (view : String)
  | neither (view : String)
  | row (e : RowError)

/-- The column types that `SUM` and `AVG` accept. -/
def FluxType.isNumeric : FluxType → Bool
  | .scalar .i8 | .scalar .i16 | .scalar .i32 | .scalar .i64 | .scalar .u8 | .scalar .u16 | .scalar .u32
  | .scalar .u64 | .scalar .f32 | .scalar .f64 => true
  | _ => false

/-- The ordinal of a column, as a `u16`. -/
def ordinalOf (view : String) (table : TableSchema) (name : String) : Except ViewError Nat :=
  match table.columns.findIdx? (·.name = name) with
  | some i => .ok (min i 65535)
  | none => .error (.unknownColumn view name)

/-- The numeric check of `SUM` and `AVG`. -/
def checkNumeric (view : String) (table : TableSchema) (agg : MvAggregate) (value : Option Nat) : Except ViewError Unit :=
  match agg, value.bind (table.columns[·]?) with
  | .sum _, some c | .avg _, some c => if c.ty.isNumeric then .ok () else .error (.notNumeric view c.ty)
  | _, _ => .ok ()

/-- What the declaration asks for: an aggregate or a window. -/
def resolveKind (d : MaterializedViewDef) (table : TableSchema) : Except ViewError ViewKind :=
  match d.aggregate, d.topN with
  | some agg, none => do
    let value ← agg.column.mapM (ordinalOf d.name table)
    checkNumeric d.name table agg value
    let group ← d.groupBy.mapM (ordinalOf d.name table)
    return .aggregate agg value group
  | none, some top =>
    if top.limit = 0 then .error (.zeroLimit d.name)
    else return .topN (← ordinalOf d.name table top.column) top.descending top.limit.toNat
  | some _, some _ => .error (.both d.name)
  | none, none => .error (.neither d.name)

def resolve (d : MaterializedViewDef) (tableId : Nat) (table : TableSchema) : Except ViewError ResolvedView :=
  return ⟨d.name, tableId, table, ← resolveKind d table⟩

/-! ### State -/

/-- The float operations that the engine uses, on IEEE bits. -/
structure FloatOps where
  ofInt : Int → BitVec 64
  ofF32 : BitVec 32 → BitVec 64
  add : BitVec 64 → BitVec 64 → BitVec 64
  mul : BitVec 64 → BitVec 64 → BitVec 64
  div : BitVec 64 → BitVec 64 → BitVec 64

/-- The running accumulators of a group. -/
structure GroupAcc where
  groupValue : Option RowValue
  count : Int
  sumInt : Int
  sumFloat : BitVec 64
  /-- The multiset of the aggregated values, by their memcomparable keys. -/
  values : ExtTreeMap Bytes (RowValue × Int)

def GroupAcc.default : GroupAcc := ⟨none, 0, 0, 0, ∅⟩

structure ViewState where
  groups : ExtTreeMap Bytes GroupAcc
  /-- The whole base table in the order of the window: value and encoded primary key. -/
  ordered : ExtTreeMap Bytes (RowValue × Bytes)

def ViewState.empty : ViewState := ⟨∅, ∅⟩

inductive Numeric where
  | int (n : Int)
  | float (bits : BitVec 64)

def numericOf (fl : FloatOps) : RowValue → Option Numeric
  | .scalar (.i8 v) => some (.int v.toInt)
  | .scalar (.i16 v) => some (.int v.toInt)
  | .scalar (.i32 v) => some (.int v.toInt)
  | .scalar (.i64 v) => some (.int v.toInt)
  | .scalar (.u8 v) => some (.int v.toNat)
  | .scalar (.u16 v) => some (.int v.toNat)
  | .scalar (.u32 v) => some (.int v.toNat)
  | .scalar (.u64 v) => some (.int v.toNat)
  | .scalar (.f32 v) => some (.float (fl.ofF32 v))
  | .scalar (.f64 v) => some (.float v)
  | _ => none

namespace GroupAcc

variable (fl : FloatOps)

/-- Add a numeric value to the sums. -/
def addNumeric (acc : GroupAcc) (sign : Int) : Option Numeric → GroupAcc
  | some (.int n) => { acc with sumInt := acc.sumInt + sign * n }
  | some (.float x) => { acc with sumFloat := fl.add acc.sumFloat (fl.mul (fl.ofInt sign) x) }
  | none => acc

/-- Count a value in or out; one that is no longer there goes. -/
def addValue (acc : GroupAcc) (sign : Int) (v : RowValue) : GroupAcc :=
  let vkey := encodeValue v
  let entry := acc.values[vkey]?.getD (v, 0)
  let n := entry.2 + sign
  { acc with values := if n ≤ 0 then acc.values.erase vkey else acc.values.insert vkey (entry.1, n) }

/-- A row of the group comes or goes. -/
def add (acc : GroupAcc) (sign : Int) (groupValue : RowValue) (value : Option RowValue) : GroupAcc :=
  let acc := { acc with groupValue := some (acc.groupValue.getD groupValue), count := acc.count + sign }
  match value with
  | some v => (acc.addNumeric fl sign (numericOf fl v)).addValue sign v
  | none => acc

end GroupAcc

/-- The group of a global aggregate. -/
def globalGroup : RowValue := .scalar (.str "*")

def groupOf (group : Option Nat) (row : Row) : RowValue := (group.bind (row[·]?)).getD globalGroup

/-- The bytes with every bit flipped. -/
def invert (bytes : Bytes) : Bytes := bytes.map fun b => 255 - b

namespace ResolvedView

variable (fl : FloatOps)

/-- One base row comes (`1`) or goes (`-1`). -/
def applyRow (view : ResolvedView) (state : ViewState) (row : Row) (sign : Int) : Except ViewError ViewState :=
  match view.kind with
  | .aggregate _ value group =>
    let groupValue := groupOf group row
    let key := encodeValue groupValue
    let acc := (state.groups[key]?.getD .default).add fl sign groupValue (value.bind (row[·]?))
    .ok { state with groups := if acc.count ≤ 0 then state.groups.erase key else state.groups.insert key acc }
  | .topN ordinal descending _ =>
    match row[ordinal]? with
    | none => .ok state
    | some v => do
      let pk ← (encodePkOfRow view.tableSchema row).mapError .row
      -- inverted so that the ascending order of the map is best first
      let key := (if descending then invert (encodeValue v) else encodeValue v) ++ pk
      return { state with ordered := if 0 < sign then state.ordered.insert key (v, pk) else state.ordered.erase key }

/-- Rows that come or go one after the other. -/
def applyRows (view : ResolvedView) (state : ViewState) (rows : List Row) (sign : Int) : Except ViewError ViewState :=
  rows.foldlM (fun state row => view.applyRow fl state row sign) state

/-- The current value of an aggregate. -/
def aggregateValue (agg : MvAggregate) (acc : GroupAcc) : RowValue :=
  match agg with
  | .count => .scalar (.i64 (BitVec.ofInt 64 acc.count))
  | .sum _ =>
    if floatEq 52 acc.sumFloat 0 then
      .scalar (.i64 (if -2 ^ 63 ≤ acc.sumInt ∧ acc.sumInt < 2 ^ 63 then BitVec.ofInt 64 acc.sumInt else BitVec.intMax 64))
    else .scalar (.f64 (fl.add acc.sumFloat (fl.ofInt acc.sumInt)))
  | .avg _ =>
    .scalar (.f64 (if acc.count = 0 then 0
      else fl.div (fl.add acc.sumFloat (fl.ofInt acc.sumInt)) (fl.ofInt acc.count)))
  | .min _ => (acc.values.toList.head?.map (·.2.1)).getD (.scalar (.i64 0))
  | .max _ => (acc.values.toList.getLast?.map (·.2.1)).getD (.scalar (.i64 0))

/-- A window row: the rank as a `u32`, the value and the encoded primary key. -/
def windowRow (rank : Nat) (entry : RowValue × Bytes) : Row :=
  [.scalar (.u32 (if rank + 1 < 2 ^ 32 then BitVec.ofNat 32 (rank + 1) else BitVec.allOnes 32)), entry.1,
    .scalar (.bytes entry.2)]

/-- Every current view row. -/
def renderAll (view : ResolvedView) (state : ViewState) : List Row :=
  match view.kind with
  | .aggregate agg _ _ =>
    state.groups.toList.map fun p => [p.2.groupValue.getD globalGroup, aggregateValue fl agg p.2]
  | .topN _ _ limit => (state.ordered.toList.take limit).zipIdx.map fun p => windowRow p.2 p.1.2

end ResolvedView

/-! ### The engine -/

/-- The changed rows of a view: encoded new rows, and the keys of the rows that go. -/
structure ViewUpdate where
  inserts : List Bytes
  deletes : List Bytes

structure MatView where
  view : ResolvedView
  state : ViewState

abbrev Snapshot := ExtTreeMap Nat (Tree Row)

def Snapshot.scan (base : Snapshot) (table : Nat) : List Row := (base[table]?.getD ∅).toList.map (·.2)

namespace MatView

variable (fl : FloatOps)

/-- The key of a view row: its first column. -/
def keyOf (row : Row) : Except ViewError Bytes := (RowValue.encodeAll (row.take 1)).mapError .row

def encodeRow (row : Row) : Except ViewError Bytes := (RowValue.encodeAll row).mapError .row

/-- A view over the base rows. -/
def rebuild (view : ResolvedView) (base : Snapshot) : Except ViewError MatView := do
  let state ← view.applyRows fl .empty (base.scan view.table) 1
  return ⟨view, state⟩

/-- The encoded view rows, for a new subscriber. -/
def snapshotRows (v : MatView) : Except ViewError (List Bytes) := (v.view.renderAll fl v.state).mapM encodeRow

/-- The update between two renderings: rows that are new at their key, and keys that are gone or
whose row has changed. -/
def delta (before after : List (Bytes × Row)) : Except ViewError ViewUpdate := do
  let changed := after.filter fun p => (before.lookup p.1).all fun old => !Row.same old p.2
  let inserts ← changed.mapM fun p => encodeRow p.2
  let replaced := (changed.filter fun p => (before.lookup p.1).isSome).map (·.1)
  let gone := (before.filter fun p => (after.lookup p.1).isNone).map (·.1)
  return ⟨inserts, replaced ++ gone⟩

def keyed (rows : List Row) : Except ViewError (List (Bytes × Row)) := rows.mapM fun row => return (← keyOf row, row)

/-- The update from one rendering to the next; absent if nothing changed. -/
def update (before after : List Row) : Except ViewError (Option ViewUpdate) :=
  if before.length = after.length && (before.zip after).all (fun p => Row.same p.1 p.2) then .ok none
  else do
    let u ← delta (← keyed before) (← keyed after)
    return if u.inserts.isEmpty && u.deletes.isEmpty then none else some u

/-- One commit: the deletes, then the inserts. -/
def onCommit (v : MatView) (diff : TxDiff) : Except ViewError (MatView × Option ViewUpdate) :=
  match diff.tables.find? (·.tableId = v.view.table) with
  | none => .ok (v, none)
  | some d => do
    let state ← v.view.applyRows fl v.state (d.deletes.map (·.2)) (-1)
    let state ← v.view.applyRows fl state d.inserts 1
    let u ← update (v.view.renderAll fl v.state) (v.view.renderAll fl state)
    return (⟨v.view, state⟩, u)

end MatView

/-- The views whose base table is in the schema. -/
def resolveAll (cat : Catalog) (defs : List MaterializedViewDef) : Except ViewError (List ResolvedView) :=
  (defs.filterMap fun d => (cat.tables.toList.find? (·.2.name = d.table)).map (d, ·)).mapM fun p =>
    resolve p.1 p.2.1 p.2.2

namespace MatViewEngine

variable (fl : FloatOps)

def init (cat : Catalog) (defs : List MaterializedViewDef) (base : Snapshot) : Except ViewError (List MatView) := do
  let views ← resolveAll cat defs
  views.mapM fun view => MatView.rebuild fl view base

/-- Every view takes the commit, one after the other. -/
def onCommit (engine : List MatView) (diff : TxDiff) : Except ViewError (List (MatView × Option ViewUpdate)) :=
  engine.mapM (·.onCommit fl diff)

end MatViewEngine

end Fluxum
