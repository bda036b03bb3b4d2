/-
# Tables

One table's committed contents (`store/committed.rs`): the row tree, the
B-tree indexes (`index/btree.rs`), the `#[unique]` maps (`store/unique.rs`)
and the row count, with the steps that the commit merge and the replica make
on them. A paged tree is taken as the ordered map it stores, with the key
check of its insertion.
-/
import Fluxum.CommitLog.Record
import Fluxum.Lib.Mirror
import Fluxum.Store.IndexKey

namespace Fluxum

open Std Mirror Outcome Function ExtTreeMap Except

/-- What the store answers when it refuses an operation. -/
inductive StoreError where
  | row (error : RowError)
  | ordinal (error : BadOrdinal)
  | emptyKey
  | longKey
  | pageEncode
  /-- A unique value claimed by one key while another is merged. -/
  | uniqueClaimed (existing pk : Bytes)
  /-- A pending delete or update of a key that has no committed row. -/
  | missingRow
  | unknownTable (table : Nat)
  | globalWrite
  | compute (table ordinal : Nat)
  | noBlobStore (table : String)
  | unknownBlob (table : String) (hash : Vector UInt8 32)
  | spatial (table : String)
  | autoIncType (table : String)
  | notNull (table ordinal : Nat)
  | checkViolated (table check : Nat)
  | checkFailed (table check : Nat)
  | fkViolated (table parent : String) (target : RowValue)
  | seal
  | pkConflict (table : String) (pk : Bytes)
  | uniqueViolated (table : String) (columns : List Nat)
  | restricted (parent child : String) (value : RowValue)
  | replicaTxId (txId next : Nat)
  | logValue (error : BadLen)

/-- The ordered map a paged tree stores. -/
abbrev Tree (α : Type) := ExtTreeMap Bytes α

/-- The rows of a table, by their keys. -/
abbrev Rows := Bytes → Option Row

def checkKey (key : Bytes) : Except StoreError Unit :=
  if key = [] then .error .emptyKey else if 2 ^ 32 ≤ key.length then .error .longKey else .ok ()

def Tree.insertCow {α : Type} (tree : Tree α) (key : Bytes) (value : α) : Except StoreError (Tree α) := do
  checkKey key
  return tree.insert key value

/-- One `#[index(btree)]` index: index key and primary key to primary key. -/
structure BTreeIndex where
  columns : List Nat
  tree : Tree Bytes

/-- One `#[unique]` constraint: constraint key to the primary key of the row that has it. -/
structure UniqueIndex where
  columns : List Nat
  tree : Tree Bytes

/-- A key of columns, as the store reports its failure. -/
def columnsKey (columns : List Nat) (values : Row) : Except StoreError Bytes :=
  (keyOf columns values).mapError .ordinal

namespace BTreeIndex

def entryKey (columns : List Nat) (pk : Bytes) (row : Row) : Except StoreError Bytes :=
  return (← columnsKey columns row) ++ pk

def insert (index : BTreeIndex) (row : Row) (pk : Bytes) : Except StoreError BTreeIndex := do
  let key ← entryKey index.columns pk row
  return { index with tree := ← index.tree.insertCow key pk }

def remove (index : BTreeIndex) (row : Row) (pk : Bytes) : Except StoreError BTreeIndex := do
  let key ← entryKey index.columns pk row
  return { index with tree := index.tree.erase key }

end BTreeIndex

namespace UniqueIndex

/-- Claim the row's value; a value another key holds is an error. -/
def insert (constraint : UniqueIndex) (row : Row) (pk : Bytes) : Except StoreError UniqueIndex := do
  let key ← columnsKey constraint.columns row
  match constraint.tree[key]?.filter (· ≠ pk) with
  | some existing => .error (.uniqueClaimed existing pk)
  | none => return { constraint with tree := ← constraint.tree.insertCow key pk }

/-- Release the row's value if the key holds it. -/
def remove (constraint : UniqueIndex) (row : Row) (pk : Bytes) : Except StoreError UniqueIndex := do
  let key ← columnsKey constraint.columns row
  return if constraint.tree[key]? = some pk then { constraint with tree := constraint.tree.erase key } else constraint

end UniqueIndex

/-- One table's committed contents. -/
structure TableState where
  schema : TableSchema
  rows : Tree Row
  rowCount : Nat
  indexes : List BTreeIndex
  unique : List UniqueIndex
  autoIncHighWater : Nat

/-- The committed tables, by their ids. -/
abbrev Tables := ExtTreeMap Nat TableState

namespace TableState

def empty (schema : TableSchema) : TableState :=
  { schema
    rows := ∅
    rowCount := 0
    indexes := schema.indexes.map (⟨·, ∅⟩)
    unique := schema.unique.map (⟨·, ∅⟩)
    autoIncHighWater := 0 }

def rowAt (t : TableState) (pk : Bytes) : Option Row := t.rows[pk]?

/-- `put_row`, with the row it replaces; `fits` tells the rows that the page codec encodes. -/
def putRow (fits : Row → Bool) (t : TableState) (pk : Bytes) (row : Row) : Except StoreError (Option Row × TableState) :=
  if fits row then do
    let prev := t.rowAt pk
    let rows ← t.rows.insertCow pk row
    return (prev, { t with rows, rowCount := if prev.isNone then t.rowCount + 1 else t.rowCount })
  else .error .pageEncode

/-- `take_row`, with the row it removes. -/
def takeRow (t : TableState) (pk : Bytes) : Option Row × TableState :=
  match t.rowAt pk with
  | some prev => (some prev, { t with rows := t.rows.erase pk, rowCount := t.rowCount - 1 })
  | none => (none, t)

def mapIndexes (t : TableState) (g : BTreeIndex → Except StoreError BTreeIndex) : Except StoreError TableState :=
  return { t with indexes := ← t.indexes.mapM g }

def mapUnique (t : TableState) (g : UniqueIndex → Except StoreError UniqueIndex) : Except StoreError TableState :=
  return { t with unique := ← t.unique.mapM g }

def insertIndexes (t : TableState) (row : Row) (pk : Bytes) : Except StoreError TableState :=
  t.mapIndexes (·.insert row pk)

def removeIndexes (t : TableState) (row : Row) (pk : Bytes) : Except StoreError TableState :=
  t.mapIndexes (·.remove row pk)

def replaceIndexes (t : TableState) (old row : Row) (pk : Bytes) : Except StoreError TableState :=
  t.mapIndexes fun index => do (← index.remove old pk).insert row pk

def insertUnique (t : TableState) (row : Row) (pk : Bytes) : Except StoreError TableState :=
  t.mapUnique (·.insert row pk)

def removeUnique (t : TableState) (row : Row) (pk : Bytes) : Except StoreError TableState :=
  t.mapUnique (·.remove row pk)

end TableState

/-! ### Indexes that mirror the rows -/

theorem toOption_eq_some {α : Type} {x : Except StoreError α} {a : α} : x.toOption = some a ↔ x = .ok a := by
  cases x <;> simp [Except.toOption]

variable {columns : List Nat}

theorem columnsKey_eq_ok {row : Row} {key : Bytes} :
    columnsKey columns row = .ok key ↔ keyOf columns row = .ok key := by
  unfold columnsKey
  cases keyOf columns row <;> simp [Except.mapError]

theorem insertCow_eq_ok {α : Type} {tree tree' : Tree α} {key : Bytes} {value : α} :
    tree.insertCow key value = .ok tree' ↔ checkKey key = .ok () ∧ tree' = tree.insert key value := by
  unfold Tree.insertCow
  rw [bind_eq_ok]
  constructor
  · rintro ⟨⟨⟩, hkey, h⟩
    exact ⟨hkey, (ok.inj h).symm⟩
  · rintro ⟨hkey, rfl⟩
    exact ⟨(), hkey, rfl⟩

def AllTyped (schema : TableSchema) (f : Rows) : Prop := ∀ pk row, f pk = some row → Typed schema row

variable {schema : TableSchema} {prev : Option Row}

theorem AllTyped.update {f : Rows} {pk : Bytes}
    (hf : AllTyped schema f) (hprev : ∀ row ∈ prev, Typed schema row) :
    AllTyped schema (update f pk prev) := by
  intro pk' row' h'
  by_cases hpk' : pk' = pk
  · subst hpk'
    exact hprev row' (by simpa using h')
  · rw [update_of_ne hpk'] at h'
    exact hf pk' row' h'

namespace BTreeIndex

/-- The index holds the entries of the rows `f`. -/
def Ok (index : BTreeIndex) (f : Rows) : Prop :=
  Mirrors (fun pk row => (entryKey index.columns pk row).toOption) f index.tree

theorem entryKey_eq_ok {pk key : Bytes} {row : Row} :
    entryKey columns pk row = .ok key ↔ ∃ k, keyOf columns row = .ok k ∧ key = k ++ pk := by
  unfold entryKey
  rw [bind_eq_ok]
  constructor
  · rintro ⟨k, hk, h⟩
    exact ⟨k, columnsKey_eq_ok.mp hk, (ok.inj h).symm⟩
  · rintro ⟨k, hk, rfl⟩
    exact ⟨k, columnsKey_eq_ok.mpr hk, rfl⟩

variable {index index' : BTreeIndex} {f : Rows} {pk : Bytes} {row : Row}

theorem insert_ok (hok : index.Ok f) (hf : AllTyped schema f) (hrow : Typed schema row)
    (hpk : f pk = none) (h : index.insert row pk = .ok index') :
    index'.Ok (update f pk (some row)) ∧ index'.columns = index.columns := by
  obtain ⟨key, hkey, h⟩ := bind_eq_ok.mp h
  obtain ⟨tree, htree, h⟩ := bind_eq_ok.mp h
  cases h
  obtain ⟨-, rfl⟩ := insertCow_eq_ok.mp htree
  refine ⟨Mirrors.insert hok hpk (toOption_eq_some.mpr hkey) ?_, rfl⟩
  refine Mirrors.free hok hpk fun pk' row' hrow' hkey' => ?_
  obtain ⟨k, hk, rfl⟩ := entryKey_eq_ok.mp (toOption_eq_some.mp hkey')
  obtain ⟨k', hk', heq⟩ := entryKey_eq_ok.mp hkey
  exact (keyOf_append_inj (hf pk' row' hrow') hrow hk hk' heq).2

theorem remove_ok (hok : index.Ok f) (hpk : f pk = some row) (h : index.remove row pk = .ok index') :
    index'.Ok (update f pk none) ∧ index'.columns = index.columns := by
  obtain ⟨key, hkey, h⟩ := bind_eq_ok.mp h
  cases h
  exact ⟨Mirrors.erase hok hpk (toOption_eq_some.mpr hkey), rfl⟩

end BTreeIndex

namespace UniqueIndex

/-- The map holds the constraint values of the rows `f`, each with its one owner. -/
def Ok (constraint : UniqueIndex) (f : Rows) : Prop :=
  Mirrors (fun _ row => (columnsKey constraint.columns row).toOption) f constraint.tree

variable {constraint constraint' : UniqueIndex} {f : Rows} {pk : Bytes} {row : Row}

theorem insert_ok (hok : constraint.Ok f) (hpk : f pk = none) (h : constraint.insert row pk = .ok constraint') :
    constraint'.Ok (update f pk (some row)) ∧ constraint'.columns = constraint.columns := by
  obtain ⟨key, hkey, h⟩ := bind_eq_ok.mp h
  split at h
  · simp at h
  rename_i hfree
  obtain ⟨tree, htree, h⟩ := bind_eq_ok.mp h
  cases h
  obtain ⟨-, rfl⟩ := insertCow_eq_ok.mp htree
  refine ⟨Mirrors.insert hok hpk (toOption_eq_some.mpr hkey) ?_, rfl⟩
  -- an owner that passes the test is the key itself, which has no row yet
  rcases hown : constraint.tree[key]? with _ | owner
  · rfl
  have howner : owner = pk := by simpa [hown, Option.filter] using hfree
  obtain ⟨_, hrow', _⟩ := (hok key owner).mp hown
  rw [howner, hpk] at hrow'
  simp at hrow'

theorem remove_ok (hok : constraint.Ok f) (hpk : f pk = some row) (h : constraint.remove row pk = .ok constraint') :
    constraint'.Ok (update f pk none) ∧ constraint'.columns = constraint.columns := by
  obtain ⟨key, hkey, h⟩ := bind_eq_ok.mp h
  have hown := Mirrors.entry hok hpk (toOption_eq_some.mpr hkey)
  rw [if_pos hown] at h
  cases h
  exact ⟨Mirrors.erase hok hpk (toOption_eq_some.mpr hkey), rfl⟩

end UniqueIndex

namespace TableState

/-- A row may stand at a primary key. -/
def RowOk (schema : TableSchema) (pk : Bytes) (row : Row) : Prop :=
  Typed schema row ∧ encodePkOfRow schema row = .ok pk

/-- The indexes and constraints are the declared ones, and the unique maps hold the values of the
rows `held`. -/
structure UniqueOk (t : TableState) (held : Rows) : Prop where
  indexColumns : t.indexes.map (·.columns) = t.schema.indexes
  uniqueColumns : t.unique.map (·.columns) = t.schema.unique
  unique : ∀ constraint ∈ t.unique, constraint.Ok held

/-- What the table's parts hold: the indexes the entries of the rows `indexed`, the unique maps the
values of the rows `held`. -/
structure Ok (t : TableState) (indexed held : Rows) : Prop extends UniqueOk t held where
  count : t.rowCount = t.rows.size
  rows : ∀ pk row, t.rowAt pk = some row → RowOk t.schema pk row
  index : ∀ index ∈ t.indexes, index.Ok indexed

/-- The table's parts agree with its rows. -/
def Consistent (t : TableState) : Prop := t.Ok t.rowAt t.rowAt

theorem consistent_empty (schema : TableSchema) : (empty schema).Consistent := by
  have hrows : (empty schema).rowAt = fun _ => none := by
    funext pk
    simp [rowAt, empty]
  refine ⟨⟨?_, ?_, ?_⟩, by simp [empty], fun pk row h => ?_, ?_⟩
  · simp [empty, comp_def]
  · simp [empty, comp_def]
  · rw [hrows]
    intro constraint hconstraint
    obtain ⟨columns, -, rfl⟩ := List.mem_map.mp hconstraint
    exact mirrors_empty _
  · simp [hrows] at h
  · rw [hrows]
    intro index hindex
    obtain ⟨columns, -, rfl⟩ := List.mem_map.mp hindex
    exact mirrors_empty _

variable {t t' : TableState} {fits : Row → Bool} {pk : Bytes} {row : Row}

theorem putRow_eq_ok (h : t.putRow fits pk row = .ok (prev, t')) :
    prev = t.rowAt pk ∧ t'.rowAt = update t.rowAt pk (some row) ∧
      ∃ rows rowCount, t' = { t with rows, rowCount } ∧ (t.rowCount = t.rows.size → rowCount = rows.size) := by
  unfold putRow at h
  split at h
  · obtain ⟨rows, hrows, h⟩ := bind_eq_ok.mp h
    obtain ⟨-, rfl⟩ := insertCow_eq_ok.mp hrows
    cases h
    refine ⟨rfl, ?_, _, _, rfl, fun hcount => ?_⟩
    · funext k
      simp [rowAt, OrdMap.lookup_insert, update_apply, eq_comm]
    · simp only [size_insert, rowAt, hcount]
      by_cases hmem : pk ∈ t.rows <;> simp [hmem]
  · simp at h

theorem takeRow_eq_some (h : t.takeRow pk = (some row, t')) :
    t.rowAt pk = some row ∧ t'.rowAt = update t.rowAt pk none ∧
      ∃ rows rowCount, t' = { t with rows, rowCount } ∧ (t.rowCount = t.rows.size → rowCount = rows.size) := by
  unfold takeRow at h
  split at h
  · rename_i prev hprev
    obtain ⟨h₁, rfl⟩ := Prod.mk.inj h
    cases h₁
    refine ⟨hprev, ?_, _, _, rfl, fun hcount => ?_⟩
    · funext k
      simp [rowAt, OrdMap.lookup_erase, update_apply, eq_comm]
    have hmem : pk ∈ t.rows := by
      rw [mem_iff_isSome_getElem?, ← rowAt, hprev]
      rfl
    simp [size_erase, hmem, hcount]
  · simp at h

theorem takeRow_eq_none (h : t.takeRow pk = (none, t')) : t.rowAt pk = none ∧ t' = t := by
  unfold takeRow at h
  split at h
  · simp at h
  · rename_i hprev
    exact ⟨hprev, (Prod.mk.inj h).2.symm⟩

section Steps

variable {indexed held : Rows} {old : Row}

theorem mapIndexes_eq_ok {g : BTreeIndex → Except StoreError BTreeIndex} (h : t.mapIndexes g = .ok t') :
    ∃ indexes, t.indexes.mapM g = .ok indexes ∧ t' = { t with indexes } := by
  obtain ⟨indexes, hindexes, h⟩ := bind_eq_ok.mp h
  exact ⟨indexes, hindexes, (ok.inj h).symm⟩

theorem mapUnique_eq_ok {g : UniqueIndex → Except StoreError UniqueIndex} (h : t.mapUnique g = .ok t') :
    ∃ unique, t.unique.mapM g = .ok unique ∧ t' = { t with unique } := by
  obtain ⟨unique, hunique, h⟩ := bind_eq_ok.mp h
  exact ⟨unique, hunique, (ok.inj h).symm⟩

theorem Ok.mapIndexes {indexed' : Rows} {g : BTreeIndex → Except StoreError BTreeIndex}
    (hok : t.Ok indexed held)
    (hg : ∀ index index', index.Ok indexed → g index = .ok index' → index'.Ok indexed' ∧ index'.columns = index.columns)
    (h : t.mapIndexes g = .ok t') : ∃ indexes, t' = { t with indexes } ∧ t'.Ok indexed' held := by
  obtain ⟨indexes, hloop, rfl⟩ := mapIndexes_eq_ok h
  obtain ⟨hindexes, hcolumns⟩ := mapM_forall hg hok.index hloop
  exact ⟨indexes, rfl, ⟨hcolumns.trans hok.indexColumns, hok.uniqueColumns, hok.unique⟩, hok.count, hok.rows, hindexes⟩

theorem UniqueOk.mapUnique {held' : Rows} {g : UniqueIndex → Except StoreError UniqueIndex}
    (hok : t.UniqueOk held)
    (hg : ∀ c c', UniqueIndex.Ok c held → g c = .ok c' → c'.Ok held' ∧ c'.columns = c.columns)
    (h : t.mapUnique g = .ok t') : t'.UniqueOk held' := by
  obtain ⟨unique, hloop, rfl⟩ := mapUnique_eq_ok h
  obtain ⟨hunique, hcolumns⟩ := mapM_forall hg hok.unique hloop
  exact ⟨hok.indexColumns, hcolumns.trans hok.uniqueColumns, hunique⟩

theorem UniqueOk.insertUnique (hok : t.UniqueOk held) (hpk : held pk = none) (h : t.insertUnique row pk = .ok t') :
    t'.UniqueOk (update held pk (some row)) :=
  hok.mapUnique (fun _ _ hc h => UniqueIndex.insert_ok hc hpk h) h

theorem UniqueOk.removeUnique (hok : t.UniqueOk held) (hpk : held pk = some row) (h : t.removeUnique row pk = .ok t') :
    t'.UniqueOk (update held pk none) :=
  hok.mapUnique (fun _ _ hc h => UniqueIndex.remove_ok hc hpk h) h

section

variable (hok : t.Ok indexed held)
include hok

theorem Ok.withUnique {unique : List UniqueIndex} {held' : Rows}
    (h : { t with unique }.UniqueOk held') : { t with unique }.Ok indexed held' :=
  ⟨h, hok.count, hok.rows, hok.index⟩

theorem Ok.insertIndexes (hindexed : AllTyped t.schema indexed) (hrow : Typed t.schema row)
    (hpk : indexed pk = none) (h : t.insertIndexes row pk = .ok t') :
    ∃ indexes, t' = { t with indexes } ∧ t'.Ok (update indexed pk (some row)) held :=
  hok.mapIndexes (fun _ _ hix h => BTreeIndex.insert_ok hix hindexed hrow hpk h) h

theorem Ok.removeIndexes (hpk : indexed pk = some row) (h : t.removeIndexes row pk = .ok t') :
    ∃ indexes, t' = { t with indexes } ∧ t'.Ok (update indexed pk none) held :=
  hok.mapIndexes (fun _ _ hix h => BTreeIndex.remove_ok hix hpk h) h

theorem Ok.replaceIndexes (hindexed : AllTyped t.schema indexed) (hrow : Typed t.schema row)
    (hpk : indexed pk = some old) (h : t.replaceIndexes old row pk = .ok t') :
    ∃ indexes, t' = { t with indexes } ∧ t'.Ok (update indexed pk (some row)) held := by
  have hremoved : AllTyped t.schema (update indexed pk none) := hindexed.update (by simp)
  refine hok.mapIndexes (fun index index' hix h => ?_) h
  obtain ⟨mid, hmid, h⟩ := bind_eq_ok.mp h
  obtain ⟨hix', hcol'⟩ := BTreeIndex.remove_ok hix hpk hmid
  obtain ⟨hix'', hcol''⟩ := BTreeIndex.insert_ok hix' hremoved hrow (by simp) h
  exact ⟨by simpa using hix'', hcol''.trans hcol'⟩

theorem Ok.insertUnique (hpk : held pk = none) (h : t.insertUnique row pk = .ok t') :
    ∃ unique, t' = { t with unique } ∧ t'.Ok indexed (update held pk (some row)) := by
  have hunique := hok.toUniqueOk.insertUnique hpk h
  obtain ⟨unique, -, rfl⟩ := mapUnique_eq_ok h
  exact ⟨unique, rfl, hok.withUnique hunique⟩

theorem Ok.removeUnique (hpk : held pk = some row) (h : t.removeUnique row pk = .ok t') :
    ∃ unique, t' = { t with unique } ∧ t'.Ok indexed (update held pk none) := by
  have hunique := hok.toUniqueOk.removeUnique hpk h
  obtain ⟨unique, -, rfl⟩ := mapUnique_eq_ok h
  exact ⟨unique, rfl, hok.withUnique hunique⟩

theorem Ok.putRow (hrow : RowOk t.schema pk row) (h : t.putRow fits pk row = .ok (prev, t')) :
    prev = t.rowAt pk ∧ t'.rowAt = Function.update t.rowAt pk (some row) ∧
      ∃ rows rowCount, t' = { t with rows, rowCount } ∧ t'.Ok indexed held := by
  obtain ⟨hprev, hrowAt, rows, rowCount, rfl, hcount⟩ := putRow_eq_ok h
  refine ⟨hprev, hrowAt, rows, rowCount, rfl, ⟨hok.indexColumns, hok.uniqueColumns, hok.unique⟩, hcount hok.count,
    fun pk' row' hrow' => ?_, hok.index⟩
  rw [hrowAt] at hrow'
  by_cases hpk : pk' = pk
  · subst hpk
    obtain rfl : row = row' := by simpa using hrow'
    exact hrow
  · exact hok.rows pk' row' (by simpa [hpk] using hrow')

theorem Ok.takeRow (h : t.takeRow pk = (some row, t')) :
    t.rowAt pk = some row ∧ t'.rowAt = update t.rowAt pk none ∧
      ∃ rows rowCount, t' = { t with rows, rowCount } ∧ t'.Ok indexed held := by
  obtain ⟨hrow, hrowAt, rows, rowCount, rfl, hcount⟩ := takeRow_eq_some h
  refine ⟨hrow, hrowAt, rows, rowCount, rfl, ⟨hok.indexColumns, hok.uniqueColumns, hok.unique⟩, hcount hok.count,
    fun pk' row' hrow' => ?_, hok.index⟩
  rw [hrowAt] at hrow'
  by_cases hpk : pk' = pk
  · simp [hpk] at hrow'
  · exact hok.rows pk' row' (by simpa [hpk] using hrow')

theorem Ok.allTyped : AllTyped t.schema t.rowAt := fun pk row h => (hok.rows pk row h).1

end

end Steps

end TableState

end Fluxum
