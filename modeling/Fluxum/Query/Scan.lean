/-
# Bounded index scans

How a scan shape, equality on a probe and a range on the next column, becomes
one byte range of an index (`index/btree.rs`), and the scan itself
(`store/committed.rs`).
-/
import Fluxum.Query.KeyOrder
import Fluxum.Store.Table

namespace Fluxum

open Std Bytes List ExtTreeMap

inductive ReadError where
  | query (error : QueryError)
  | row (error : RowError)
  | unknownIndex (columns : List Nat)
  | probeArity (got want : Nat)
  | rangeBeyondKey (columns : List Nat)
  | indexOrdinal (ordinal : Nat)
  | indexType (column : String) (want : FluxType) (got : RowValue)
  | unknownTable (table : Nat)
  | notPublic (table : String)
  | limitExceeded (which : String)
  /-- A stored value that the transform engine cannot read. -/
  | transform

/-! ### Byte ranges -/

/-- The least byte string greater than every string that starts with `bytes`, if there is one. -/
def prefixSuccessor (bytes : Bytes) : Option Bytes :=
  match bytes.reverse.dropWhile (· = 0xFF) with
  | [] => none
  | b :: rest => some ((b + 1) :: rest).reverse

/-- Equality on `pre`, then bounds over the next column, as a byte range `[start, stop)`. Inverted
bounds give the empty range. -/
def planScan (pre : Bytes) (lower upper : Bound Bytes) : Bytes × Option Bytes :=
  let start := match lower with
    | .unbounded => some pre
    | .included v => some (pre ++ v)
    | .excluded v => prefixSuccessor (pre ++ v)
  let stop := match upper with
    | .unbounded => prefixSuccessor pre
    | .included v => prefixSuccessor (pre ++ v)
    | .excluded v => some (pre ++ v)
  match start with
  | none => ([], some [])
  | some s => if stop.any fun e => (compare e s).isLE then ([], some []) else (s, stop)

/-- Whether a key lies in a byte range. -/
def inRange (range : Bytes × Option Bytes) (key : Bytes) : Bool :=
  (compare range.1 key).isLE && range.2.all fun stop => compare key stop == .lt

def BTreeIndex.scanPks (index : BTreeIndex) (range : Bytes × Option Bytes) : List Bytes :=
  (index.tree.toList.filter fun e => inRange range e.1).map (·.2)

/-! ### The scan of a table -/

/-- Type-check a value against an index column, and encode it. -/
def checkIndexValue (schema : TableSchema) (ordinal : Nat) (v : RowValue) : Except ReadError Bytes :=
  match schema.columns[ordinal]? with
  | none => .error (.indexOrdinal ordinal)
  | some c => if v.matchesType c.ty then .ok (encodeValue v) else .error (.indexType c.name c.ty v)

/-- The encoded probe. -/
def encodeProbe (schema : TableSchema) : List Nat → List RowValue → Except ReadError Bytes
  | o :: os, v :: vs => return (← checkIndexValue schema o v) ++ (← encodeProbe schema os vs)
  | _, _ => .ok []

def encodeBound (schema : TableSchema) (ordinal : Option Nat) : Bound RowValue → Except ReadError (Bound Bytes)
  | .unbounded => .ok .unbounded
  | .included v =>
    match ordinal with
    | some o => return .included (← checkIndexValue schema o v)
    | none => .error (.rangeBeyondKey [])
  | .excluded v =>
    match ordinal with
    | some o => return .excluded (← checkIndexValue schema o v)
    | none => .error (.rangeBeyondKey [])

namespace TableState

/-- Scan the index over `columns`: equality on the probe, then bounds over the next column. -/
def indexScan (t : TableState) (columns : List Nat) (probe : List RowValue) (lower upper : Bound RowValue) :
    Except ReadError (List Row) :=
  match t.indexes.find? (·.columns = columns) with
  | none => .error (.unknownIndex columns)
  | some index =>
    if columns.length < probe.length then .error (.probeArity probe.length columns.length)
    else do
      let pre ← encodeProbe t.schema columns probe
      if (lower ≠ .unbounded ∨ upper ≠ .unbounded) ∧ probe.length = columns.length then
        .error (.rangeBeyondKey columns)
      else
        let lo ← encodeBound t.schema columns[probe.length]? lower
        let hi ← encodeBound t.schema columns[probe.length]? upper
        return (index.scanPks (planScan pre lo hi)).filterMap t.rowAt

/-- All rows, in the order of the index over `columns`. -/
def walk (t : TableState) (columns : List Nat) : List Row :=
  match t.indexes.find? (·.columns = columns) with
  | none => []
  | some index => (index.tree.toList.map (·.2)).filterMap t.rowAt

/-- All rows, in the order of their primary keys. -/
def scan (t : TableState) : List Row := t.rows.toList.map (·.2)

end TableState

/-! ### Which keys a range holds -/

/-- A value is not below the bound, in key order. -/
def Bound.admitsFrom (v : RowValue) : Bound RowValue → Bool
  | .unbounded => true
  | .included x => (compare (encodeValue x) (encodeValue v)).isLE
  | .excluded x => compare (encodeValue x) (encodeValue v) == .lt

/-- A value is not above the bound, in key order. -/
def Bound.admitsTo (v : RowValue) : Bound RowValue → Bool
  | .unbounded => true
  | .included x => (compare (encodeValue v) (encodeValue x)).isLE
  | .excluded x => compare (encodeValue v) (encodeValue x) == .lt

/-- A bound that the column can have. -/
def Bound.Fits (schema : TableSchema) (ordinal : Option Nat) (b : Bound RowValue) : Prop :=
  ∀ v, b.value? = some v → ∃ o c, ordinal = some o ∧ schema.columns[o]? = some c ∧ v.matchesType c.ty = true

variable {schema : TableSchema} {row : Row}

/-- The bound as the scan encodes it. -/
def Bound.encoded : Bound RowValue → Bound Bytes
  | .unbounded => .unbounded
  | .included v => .included (encodeValue v)
  | .excluded v => .excluded (encodeValue v)

section Values

variable {schema : TableSchema} {o : Nat} {c : ColumnSchema} {x : RowValue} {b : Bound RowValue}

theorem Bound.Fits.matchesType (hb : b.Fits schema (some o)) (hc : schema.columns[o]? = some c) {v : RowValue}
    (hv : b.value? = some v) : v.matchesType c.ty = true := by
  obtain ⟨o', c', ho, hc', hm⟩ := hb v hv
  cases ho
  cases hc.symm.trans hc'
  exact hm

end Values

namespace TableState

variable {t : TableState} {columns : List Nat}

theorem Consistent.entry {index : BTreeIndex} {e : Bytes × Bytes} (ht : t.Consistent) (hindex : index ∈ t.indexes)
    (he : e ∈ index.tree.toList) : ∃ row key, t.rowAt e.2 = some row ∧ keyOf index.columns row = .ok key ∧ e.1 = key ++ e.2 := by
  have hget : index.tree[e.1]? = some e.2 := mem_toList_iff_getElem?_eq_some.mp he
  obtain ⟨row, hrow, hkey⟩ := (ht.index index hindex e.1 e.2).mp hget
  obtain ⟨key, hkey, heq⟩ := BTreeIndex.entryKey_eq_ok.mp (toOption_eq_some.mp hkey)
  exact ⟨row, key, hrow, hkey, heq⟩

section Walk

variable (ht : t.Consistent) (hcols : columns ∈ t.schema.indexes)

include ht hcols

end Walk

end TableState

end Fluxum
