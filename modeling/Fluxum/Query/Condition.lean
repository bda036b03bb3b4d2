/-
# Literals and conditions

The WHERE conditions of the SQL subset (`sql/parse.rs`, `sql/mod.rs`): parsed
literals, their coercion to the type of a column, and the compiled conditions
that rows are tested with.
-/
import Fluxum.Lib.Outcome
import Fluxum.Store.Schema

namespace Fluxum

open Bytes Outcome Option

/-- What the standard library provides and the model takes as it comes: conversions between number
types, Unicode classes, the decimal form of a float, and the hash behind query hashes. -/
structure Platform where
  f32OfI64 : BitVec 64 → BitVec 32
  f64OfI64 : BitVec 64 → BitVec 64
  f32OfF64 : BitVec 64 → BitVec 32
  showFloat : BitVec 64 → String
  isAlphanumeric : Char → Bool
  isWhitespace : Char → Bool
  toLowercase : String → String
  hash64 : Bytes → BitVec 64 → BitVec 64

/-- A parsed literal, before schema-driven coercion. -/
inductive Lit where
  | int (n : BitVec 64)
  | float (bits : BitVec 64)
  | str (s : String)
  | bool (b : Bool)
deriving DecidableEq, Repr

inductive CmpOp where
  | lt
  | le
  | gt
  | ge
deriving DecidableEq, Repr

/-- One WHERE condition. -/
inductive CondAst where
  | eq (column : String) (lit : Lit)
  | isIn (column : String) (lits : List Lit)
  | between (column : String) (low high : Lit)
  | cmp (column : String) (op : CmpOp) (lit : Lit)
  | isMatch (column raw : String)
deriving DecidableEq, Repr

def CondAst.column : CondAst → String
  | .eq column _ | .isIn column _ | .between column _ _ | .cmp column _ _ | .isMatch column _ => column

/-- A construct that the subset refuses. -/
inductive Unsupported where
  | queryBytes (len : Nat)
  | manyMatch
  | matchNoIndex (column table : String)
  | matchSyntax (detail : String)
  | matchWithSpatial
  | orderScoreNoMatch
  | selectScoreNoMatch
  | betweenType (column : String) (ty : FluxType)
  | cmpType (op : CmpOp) (column : String) (ty : FluxType)
  | nonFiniteRegion
  | nonFiniteRadius
  | negativeRadius
  | tiebreakCompositeKey
  | tiebreakNotKey (key : String)
  | tiebreakDirection
  | afterNoOrder
  | afterNotIndexed
  | afterCompositeKey

/-- Why a query is refused. -/
inductive QueryError where
  | unknownTable (table : String)
  | unknownColumn (column table : String)
  | typeMismatch (table column : String) (lit : Lit) (ty : FluxType)
  | noSpatialIndex (table : String)
  | unsupported (what : Unsupported)
  /-- MATCH handed to the compiler of ordinary conditions. -/
  | matchCondition (column : String)

/-! ### Columns and coercion -/

/-- `partial_cmp` of two floats given by their bits, with `mantissa` fraction bits: a NaN compares
with nothing, and the two zeros are equal. -/
def floatCmp {w : Nat} (mantissa : Nat) (a b : BitVec w) : Option Ordering :=
  let magnitude (x : BitVec w) : Nat := x.toNat % 2 ^ (w - 1)
  let nan (x : BitVec w) : Bool := decide (2 ^ (w - 1) - 2 ^ mantissa < magnitude x)
  let value (x : BitVec w) : Int := if x.msb then -magnitude x else magnitude x
  if nan a || nan b then none else some (compare (value a) (value b))

def Scalar.cmp : Scalar → Scalar → Option Ordering
  | .i8 x, .i8 y => some (compare x.toInt y.toInt)
  | .i16 x, .i16 y => some (compare x.toInt y.toInt)
  | .i32 x, .i32 y => some (compare x.toInt y.toInt)
  | .i64 x, .i64 y => some (compare x.toInt y.toInt)
  | .u8 x, .u8 y => some (compare x.toNat y.toNat)
  | .u16 x, .u16 y => some (compare x.toNat y.toNat)
  | .u32 x, .u32 y => some (compare x.toNat y.toNat)
  | .u64 x, .u64 y => some (compare x.toNat y.toNat)
  | .f32 x, .f32 y => floatCmp 23 x y
  | .f64 x, .f64 y => floatCmp 52 x y
  | .str x, .str y => some (compare (strBytes x) (strBytes y))
  | .entityId x, .entityId y => some (compare x.toNat y.toNat)
  | .timestamp x, .timestamp y => some (compare x.toInt y.toInt)
  | _, _ => none

/-- The order between two values of one variant; `none` across variants and for NaN. -/
def cmpValues : RowValue → RowValue → Option Ordering
  | .scalar a, .scalar b => a.cmp b
  | _, _ => none

/-- `-1.0 < 0.0`, `-0.0 == 0.0`, and a NaN is incomparable. -/
example : floatCmp 52 0xBFF0000000000000#64 0#64 = some .lt ∧
    floatCmp 52 0x8000000000000000#64 0#64 = some .eq ∧
    floatCmp 52 0x7FF8000000000000#64 0#64 = none := by decide

/-- One compiled condition, its literals coerced to the column's type. -/
inductive CompiledCond where
  | eq (ordinal : Nat) (value : RowValue)
  | isIn (ordinal : Nat) (values : List RowValue)
  | between (ordinal : Nat) (low high : RowValue)
  | cmp (ordinal : Nat) (op : CmpOp) (value : RowValue)
deriving DecidableEq, Repr

/-- Whether a comparison outcome satisfies the operator. -/
def CmpOp.accepts : CmpOp → Ordering → Bool
  | .lt, ord => ord == .lt
  | .le, ord => ord != .gt
  | .gt, ord => ord == .gt
  | .ge, ord => ord != .lt

namespace CompiledCond

def ordinal : CompiledCond → Nat
  | .eq o _ | .isIn o _ | .between o _ _ | .cmp o _ _ => o

/-- The test of one column value (`matches`). -/
def holdsAt : CompiledCond → RowValue → Bool
  | .eq _ value, v => v.same value
  | .isIn _ values, v => values.any (v.same ·)
  | .between _ low high, v => (cmpValues v low).any CmpOp.ge.accepts && (cmpValues v high).any CmpOp.le.accepts
  | .cmp _ op bound, v => (cmpValues v bound).any op.accepts

def holds (c : CompiledCond) (row : Row) : Bool := row[c.ordinal]?.any c.holdsAt

end CompiledCond

/-- No order over options, lists and booleans. -/
def FluxType.unordered : FluxType → Bool
  | .option _ | .list _ | .scalar .bool => true
  | _ => false

variable {p : Platform} {table : TableSchema} {column : String} {t : ScalarType} {v : Scalar} {lit : Lit}

/-- The scalar type under the options of a column type. -/
def FluxType.scalarOf : FluxType → Option ScalarType
  | .scalar t => some t
  | .option t => t.scalarOf
  | _ => none

/-- The scalar types that have literals. -/
def ScalarType.hasLiterals : ScalarType → Bool
  | .bytes | .identity | .connectionId | .decimal | .blob => false
  | _ => true

/-- A column that literals inhabit: a scalar type with literals, possibly under options. -/
def FluxType.hasLiterals (ty : FluxType) : Bool := ty.scalarOf.any (·.hasLiterals)

/-- A column that holds floats, possibly under options. -/
def FluxType.isFloat (ty : FluxType) : Bool := ty.scalarOf = some .f32 || ty.scalarOf = some .f64

/-- The values of a compiled condition inhabit its column, and a condition that compares is on a
column with an order. -/
def CompiledCond.Ok (table : TableSchema) (c : CompiledCond) : Prop :=
  ∃ col, table.columns[c.ordinal]? = some col ∧
    match c with
    | .eq _ v => v.matchesType col.ty = true ∧ col.ty.hasLiterals = true
    | .isIn _ vs => ∀ v ∈ vs, v.matchesType col.ty = true ∧ col.ty.hasLiterals = true
    | .between _ low high => (low.matchesType col.ty = true ∧ high.matchesType col.ty = true) ∧
        col.ty.hasLiterals = true ∧ col.ty.unordered = false
    | .cmp _ _ v => v.matchesType col.ty = true ∧ col.ty.hasLiterals = true ∧ col.ty.unordered = false

end Fluxum
