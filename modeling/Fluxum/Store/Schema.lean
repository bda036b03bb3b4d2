/-
# Table schemas and primary keys

Column types and table schemas as the registry validates them
(`schema/mod.rs`, `schema/registry.rs`), the type check of a row, and the
FluxBIN encoding of primary keys (`store/row.rs`).
-/
import Fluxum.Store.Value

namespace Fluxum

open Bytes

/-- The type of a column value without nested values. -/
inductive ScalarType where
  | bool
  | i8
  | i16
  | i32
  | i64
  | u8
  | u16
  | u32
  | u64
  | f32
  | f64
  | str
  | bytes
  | identity
  | connectionId
  | entityId
  | timestamp
  | decimal
  | blob
deriving DecidableEq, Repr

def Scalar.type : Scalar → ScalarType
  | .bool _ => .bool
  | .i8 _ => .i8
  | .i16 _ => .i16
  | .i32 _ => .i32
  | .i64 _ => .i64
  | .u8 _ => .u8
  | .u16 _ => .u16
  | .u32 _ => .u32
  | .u64 _ => .u64
  | .f32 _ => .f32
  | .f64 _ => .f64
  | .str _ => .str
  | .bytes _ => .bytes
  | .identity _ => .identity
  | .connectionId _ => .connectionId
  | .entityId _ => .entityId
  | .timestamp _ => .timestamp
  | .decimal _ _ => .decimal
  | .blob _ => .blob

/-- The closed universe of column types. -/
inductive FluxType where
  | scalar (t : ScalarType)
  | crdtText
  | option (t : FluxType)
  | list (t : FluxType)
  /-- A tagged union: the tag is the position of the variant. -/
  | enum (name : String) (variants : List (String × List FluxType))
  | struct (name : String) (fields : List (String × FluxType))

structure ColumnSchema where
  name : String
  ty : FluxType

inductive TableAccess where
  | priv
  | pub
  /-- Replicated to every shard, written on one. -/
  | global
  /-- Memory only: never logged, checkpointed or replicated. -/
  | ephemeral
deriving DecidableEq, Repr

/-- A table as the registry lets it through. Columns are named by their ordinals. -/
structure TableSchema where
  name : String
  columns : List ColumnSchema
  primaryKey : List Nat
  autoInc : Option Nat
  access : TableAccess
  /-- The `#[unique]` constraints. -/
  unique : List (List Nat)
  /-- The `#[index(btree)]` indexes. -/
  indexes : List (List Nat)
  primaryKey_ne_nil : primaryKey ≠ []
  primaryKey_lt : ∀ o ∈ primaryKey, o < columns.length
  autoInc_primaryKey : ∀ o ∈ autoInc, primaryKey = [o] ∧ ∀ c ∈ columns[o]?, c.ty = .scalar .u64
  unique_lt : ∀ cols ∈ unique, cols ≠ [] ∧ ∀ o ∈ cols, o < columns.length
  indexes_lt : ∀ cols ∈ indexes, cols ≠ [] ∧ ∀ o ∈ cols, o < columns.length

theorem single_key_ne_nil : [0] ≠ ([] : List Nat) := List.cons_ne_nil 0 []

def TableSchema.isEphemeral (schema : TableSchema) : Bool := schema.access = .ephemeral

inductive RowError where
  | arity (table : String) (got want : Nat)
  | columnType (table column : String) (want : FluxType) (got : RowValue)
  | pkOrdinal (table : String) (ordinal : Nat)
  | pkArity (table : String) (got want : Nat)
  | pkType (table column : String) (want : FluxType) (got : RowValue)
  | lengthOverflow (len : Nat)
  | listCount (len : Nat)
  | enumTag (tag : Nat)

/-! ### Type check -/

mutual
/-- Whether a value inhabits a column type. -/
def RowValue.matchesType : RowValue → FluxType → Bool
  | .scalar v, .scalar t => v.type = t
  | .scalar (.bytes _), .crdtText => true
  | .optNone, .option _ => true
  | .optSome v, .option t => v.matchesType t
  | .list items, .list t => RowValue.allMatch items t
  | .enum tag payload, .enum _ variants =>
    match variants[tag.toNat]? with
    | some variant => RowValue.matchTypes payload variant.2
    | none => false
  | .struct fields, .struct _ schema => RowValue.matchTypes fields (schema.map Prod.snd)
  | _, _ => false

def RowValue.allMatch : List RowValue → FluxType → Bool
  | [], _ => true
  | v :: vs, t => v.matchesType t && RowValue.allMatch vs t

/-- As many values as types, each of its type. -/
def RowValue.matchTypes : List RowValue → List FluxType → Bool
  | [], [] => true
  | v :: vs, t :: ts => v.matchesType t && RowValue.matchTypes vs ts
  | _, _ => false
end

/-- The column checks of `check_row`. -/
def checkColumns (table : String) : List RowValue → List ColumnSchema → Except RowError Unit
  | v :: vs, c :: cs =>
    if v.matchesType c.ty then checkColumns table vs cs else .error (.columnType table c.name c.ty v)
  | _, _ => .ok ()

def checkRow (schema : TableSchema) (values : List RowValue) : Except RowError Unit :=
  if values.length ≠ schema.columns.length then .error (.arity schema.name values.length schema.columns.length)
  else checkColumns schema.name values schema.columns

/-- A row that has as many values as the schema has columns, each of its column's type. -/
def Typed (schema : TableSchema) (values : List RowValue) : Prop :=
  values.length = schema.columns.length ∧
    ∀ (o : Nat) (v : RowValue) (c : ColumnSchema), values[o]? = some v → schema.columns[o]? = some c →
      v.matchesType c.ty = true

theorem checkColumns_ok {table : String} : ∀ {vs : List RowValue} {cs : List ColumnSchema},
    checkColumns table vs cs = .ok () →
      ∀ (o : Nat) (v : RowValue) (c : ColumnSchema), vs[o]? = some v → cs[o]? = some c → v.matchesType c.ty = true
  | [], _, _, _, _, _, hv, _ => by simp at hv
  | _ :: _, [], _, _, _, _, _, hc => by simp at hc
  | v :: vs, c :: cs, h, o, v', c', hv, hc => by
    rw [checkColumns] at h
    split at h
    · rename_i hmatch
      cases o with
      | zero =>
        rw [List.getElem?_cons_zero] at hv hc
        rw [← Option.some.inj hv, ← Option.some.inj hc]
        exact hmatch
      | succ o =>
        rw [List.getElem?_cons_succ] at hv hc
        exact checkColumns_ok h o v' c' hv hc
    · simp at h

theorem typed_of_checkRow {schema : TableSchema} {values : List RowValue} (h : checkRow schema values = .ok ()) :
    Typed schema values := by
  unfold checkRow at h
  split at h
  · simp at h
  · rename_i hlen
    exact ⟨not_not.mp hlen, checkColumns_ok h⟩

/-! ### FluxBIN -/

def lenPrefixed (bytes : Bytes) : Except RowError Bytes :=
  if bytes.length < 2 ^ 32 then .ok (leBytes 4 bytes.length ++ bytes) else .error (.lengthOverflow bytes.length)

def strBytes (s : String) : Bytes := s.toUTF8.data.toList

def Scalar.encode : Scalar → Except RowError Bytes
  | .bool v => .ok [if v then 1 else 0]
  | .i8 v => .ok (leBytes 1 v.toNat)
  | .i16 v => .ok (leBytes 2 v.toNat)
  | .i32 v => .ok (leBytes 4 v.toNat)
  | .i64 v => .ok (leBytes 8 v.toNat)
  | .u8 v => .ok (leBytes 1 v.toNat)
  | .u16 v => .ok (leBytes 2 v.toNat)
  | .u32 v => .ok (leBytes 4 v.toNat)
  | .u64 v => .ok (leBytes 8 v.toNat)
  | .f32 v => .ok (leBytes 4 v.toNat)
  | .f64 v => .ok (leBytes 8 v.toNat)
  | .str v => lenPrefixed (strBytes v)
  | .bytes v => lenPrefixed v
  | .identity v => .ok v.toList
  | .connectionId v => .ok (leBytes 16 v.toNat)
  | .entityId v => .ok (leBytes 8 v.toNat)
  | .timestamp v => .ok (leBytes 8 v.toNat)
  | .decimal unscaled scale => .ok (leBytes 16 unscaled.toNat ++ [scale])
  | .blob v => .ok v.toList

mutual
def RowValue.encode : RowValue → Except RowError Bytes
  | .scalar v => v.encode
  | .optNone => .ok [0]
  | .optSome v => return 1 :: (← v.encode)
  | .list items =>
    if items.length < 2 ^ 32 then return leBytes 4 items.length ++ (← RowValue.encodeAll items)
    else .error (.listCount items.length)
  | .enum tag payload =>
    if tag.toNat < 256 then return UInt8.ofNat tag.toNat :: (← RowValue.encodeAll payload)
    else .error (.enumTag tag.toNat)
  | .struct fields => RowValue.encodeAll fields

def RowValue.encodeAll : List RowValue → Except RowError Bytes
  | [] => .ok []
  | v :: vs => return (← v.encode) ++ (← RowValue.encodeAll vs)
end

/-- The loop of `encode_pk_of_row`. -/
def encodePkColumns (table : String) (values : List RowValue) : List Nat → Except RowError Bytes
  | [] => .ok []
  | o :: os =>
    match values[o]? with
    | none => .error (.pkOrdinal table o)
    | some v => return (← v.encode) ++ (← encodePkColumns table values os)

def encodePkOfRow (schema : TableSchema) (values : List RowValue) : Except RowError Bytes :=
  encodePkColumns schema.name values schema.primaryKey

/-- The loop of `encode_pk_values`. -/
def encodeKeyValues (schema : TableSchema) : List Nat → List RowValue → Except RowError Bytes
  | o :: os, v :: vs =>
    match schema.columns[o]? with
    | none => .error (.pkOrdinal schema.name o)
    | some c =>
      if v.matchesType c.ty then return (← v.encode) ++ (← encodeKeyValues schema os vs)
      else .error (.pkType schema.name c.name c.ty v)
  | _, _ => .ok []

/-- The encoded primary key given by the key column values alone. -/
def encodePkValues (schema : TableSchema) (pkValues : List RowValue) : Except RowError Bytes :=
  if pkValues.length ≠ schema.primaryKey.length then
    .error (.pkArity schema.name pkValues.length schema.primaryKey.length)
  else encodeKeyValues schema schema.primaryKey pkValues

end Fluxum
