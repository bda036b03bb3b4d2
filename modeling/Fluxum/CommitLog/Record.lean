/-
# Log records

`TxRecord`, the body of one commit-log entry, and `LogValue`, the form its
row values take there (`commitlog/record.rs`). Identities, connection ids,
decimals and blob hashes are stored as byte buffers, so reading a logged
value back checks their lengths.
-/
import Fluxum.Store.Value

namespace Fluxum

open Bytes

/-- A logged value without nested values. -/
inductive LogScalar where
  | bool (v : Bool)
  | i8 (v : BitVec 8)
  | i16 (v : BitVec 16)
  | i32 (v : BitVec 32)
  | i64 (v : BitVec 64)
  | u8 (v : BitVec 8)
  | u16 (v : BitVec 16)
  | u32 (v : BitVec 32)
  | u64 (v : BitVec 64)
  | f32 (bits : BitVec 32)
  | f64 (bits : BitVec 64)
  | str (v : String)
  | bytes (v : Bytes)
  | identity (v : Bytes)
  | connectionId (v : Bytes)
  | entityId (v : BitVec 64)
  | timestamp (micros : BitVec 64)
  | decimal (unscaled : Bytes) (scale : UInt8)
  | blob (hash : Bytes)
deriving DecidableEq, Repr

inductive LogValue where
  | scalar (v : LogScalar)
  | optNone
  | optSome (v : LogValue)
  | list (items : List LogValue)
  | enum (tag : BitVec 32) (payload : List LogValue)
  | struct (fields : List LogValue)
deriving Repr

structure TableMutation where
  tableId : Nat
  inserts : List (List LogValue)
  /-- Encoded primary keys. -/
  deletes : List Bytes
deriving Repr

structure TxRecord where
  txId : Nat
  timestamp : Int
  shardId : Nat
  mutations : List TableMutation
  /-- New high-water marks of the auto-increment counters, by table. -/
  autoInc : List (Nat × Nat)
  caller : Bytes
  reducerName : String
deriving Repr

/-- The log's complaint about a byte buffer of the wrong length. -/
structure BadLen where
  what : String
  want : Nat
  got : Nat
deriving DecidableEq, Repr

/-- A byte buffer that must be an array of `n` bytes. -/
def fixedBytes (what : String) (n : Nat) (v : Bytes) : Except BadLen (Vector UInt8 n) :=
  if h : v.length = n then .ok ⟨v.toArray, by simpa using h⟩ else .error ⟨what, n, v.length⟩

def le128 (v : BitVec 128) : Bytes := leBytes 16 v.toNat

/-- A byte buffer that must be a 128-bit integer. -/
def fixed128 (what : String) (v : Bytes) : Except BadLen (BitVec 128) :=
  if v.length = 16 then .ok (BitVec.ofNat 128 (ofLE v)) else .error ⟨what, 16, v.length⟩

def LogScalar.ofScalar : Scalar → LogScalar
  | .bool v => .bool v
  | .i8 v => .i8 v
  | .i16 v => .i16 v
  | .i32 v => .i32 v
  | .i64 v => .i64 v
  | .u8 v => .u8 v
  | .u16 v => .u16 v
  | .u32 v => .u32 v
  | .u64 v => .u64 v
  | .f32 v => .f32 v
  | .f64 v => .f64 v
  | .str v => .str v
  | .bytes v => .bytes v
  | .identity v => .identity v.toList
  | .connectionId v => .connectionId (le128 v)
  | .entityId v => .entityId v
  | .timestamp v => .timestamp v
  | .decimal unscaled scale => .decimal (le128 unscaled) scale
  | .blob v => .blob v.toList

def LogScalar.toScalar : LogScalar → Except BadLen Scalar
  | .bool v => .ok (.bool v)
  | .i8 v => .ok (.i8 v)
  | .i16 v => .ok (.i16 v)
  | .i32 v => .ok (.i32 v)
  | .i64 v => .ok (.i64 v)
  | .u8 v => .ok (.u8 v)
  | .u16 v => .ok (.u16 v)
  | .u32 v => .ok (.u32 v)
  | .u64 v => .ok (.u64 v)
  | .f32 v => .ok (.f32 v)
  | .f64 v => .ok (.f64 v)
  | .str v => .ok (.str v)
  | .bytes v => .ok (.bytes v)
  | .identity v => (fixedBytes "Identity" 32 v).map .identity
  | .connectionId v => (fixed128 "ConnectionId" v).map .connectionId
  | .entityId v => .ok (.entityId v)
  | .timestamp v => .ok (.timestamp v)
  | .decimal unscaled scale => (fixed128 "Decimal" unscaled).map (.decimal · scale)
  | .blob v => (fixedBytes "Blob" 32 v).map .blob

namespace LogValue

mutual
def ofRowValue : RowValue → LogValue
  | .scalar v => .scalar (.ofScalar v)
  | .optNone => .optNone
  | .optSome v => .optSome (ofRowValue v)
  | .list items => .list (rowToLog items)
  | .enum tag payload => .enum tag (rowToLog payload)
  | .struct fields => .struct (rowToLog fields)

def rowToLog : List RowValue → List LogValue
  | [] => []
  | v :: vs => ofRowValue v :: rowToLog vs
end

mutual
def toRowValue : LogValue → Except BadLen RowValue
  | .scalar v => v.toScalar.map .scalar
  | .optNone => .ok .optNone
  | .optSome v => (toRowValue v).map .optSome
  | .list items => (toRow items).map .list
  | .enum tag payload => (toRow payload).map (.enum tag)
  | .struct fields => (toRow fields).map .struct

/-- The values of a logged row, or the first value that does not read back. -/
def toRow : List LogValue → Except BadLen (List RowValue)
  | [] => .ok []
  | v :: vs => (toRowValue v).bind fun v' => (toRow vs).map (v' :: ·)
end

end LogValue

open LogValue

theorem fixedBytes_toList (what : String) {n : Nat} (v : Vector UInt8 n) :
    fixedBytes what n v.toList = .ok v := by
  unfold fixedBytes
  rw [dif_pos (by simp)]
  simp [Vector.toList]

theorem fixed128_le128 (what : String) (v : BitVec 128) : fixed128 what (le128 v) = .ok v := by
  have hv : v.toNat < 256 ^ 16 := lt_of_lt_of_le v.isLt (by decide)
  unfold fixed128 le128
  rw [if_pos (length_leBytes 16 _), ofLE_leBytes hv]
  simp

theorem toScalar_ofScalar (v : Scalar) : (LogScalar.ofScalar v).toScalar = .ok v := by
  cases v <;> simp [LogScalar.ofScalar, LogScalar.toScalar, fixedBytes_toList, fixed128_le128, Except.map]

mutual
theorem toRowValue_ofRowValue : ∀ v : RowValue, toRowValue (ofRowValue v) = .ok v
  | .scalar v => by simp [ofRowValue, toRowValue, toScalar_ofScalar, Except.map]
  | .optNone => rfl
  | .optSome v => by simp [ofRowValue, toRowValue, toRowValue_ofRowValue v, Except.map]
  | .list items => by simp [ofRowValue, toRowValue, toRow_rowToLog items, Except.map]
  | .enum tag payload => by simp [ofRowValue, toRowValue, toRow_rowToLog payload, Except.map]
  | .struct fields => by simp [ofRowValue, toRowValue, toRow_rowToLog fields, Except.map]

/-- **A logged row reads back as itself.** -/
theorem toRow_rowToLog : ∀ vs : List RowValue, toRow (rowToLog vs) = .ok vs
  | [] => rfl
  | v :: vs => by
    simp [rowToLog, toRow, toRowValue_ofRowValue v, toRow_rowToLog vs, Except.map, Except.bind]
end

def TableMutation.insertRows (m : TableMutation) : Except BadLen (List Row) :=
  m.inserts.mapM toRow

end Fluxum
