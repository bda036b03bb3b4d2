/-
# Column values

The closed universe of column values of `store/row.rs`. The variants that
hold no further values are grouped in `Scalar`; `RowValue` adds `Option`,
`Vec`, and the derived enums and structs. Integers are two's complement bit
vectors and floats are IEEE bit patterns.
-/
import Fluxum.Lib.Bytes

namespace Fluxum

/-- A column value without nested values. -/
inductive Scalar where
  | bool (v : Bool)
  | i8 (v : BitVec 8)
  | i16 (v : BitVec 16)
  | i32 (v : BitVec 32)
  | i64 (v : BitVec 64)
  | u8 (v : BitVec 8)
  | u16 (v : BitVec 16)
  | u32 (v : BitVec 32)
  | u64 (v : BitVec 64)
  | f32 (bits : BitVec 32)
  | f64 (bits : BitVec 64)
  | str (v : String)
  | bytes (v : Bytes)
  | identity (v : Vector UInt8 32)
  | connectionId (v : BitVec 128)
  | entityId (v : BitVec 64)
  | timestamp (micros : BitVec 64)
  | decimal (unscaled : BitVec 128) (scale : UInt8)
  | blob (hash : Vector UInt8 32)
deriving DecidableEq, Repr

inductive RowValue where
  | scalar (v : Scalar)
  /-- `Optional(None)`. -/
  | optNone
  /-- `Optional(Some(v))`. -/
  | optSome (v : RowValue)
  | list (items : List RowValue)
  | enum (tag : BitVec 32) (payload : List RowValue)
  | struct (fields : List RowValue)
deriving Repr

abbrev Row := List RowValue

namespace RowValue

mutual
def decEq : (a b : RowValue) → Decidable (a = b)
  | .scalar a, .scalar b => decidable_of_iff (a = b) (by simp)
  | .scalar _, .optNone | .scalar _, .optSome _ | .scalar _, .list _ | .scalar _, .enum _ _ | .scalar _, .struct _ =>
    .isFalse (by simp)
  | .optNone, .optNone => .isTrue rfl
  | .optNone, .scalar _ | .optNone, .optSome _ | .optNone, .list _ | .optNone, .enum _ _ | .optNone, .struct _ =>
    .isFalse (by simp)
  | .optSome a, .optSome b => @decidable_of_iff _ (a = b) (by simp) (decEq a b)
  | .optSome _, .scalar _ | .optSome _, .optNone | .optSome _, .list _ | .optSome _, .enum _ _
  | .optSome _, .struct _ => .isFalse (by simp)
  | .list as, .list bs => @decidable_of_iff _ (as = bs) (by simp) (decEqList as bs)
  | .list _, .scalar _ | .list _, .optNone | .list _, .optSome _ | .list _, .enum _ _ | .list _, .struct _ =>
    .isFalse (by simp)
  | .enum s as, .enum t bs =>
    @decidable_of_iff _ (s = t ∧ as = bs) (by simp)
      (@instDecidableAnd _ _ (inferInstance : Decidable (s = t)) (decEqList as bs))
  | .enum _ _, .scalar _ | .enum _ _, .optNone | .enum _ _, .optSome _ | .enum _ _, .list _ | .enum _ _, .struct _ =>
    .isFalse (by simp)
  | .struct as, .struct bs => @decidable_of_iff _ (as = bs) (by simp) (decEqList as bs)
  | .struct _, .scalar _ | .struct _, .optNone | .struct _, .optSome _ | .struct _, .list _ | .struct _, .enum _ _ =>
    .isFalse (by simp)

def decEqList : (as bs : List RowValue) → Decidable (as = bs)
  | [], [] => .isTrue rfl
  | [], _ :: _ | _ :: _, [] => .isFalse (by simp)
  | a :: as, b :: bs =>
    @decidable_of_iff _ (a = b ∧ as = bs) (by simp) (@instDecidableAnd _ _ (decEq a b) (decEqList as bs))
end

instance : DecidableEq RowValue := decEq

end RowValue

/-! ### IEEE equality -/

/-- Equality of two floats given by their bits, with `mantissa` fraction bits: a NaN (maximal
exponent, non-zero fraction) equals nothing, and the two zeros are equal. -/
def floatEq {w : Nat} (mantissa : Nat) (a b : BitVec w) : Bool :=
  let magnitude (x : BitVec w) : Nat := x.toNat % 2 ^ (w - 1)
  let infinity : Nat := 2 ^ (w - 1) - 2 ^ mantissa
  let nan (x : BitVec w) : Bool := decide (infinity < magnitude x)
  !nan a && !nan b && (a == b || (magnitude a == 0 && magnitude b == 0))

def Scalar.same : Scalar → Scalar → Bool
  | .f32 a, .f32 b => floatEq 23 a b
  | .f64 a, .f64 b => floatEq 52 a b
  | a, b => decide (a = b)

mutual
/-- The derived `PartialEq` of values. -/
def RowValue.same : RowValue → RowValue → Bool
  | .scalar a, .scalar b => a.same b
  | .optNone, .optNone => true
  | .optSome a, .optSome b => a.same b
  | .list as, .list bs => Row.same as bs
  | .enum s as, .enum t bs => s == t && Row.same as bs
  | .struct as, .struct bs => Row.same as bs
  | _, _ => false

/-- The derived `PartialEq` of rows and value lists. -/
def Row.same : List RowValue → List RowValue → Bool
  | [], [] => true
  | a :: as, b :: bs => a.same b && Row.same as bs
  | _, _ => false
end

/-- `1.0 == 1.0`, `0.0 == -0.0`, and a NaN is not equal to itself. -/
example : floatEq 52 0x3FF0000000000000#64 0x3FF0000000000000#64 = true ∧
    floatEq 52 0#64 0x8000000000000000#64 = true ∧
    floatEq 52 0x7FF8000000000000#64 0x7FF8000000000000#64 = false := by decide

end Fluxum
