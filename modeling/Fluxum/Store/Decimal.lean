/-
# Comparing decimals by value

`Decimal::value_cmp` of `types.rs`: two fixed-point decimals are aligned to
the larger of their scales in checked `i128` arithmetic, and where the
alignment of one of them overflows, its sign decides. The source takes an
overflowing coefficient to be nonzero; but the power of ten alone overflows
from `10^39` on, whatever the coefficient is.

* `valueCmp_numeric`: the comparison is that of the values, such zeros apart.
* `valueCmp_not_transitive`: a zero compares equal to every decimal that is 39
  scales or more finer than it.
-/
import Mathlib.Algebra.Order.Field.Basic
import Mathlib.Algebra.Order.Field.Rat
import Mathlib.Tactic.FieldSimp
import Mathlib.Tactic.NormNum
import Mathlib.Tactic.Positivity
import Fluxum.Store.Value

namespace Fluxum

open Option

/-- The decimal `unscaled × 10^-scale`. -/
structure Decimal where
  unscaled : BitVec 128
  scale : UInt8
deriving DecidableEq, Repr

namespace Decimal

/-! ### The comparison -/

/-- The result of a checked `i128` operation: `none` on overflow. -/
def checkedI128 (n : Int) : Option (BitVec 128) :=
  if -2 ^ 127 ≤ n ∧ n < 2 ^ 127 then some (BitVec.ofInt 128 n) else none

/-- The ordering from the sign of `v`. -/
def signOrdering (v : BitVec 128) : Ordering := compare v.toInt 0

def pow10I128 (n : Nat) : Option (BitVec 128) := checkedI128 (10 ^ n)

/-- The coefficient of `v` at the scale `maxScale`. -/
def lift (maxScale : UInt8) (v : Decimal) : Option (BitVec 128) := do
  let p ← pow10I128 (maxScale - v.scale).toNat
  checkedI128 (v.unscaled.toInt * p.toInt)

/-- The ordering from the two lifts: that of the lifted coefficients, or the sign of a side that overflowed. -/
def cmpLifted (self other : Decimal) : Option (BitVec 128) → Option (BitVec 128) → Ordering
  | some a, some b => compare a.toInt b.toInt
  | none, some _ => signOrdering self.unscaled
  | some _, none => (signOrdering other.unscaled).swap
  | none, none => compare self.unscaled.toInt other.unscaled.toInt

def valueCmp (self other : Decimal) : Ordering :=
  if self.scale = other.scale then compare self.unscaled.toInt other.unscaled.toInt
  else
    let maxScale := max self.scale other.scale
    cmpLifted self other (lift maxScale self) (lift maxScale other)

/-! ### The value -/

def value (d : Decimal) : ℚ := d.unscaled.toInt / 10 ^ d.scale.toNat

/-- `a` is zero, `b` is not, and the power of ten between their scales is past the range of `i128`. -/
def BlindTo (a b : Decimal) : Prop :=
  a.unscaled = 0 ∧ b.unscaled ≠ 0 ∧ a.scale.toNat + 39 ≤ b.scale.toNat

instance (a b : Decimal) : Decidable (BlindTo a b) := inferInstanceAs (Decidable (_ ∧ _ ∧ _))

variable {a b : Decimal}

/-- The values compare as the coefficients do at the finer of the two scales. -/
theorem compare_value {gap : Nat} (hgap : b.scale.toNat = a.scale.toNat + gap) :
    compare a.value b.value = compare (a.unscaled.toInt * 10 ^ gap) b.unscaled.toInt := by
  have hpow : (0 : ℚ) < 10 ^ b.scale.toNat := by positivity
  have ha : a.value = ((a.unscaled.toInt * 10 ^ gap : Int) : ℚ) / 10 ^ b.scale.toNat := by
    unfold value
    rw [hgap, pow_add]
    push_cast
    field_simp
  have hb : b.value = ((b.unscaled.toInt : Int) : ℚ) / 10 ^ b.scale.toNat := rfl
  rcases Int.lt_trichotomy (a.unscaled.toInt * 10 ^ gap) b.unscaled.toInt with h | h | h
  · rw [Int.compare_eq_lt.mpr h, compare_lt_iff_lt, ha, hb, div_lt_div_iff_of_pos_right hpow]
    exact_mod_cast h
  · rw [h, Std.compare_self, ha, hb, h, Std.compare_self]
  · rw [Int.compare_eq_gt.mpr h, compare_gt_iff_gt, ha, hb, div_lt_div_iff_of_pos_right hpow]
    exact_mod_cast h

/-! ### What a lift gives -/

theorem toInt_bounds (v : BitVec 128) : -2 ^ 127 ≤ v.toInt ∧ v.toInt < 2 ^ 127 := by
  have hl := BitVec.le_toInt v
  have hu := @BitVec.toInt_lt 128 v
  exact ⟨hl, hu⟩

theorem toInt_of_checkedI128 {n : Int} {v : BitVec 128} (h : checkedI128 n = some v) : v.toInt = n := by
  unfold checkedI128 at h
  split at h
  · rename_i hn
    cases h
    rw [BitVec.toInt_ofInt, Int.bmod_eq_of_le] <;> norm_num at hn ⊢ <;> omega
  · exact absurd h (some_ne_none v).symm

/-- The largest power of ten in range is `10^38`. -/
theorem pow10I128_eq_none {n : Nat} : pow10I128 n = none ↔ 39 ≤ n := by
  unfold pow10I128 checkedI128
  constructor
  · intro h
    by_contra hn
    have hle : (10 : Int) ^ n ≤ 10 ^ 38 := pow_le_pow_right₀ (by norm_num) (by omega)
    have hpos : (0 : Int) < 10 ^ n := by positivity
    rw [if_pos ⟨by omega, by norm_num at hle ⊢; omega⟩] at h
    exact absurd h (some_ne_none _)
  · intro hn
    have hle : (10 : Int) ^ 39 ≤ 10 ^ n := pow_le_pow_right₀ (by norm_num) hn
    rw [if_neg]
    omega

theorem lift_self (v : Decimal) : lift v.scale v = some v.unscaled := by
  have hone : pow10I128 (v.scale - v.scale).toNat = some 1 := by
    rw [UInt8.sub_self]
    decide
  rw [lift, hone, bind_eq_bind, bind_some]
  rw [show (1 : BitVec 128).toInt = 1 by simp, Int.mul_one]
  rw [checkedI128, if_pos (toInt_bounds v.unscaled), BitVec.ofInt_toInt]

theorem lift_eq_none {s : UInt8} {v : Decimal} (h : lift s v = none) :
    v.unscaled = 0 ∧ 39 ≤ (s - v.scale).toNat ∨
      2 ^ 127 ≤ v.unscaled.toInt * 10 ^ (s - v.scale).toNat ∧ 0 < v.unscaled.toInt ∨
      v.unscaled.toInt * 10 ^ (s - v.scale).toNat < -2 ^ 127 ∧ v.unscaled.toInt < 0 := by
  have hpos : (0 : Int) < 10 ^ (s - v.scale).toNat := by positivity
  cases hp : pow10I128 (s - v.scale).toNat with
  | none =>
    have hgap := pow10I128_eq_none.mp hp
    have hle : (10 : Int) ^ 39 ≤ 10 ^ (s - v.scale).toNat := pow_le_pow_right₀ (by norm_num) hgap
    rcases Int.lt_trichotomy v.unscaled.toInt 0 with hv | hv | hv
    · refine .inr (.inr ⟨?_, hv⟩)
      calc v.unscaled.toInt * 10 ^ (s - v.scale).toNat
          ≤ -1 * 10 ^ (s - v.scale).toNat := Int.mul_le_mul_of_nonneg_right (by omega) (by omega)
        _ ≤ -1 * 10 ^ 39 := Int.mul_le_mul_of_nonpos_left (by omega) hle
        _ < -2 ^ 127 := by norm_num
    · exact .inl ⟨BitVec.eq_of_toInt_eq (by simpa using hv), hgap⟩
    · refine .inr (.inl ⟨?_, hv⟩)
      calc (2 : Int) ^ 127
          ≤ 1 * 10 ^ 39 := by norm_num
        _ ≤ 1 * 10 ^ (s - v.scale).toNat := by omega
        _ ≤ v.unscaled.toInt * 10 ^ (s - v.scale).toNat := Int.mul_le_mul_of_nonneg_right (by omega) (by omega)
  | some p =>
    rw [lift, hp, bind_eq_bind, bind_some, toInt_of_checkedI128 hp] at h
    unfold checkedI128 at h
    split at h
    · exact absurd h (some_ne_none _)
    rename_i hout
    rcases Int.lt_trichotomy v.unscaled.toInt 0 with hv | hv | hv
    · have hneg := Int.mul_neg_of_neg_of_pos hv hpos
      exact .inr (.inr ⟨by omega, hv⟩)
    · rw [hv, Int.zero_mul] at hout
      exact absurd (by norm_num) hout
    · have hprod := Int.mul_pos hv hpos
      exact .inr (.inl ⟨by omega, hv⟩)

/-! ### The comparison is numeric -/

theorem max_scale_comm (s t : UInt8) : max s t = max t s := by
  change (if s ≤ t then t else s) = if t ≤ s then s else t
  by_cases hst : s ≤ t <;> by_cases hts : t ≤ s
  · rw [if_pos hst, if_pos hts, UInt8.le_antisymm hst hts]
  · rw [if_pos hst, if_neg hts]
  · rw [if_neg hst, if_pos hts]
  · exact absurd (UInt8.le_total s t) (by tauto)

theorem cmpLifted_swap (a b : Decimal) (x y : Option (BitVec 128)) : cmpLifted b a y x = (cmpLifted a b x y).swap := by
  cases x <;> cases y <;> simp only [cmpLifted, Int.compare_swap, Ordering.swap_swap]

theorem valueCmp_swap (a b : Decimal) : b.valueCmp a = (a.valueCmp b).swap := by
  unfold valueCmp
  by_cases hs : a.scale = b.scale
  · rw [if_pos hs, if_pos hs.symm, Int.compare_swap]
  · rw [if_neg hs, if_neg (Ne.symm hs), max_scale_comm b.scale a.scale]
    exact cmpLifted_swap a b _ _

/-- The side with the finer scale never overflows, so the sign decides only for the coarser side. -/
theorem valueCmp_of_lt (h : a.scale < b.scale) :
    a.valueCmp b = ((lift b.scale a).map fun x => compare x.toInt b.unscaled.toInt).getD (signOrdering a.unscaled) := by
  have hne : a.scale ≠ b.scale := UInt8.ne_of_lt h
  have hmax : max a.scale b.scale = b.scale := if_pos (UInt8.le_of_lt h)
  rw [valueCmp, if_neg hne]
  change cmpLifted a b (lift (max a.scale b.scale) a) (lift (max a.scale b.scale) b) = _
  rw [hmax, lift_self]
  cases lift b.scale a <;> rfl

theorem valueCmp_eq_compare_iff (h : a.scale < b.scale) :
    a.valueCmp b = compare (a.unscaled.toInt * 10 ^ (b.scale - a.scale).toNat) b.unscaled.toInt ↔ ¬ a.BlindTo b := by
  have hgap : (b.scale - a.scale).toNat = b.scale.toNat - a.scale.toNat := UInt8.toNat_sub_of_le _ _ (UInt8.le_of_lt h)
  have hb := toInt_bounds b.unscaled
  rw [valueCmp_of_lt h]
  cases hl : lift b.scale a with
  | some x =>
    rw [lift, bind_eq_bind, bind_eq_some_iff] at hl
    obtain ⟨p, hp, hx⟩ := hl
    rw [map_some, getD_some, toInt_of_checkedI128 hx, toInt_of_checkedI128 hp]
    refine iff_of_true rfl ?_
    rintro ⟨hzero, -, hfar⟩
    -- a blind zero has no lift
    rw [pow10I128_eq_none.mpr (by omega)] at hp
    cases hp
  | none =>
    rw [map_none, getD_none, signOrdering]
    rcases lift_eq_none hl with ⟨hzero, hfar⟩ | ⟨hbig, hpos⟩ | ⟨hsmall, hneg⟩
    · rw [hzero, show (0 : BitVec 128).toInt = 0 from rfl, Int.zero_mul, Std.compare_self]
      constructor
      · rintro heq ⟨-, hne, -⟩
        exact hne (BitVec.eq_of_toInt_eq (Int.compare_eq_eq.mp heq.symm).symm)
      intro hnot
      have hbzero : b.unscaled = 0 := by
        by_contra hne
        exact hnot ⟨hzero, hne, by omega⟩
      rw [hbzero]
      rfl
    · refine iff_of_true ?_ fun hblind => ?_
      · rw [Int.compare_eq_gt.mpr hpos, Int.compare_eq_gt.mpr (by omega)]
      · rw [hblind.1] at hpos
        exact absurd hpos (by decide)
    · refine iff_of_true ?_ fun hblind => ?_
      · rw [Int.compare_eq_lt.mpr hneg, Int.compare_eq_lt.mpr (by omega)]
      · rw [hblind.1] at hneg
        exact absurd hneg (by decide)

theorem valueCmp_iff_of_lt (h : a.scale < b.scale) :
    a.valueCmp b = compare a.value b.value ↔ ¬ a.BlindTo b := by
  have hgap : (b.scale - a.scale).toNat = b.scale.toNat - a.scale.toNat := UInt8.toNat_sub_of_le _ _ (UInt8.le_of_lt h)
  have hlt : a.scale.toNat < b.scale.toNat := UInt8.lt_iff_toNat_lt.mp h
  rw [compare_value (show b.scale.toNat = a.scale.toNat + (b.scale - a.scale).toNat by omega)]
  exact valueCmp_eq_compare_iff h

/-- Neither side is a zero blind to the other. -/
def Sighted (a b : Decimal) : Prop := ¬ a.BlindTo b ∧ ¬ b.BlindTo a

theorem not_blindTo_of_le (h : b.scale.toNat ≤ a.scale.toNat) : ¬ a.BlindTo b := by
  rintro ⟨-, -, hfar⟩
  omega

theorem valueCmp_eq_iff (a b : Decimal) : a.valueCmp b = compare a.value b.value ↔ Sighted a b := by
  rcases Nat.lt_trichotomy a.scale.toNat b.scale.toNat with h | h | h
  · rw [valueCmp_iff_of_lt (UInt8.lt_iff_toNat_lt.mpr h)]
    exact (and_iff_left (not_blindTo_of_le (by omega))).symm
  · have heq : a.scale = b.scale := UInt8.toNat_inj.mp h
    refine iff_of_true ?_ ⟨not_blindTo_of_le (by omega), not_blindTo_of_le (by omega)⟩
    rw [valueCmp, if_pos heq, compare_value (show b.scale.toNat = a.scale.toNat + 0 by omega), pow_zero, Int.mul_one]
  · have hswap : compare a.value b.value = (compare b.value a.value).swap := Std.OrientedCmp.eq_swap
    rw [valueCmp_swap b a, hswap, Ordering.swap_inj, valueCmp_iff_of_lt (UInt8.lt_iff_toNat_lt.mpr h)]
    exact (and_iff_right (not_blindTo_of_le (by omega))).symm

/-- **The comparison is that of the rationals**, exactly where neither decimal is a zero blind to the other. It is
total, and transitive on decimals of which that holds. -/
theorem valueCmp_numeric (a b c : Decimal) :
    (a.valueCmp b = compare a.value b.value ↔ Sighted a b) ∧ ((a.valueCmp b).isLE ∨ (b.valueCmp a).isLE) ∧
      (Sighted a b → Sighted b c → Sighted a c → (a.valueCmp b).isLE → (b.valueCmp c).isLE → (a.valueCmp c).isLE) := by
  have hle : ∀ {a b : Decimal}, Sighted a b → ((a.valueCmp b).isLE ↔ a.value ≤ b.value) := by
    intro a b h
    rw [(valueCmp_eq_iff a b).mpr h, Ordering.isLE_iff_ne_gt, compare_gt_iff_gt, not_lt]
  refine ⟨valueCmp_eq_iff a b, ?_, fun hab hbc hac => ?_⟩
  · rw [valueCmp_swap a b]
    cases a.valueCmp b <;> decide
  · rw [hle hab, hle hbc, hle hac]
    exact le_trans

/-- Zero compares equal to `10^-39` and to `-10^-39`, which are not equal. -/
theorem valueCmp_not_transitive :
    (Decimal.mk 0 0).valueCmp ⟨1, 39⟩ = .eq ∧ compare (Decimal.mk 0 0).value (Decimal.mk 1 39).value = .lt ∧
      (Decimal.mk 1 39).valueCmp ⟨0, 0⟩ = .eq ∧ (Decimal.mk 0 0).valueCmp ⟨-1, 39⟩ = .eq ∧
      (Decimal.mk 1 39).valueCmp ⟨-1, 39⟩ = .gt := by
  refine ⟨by decide, ?_, by decide, by decide, by decide⟩
  rw [compare_lt_iff_lt, value, value, show (0 : BitVec 128).toInt = 0 from rfl, show (1 : BitVec 128).toInt = 1 by simp]
  norm_num

end Decimal
end Fluxum
