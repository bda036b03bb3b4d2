/-
# Key order is value order

The memcomparable encoding of `index/btree.rs` keeps the order of the values
that can be compared, and the keys of a composite index compare column by
column.
-/
import Fluxum.Lib.Lex
import Fluxum.Query.Plan

namespace Fluxum

open Bytes Lex

/-! ### Fixed-width numbers -/

theorem compare_toNat (a b : UInt8) : compare a b = compare a.toNat b.toNat := by
  show compareOfLessAndEq a b = compareOfLessAndEq a.toNat b.toNat
  simp only [compareOfLessAndEq, UInt8.lt_iff_toNat_lt, UInt8.toNat_inj]

theorem beBytes_succ (w n : Nat) : beBytes (w + 1) n = beBytes w (n / 256) ++ [UInt8.ofNat n] := by
  simp [beBytes, leBytes]

theorem compare_divMod (m n : Nat) : compare m n = (compare (m / 256) (n / 256)).then (compare (m % 256) (n % 256)) := by
  rcases Nat.lt_trichotomy (m / 256) (n / 256) with h | h | h
  · rw [Nat.compare_eq_lt.mpr h, Nat.compare_eq_lt.mpr (by omega)]
    rfl
  · rw [h, Nat.compare_eq_eq.mpr rfl]
    rcases Nat.lt_trichotomy (m % 256) (n % 256) with h' | h' | h'
    · rw [Nat.compare_eq_lt.mpr h', Nat.compare_eq_lt.mpr (by omega)]
      rfl
    · rw [Nat.compare_eq_eq.mpr h', Nat.compare_eq_eq.mpr (by omega)]
      rfl
    · rw [Nat.compare_eq_gt.mpr h', Nat.compare_eq_gt.mpr (by omega)]
      rfl
  · rw [Nat.compare_eq_gt.mpr h, Nat.compare_eq_gt.mpr (by omega)]
    rfl

theorem compare_beBytes : ∀ {w m n : Nat}, m < 256 ^ w → n < 256 ^ w → compare (beBytes w m) (beBytes w n) = compare m n
  | 0, m, n, hm, hn => by
    obtain rfl : m = 0 := by simpa using hm
    obtain rfl : n = 0 := by simpa using hn
    rfl
  | w + 1, m, n, hm, hn => by
    have hm' : m / 256 < 256 ^ w := by
      rw [Nat.div_lt_iff_lt_mul (by decide)]
      rwa [pow_succ] at hm
    have hn' : n / 256 < 256 ^ w := by
      rw [Nat.div_lt_iff_lt_mul (by decide)]
      rwa [pow_succ] at hn
    rw [beBytes_succ, beBytes_succ, compare_append_of_length (by simp), compare_beBytes hm' hn', compare_divMod m n]
    congr 1
    rw [List.compare_cons_cons, List.compare_nil_nil, compare_toNat, UInt8.toNat_ofNat', UInt8.toNat_ofNat']
    exact Ordering.then_eq

theorem toNat_flipSign {w : Nat} (hw : 0 < w) (x : BitVec w) :
    ((flipSign x).toNat : Int) = x.toInt + (2 ^ (w - 1) : Nat) := by
  have hpow : (2 : Nat) ^ w = 2 ^ (w - 1) + 2 ^ (w - 1) := by
    rw [← Nat.two_mul, ← pow_succ', Nat.sub_add_cancel hw]
  -- the low bits are the same, and the top bit is the other one
  have hlow : (flipSign x).toNat % 2 ^ (w - 1) = x.toNat % 2 ^ (w - 1) := by
    rw [flipSign, BitVec.toNat_xor, BitVec.toNat_twoPow_of_lt (by omega), Nat.xor_mod_two_pow]
    simp
  have hmsb : decide (2 ^ (w - 1) ≤ (flipSign x).toNat) = !decide (2 ^ (w - 1) ≤ x.toNat) := by
    rw [← BitVec.msb_eq_decide, ← BitVec.msb_eq_decide, msb_flipSign hw]
  have hmod : ∀ y : BitVec w, y.toNat % 2 ^ (w - 1) = if 2 ^ (w - 1) ≤ y.toNat then y.toNat - 2 ^ (w - 1) else y.toNat := by
    intro y
    have hy := y.isLt
    split
    · rw [Nat.mod_eq_sub_mod (by assumption), Nat.mod_eq_of_lt (by omega)]
    · exact Nat.mod_eq_of_lt (by omega)
  rw [hmod, hmod] at hlow
  rw [BitVec.toInt_eq_msb_cond, BitVec.msb_eq_decide, hpow]
  by_cases hx : 2 ^ (w - 1) ≤ x.toNat
  · have hy : ¬ 2 ^ (w - 1) ≤ (flipSign x).toNat := by simpa [hx] using hmsb
    simp only [hx, hy, if_true, if_false, decide_true] at hlow ⊢
    omega
  · have hy : 2 ^ (w - 1) ≤ (flipSign x).toNat := by simpa [hx] using hmsb
    simp only [hx, hy, if_true, if_false, decide_false, Bool.false_eq_true] at hlow ⊢
    omega

theorem compare_of_shift {m n : Nat} {x y k : Int} (hm : (m : Int) = x + k) (hn : (n : Int) = y + k) :
    compare m n = compare x y := by
  rcases lt_trichotomy x y with h | h | h
  · rw [Int.compare_eq_lt.mpr h, Nat.compare_eq_lt.mpr (by omega)]
  · rw [Int.compare_eq_eq.mpr h, Nat.compare_eq_eq.mpr (by omega)]
  · rw [Int.compare_eq_gt.mpr h, Nat.compare_eq_gt.mpr (by omega)]

theorem compare_flipSign {w : Nat} (hw : 0 < w) (x y : BitVec w) :
    compare (flipSign x).toNat (flipSign y).toNat = compare x.toInt y.toInt :=
  compare_of_shift (toNat_flipSign hw x) (toNat_flipSign hw y)

/-! ### Byte strings -/

/-- Escaping and the terminator keep the order. -/
theorem compare_encodeTerminated : ∀ a b : Bytes, compare (encodeTerminated a) (encodeTerminated b) = compare a b
  | [], [] => rfl
  | [], c :: b => by
    rw [encodeTerminated, encodeTerminated, List.compare_nil_cons]
    split
    · rfl
    rename_i hc
    have hlt : compare (0 : UInt8) c = .lt := by
      rw [compare_toNat, Nat.compare_eq_lt]
      exact Nat.pos_of_ne_zero fun h => hc (UInt8.toNat_inj.mp h)
    rw [List.compare_cons_cons, hlt]
    rfl
  | c :: a, [] => by
    rw [encodeTerminated, encodeTerminated, List.compare_cons_nil]
    split
    · rfl
    rename_i hc
    have hgt : compare c (0 : UInt8) = .gt := by
      rw [compare_toNat, Nat.compare_eq_gt]
      exact Nat.pos_of_ne_zero fun h => hc (UInt8.toNat_inj.mp h)
    rw [List.compare_cons_cons, hgt]
    rfl
  | c :: a, d :: b => by
    have ih := compare_encodeTerminated a b
    rw [encodeTerminated, encodeTerminated, List.compare_cons_cons]
    split <;> split <;> rename_i hc hd
    · subst hc hd
      simp only [List.compare_cons_cons, ih]
      rfl
    · subst hc
      have hne : compare (0 : UInt8) d ≠ .eq := fun h => hd (Std.LawfulEqCmp.eq_of_compare h).symm
      rw [List.compare_cons_cons]
      cases h : compare (0 : UInt8) d <;> simp_all
    · subst hd
      have hne : compare c (0 : UInt8) ≠ .eq := fun h => hc (Std.LawfulEqCmp.eq_of_compare h)
      rw [List.compare_cons_cons]
      cases h : compare c (0 : UInt8) <;> simp_all
    · rw [List.compare_cons_cons, ih]

/-! ### Values -/

/-- The scalar types whose values compare, floats apart. -/
def ScalarType.comparable : ScalarType → Bool
  | .i8 | .i16 | .i32 | .i64 | .u8 | .u16 | .u32 | .u64 | .str | .entityId | .timestamp => true
  | _ => false

theorem Scalar.cmp_eq_compare {v w : Scalar} (ht : v.type = w.type) (hc : v.type.comparable = true) :
    v.cmp w = some (compare v.encodeValue w.encodeValue) := by
  cases v <;> simp only [Scalar.type, ScalarType.comparable, Bool.false_eq_true] at hc <;>
    cases w <;> simp only [Scalar.type, reduceCtorEq] at ht <;> rw [Scalar.cmp, Option.some.injEq] <;>
    simp only [Scalar.encodeValue]
  case i8.i8 x y | i16.i16 x y | i32.i32 x y | i64.i64 x y | timestamp.timestamp x y =>
    rw [compare_beBytes ((flipSign x).isLt.trans_le (by decide)) ((flipSign y).isLt.trans_le (by decide)),
      compare_flipSign (by decide)]
  case u8.u8 x y | u16.u16 x y | u32.u32 x y | u64.u64 x y | entityId.entityId x y =>
    rw [compare_beBytes (x.isLt.trans_le (by decide)) (y.isLt.trans_le (by decide))]
  case str.str x y => rw [compare_encodeTerminated]

variable {v w : RowValue} {t : FluxType}

theorem encodeValue_eq_of_isPrefix (hv : v.matchesType t = true)
    (hw : w.matchesType t = true) (h : encodeValue v <+: encodeValue w ∨ encodeValue w <+: encodeValue v) :
    encodeValue v = encodeValue w := by
  rcases h with ⟨rest, h⟩ | ⟨rest, h⟩
  · have h' : encodeValue v ++ rest = encodeValue w ++ [] := by rw [h, List.append_nil]
    rw [(encodeValue_append_inj hv hw h').1]
  · have h' : encodeValue w ++ rest = encodeValue v ++ [] := by rw [h, List.append_nil]
    rw [(encodeValue_append_inj hw hv h').1]

/-- **A column decides, and the rest where it is equal.** -/
theorem compare_encodeValue_append (hv : v.matchesType t = true) (hw : w.matchesType t = true) (x y : Bytes) :
    compare (encodeValue v ++ x) (encodeValue w ++ y) =
      (compare (encodeValue v) (encodeValue w)).then (compare x y) :=
  compare_append (encodeValue_eq_of_isPrefix hv hw) x y

end Fluxum
