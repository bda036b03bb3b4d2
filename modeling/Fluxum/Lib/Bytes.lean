/-
# Byte strings and little-endian integers
-/
import Mathlib.Data.List.Basic
import Mathlib.Data.UInt
import Mathlib.Tactic.Ring

abbrev Bytes := List UInt8

namespace Bytes

/-- The low `w` bytes of `n`, least significant first. -/
def leBytes : Nat → Nat → Bytes
  | 0, _ => []
  | w + 1, n => UInt8.ofNat n :: leBytes w (n / 256)

/-- The number whose bytes, least significant first, are given. -/
def ofLE : Bytes → Nat
  | [] => 0
  | b :: bs => b.toNat + 256 * ofLE bs

@[simp] theorem length_leBytes : ∀ w n, (leBytes w n).length = w
  | 0, _ => rfl
  | w + 1, n => by simp [leBytes, length_leBytes w]

theorem ofLE_leBytes : ∀ {w n : Nat}, n < 256 ^ w → ofLE (leBytes w n) = n
  | 0, n, h => by
    obtain rfl : n = 0 := by simpa using h
    rfl
  | w + 1, n, h => by
    have hw : n / 256 < 256 ^ w := by
      rw [Nat.div_lt_iff_lt_mul (by decide)]
      rwa [pow_succ] at h
    rw [leBytes, ofLE, ofLE_leBytes hw, UInt8.toNat_ofNat']
    omega

theorem ofLE_lt : ∀ bs : Bytes, ofLE bs < 256 ^ bs.length
  | [] => by simp [ofLE]
  | b :: bs => by
    have ih := ofLE_lt bs
    have hb := b.toNat_lt
    rw [ofLE, List.length_cons, pow_succ]
    omega

theorem leBytes_ofLE : ∀ bs : Bytes, leBytes bs.length (ofLE bs) = bs
  | [] => rfl
  | b :: bs => by
    have hb := b.toNat_lt
    have hdiv : (b.toNat + 256 * ofLE bs) / 256 = ofLE bs := by omega
    have hmod : UInt8.ofNat (b.toNat + 256 * ofLE bs) = b := by
      apply UInt8.toNat_inj.mp
      rw [UInt8.toNat_ofNat']
      omega
    rw [ofLE, List.length_cons, leBytes, hdiv, leBytes_ofLE bs, hmod]

/-- Two strings that agree on their first `m` bytes agree on every window inside them. -/
theorem window_congr {a b : Bytes} {m : Nat} (h : a.take m = b.take m) {i n : Nat} (hn : i + n ≤ m) :
    (a.drop i).take n = (b.drop i).take n := by
  have hwin : ∀ x : Bytes, ((x.take m).drop i).take n = (x.drop i).take n := by
    intro x
    rw [List.drop_take, List.take_take, min_eq_left (by omega)]
  rw [← hwin a, ← hwin b, h]

theorem take_congr {a b : Bytes} {m : Nat} (h : a.take m = b.take m) {n : Nat} (hn : n ≤ m) :
    a.take n = b.take n := by
  simpa using window_congr h (i := 0) (n := n) (by omega)

end Bytes
