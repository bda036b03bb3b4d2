/-
# Index keys

The memcomparable encoding of column values (`index/btree.rs`). Index and
constraint keys are the encodings of their columns, one after the other, and
an index entry adds the encoded primary key behind them.
-/
import Fluxum.Lib.Outcome
import Fluxum.Store.Schema

namespace Fluxum

open Bytes List

/-- The low `w` bytes of `n`, most significant first. -/
def beBytes (w n : Nat) : Bytes := (leBytes w n).reverse

@[simp] theorem length_beBytes (w n : Nat) : (beBytes w n).length = w := by simp [beBytes]

/-- Content with `0x00` escaped as `0x00 0xFF`, then the terminator `0x00 0x00`. -/
def encodeTerminated : Bytes → Bytes
  | [] => [0, 0]
  | b :: bs => if b = 0 then 0 :: 0xFF :: encodeTerminated bs else b :: encodeTerminated bs

/-- A two's complement number with its sign bit flipped. -/
def flipSign {w : Nat} (v : BitVec w) : BitVec w := v ^^^ BitVec.twoPow w (w - 1)

/-- Float bits in total order: negative numbers are complemented, the others get the sign bit. -/
def orderedBits {w : Nat} (bits : BitVec w) : BitVec w := if bits.msb then ~~~ bits else flipSign bits

def Scalar.encodeValue : Scalar → Bytes
  | .bool v => [if v then 1 else 0]
  | .i8 v => beBytes 1 (flipSign v).toNat
  | .i16 v => beBytes 2 (flipSign v).toNat
  | .i32 v => beBytes 4 (flipSign v).toNat
  | .i64 v => beBytes 8 (flipSign v).toNat
  | .u8 v => beBytes 1 v.toNat
  | .u16 v => beBytes 2 v.toNat
  | .u32 v => beBytes 4 v.toNat
  | .u64 v => beBytes 8 v.toNat
  | .f32 v => beBytes 4 (orderedBits v).toNat
  | .f64 v => beBytes 8 (orderedBits v).toNat
  | .str v => encodeTerminated (strBytes v)
  | .bytes v => encodeTerminated v
  | .identity v => v.toList
  | .connectionId v => beBytes 16 v.toNat
  | .entityId v => beBytes 8 v.toNat
  | .timestamp v => beBytes 8 (flipSign v).toNat
  | .decimal unscaled scale => beBytes 16 (flipSign unscaled).toNat ++ [scale]
  | .blob v => v.toList

mutual
def encodeValue : RowValue → Bytes
  | .scalar v => v.encodeValue
  | .optNone => [0]
  | .optSome v => 1 :: encodeValue v
  | .list items => encodeItems items
  | .enum tag payload => beBytes 4 tag.toNat ++ encodeValues payload
  | .struct fields => encodeValues fields

/-- List items, each behind `0x01`, then `0x00`. -/
def encodeItems : List RowValue → Bytes
  | [] => [0]
  | v :: vs => 1 :: (encodeValue v ++ encodeItems vs)

def encodeValues : List RowValue → Bytes
  | [] => []
  | v :: vs => encodeValue v ++ encodeValues vs
end

/-! ### Prefix-freedom -/

theorem encodeTerminated_append_inj : ∀ {x y a b : Bytes}, encodeTerminated x ++ a = encodeTerminated y ++ b →
    x = y ∧ a = b
  | [], [], a, b, h => by simpa [encodeTerminated] using h
  | [], c :: y, a, b, h => by
    rw [encodeTerminated, encodeTerminated] at h
    split at h
    · simp at h
    · rename_i hc
      simp only [List.cons_append, List.cons.injEq] at h
      exact absurd h.1.symm hc
  | c :: x, [], a, b, h => by
    rw [encodeTerminated, encodeTerminated] at h
    split at h
    · simp at h
    · rename_i hc
      simp only [List.cons_append, List.cons.injEq] at h
      exact absurd h.1 hc
  | c :: x, d :: y, a, b, h => by
    rw [encodeTerminated, encodeTerminated] at h
    split at h <;> split at h <;> rename_i hc hd <;> simp only [List.cons_append, List.cons.injEq] at h
    · obtain ⟨rfl, rfl⟩ := encodeTerminated_append_inj h.2.2
      exact ⟨by rw [hc, hd], rfl⟩
    · exact absurd h.1.symm hd
    · exact absurd h.1 hc
    · obtain ⟨rfl, rfl⟩ := encodeTerminated_append_inj h.2
      exact ⟨by rw [h.1], rfl⟩

theorem beBytes_append_inj {w k : Nat} {x y : BitVec k} {a b : Bytes} (hk : 2 ^ k ≤ 256 ^ w)
    (h : beBytes w x.toNat ++ a = beBytes w y.toNat ++ b) : x = y ∧ a = b := by
  obtain ⟨h₁, h₂⟩ := append_inj h (by simp)
  have hle := reverse_injective h₁
  refine ⟨BitVec.eq_of_toNat_eq ?_, h₂⟩
  rw [← ofLE_leBytes (x.isLt.trans_le hk), hle, ofLE_leBytes (y.isLt.trans_le hk)]

theorem flipSign_inj {w : Nat} {x y : BitVec w} (h : flipSign x = flipSign y) : x = y := by
  have := congrArg (· ^^^ BitVec.twoPow w (w - 1)) h
  simpa [flipSign, BitVec.xor_assoc] using this

theorem msb_flipSign {w : Nat} (hw : 0 < w) (x : BitVec w) : (flipSign x).msb = !x.msb := by
  rw [flipSign, BitVec.msb_xor, BitVec.msb_twoPow]
  simp [hw]

theorem orderedBits_inj {w : Nat} {x y : BitVec w} (h : orderedBits x = orderedBits y) : x = y := by
  rcases Nat.eq_zero_or_pos w with rfl | hw
  · exact Subsingleton.elim x y
  -- the sign bit of the result tells which of the two cases produced it
  have hmsb : x.msb = y.msb := by
    have h' := congrArg BitVec.msb h
    unfold orderedBits at h'
    split at h' <;> split at h' <;> simp_all [msb_flipSign]
  unfold orderedBits at h
  by_cases hx : x.msb = true
  · rw [if_pos hx, if_pos (hmsb ▸ hx)] at h
    exact BitVec.not_inj.mp h
  · rw [if_neg hx, if_neg (hmsb ▸ hx)] at h
    exact flipSign_inj h

theorem strBytes_inj {s t : String} (h : strBytes s = strBytes t) : s = t := by
  have hbytes : s.toByteArray = t.toByteArray := ByteArray.ext (Array.toList_inj.mp h)
  exact String.toByteArray_inj.mp hbytes

theorem Scalar.encodeValue_append_inj {v w : Scalar} {a b : Bytes} (ht : v.type = w.type)
    (h : v.encodeValue ++ a = w.encodeValue ++ b) : v = w ∧ a = b := by
  cases v <;> cases w <;> simp only [Scalar.type, reduceCtorEq] at ht <;> simp only [Scalar.encodeValue] at h
  case bool.bool v w => cases v <;> cases w <;> simp_all
  case i8.i8 v w | i16.i16 v w | i32.i32 v w | i64.i64 v w | timestamp.timestamp v w =>
    obtain ⟨h₁, rfl⟩ := beBytes_append_inj (by decide) h
    exact ⟨by rw [flipSign_inj h₁], rfl⟩
  case u8.u8 v w | u16.u16 v w | u32.u32 v w | u64.u64 v w | connectionId.connectionId v w | entityId.entityId v w =>
    obtain ⟨rfl, rfl⟩ := beBytes_append_inj (by decide) h
    exact ⟨rfl, rfl⟩
  case f32.f32 v w | f64.f64 v w =>
    obtain ⟨h₁, rfl⟩ := beBytes_append_inj (by decide) h
    exact ⟨by rw [orderedBits_inj h₁], rfl⟩
  case str.str v w =>
    obtain ⟨h₁, rfl⟩ := encodeTerminated_append_inj h
    exact ⟨by rw [strBytes_inj h₁], rfl⟩
  case bytes.bytes v w =>
    obtain ⟨rfl, rfl⟩ := encodeTerminated_append_inj h
    exact ⟨rfl, rfl⟩
  case identity.identity v w | blob.blob v w =>
    obtain ⟨h₁, rfl⟩ := append_inj h (by simp)
    exact ⟨by rw [Vector.toList_inj.mp h₁], rfl⟩
  case decimal.decimal u s u' s' =>
    rw [append_assoc, append_assoc] at h
    obtain ⟨h₁, h₂⟩ := beBytes_append_inj (by decide) h
    simp only [singleton_append, cons.injEq] at h₂
    exact ⟨by rw [flipSign_inj h₁, h₂.1], h₂.2⟩

theorem bytes_of_matches_crdtText {v : RowValue} (h : v.matchesType .crdtText = true) : ∃ b, v = .scalar (.bytes b) := by
  cases v with
  | scalar v => cases v <;> simp_all [RowValue.matchesType]
  | _ => simp [RowValue.matchesType] at h

mutual
theorem encodeValue_append_inj : ∀ {v w : RowValue} {t : FluxType} {a b : Bytes}, v.matchesType t = true →
    w.matchesType t = true → encodeValue v ++ a = encodeValue w ++ b → v = w ∧ a = b
  | v, w, t, a, b, hv, hw, h => by
    cases t with
    | scalar t =>
      cases v <;> cases w <;> simp only [RowValue.matchesType, decide_eq_true_eq, reduceCtorEq] at hv hw
      obtain ⟨rfl, rfl⟩ := Scalar.encodeValue_append_inj (hv.trans hw.symm) h
      exact ⟨rfl, rfl⟩
    | crdtText =>
      obtain ⟨v, rfl⟩ := bytes_of_matches_crdtText hv
      obtain ⟨w, rfl⟩ := bytes_of_matches_crdtText hw
      obtain ⟨rfl, rfl⟩ := encodeTerminated_append_inj h
      exact ⟨rfl, rfl⟩
    | option t =>
      cases v <;> cases w <;> simp only [RowValue.matchesType, reduceCtorEq] at hv hw <;>
        simp only [encodeValue, cons_append, nil_append, cons.injEq, true_and] at h
      case optNone.optNone => exact ⟨rfl, h⟩
      case optNone.optSome | optSome.optNone => exact absurd h.1 (by decide)
      case optSome.optSome v w =>
        obtain ⟨rfl, rfl⟩ := encodeValue_append_inj hv hw h
        exact ⟨rfl, rfl⟩
    | list t =>
      cases v <;> cases w <;> simp only [RowValue.matchesType, reduceCtorEq] at hv hw
      obtain ⟨rfl, rfl⟩ := encodeItems_append_inj hv hw h
      exact ⟨rfl, rfl⟩
    | enum _ variants =>
      cases v <;> cases w <;> simp only [RowValue.matchesType, reduceCtorEq] at hv hw
      rename_i s vs t ws
      simp only [encodeValue, append_assoc] at h
      obtain ⟨rfl, h'⟩ := beBytes_append_inj (by decide) h
      cases hvar : variants[s.toNat]? with
      | none => simp [hvar] at hv
      | some variant =>
        rw [hvar] at hv hw
        obtain ⟨rfl, rfl⟩ := encodeValues_append_inj hv hw h'
        exact ⟨rfl, rfl⟩
    | struct _ fields =>
      cases v <;> cases w <;> simp only [RowValue.matchesType, reduceCtorEq] at hv hw
      obtain ⟨rfl, rfl⟩ := encodeValues_append_inj hv hw h
      exact ⟨rfl, rfl⟩

theorem encodeItems_append_inj : ∀ {vs ws : List RowValue} {t : FluxType} {a b : Bytes},
    RowValue.allMatch vs t = true → RowValue.allMatch ws t = true → encodeItems vs ++ a = encodeItems ws ++ b →
    vs = ws ∧ a = b
  | [], [], t, a, b, hv, hw, h => by simpa [encodeItems] using h
  | [], w :: ws, t, a, b, hv, hw, h => by simp [encodeItems] at h
  | v :: vs, [], t, a, b, hv, hw, h => by simp [encodeItems] at h
  | v :: vs, w :: ws, t, a, b, hv, hw, h => by
    simp only [RowValue.allMatch, Bool.and_eq_true] at hv hw
    simp only [encodeItems, List.cons_append, List.append_assoc, List.cons.injEq, true_and] at h
    obtain ⟨rfl, h'⟩ := encodeValue_append_inj hv.1 hw.1 h
    obtain ⟨rfl, rfl⟩ := encodeItems_append_inj hv.2 hw.2 h'
    exact ⟨rfl, rfl⟩

theorem encodeValues_append_inj : ∀ {vs ws : List RowValue} {ts : List FluxType} {a b : Bytes},
    RowValue.matchTypes vs ts = true → RowValue.matchTypes ws ts = true →
    encodeValues vs ++ a = encodeValues ws ++ b → vs = ws ∧ a = b
  | [], [], [], a, b, hv, hw, h => ⟨rfl, by simpa [encodeValues] using h⟩
  | [], _ :: _, [], _, _, _, hw, _ => by simp [RowValue.matchTypes] at hw
  | _ :: _, [], _ :: _, _, _, _, hw, _ => by simp [RowValue.matchTypes] at hw
  | v :: vs, w :: ws, t :: ts, a, b, hv, hw, h => by
    simp only [RowValue.matchTypes, Bool.and_eq_true] at hv hw
    simp only [encodeValues, List.append_assoc] at h
    obtain ⟨rfl, h'⟩ := encodeValue_append_inj hv.1 hw.1 h
    obtain ⟨rfl, rfl⟩ := encodeValues_append_inj hv.2 hw.2 h'
    exact ⟨rfl, rfl⟩
end

/-! ### Keys of columns -/

/-- A column ordinal beyond the row's end. -/
structure BadOrdinal where
  ordinal : Nat
  columns : Nat
deriving DecidableEq, Repr

/-- `key_of` and `key_of_values`: the encodings of the columns of an index or a constraint. -/
def keyOf (columns : List Nat) (values : Row) : Except BadOrdinal Bytes :=
  match columns with
  | [] => .ok []
  | o :: os =>
    match values[o]? with
    | none => .error ⟨o, values.length⟩
    | some v => return encodeValue v ++ (← keyOf os values)

theorem keyOf_ok : ∀ {columns : List Nat} {values : Row}, (∀ o ∈ columns, o < values.length) →
    ∃ key, keyOf columns values = .ok key
  | [], _, _ => ⟨[], rfl⟩
  | o :: os, values, h => by
    obtain ⟨key, hkey⟩ := keyOf_ok fun o' ho' => h o' (mem_cons_of_mem o ho')
    have ho : o < values.length := h o (by simp)
    exact ⟨encodeValue values[o] ++ key, by rw [keyOf, getElem?_eq_getElem ho, hkey]; rfl⟩

theorem keyOf_cons_eq_ok {o : Nat} {os : List Nat} {values : Row} {key : Bytes} (h : keyOf (o :: os) values = .ok key) :
    ∃ v rest, values[o]? = some v ∧ keyOf os values = .ok rest ∧ key = encodeValue v ++ rest := by
  rw [keyOf] at h
  split at h
  · simp at h
  · rename_i v hv
    obtain ⟨rest, hrest, hkey⟩ := Outcome.bind_eq_ok.mp h
    exact ⟨v, rest, hv, hrest, (Except.ok.inj hkey).symm⟩

/-- **The entry key determines the primary key.** Keys of typed rows over the same columns are
prefix-free, so what follows them is determined. -/
theorem keyOf_append_inj {schema : TableSchema} {v w : Row} (hv : Typed schema v) (hw : Typed schema w) :
    ∀ {columns : List Nat} {k l a b : Bytes}, keyOf columns v = .ok k → keyOf columns w = .ok l →
      k ++ a = l ++ b → k = l ∧ a = b
  | [], k, l, a, b, hk, hl, h => by
    rw [keyOf, Except.ok.injEq] at hk hl
    subst hk hl
    exact ⟨rfl, h⟩
  | o :: os, k, l, a, b, hk, hl, h => by
    obtain ⟨x, k', hx, hk', rfl⟩ := keyOf_cons_eq_ok hk
    obtain ⟨y, l', hy, hl', rfl⟩ := keyOf_cons_eq_ok hl
    have ho : o < schema.columns.length := hv.1 ▸ (List.getElem?_eq_some_iff.mp hx).1
    have hc := getElem?_eq_getElem ho
    rw [append_assoc, append_assoc] at h
    obtain ⟨rfl, h'⟩ := encodeValue_append_inj (hv.2 o x _ hx hc) (hw.2 o y _ hy hc) h
    obtain ⟨rfl, rfl⟩ := keyOf_append_inj hv hw hk' hl' h'
    exact ⟨rfl, rfl⟩

end Fluxum
