/-
# FluxBIN rows

Whole rows as FluxBIN bytes (`encode_row`, `decode_row` of `store/row.rs` and
the reader of `fluxbin.rs`). The format is not self-describing: the columns of
the schema say what to read next.
-/
import Fluxum.Lib.Reader
import Fluxum.Lib.Outcome
import Fluxum.Store.Schema

namespace Fluxum

open Bytes Outcome

/-! ### The reader -/

inductive DecodeError where
  | unexpectedEof (needed remaining : Nat)
  | invalidBool (byte : UInt8)
  | invalidOptionTag (byte : UInt8)
  | invalidUtf8
  | trailingBytes (remaining : Nat)
  | variantRange (name : String) (tag variants : Nat)
  | column (table name : String) (cause : DecodeError)

abbrev FluxBinReader := Reader DecodeError

namespace FluxBinReader

def take (n : Nat) : FluxBinReader Bytes := Reader.take .unexpectedEof n

def readLE (w : Nat) : FluxBinReader Nat := return ofLE (← take w)

def readU8 : FluxBinReader UInt8 := return UInt8.ofNat (← readLE 1)

def readBool : FluxBinReader Bool := do
  let byte ← readU8
  if byte = 0 then return false
  if byte = 1 then return true
  throw (.invalidBool byte)

def readOptionTag : FluxBinReader Bool := do
  let byte ← readU8
  if byte = 0 then return false
  if byte = 1 then return true
  throw (.invalidOptionTag byte)

def readBytes : FluxBinReader Bytes := do
  let len ← readLE 4
  take len

def readStr : FluxBinReader String := do
  let bytes ← readBytes
  match String.fromUTF8? ⟨bytes.toArray⟩ with
  | some s => return s
  | none => throw .invalidUtf8

def readIdentity : FluxBinReader (Vector UInt8 32) := do
  let bytes ← take 32
  return Vector.ofFn fun i => bytes.getD i 0

def readDecimal : FluxBinReader Scalar := do
  let unscaled ← readLE 16
  let scale ← readU8
  return .decimal unscaled scale

end FluxBinReader

open FluxBinReader

def decodeScalar : ScalarType → FluxBinReader Scalar
  | .bool => return .bool (← readBool)
  | .i8 => return .i8 (← readLE 1)
  | .i16 => return .i16 (← readLE 2)
  | .i32 => return .i32 (← readLE 4)
  | .i64 => return .i64 (← readLE 8)
  | .u8 => return .u8 (← readLE 1)
  | .u16 => return .u16 (← readLE 2)
  | .u32 => return .u32 (← readLE 4)
  | .u64 => return .u64 (← readLE 8)
  | .f32 => return .f32 (← readLE 4)
  | .f64 => return .f64 (← readLE 8)
  | .str => return .str (← readStr)
  | .bytes => return .bytes (← readBytes)
  | .identity => return .identity (← readIdentity)
  | .connectionId => return .connectionId (← readLE 16)
  | .entityId => return .entityId (← readLE 8)
  | .timestamp => return .timestamp (← readLE 8)
  | .decimal => readDecimal
  | .blob => return .blob (← readIdentity)

mutual
def decodeValue : FluxType → FluxBinReader RowValue
  | .scalar t => return .scalar (← decodeScalar t)
  | .crdtText => return .scalar (.bytes (← readBytes))
  | .option t => do
    let present ← readOptionTag
    if present then return .optSome (← decodeValue t) else return .optNone
  | .list t => do
    let count ← readLE 4
    return .list (← Reader.many (decodeValue t) count)
  | .enum name variants => do
    let tag ← readU8
    let payload ← decodeVariant name tag.toNat variants variants.length tag.toNat
    return .enum tag.toNat payload
  | .struct _ fields => return .struct (← decodeFields fields)

/-- Values of the given types, one after the other. -/
def decodeTypes : List FluxType → FluxBinReader (List RowValue)
  | [] => return []
  | t :: ts => return (← decodeValue t) :: (← decodeTypes ts)

def decodeFields : List (String × FluxType) → FluxBinReader (List RowValue)
  | [] => return []
  | (_, t) :: fields => return (← decodeValue t) :: (← decodeFields fields)

/-- The payload of the variant at a position. -/
def decodeVariant (name : String) (tag : Nat) : List (String × List FluxType) → Nat → Nat → FluxBinReader (List RowValue)
  | [], count, _ => throw (.variantRange name tag count)
  | (_, payload) :: _, _, 0 => decodeTypes payload
  | _ :: variants, count, i + 1 => decodeVariant name tag variants count i
end

def encodeRow (values : Row) : Except RowError Bytes := RowValue.encodeAll values

/-- The value of a column; an error names it. -/
def decodeColumn (table : String) (c : ColumnSchema) : FluxBinReader RowValue := fun input =>
  ((decodeValue c.ty).run input).mapError (DecodeError.column table c.name)

def decodeColumns (table : String) : List ColumnSchema → FluxBinReader (List RowValue)
  | [] => return []
  | c :: cs => return (← decodeColumn table c) :: (← decodeColumns table cs)

/-- A row out of bytes; nothing may remain behind the last column. -/
def decodeRow (schema : TableSchema) (bytes : Bytes) : Except DecodeError Row := do
  let (values, rest) ← (decodeColumns schema.name schema.columns).run bytes
  if rest.isEmpty then return values else throw (.trailingBytes rest.length)

/-! ### What was encoded is read back -/

open Reader

variable {b : Bytes}

namespace FluxBinReader

theorem reads_readLE {w n : Nat} (h : n < 256 ^ w) : Reads (readLE w) (leBytes w n) n := by
  have htake := reads_take DecodeError.unexpectedEof (leBytes w n)
  rw [length_leBytes] at htake
  exact htake.bind_pure (by rw [ofLE_leBytes h])

theorem reads_readU8 (b : UInt8) : Reads readU8 [b] b := by
  have h : Reads (readLE 1) [b] b.toNat := by
    have := reads_readLE (w := 1) (n := b.toNat) b.toNat_lt
    simpa [leBytes] using this
  exact h.bind_pure (by simp)

theorem reads_readBool (v : Bool) : Reads readBool [if v then 1 else 0] v := by
  cases v
  · exact (reads_readU8 0).bind_pure rfl
  · exact (reads_readU8 1).bind_pure rfl

theorem reads_readOptionTag (v : Bool) : Reads readOptionTag [if v then 1 else 0] v := by
  cases v
  · exact (reads_readU8 0).bind_pure rfl
  · exact (reads_readU8 1).bind_pure rfl

theorem reads_readBytes {bytes b : Bytes} (h : lenPrefixed bytes = .ok b) : Reads readBytes b bytes := by
  unfold lenPrefixed at h
  split at h
  · rename_i hlen
    cases h
    exact (reads_readLE hlen).bind (reads_take _ bytes)
  · cases h

theorem fromUTF8_strBytes (s : String) : String.fromUTF8? ⟨(strBytes s).toArray⟩ = some s := by
  have hbytes : (⟨(strBytes s).toArray⟩ : ByteArray) = s.toByteArray := by
    simp [strBytes]
  rw [hbytes, String.fromUTF8?, dif_pos s.isValidUTF8]
  rfl

theorem reads_readIdentity (v : Vector UInt8 32) : Reads readIdentity v.toList v := by
  have htake := reads_take DecodeError.unexpectedEof v.toList
  rw [Vector.length_toList] at htake
  refine htake.bind_pure (congrArg _ ?_)
  ext i hi
  simp

end FluxBinReader

theorem reads_decodeScalar {v : Scalar} (h : v.encode = .ok b) : Reads (decodeScalar v.type) b v := by
  cases v with
  | bool v =>
    cases h
    exact (reads_readBool v).bind_pure rfl
  | str v =>
    have hstr : Reads readStr b v := (reads_readBytes h).bind_pure (by simp only [fromUTF8_strBytes])
    exact hstr.bind_pure rfl
  | bytes v => exact (reads_readBytes h).bind_pure rfl
  | identity v =>
    cases h
    exact (reads_readIdentity v).bind_pure rfl
  | blob v =>
    cases h
    exact (reads_readIdentity v).bind_pure rfl
  | decimal unscaled scale =>
    cases h
    exact (reads_readLE unscaled.isLt).bind ((reads_readU8 scale).bind_pure (by simp))
  | i8 v | i16 v | i32 v | i64 v | u8 v | u16 v | u32 v | u64 v | f32 v | f64 v | connectionId v | entityId v
  | timestamp v =>
    cases h
    exact (reads_readLE (v.isLt.trans_le (by norm_num))).bind_pure (by simp)

theorem decodeFields_eq : ∀ fields : List (String × FluxType), decodeFields fields = decodeTypes (fields.map Prod.snd)
  | [] => by rw [decodeFields, List.map_nil, decodeTypes]
  | (_, t) :: fields => by rw [decodeFields, List.map_cons, decodeTypes, decodeFields_eq fields]

theorem decodeVariant_eq {name : String} {tag count : Nat} {variant : String × List FluxType} :
    ∀ {variants : List (String × List FluxType)} {i : Nat}, variants[i]? = some variant →
      decodeVariant name tag variants count i = decodeTypes variant.2
  | [], _, h => by simp at h
  | v :: _, 0, h => by
    cases h
    rw [decodeVariant]
  | _ :: variants, i + 1, h => by
    rw [decodeVariant]
    exact decodeVariant_eq h

mutual
/-- **The encoding of a value of a type is read back as it was.** -/
theorem reads_decodeValue : ∀ {v : RowValue} {t : FluxType} {b : Bytes}, v.matchesType t = true → v.encode = .ok b →
    Reads (decodeValue t) b v
  | .scalar v, t, b, ht, h => by
    rw [RowValue.encode] at h
    cases t with
    | scalar t =>
      obtain rfl : v.type = t := by simpa [RowValue.matchesType] using ht
      rw [decodeValue]
      exact (reads_decodeScalar h).bind_pure rfl
    | crdtText =>
      cases v <;> simp [RowValue.matchesType] at ht
      rw [decodeValue]
      exact (reads_readBytes h).bind_pure rfl
    | option _ | list _ | enum _ _ | struct _ _ => simp [RowValue.matchesType] at ht
  | .optNone, t, b, ht, h => by
    cases t with
    | option t =>
      cases h
      rw [decodeValue]
      exact (reads_readOptionTag false).bind_pure rfl
    | scalar _ | crdtText | list _ | enum _ _ | struct _ _ => simp [RowValue.matchesType] at ht
  | .optSome v, t, b, ht, h => by
    cases t with
    | option t =>
      rw [RowValue.encode] at h
      obtain ⟨c, hc, hb⟩ := bind_eq_ok.mp h
      cases hb
      rw [RowValue.matchesType] at ht
      rw [decodeValue]
      exact (reads_readOptionTag true).bind ((reads_decodeValue ht hc).bind_pure rfl)
    | scalar _ | crdtText | list _ | enum _ _ | struct _ _ => simp [RowValue.matchesType] at ht
  | .list items, t, b, ht, h => by
    cases t with
    | list t =>
      rw [RowValue.encode] at h
      split at h
      · rename_i hlen
        obtain ⟨c, hc, hb⟩ := bind_eq_ok.mp h
        cases hb
        rw [RowValue.matchesType] at ht
        rw [decodeValue]
        exact (reads_readLE hlen).bind ((reads_decodeMany ht hc).bind_pure rfl)
      · cases h
    | scalar _ | crdtText | option _ | enum _ _ | struct _ _ => simp [RowValue.matchesType] at ht
  | .enum tag payload, t, b, ht, h => by
    cases t with
    | enum name variants =>
      rw [RowValue.encode] at h
      split at h
      · rename_i htag
        obtain ⟨c, hc, hb⟩ := bind_eq_ok.mp h
        cases hb
        rw [RowValue.matchesType] at ht
        split at ht
        · rename_i variant hvariant
          have hnat : (UInt8.ofNat tag.toNat).toNat = tag.toNat := by
            rw [UInt8.toNat_ofNat', Nat.mod_eq_of_lt htag]
          refine (reads_readU8 _).bind ?_
          simp only [hnat]
          rw [decodeVariant_eq hvariant]
          exact (reads_decodeTypes ht hc).bind_pure (by simp)
        · cases ht
      · cases h
    | scalar _ | crdtText | option _ | list _ | struct _ _ => simp [RowValue.matchesType] at ht
  | .struct fields, t, b, ht, h => by
    cases t with
    | struct name schema =>
      rw [decodeValue, decodeFields_eq]
      exact (reads_decodeTypes ht h).bind_pure rfl
    | scalar _ | crdtText | option _ | list _ | enum _ _ => simp [RowValue.matchesType] at ht

theorem reads_decodeMany : ∀ {vs : List RowValue} {t : FluxType} {b : Bytes}, RowValue.allMatch vs t = true →
    RowValue.encodeAll vs = .ok b → Reads (Reader.many (decodeValue t) vs.length) b vs
  | [], _, b, _, h => by
    cases h
    exact Reads.pure []
  | v :: vs, t, b, ht, h => by
    rw [RowValue.encodeAll] at h
    simp only [bind_eq_ok] at h
    obtain ⟨c, hc, d, hd, hb⟩ := h
    cases hb
    rw [RowValue.allMatch, Bool.and_eq_true] at ht
    exact (reads_decodeValue ht.1 hc).bind ((reads_decodeMany ht.2 hd).bind_pure rfl)

theorem reads_decodeTypes : ∀ {vs : List RowValue} {ts : List FluxType} {b : Bytes}, RowValue.matchTypes vs ts = true →
    RowValue.encodeAll vs = .ok b → Reads (decodeTypes ts) b vs
  | [], [], b, _, h => by
    cases h
    rw [decodeTypes]
    exact Reads.pure []
  | [], _ :: _, _, ht, _ => by simp [RowValue.matchTypes] at ht
  | _ :: _, [], _, ht, _ => by simp [RowValue.matchTypes] at ht
  | v :: vs, t :: ts, b, ht, h => by
    rw [RowValue.encodeAll] at h
    simp only [bind_eq_ok] at h
    obtain ⟨c, hc, d, hd, hb⟩ := h
    cases hb
    rw [RowValue.matchTypes, Bool.and_eq_true] at ht
    rw [decodeTypes]
    exact (reads_decodeValue ht.1 hc).bind ((reads_decodeTypes ht.2 hd).bind_pure rfl)
end

theorem reads_decodeColumns (table : String) : ∀ {cs : List ColumnSchema} {vs : List RowValue} {b : Bytes},
    vs.length = cs.length → (∀ (o : Nat) v c, vs[o]? = some v → cs[o]? = some c → v.matchesType c.ty = true) →
    RowValue.encodeAll vs = .ok b → Reads (decodeColumns table cs) b vs
  | [], vs, b, hlen, _, h => by
    obtain rfl := List.length_eq_zero_iff.mp hlen
    cases h
    exact Reads.pure []
  | c :: cs, [], _, hlen, _, _ => by simp at hlen
  | c :: cs, v :: vs, b, hlen, ht, h => by
    rw [RowValue.encodeAll] at h
    simp only [bind_eq_ok] at h
    obtain ⟨x, hx, y, hy, hb⟩ := h
    cases hb
    have hv := reads_decodeValue (ht 0 v c rfl rfl) hx
    have hvs := reads_decodeColumns table (Nat.succ.inj hlen)
      (fun o v' c' hv' hc' => ht (o + 1) v' c' (by simpa using hv') (by simpa using hc')) hy
    have hcol : Reads (decodeColumn table c) x v := by
      intro rest
      show ((decodeValue c.ty).run (x ++ rest)).mapError _ = _
      rw [hv rest]
      rfl
    exact hcol.bind (hvs.bind_pure rfl)

/-- **A row of the schema's types survives the codec.** -/
theorem decodeRow_encodeRow {schema : TableSchema} {values : Row} (ht : Typed schema values)
    (h : encodeRow values = .ok b) : decodeRow schema b = .ok values := by
  have hreads := (reads_decodeColumns schema.name ht.1 ht.2 h).run_nil
  unfold decodeRow
  rw [hreads]
  rfl

end Fluxum
