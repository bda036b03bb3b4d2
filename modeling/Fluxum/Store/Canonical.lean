/-
# The FluxBIN of a row is canonical

`Fluxum/Store/FluxBin.lean` reads back what was encoded. Here the other
direction: what `decode_row` accepts is the encoding of the row it returns, so
that a row has one spelling and a byte string at most one meaning. Booleans,
option tags, enum tags, UTF-8 and the end of the input are where a reader could
be lenient; this one is not.

* `fluxbin_canonical`: encoding and decoding are inverse, and keys are read apart.
* `stored_rows_travel`: every node reads what another has stored or logged.
-/
import Fluxum.Store.FluxBin
import Fluxum.Store.Replication

namespace Fluxum

open Bytes Reader FluxBinReader Outcome List

/-! ### What was read is what is written -/

namespace FluxBinReader

theorem spells_readLE (w : Nat) : Spells (readLE w) fun n b => b = leBytes w n ∧ n < 256 ^ w := by
  refine (spells_take DecodeError.unexpectedEof w).bind_pure ?_
  rintro a b ⟨rfl, rfl⟩
  exact ⟨(leBytes_ofLE b).symm, ofLE_lt b⟩

theorem spells_readU8 : Spells readU8 fun byte b => b = [byte] := by
  refine (spells_readLE 1).bind_pure ?_
  rintro n b ⟨rfl, -⟩
  rfl

theorem spells_flag (err : UInt8 → DecodeError) :
    Spells (do
      let byte ← readU8
      if byte = 0 then return false
      if byte = 1 then return true
      throw (err byte)) fun v b => b = [if v then 1 else 0] := by
  refine spells_readU8.bind ?_
  rintro byte b rfl
  by_cases h0 : byte = 0
  · rw [if_pos h0]
    exact Spells.pure (by simp [h0])
  rw [if_neg h0]
  by_cases h1 : byte = 1
  · rw [if_pos h1]
    exact Spells.pure (by simp [h1])
  · rw [if_neg h1]
    exact spells_throw _ _

theorem spells_readBytes : Spells readBytes fun v b => lenPrefixed v = .ok b := by
  refine (spells_readLE 4).bind ?_
  rintro n b ⟨rfl, hn⟩
  refine (spells_take DecodeError.unexpectedEof n).mono ?_
  rintro v c ⟨rfl, rfl⟩
  exact if_pos hn

theorem strBytes_of_fromUTF8 {bytes : Bytes} {s : String} (h : String.fromUTF8? ⟨bytes.toArray⟩ = some s) :
    strBytes s = bytes := by
  unfold String.fromUTF8? at h
  split at h
  · cases h
    rfl
  · cases h

theorem spells_readStr : Spells readStr fun s b => lenPrefixed (strBytes s) = .ok b := by
  refine spells_readBytes.bind ?_
  intro bytes b hb
  cases hs : String.fromUTF8? ⟨bytes.toArray⟩ with
  | none => exact spells_throw _ _
  | some s => exact Spells.pure (by rw [strBytes_of_fromUTF8 hs, hb, append_nil])

theorem spells_readIdentity : Spells readIdentity fun v b => b = v.toList := by
  refine (spells_take DecodeError.unexpectedEof 32).bind_pure ?_
  rintro a b ⟨rfl, hlen⟩
  apply ext_getElem
  · rw [hlen, Vector.length_toList]
  · intro i h₁ h₂
    simp [h₁]

end FluxBinReader

theorem spells_bitVec {w k : Nat} {f : BitVec k → Scalar} {P : Scalar → Bytes → Prop} (hk : 256 ^ w ≤ 2 ^ k)
    (hP : ∀ v : BitVec k, P (f v) (leBytes w v.toNat)) : Spells (do return f (← readLE w)) P := by
  refine (spells_readLE w).bind_pure ?_
  rintro n b ⟨rfl, hn⟩
  have hnat : (n : BitVec k).toNat = n := by
    rw [BitVec.natCast_eq_ofNat, BitVec.toNat_ofNat, Nat.mod_eq_of_lt (hn.trans_le hk)]
  have h := hP n
  rwa [hnat] at h

theorem spells_decodeScalar (t : ScalarType) :
    Spells (decodeScalar t) fun v b => v.type = t ∧ v.encode = .ok b := by
  cases t with
  | bool =>
    refine (spells_flag DecodeError.invalidBool).bind_pure ?_
    rintro v b rfl
    exact ⟨rfl, rfl⟩
  | str => exact spells_readStr.bind_pure fun s b h => ⟨rfl, h⟩
  | bytes => exact spells_readBytes.bind_pure fun v b h => ⟨rfl, h⟩
  | identity | blob =>
    refine spells_readIdentity.bind_pure ?_
    rintro v b rfl
    exact ⟨rfl, rfl⟩
  | decimal =>
    refine (spells_readLE 16).bind ?_
    rintro n b ⟨rfl, hn⟩
    refine spells_readU8.bind_pure ?_
    rintro scale c rfl
    refine ⟨rfl, ?_⟩
    have hnat : (n : BitVec 128).toNat = n := by
      rw [BitVec.natCast_eq_ofNat, BitVec.toNat_ofNat, Nat.mod_eq_of_lt (hn.trans_le (by norm_num))]
    show Except.ok (leBytes 16 (n : BitVec 128).toNat ++ [scale]) = _
    rw [hnat]
  | i8 | i16 | i32 | i64 | u8 | u16 | u32 | u64 | f32 | f64 | connectionId | entityId | timestamp =>
    exact spells_bitVec (by norm_num) fun v => ⟨rfl, rfl⟩

variable {b : Bytes} {schema : TableSchema} {row : Row}

theorem encodeAll_cons {v : RowValue} {vs : List RowValue} {c : Bytes} (hv : v.encode = .ok b)
    (hvs : RowValue.encodeAll vs = .ok c) : RowValue.encodeAll (v :: vs) = .ok (b ++ c) := by
  rw [RowValue.encodeAll, hv, hvs]
  rfl

mutual
/-- **The bytes a value was read from are its encoding**, and it inhabits the type. -/
theorem spells_decodeValue : ∀ t : FluxType,
    Spells (decodeValue t) fun v b => v.matchesType t = true ∧ v.encode = .ok b
  | .scalar t => by
    rw [decodeValue]
    refine (spells_decodeScalar t).bind_pure ?_
    rintro v b ⟨hty, hv⟩
    exact ⟨by simp [RowValue.matchesType, hty], by rw [RowValue.encode, hv]⟩
  | .crdtText => by
    rw [decodeValue]
    refine spells_readBytes.bind_pure ?_
    intro v b hv
    exact ⟨by simp [RowValue.matchesType], by rw [RowValue.encode]; exact hv⟩
  | .option t => by
    rw [decodeValue]
    refine (spells_flag DecodeError.invalidOptionTag).bind ?_
    rintro present b rfl
    cases present with
    | false => exact Spells.pure ⟨by simp [RowValue.matchesType], by rw [RowValue.encode]; rfl⟩
    | true =>
      refine (spells_decodeValue t).bind_pure ?_
      rintro v c ⟨hty, hv⟩
      exact ⟨by rw [RowValue.matchesType, hty], by rw [RowValue.encode, hv]; rfl⟩
  | .list t => by
    rw [decodeValue]
    refine (spells_readLE 4).bind ?_
    rintro n b ⟨rfl, hn⟩
    have hmany := (spells_decodeValue t).many
      (Q := fun vs c => RowValue.allMatch vs t = true ∧ RowValue.encodeAll vs = .ok c)
      ⟨by rw [RowValue.allMatch], by rw [RowValue.encodeAll]⟩
      (fun v vs b c hv hvs => ⟨by rw [RowValue.allMatch, hv.1, hvs.1]; rfl, encodeAll_cons hv.2 hvs.2⟩) n
    refine hmany.bind_pure ?_
    rintro vs c ⟨rfl, hty, hvs⟩
    have hcount : vs.length < 2 ^ 32 := hn
    exact ⟨by rw [RowValue.matchesType, hty], by rw [RowValue.encode, if_pos hcount, hvs]; rfl⟩
  | .enum name variants => by
    rw [decodeValue]
    refine spells_readU8.bind ?_
    rintro tag b rfl
    have htag : (tag.toNat : BitVec 32).toNat = tag.toNat := by
      have := tag.toNat_lt
      rw [BitVec.natCast_eq_ofNat, BitVec.toNat_ofNat, Nat.mod_eq_of_lt (by omega)]
    refine (spells_decodeVariant name tag.toNat variants variants.length tag.toNat).bind_pure ?_
    rintro payload c ⟨variant, hvariant, hty, hpayload⟩
    refine ⟨?_, ?_⟩
    · simp only [RowValue.matchesType, htag, hvariant]
      exact hty
    · have hbyte : UInt8.ofNat tag.toNat = tag := by simp
      rw [RowValue.encode, htag, if_pos tag.toNat_lt, hpayload, hbyte]
      rfl
  | .struct _ fields => by
    refine (spells_decodeFields fields).bind_pure ?_
    rintro vs b ⟨hty, hvs⟩
    exact ⟨by rw [RowValue.matchesType, hty], by rw [RowValue.encode, hvs]⟩

theorem spells_decodeTypes : ∀ ts : List FluxType,
    Spells (decodeTypes ts) fun vs b => RowValue.matchTypes vs ts = true ∧ RowValue.encodeAll vs = .ok b
  | [] => by
    rw [decodeTypes]
    exact Spells.pure ⟨by rw [RowValue.matchTypes], by rw [RowValue.encodeAll]⟩
  | t :: ts => by
    rw [decodeTypes]
    refine (spells_decodeValue t).bind fun v b hv => (spells_decodeTypes ts).bind_pure fun vs c hvs => ?_
    exact ⟨by rw [RowValue.matchTypes, hv.1, hvs.1]; rfl, encodeAll_cons hv.2 hvs.2⟩

theorem spells_decodeFields : ∀ fields : List (String × FluxType),
    Spells (decodeFields fields) fun vs b =>
      RowValue.matchTypes vs (fields.map Prod.snd) = true ∧ RowValue.encodeAll vs = .ok b
  | [] => by
    rw [decodeFields]
    exact Spells.pure ⟨by rw [List.map_nil, RowValue.matchTypes], by rw [RowValue.encodeAll]⟩
  | (_, t) :: fields => by
    rw [decodeFields]
    refine (spells_decodeValue t).bind fun v b hv => (spells_decodeFields fields).bind_pure fun vs c hvs => ?_
    exact ⟨by rw [List.map_cons, RowValue.matchTypes, hv.1, hvs.1]; rfl, encodeAll_cons hv.2 hvs.2⟩

theorem spells_decodeVariant (name : String) (tag : Nat) : ∀ (variants : List (String × List FluxType)) (count i : Nat),
    Spells (decodeVariant name tag variants count i) fun vs b => ∃ variant, variants[i]? = some variant ∧
      RowValue.matchTypes vs variant.2 = true ∧ RowValue.encodeAll vs = .ok b
  | [], count, i => by
    rw [decodeVariant]
    exact spells_throw _ _
  | (n, payload) :: _, _, 0 => by
    rw [decodeVariant]
    exact (spells_decodeTypes payload).mono fun vs b h => ⟨(n, payload), rfl, h⟩
  | _ :: variants, count, i + 1 => by
    rw [decodeVariant]
    exact (spells_decodeVariant name tag variants count i).mono fun vs b ⟨variant, hv, h⟩ => ⟨variant, by simpa using hv, h⟩
end

/-! ### Rows -/

theorem spells_decodeColumn (table : String) (c : ColumnSchema) :
    Spells (decodeColumn table c) fun v b => v.matchesType c.ty = true ∧ v.encode = .ok b := by
  intro input v rest hrun
  change ((decodeValue c.ty).run input).mapError _ = _ at hrun
  apply spells_decodeValue c.ty input v rest
  cases hvalue : (decodeValue c.ty).run input with
  | error e =>
    rw [hvalue] at hrun
    cases hrun
  | ok x =>
    rw [hvalue] at hrun
    exact hrun

theorem spells_decodeColumns (table : String) : ∀ cs : List ColumnSchema,
    Spells (decodeColumns table cs) fun vs b => vs.length = cs.length ∧
      (∀ (o : Nat) v c, vs[o]? = some v → cs[o]? = some c → v.matchesType c.ty = true) ∧ RowValue.encodeAll vs = .ok b
  | [] => by
    rw [decodeColumns]
    exact Spells.pure ⟨rfl, fun o v c hv _ => by simp at hv, by rw [RowValue.encodeAll]⟩
  | c :: cs => by
    rw [decodeColumns]
    refine (spells_decodeColumn table c).bind fun v b hv => (spells_decodeColumns table cs).bind_pure fun vs d hvs => ?_
    obtain ⟨hlen, hty, henc⟩ := hvs
    refine ⟨congrArg Nat.succ hlen, ?_, encodeAll_cons hv.2 henc⟩
    intro o v' c' hv' hc'
    cases o with
    | zero =>
      cases hv'
      cases hc'
      exact hv.1
    | succ o => exact hty o v' c' (by simpa using hv') (by simpa using hc')

/-- What is accepted is a row of the schema, and its one spelling. -/
theorem typed_of_decodeRow (h : decodeRow schema b = .ok row) :
    Typed schema row ∧ encodeRow row = .ok b := by
  obtain ⟨⟨values, rest⟩, hcols, h⟩ := bind_eq_ok.mp h
  change (if rest.isEmpty = true then pure values else throw (DecodeError.trailingBytes rest.length)) = _ at h
  by_cases hrest : rest.isEmpty
  · rw [if_pos hrest] at h
    cases h
    obtain rfl := isEmpty_iff.mp hrest
    obtain ⟨hlen, hty, henc⟩ := (spells_decodeColumns schema.name schema.columns).of_run_nil hcols
    exact ⟨⟨hlen, hty⟩, henc⟩
  · rw [if_neg hrest] at h
    cases h

/-! ### Keys -/

/-- Two values of one type: neither encoding is a proper beginning of the other. -/
theorem encode_append_inj {t : FluxType} {v w : RowValue} {c x y : Bytes} (hv : v.matchesType t = true)
    (hw : w.matchesType t = true) (hb : v.encode = .ok b) (hc : w.encode = .ok c) (h : b ++ x = c ++ y) :
    v = w ∧ x = y := by
  have hfirst := reads_decodeValue hv hb x
  rw [h, reads_decodeValue hw hc y] at hfirst
  cases hfirst
  exact ⟨rfl, rfl⟩

theorem encodeKeyValues_cons {o : Nat} {os : List Nat} {v : RowValue} {vs : List RowValue}
    (h : encodeKeyValues schema (o :: os) (v :: vs) = .ok b) :
    ∃ c x y, schema.columns[o]? = some c ∧ v.matchesType c.ty = true ∧ v.encode = .ok x ∧
      encodeKeyValues schema os vs = .ok y ∧ b = x ++ y := by
  rw [encodeKeyValues] at h
  cases hc : schema.columns[o]? with
  | none =>
    rw [hc] at h
    cases h
  | some c =>
    simp only [hc] at h
    by_cases hty : v.matchesType c.ty = true
    · rw [if_pos hty] at h
      simp only [bind_eq_ok] at h
      obtain ⟨x, hx, y, hy, h⟩ := h
      cases h
      exact ⟨c, x, y, rfl, hty, hx, hy, rfl⟩
    · rw [if_neg hty] at h
      cases h

theorem encodeKeyValues_append_inj : ∀ {os : List Nat} {vs ws : List RowValue} {b c x y : Bytes},
    vs.length = os.length → ws.length = os.length → encodeKeyValues schema os vs = .ok b →
    encodeKeyValues schema os ws = .ok c → b ++ x = c ++ y → vs = ws ∧ x = y
  | [], vs, ws, b, c, x, y, hvs, hws, hb, hc, h => by
    obtain rfl := length_eq_zero_iff.mp hvs
    obtain rfl := length_eq_zero_iff.mp hws
    cases hb
    cases hc
    exact ⟨rfl, h⟩
  | o :: os, v :: vs, w :: ws, b, c, x, y, hvs, hws, hb, hc, h => by
    obtain ⟨col, b₁, b₂, hcol, hv, hb₁, hb₂, rfl⟩ := encodeKeyValues_cons hb
    obtain ⟨col', c₁, c₂, hcol', hw, hc₁, hc₂, rfl⟩ := encodeKeyValues_cons hc
    rw [hcol] at hcol'
    cases hcol'
    rw [append_assoc, append_assoc] at h
    obtain ⟨rfl, hrest⟩ := encode_append_inj hv hw hb₁ hc₁ h
    obtain ⟨rfl, hend⟩ := encodeKeyValues_append_inj (Nat.succ.inj hvs) (Nat.succ.inj hws) hb₂ hc₂ hrest
    exact ⟨rfl, hend⟩

theorem encodePkValues_append_inj {vs ws : List RowValue} {c x y : Bytes} (hb : encodePkValues schema vs = .ok b)
    (hc : encodePkValues schema ws = .ok c) (h : b ++ x = c ++ y) : vs = ws ∧ x = y := by
  unfold encodePkValues at hb hc
  by_cases hvs : vs.length ≠ schema.primaryKey.length
  · rw [if_pos hvs] at hb
    cases hb
  by_cases hws : ws.length ≠ schema.primaryKey.length
  · rw [if_pos hws] at hc
    cases hc
  rw [if_neg hvs] at hb
  rw [if_neg hws] at hc
  exact encodeKeyValues_append_inj (not_not.mp hvs) (not_not.mp hws) hb hc h

def keyValues (schema : TableSchema) (row : Row) : List RowValue := schema.primaryKey.filterMap fun o => row[o]?

theorem encodeKeyValues_of_row (ht : Typed schema row) : ∀ {os : List Nat} {b : Bytes},
    encodePkColumns schema.name row os = .ok b → (os.filterMap fun o => row[o]?).length = os.length ∧
        encodeKeyValues schema os (os.filterMap fun o => row[o]?) = .ok b
  | [], b, h => ⟨rfl, h⟩
  | o :: os, b, h => by
    rw [encodePkColumns] at h
    cases hv : row[o]? with
    | none =>
      rw [hv] at h
      cases h
    | some v =>
      simp only [hv] at h
      simp only [bind_eq_ok] at h
      obtain ⟨x, hx, y, hy, h⟩ := h
      cases h
      obtain ⟨hlen, henc⟩ := encodeKeyValues_of_row ht hy
      have ho : o < schema.columns.length := ht.1 ▸ (List.getElem?_eq_some_iff.mp hv).1
      have hcol := getElem?_eq_getElem ho
      rw [filterMap_cons_some hv]
      refine ⟨congrArg Nat.succ hlen, ?_⟩
      rw [encodeKeyValues, hcol]
      simp only [ht.2 o v _ hv hcol, if_true, hx, henc]
      rfl

theorem encodePkValues_of_row (ht : Typed schema row) (h : encodePkOfRow schema row = .ok b) :
    encodePkValues schema (keyValues schema row) = .ok b := by
  obtain ⟨hlen, henc⟩ := encodeKeyValues_of_row ht h
  have harity : ¬(keyValues schema row).length ≠ schema.primaryKey.length := not_not.mpr hlen
  unfold encodePkValues
  rw [if_neg harity]
  exact henc

/-- **FluxBIN is canonical.** A row of the schema is read back from its
encoding; what is accepted is a row of the schema, and its encoding; and the
encoded key of a tuple or a row, whatever follows it, is that of no other. -/
theorem fluxbin_canonical (schema : TableSchema) :
    (∀ row b, Typed schema row → encodeRow row = .ok b → decodeRow schema b = .ok row) ∧
      (∀ b row, decodeRow schema b = .ok row → Typed schema row ∧ encodeRow row = .ok b) ∧
      (∀ key key' b b' rest rest', encodePkValues schema key = .ok b → encodePkValues schema key' = .ok b' →
        b ++ rest = b' ++ rest' → key = key' ∧ rest = rest') ∧
      ∀ row row' b b' rest rest', Typed schema row → Typed schema row' → encodePkOfRow schema row = .ok b →
        encodePkOfRow schema row' = .ok b' → b ++ rest = b' ++ rest' →
          keyValues schema row = keyValues schema row' ∧ rest = rest' := by
  refine ⟨fun row b ht h => decodeRow_encodeRow ht h, fun b row h => typed_of_decodeRow h, ?_, ?_⟩
  · intro key key' b b' rest rest' hkey hkey' h
    exact encodePkValues_append_inj hkey hkey' h
  · intro row row' b b' rest rest' ht ht' hrow hrow' h
    exact encodePkValues_append_inj (encodePkValues_of_row ht hrow) (encodePkValues_of_row ht' hrow') h

/-- A table with an optional list of tagged values. -/
def partsSchema : TableSchema :=
  { name := "parts"
    columns := [⟨"id", .scalar .u8⟩, ⟨"parts", .option (.list (.enum "part" [("none", []), ("some", [.scalar .bool])]))⟩]
    primaryKey := [0]
    autoInc := none
    access := .pub
    unique := []
    indexes := []
    primaryKey_ne_nil := single_key_ne_nil
    primaryKey_lt := fun _ ho => (List.mem_singleton.mp ho).symm ▸ (Nat.two_pos : 0 < 2)
    autoInc_primaryKey := fun _ ho => absurd ho (Option.not_mem_none _)
    unique_lt := fun _ hcols => absurd hcols List.not_mem_nil
    indexes_lt := fun _ hcols => absurd hcols List.not_mem_nil }

def partsRow : Row := [.scalar (.u8 7), .optSome (.list [.enum 1 [.scalar (.bool true)], .enum 0 []])]

theorem fluxbin_canonical_parts :
    encodeRow partsRow = .ok [7, 1, 2, 0, 0, 0, 1, 1, 0] ∧ decodeRow partsSchema [7, 1, 2, 0, 0, 0, 1, 1, 0] = .ok partsRow ∧
      encodePkOfRow partsSchema partsRow = .ok [7] ∧ encodePkValues partsSchema [.scalar (.u8 7)] = .ok [7] ∧
      ∀ key b rest, encodePkValues partsSchema key = .ok b → [7] ++ [1] = b ++ rest →
        [.scalar (.u8 7)] = key ∧ [1] = rest := by
  obtain ⟨hrow, hbytes, hkey, -⟩ := fluxbin_canonical partsSchema
  have hpkValues : encodePkValues partsSchema [.scalar (.u8 7)] = .ok [7] := by rfl
  have hpkRow : encodePkOfRow partsSchema partsRow = .ok [7] := by rfl
  have henc : encodeRow partsRow = .ok [7, 1, 2, 0, 0, 0, 1, 1, 0] := by rfl
  have htyped : Typed partsSchema partsRow := typed_of_checkRow (by rfl)
  have hdec := hrow partsRow _ htyped henc
  exact ⟨(hbytes _ _ hdec).2, hdec, hpkRow, hpkValues, fun key b rest hb h => hkey _ _ _ _ _ _ hpkValues hb h⟩

/-- **Stored rows travel.** After any run of a replicated system, a row at one node is stored under its own key,
comes back from the log as it was, and is read by every other node from its bytes; and so is what the primary's log has
inserted into the table. -/
theorem stored_rows_travel {cat : Catalog} {s : Cluster} {steps : List (Cluster.Step cat)} {i j table : Nat}
    {t u : TableState} {pk : Bytes} {row : Row} (hsealed : ∀ table, cat.sealedColumns table = [])
    (hrun : Runs.run (Cluster.step cat) (.new cat) steps = some s) (ht : (s.node i).store.committed[table]? = some t)
    (hu : (s.node j).store.committed[table]? = some u) (hrow : t.rows[pk]? = some row) :
    encodePkOfRow t.schema row = .ok pk ∧ LogValue.toRow (LogValue.rowToLog row) = .ok row ∧
      (∀ b, encodeRow row = .ok b → decodeRow u.schema b = .ok row) ∧
      ∀ r ∈ s.log, ∀ m ∈ r.mutations, m.tableId = table → ∀ rows, m.insertRows = .ok rows → ∀ row ∈ rows,
        Typed u.schema row ∧ ∀ b, encodeRow row = .ok b → decodeRow u.schema b = .ok row := by
  have hok : s.Ok cat :=
    Runs.run_invariant (fun _ l _ h hstep => Cluster.step_ok hsealed l h hstep) (Cluster.ok_new cat) hrun
  have hti := (hok.node i).tables.covers table
  have huj := (hok.node j).tables.covers table
  rw [ht] at hti
  rw [hu] at huj
  have hschema : t.schema = u.schema := Option.some.inj (hti.trans huj.symm)
  obtain ⟨htyped, hkey⟩ := ((hok.node i).tables.consistent table t ht).rows pk row hrow
  refine ⟨hkey, toRow_rowToLog row, fun b hb => hschema ▸ decodeRow_encodeRow htyped hb, ?_⟩
  intro r hr m hm htable rows hrows row hrow
  have htyped : Typed u.schema row := hok.log r hr m hm u.schema (htable ▸ huj.symm) rows hrows row hrow
  exact ⟨htyped, fun b hb => decodeRow_encodeRow htyped hb⟩

theorem stored_rows_travel_swapRun : ∃ s t u, Runs.run (Cluster.step accountCatalog) (.new accountCatalog) swapRun = some s ∧
    (s.node 0).store.committed[1]? = some t ∧ (s.node 1).store.committed[1]? = some u ∧
    t.rows[([1, 0, 0, 0, 0, 0, 0, 0] : Bytes)]? = some (account 1 [8] 31) ∧ s.log.length = 2 ∧
    ∀ b, encodeRow (account 1 [8] 31) = .ok b → decodeRow u.schema b = .ok (account 1 [8] 31) := by
  obtain ⟨s, hrun, t, ht, u, hu, ⟨row, hrow, rfl⟩, hlog⟩ :
      ∃ s ∈ Runs.run (Cluster.step accountCatalog) (.new accountCatalog) swapRun,
        ∃ t ∈ (s.node 0).store.committed[1]?, ∃ u ∈ (s.node 1).store.committed[1]?,
          (∃ row ∈ t.rows[([1, 0, 0, 0, 0, 0, 0, 0] : Bytes)]?, row = account 1 [8] 31) ∧ s.log.length = 2 := by
    decide +kernel
  exact ⟨s, t, u, hrun, ht, hu, hrow, hlog, (stored_rows_travel (by simp [accountCatalog]) hrun ht hu hrow).2.2.1⟩

end Fluxum
