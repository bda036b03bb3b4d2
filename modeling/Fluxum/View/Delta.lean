/-
# The delta of a view

A commit sends the rows of a view that changed: deletes by the first column,
then inserts. View rows hold no floats and have distinct first columns of one
type, whose encoding is prefix-free. So a delete entry hits exactly the row
with that first column, and the rows of the client become the new ones.
-/
import Fluxum.View.Definition

namespace Fluxum

open Std Bytes Outcome List

/-- The client applies an update to its encoded rows: a delete entry is a first column, and a row
begins with its first column. -/
def receive (client : List Bytes) : Option ViewUpdate → List Bytes
  | none => client
  | some u => client.filter (fun b => !u.deletes.any (·.isPrefixOf b)) ++ u.inserts

/-! ### Encoded rows -/

theorem lenPrefixed_append_inj {v w a b x y : Bytes} (ha : lenPrefixed v = .ok a) (hb : lenPrefixed w = .ok b)
    (h : a ++ x = b ++ y) : v = w := by
  unfold lenPrefixed at ha hb
  split at ha <;> split at hb <;> simp only [Except.ok.injEq, reduceCtorEq] at ha hb
  subst ha hb
  rw [append_assoc, append_assoc] at h
  obtain ⟨hlen, hrest⟩ := append_inj h (by simp)
  have hlen' : v.length = w.length := by
    rw [← ofLE_leBytes (show v.length < 256 ^ 4 by omega), ← ofLE_leBytes (show w.length < 256 ^ 4 by omega), hlen]
  exact (append_inj hrest hlen').1

theorem leBytes_append_inj {w k : Nat} {x y : BitVec k} {a b : Bytes} (hk : 2 ^ k ≤ 256 ^ w)
    (h : leBytes w x.toNat ++ a = leBytes w y.toNat ++ b) : x = y := by
  obtain ⟨h', -⟩ := append_inj h (by simp)
  refine BitVec.eq_of_toNat_eq ?_
  rw [← ofLE_leBytes (x.isLt.trans_le hk), ← ofLE_leBytes (y.isLt.trans_le hk), h']

/-- On the values of one type FluxBIN is prefix-free. -/
theorem Scalar.encode_append_inj {v w : Scalar} {a b x y : Bytes} (ht : v.type = w.type) (ha : v.encode = .ok a)
    (hb : w.encode = .ok b) (h : a ++ x = b ++ y) : v = w := by
  cases v <;> cases w <;> simp only [Scalar.type, reduceCtorEq] at ht <;> simp only [Scalar.encode] at ha hb
  case str.str v w => rw [strBytes_inj (lenPrefixed_append_inj ha hb h)]
  case bytes.bytes v w => rw [lenPrefixed_append_inj ha hb h]
  all_goals
    cases ha
    cases hb
  case bool.bool v w => cases v <;> cases w <;> simp_all
  case i8.i8 | i16.i16 | i32.i32 | i64.i64 | u8.u8 | u16.u16 | u32.u32 | u64.u64 | f32.f32 | f64.f64
    | connectionId.connectionId | entityId.entityId | timestamp.timestamp => rw [leBytes_append_inj (by decide) h]
  case identity.identity v w | blob.blob v w => rw [Vector.toList_inj.mp (append_inj h (by simp)).1]
  case decimal.decimal u s u' s' =>
    rw [append_assoc, append_assoc] at h
    rw [leBytes_append_inj (by decide) h, (cons.inj (append_inj h (by simp)).2).1]

/-! ### Rows without floats -/

/-- A scalar that is not a float. -/
def RowValue.Plain (v : RowValue) : Prop := ∃ s, v = .scalar s ∧ s.type ≠ .f32 ∧ s.type ≠ .f64

theorem RowValue.Plain.same_iff {v w : RowValue} (h : v.Plain) : v.same w = true ↔ v = w := by
  obtain ⟨s, rfl, h32, h64⟩ := h
  cases w with
  | scalar t =>
    cases s <;> first | exact absurd rfl h32 | exact absurd rfl h64 | simp [RowValue.same, Scalar.same]
  | _ => simp [RowValue.same]

theorem Row.same_iff : ∀ {a b : Row}, (∀ v ∈ a, v.Plain) → (Row.same a b = true ↔ a = b)
  | [], [], _ => by simp [Row.same]
  | [], _ :: _, _ => by simp [Row.same]
  | _ :: _, [], _ => by simp [Row.same]
  | v :: a, w :: b, h => by
    rw [Row.same, Bool.and_eq_true, (h v (by simp)).same_iff, Row.same_iff fun v' hv' => h v' (List.mem_cons_of_mem v hv'),
      List.cons.injEq]

theorem same_zip_iff : ∀ {xs ys : List Row}, (∀ a ∈ xs, ∀ v ∈ a, v.Plain) →
    ((xs.length = ys.length && (xs.zip ys).all fun p => Row.same p.1 p.2) = true ↔ xs = ys)
  | [], [], _ => by simp
  | [], _ :: _, _ => by simp
  | _ :: _, [], _ => by simp
  | a :: xs, b :: ys, h => by
    have ih := @same_zip_iff xs ys fun a' ha' => h a' (mem_cons_of_mem a ha')
    have hab : Row.same a b = true ↔ a = b := Row.same_iff (h a (by simp))
    simp only [Bool.and_eq_true, decide_eq_true_eq] at ih
    simp only [length_cons, zip_cons_cons, all_cons, Bool.and_eq_true, decide_eq_true_eq, cons.injEq,
      Nat.add_right_cancel_iff, hab, ← ih]
    tauto

/-! ### The rows of a view -/

/-- Rows as a view renders them: a first column of one type, distinct from row to row, no floats, and
an encoding. -/
structure ViewRows (t : ScalarType) (rows : List Row) : Prop where
  first : ∀ row ∈ rows, ∃ s rest, row = .scalar s :: rest ∧ s.type = t
  plain : ∀ row ∈ rows, ∀ v ∈ row, v.Plain
  encodes : ∀ row ∈ rows, ∃ b, RowValue.encodeAll row = .ok b
  nodup : (rows.map List.head?).Nodup

/-- The encoded first column of a view row. -/
def viewKey (row : Row) : Bytes := (RowValue.encodeAll (row.take 1)).toOption.getD []

/-- An encoded view row. -/
def viewBytes (row : Row) : Bytes := (RowValue.encodeAll row).toOption.getD []

namespace ViewRows

variable {t : ScalarType} {rows rows' before after : List Row} {row row' : Row}

theorem encodeAll_cons {v : RowValue} {vs : List RowValue} {b : Bytes} (h : RowValue.encodeAll (v :: vs) = .ok b) :
    ∃ a a', v.encode = .ok a ∧ RowValue.encodeAll vs = .ok a' ∧ b = a ++ a' := by
  rw [RowValue.encodeAll] at h
  simp only [bind_eq_ok] at h
  obtain ⟨a, ha, a', ha', h⟩ := h
  exact ⟨a, a', ha, ha', (Except.ok.inj h).symm⟩

section

variable (h : ViewRows t rows)
include h

theorem encoded (hrow : row ∈ rows) : ∃ s rest a a', row = .scalar s :: rest ∧ s.type = t ∧
    s.encode = .ok a ∧ RowValue.encodeAll row = .ok (a ++ a') ∧ viewKey row = a ∧ viewBytes row = a ++ a' := by
  obtain ⟨s, rest, rfl, ht⟩ := h.first row hrow
  obtain ⟨b, hb⟩ := h.encodes _ hrow
  obtain ⟨a, a', ha, ha', rfl⟩ := encodeAll_cons hb
  refine ⟨s, rest, a, a', rfl, ht, ha, hb, ?_, ?_⟩
  · have ha : RowValue.encode (.scalar s) = .ok a := ha
    simp only [viewKey, take_succ_cons, take_zero, RowValue.encodeAll, ha]
    exact append_nil a
  · rw [viewBytes, hb]
    rfl

theorem keyOf_eq (hrow : row ∈ rows) : MatView.keyOf row = .ok (viewKey row) := by
  obtain ⟨s, rest, a, a', rfl, -, ha, -, hkey, -⟩ := h.encoded hrow
  have ha : RowValue.encode (.scalar s) = .ok a := ha
  rw [hkey]
  simp only [MatView.keyOf, take_succ_cons, take_zero, RowValue.encodeAll, ha]
  exact congrArg Except.ok (append_nil a)

theorem encodeRow_eq (hrow : row ∈ rows) : MatView.encodeRow row = .ok (viewBytes row) := by
  obtain ⟨s, rest, a, a', rfl, -, -, hb, -, hbytes⟩ := h.encoded hrow
  rw [MatView.encodeRow, hb, hbytes]
  rfl

theorem prefix_iff (h' : ViewRows t rows') (hrow : row ∈ rows) (hrow' : row' ∈ rows') :
    viewKey row <+: viewBytes row' ↔ row.head? = row'.head? := by
  obtain ⟨s, rest, a, a', rfl, ht, ha, -, hkey, -⟩ := h.encoded hrow
  obtain ⟨s', rest', c, c', rfl, ht', hc, -, -, hbytes⟩ := h'.encoded hrow'
  rw [hkey, hbytes, head?_cons, head?_cons, Option.some.injEq, RowValue.scalar.injEq]
  constructor
  · rintro ⟨x, hx⟩
    exact Scalar.encode_append_inj (ht.trans ht'.symm) ha hc hx
  · rintro rfl
    cases ha.symm.trans hc
    exact prefix_append a c'

theorem key_iff (h' : ViewRows t rows') (hrow : row ∈ rows) (hrow' : row' ∈ rows') :
    viewKey row = viewKey row' ↔ row.head? = row'.head? := by
  obtain ⟨s, rest, a, a', rfl, ht, ha, -, hkey, -⟩ := h.encoded hrow
  obtain ⟨s', rest', c, c', rfl, ht', hc, -, hkey', -⟩ := h'.encoded hrow'
  rw [hkey, hkey', head?_cons, head?_cons, Option.some.injEq, RowValue.scalar.injEq]
  constructor
  · intro hac
    exact Scalar.encode_append_inj (ht.trans ht'.symm) ha hc (congrArg (· ++ []) hac)
  · rintro rfl
    exact Except.ok.inj (ha.symm.trans hc)

theorem eq_of_head (hrow : row ∈ rows) (hrow' : row' ∈ rows) (hhead : row.head? = row'.head?) :
    row = row' := inj_on_of_nodup_map h.nodup hrow hrow' hhead

end

/-! ### Lookup by key -/

theorem lookup_eq_some (h : ViewRows t before) (h' : ViewRows t after) (hrow : row ∈ after) {old : Row} :
    (before.map fun r => (viewKey r, r)).lookup (viewKey row) = some old ↔ old ∈ before ∧ old.head? = row.head? := by
  rw [lookup_eq_some_iff]
  constructor
  · rintro ⟨l₁, l₂, heq, -⟩
    have hmem : (viewKey row, old) ∈ before.map fun r => (viewKey r, r) := by simp [heq]
    obtain ⟨r, hr, heq⟩ := mem_map.mp hmem
    obtain ⟨hkey, rfl⟩ := Prod.mk.inj heq
    exact ⟨hr, (h.key_iff h' hr hrow).mp hkey⟩
  · rintro ⟨hold, hhead⟩
    obtain ⟨l₁, l₂, rfl⟩ := append_of_mem hold
    refine ⟨l₁.map fun r => (viewKey r, r), l₂.map fun r => (viewKey r, r), ?_, ?_⟩
    · rw [map_append, map_cons, (h.key_iff h' hold hrow).mpr hhead]
    intro p hp
    obtain ⟨r, hr, rfl⟩ := mem_map.mp hp
    have hr' : r ∈ l₁ ++ old :: l₂ := by simp [hr]
    refine bne_iff_ne.mpr fun hkey => ?_
    have hhead' := (h.key_iff h' hr' hrow).mp hkey.symm
    have hnodup := h.nodup
    rw [map_append, nodup_append] at hnodup
    exact hnodup.2.2 _ (mem_map_of_mem hr) _ (by simp) (hhead'.trans hhead.symm)

theorem lookup_isSome (h : ViewRows t before) (h' : ViewRows t after) (hrow : row ∈ after) :
    ((before.map fun r => (viewKey r, r)).lookup (viewKey row)).isSome = true ↔ ∃ old ∈ before, old.head? = row.head? := by
  simp only [Option.isSome_iff_exists, lookup_eq_some h h' hrow]

theorem changed_iff (h : ViewRows t before) (h' : ViewRows t after) (hrow : row ∈ after) :
    ((before.map fun r => (viewKey r, r)).lookup (viewKey row)).all (fun old => !Row.same old row) = true ↔ row ∉ before := by
  rw [Option.all_eq_true_iff_get]
  constructor
  · intro hall hmem
    have hlook := (lookup_eq_some h h' hrow).mpr ⟨hmem, rfl⟩
    have := hall (by rw [hlook]; rfl)
    simp only [hlook, Option.get_some, Bool.not_eq_true'] at this
    rw [(Row.same_iff (h.plain row hmem)).mpr rfl] at this
    simp at this
  · intro hnot hsome
    obtain ⟨old, hlook⟩ := Option.isSome_iff_exists.mp hsome
    obtain ⟨hold, -⟩ := (lookup_eq_some h h' hrow).mp hlook
    simp only [hlook, Option.get_some, Bool.not_eq_true']
    by_contra hsame
    rw [Bool.not_eq_false, Row.same_iff (h.plain old hold)] at hsame
    exact hnot (hsame ▸ hold)

/-! ### The delta -/

theorem mapM_eq_map {α β ε : Type} {f : α → Except ε β} {g : α → β} : ∀ {xs : List α}, (∀ x ∈ xs, f x = .ok (g x)) →
    xs.mapM f = .ok (xs.map g)
  | [], _ => rfl
  | x :: xs, h => by
    rw [List.mapM_cons, h x (by simp), mapM_eq_map fun x' hx' => h x' (List.mem_cons_of_mem x hx')]
    rfl

theorem keyed_eq (h : ViewRows t rows) : MatView.keyed rows = .ok (rows.map fun r => (viewKey r, r)) :=
  mapM_eq_map fun row hrow => by rw [h.keyOf_eq hrow]; rfl

theorem encodeRows_eq (h : ViewRows t rows) : rows.mapM MatView.encodeRow = .ok (rows.map viewBytes) :=
  mapM_eq_map fun _ hrow => h.encodeRow_eq hrow

/-- The rows that are not there any more. -/
def leaving (before after : List Row) : List Row :=
  (after.filter fun row => row ∉ before ∧ ∃ old ∈ before, old.head? = row.head?) ++
    before.filter fun old => ¬ ∃ row ∈ after, row.head? = old.head?

section

variable (h : ViewRows t before)
include h

section

variable (h' : ViewRows t after)
include h'

/-- The update: the new rows, and the keys of those that leave. -/
theorem delta_eq :
    MatView.delta (before.map fun r => (viewKey r, r)) (after.map fun r => (viewKey r, r)) =
      .ok ⟨(after.filter (· ∉ before)).map viewBytes, (leaving before after).map viewKey⟩ := by
  have hchanged : ((after.map fun r => (viewKey r, r)).filter fun p =>
      ((before.map fun r => (viewKey r, r)).lookup p.1).all fun old => !Row.same old p.2) =
      (after.filter (· ∉ before)).map fun r => (viewKey r, r) := by
    rw [filter_map]
    refine congrArg _ (List.filter_congr fun row hrow => ?_)
    rw [Bool.eq_iff_iff, decide_eq_true_iff]
    exact changed_iff h h' hrow
  have hinserts : ((after.filter (· ∉ before)).map fun r => (viewKey r, r)).mapM (fun p => MatView.encodeRow p.2) =
      .ok ((after.filter (· ∉ before)).map viewBytes) := by
    rw [mapM_eq_map (g := fun p => viewBytes p.2), map_map]
    · rfl
    · intro p hp
      obtain ⟨row, hrow, rfl⟩ := mem_map.mp hp
      exact h'.encodeRow_eq (mem_filter.mp hrow).1
  have hreplaced : ((((after.filter (· ∉ before)).map fun r => (viewKey r, r)).filter fun p =>
      ((before.map fun r => (viewKey r, r)).lookup p.1).isSome).map (·.1)) =
      (after.filter fun row => row ∉ before ∧ ∃ old ∈ before, old.head? = row.head?).map viewKey := by
    rw [filter_map, map_map, filter_filter]
    refine congrArg _ (List.filter_congr fun row hrow => ?_)
    rw [Bool.eq_iff_iff, Bool.and_eq_true, decide_eq_true_iff, decide_eq_true_iff, and_comm]
    exact and_congr_right fun _ => lookup_isSome h h' hrow
  have hgone : ((before.map fun r => (viewKey r, r)).filter fun p =>
      ((after.map fun r => (viewKey r, r)).lookup p.1).isNone).map (·.1) =
      (before.filter fun old => ¬ ∃ row ∈ after, row.head? = old.head?).map viewKey := by
    rw [filter_map, map_map]
    refine congrArg _ (List.filter_congr fun old hold => ?_)
    rw [Bool.eq_iff_iff, decide_eq_true_iff, ← lookup_isSome h' h hold, Bool.not_eq_true, Option.isSome_eq_false_iff]
    rfl
  simp only [MatView.delta, hchanged, hinserts, hreplaced, hgone, leaving, map_append]
  rfl

theorem hit_iff (hrow : row ∈ before) :
    ((leaving before after).map viewKey).any (·.isPrefixOf (viewBytes row)) = false ↔ row ∈ after := by
  rw [← Bool.not_eq_true, any_eq_true]
  constructor
  · intro hnone
    by_contra hnot
    refine hnone ⟨viewKey row, ?_, isPrefixOf_iff_prefix.mpr ((prefix_iff h h hrow hrow).mpr rfl)⟩
    by_cases hex : ∃ new ∈ after, new.head? = row.head?
    · obtain ⟨new, hnew, hhead⟩ := hex
      have hne : new ∉ before := fun hmem => hnot (h.eq_of_head hrow hmem hhead.symm ▸ hnew)
      rw [← (key_iff h' h hnew hrow).mpr hhead]
      exact mem_map_of_mem (mem_append_left _ (mem_filter.mpr
        ⟨hnew, decide_eq_true ⟨hne, row, hrow, hhead.symm⟩⟩))
    · exact mem_map_of_mem (mem_append_right _ (mem_filter.mpr ⟨hrow, decide_eq_true hex⟩))
  · rintro hmem ⟨k, hk, hbegins⟩
    obtain ⟨other, hother, rfl⟩ := mem_map.mp hk
    have hbegins := isPrefixOf_iff_prefix.mp hbegins
    rcases mem_append.mp hother with hother | hother
    · obtain ⟨hother, hcond⟩ := mem_filter.mp hother
      have hhead := (prefix_iff h' h hother hrow).mp hbegins
      exact (of_decide_eq_true hcond).1 (h'.eq_of_head hother hmem hhead ▸ hrow)
    · obtain ⟨hother, hcond⟩ := mem_filter.mp hother
      have hhead := (prefix_iff h h hother hrow).mp hbegins
      exact of_decide_eq_true hcond ⟨row, hmem, hhead.symm⟩

/-- **The delta leads from the old rows to the new ones.** -/
theorem receive_delta {client : List Bytes}
    (hclient : client.Perm (before.map viewBytes)) : (receive client (some ⟨(after.filter (· ∉ before)).map viewBytes,
      (leaving before after).map viewKey⟩)).Perm (after.map viewBytes) := by
  have hkept : (client.filter fun b => !((leaving before after).map viewKey).any (·.isPrefixOf b)).Perm
      ((before.filter (· ∈ after)).map viewBytes) := by
    refine (hclient.filter _).trans (.of_eq ?_)
    rw [filter_map]
    refine congrArg _ (List.filter_congr fun row hrow => ?_)
    rw [Bool.eq_iff_iff, decide_eq_true_iff, Function.comp, Bool.not_eq_true']
    exact hit_iff h h' hrow
  have hboth : (before.filter (· ∈ after)).Perm (after.filter (· ∈ before)) := by
    refine (perm_ext_iff_of_nodup (h.nodup.of_map.filter _) (h'.nodup.of_map.filter _)).mpr fun row => ?_
    simp only [mem_filter, decide_eq_true_eq]
    exact and_comm
  have hsplit : ((after.filter (· ∈ before)) ++ after.filter (· ∉ before)).Perm after := by
    have := filter_append_perm (· ∈ before) after
    simpa using this
  calc receive client (some ⟨(after.filter (· ∉ before)).map viewBytes, (leaving before after).map viewKey⟩)
      = (client.filter fun b => !((leaving before after).map viewKey).any (·.isPrefixOf b)) ++
          (after.filter (· ∉ before)).map viewBytes := rfl
    _ |>.Perm ((after.filter (· ∈ before)).map viewBytes ++ (after.filter (· ∉ before)).map viewBytes) :=
        (hkept.trans (hboth.map _)).append_right _
    _ |>.Perm (after.map viewBytes) := by
        rw [← map_append]
        exact hsplit.map _

/-- **The update of a commit brings the client the new rows.** -/
theorem exists_update {client : List Bytes} (hclient : client.Perm (before.map viewBytes)) :
    ∃ u, MatView.update before after = .ok u ∧ (receive client u).Perm (after.map viewBytes) := by
  unfold MatView.update
  by_cases heq : before = after
  · rw [if_pos ((same_zip_iff h.plain).mpr heq)]
    exact ⟨none, rfl, heq ▸ hclient⟩
  rw [if_neg fun hsame => heq ((same_zip_iff h.plain).mp hsame), h.keyed_eq, h'.keyed_eq]
  have hreceive := receive_delta h h' hclient
  refine ⟨_, bind_eq_ok.mpr ⟨_, rfl, bind_eq_ok.mpr ⟨_, rfl,
    bind_eq_ok.mpr ⟨_, delta_eq h h', rfl⟩⟩⟩, ?_⟩
  dsimp only
  split
  · rename_i hempty
    rw [Bool.and_eq_true, List.isEmpty_iff, List.isEmpty_iff] at hempty
    rw [hempty.1, hempty.2] at hreceive
    simpa [receive] using hreceive
  · exact hreceive

end

end

end ViewRows

end Fluxum
