/-
# What a view shows

The definition of a view, computed from the base rows alone: one row for each
group with the aggregate of its rows, or the first rows by value and encoded
primary key. A state that represents the base rows renders exactly that, as
long as the keys are in the order of the values: decimals are keyed by their
unscaled number before their scale, so they have to agree in the scale.
-/
import Fluxum.View.State

namespace Fluxum

open Std Grouped List ExtTreeMap OrdMap Option

/-! ### The order of the values -/

/-- The order of two values of one type; decimals by the number they stand for. -/
def Scalar.order : Scalar → Scalar → Ordering
  | .bool a, .bool b => compare a b
  | .identity a, .identity b => compare a.toList b.toList
  | .blob a, .blob b => compare a.toList b.toList
  | .connectionId a, .connectionId b => compare a.toNat b.toNat
  | .decimal u s, .decimal u' s' => compare (u.toInt * 10 ^ s'.toNat) (u'.toInt * 10 ^ s.toNat)
  | a, b => (a.cmp b).getD .eq

def RowValue.order : RowValue → RowValue → Ordering
  | .scalar a, .scalar b => a.order b
  | _, _ => .eq

/-- The scale of a decimal. -/
def RowValue.scale : RowValue → Option UInt8
  | .scalar (.decimal _ s) => some s
  | _ => none

theorem compare_mul_right {a b : Int} {k : Int} (hk : 0 < k) : compare (a * k) (b * k) = compare a b := by
  rcases Int.lt_trichotomy a b with h | rfl | h
  · rw [Int.compare_eq_lt.mpr h, Int.compare_eq_lt.mpr (Int.mul_lt_mul_of_pos_right h hk)]
  · rw [compare_self, compare_self]
  · rw [Int.compare_eq_gt.mpr h, Int.compare_eq_gt.mpr (Int.mul_lt_mul_of_pos_right h hk)]

theorem Scalar.compare_encodeValue {v w : Scalar} (ht : v.type = w.type)
    (hkey : (FluxType.scalar v.type).isKeyable = true) (hf : (FluxType.scalar v.type).isFloat = false)
    (hs : (RowValue.scalar v).scale = (RowValue.scalar w).scale) : compare v.encodeValue w.encodeValue = v.order w := by
  by_cases hc : v.type.comparable = true
  · have hcmp := Scalar.cmp_eq_compare ht hc
    cases v <;> simp only [Scalar.type, ScalarType.comparable, Bool.false_eq_true] at hc <;>
      cases w <;> simp only [Scalar.type, reduceCtorEq] at ht <;> simp only [Scalar.order, hcmp, getD_some]
  · cases v <;> simp only [Scalar.type, ScalarType.comparable, not_true_eq_false] at hc <;>
      cases w <;> simp only [Scalar.type, reduceCtorEq] at ht <;>
      first | simp [Scalar.type, FluxType.isKeyable, FluxType.isFloat, FluxType.scalarOf] at hkey hf; done | skip
    case bool.bool a b => cases a <;> cases b <;> rfl
    case identity.identity a b => rfl
    case blob.blob a b => rfl
    case connectionId.connectionId a b =>
      simp only [Scalar.encodeValue, Scalar.order]
      rw [compare_beBytes (a.isLt.trans_le (by decide)) (b.isLt.trans_le (by decide))]
    case decimal.decimal u s u' s' =>
      cases hs
      simp only [Scalar.encodeValue, Scalar.order]
      rw [Lex.compare_append_of_length (by simp), compare_self,
        compare_beBytes ((flipSign u).isLt.trans_le (by decide)) ((flipSign u').isLt.trans_le (by decide)),
        compare_flipSign (by decide), compare_mul_right (Int.pow_pos (by decide))]
      cases compare u.toInt u'.toInt <;> rfl

/-- **Key order is value order**, for decimals of one scale. -/
theorem compare_encodeValue {ty : FluxType} {v w : RowValue} (hv : v.matchesType ty = true) (hw : w.matchesType ty = true)
    (hkey : ty.isKeyable = true) (hf : ty.isFloat = false) (hs : v.scale = w.scale) :
    compare (encodeValue v) (encodeValue w) = v.order w := by
  cases ty with
  | scalar t =>
    cases v <;> cases w <;> simp only [RowValue.matchesType, decide_eq_true_eq, reduceCtorEq] at hv hw
    subst hv
    exact Scalar.compare_encodeValue hw.symm hkey hf hs
  | _ => simp [FluxType.isKeyable] at hkey

/-! ### The definition of a view -/

/-- The value is the aggregate of the rows of a group. -/
def IsAggregate (agg : MvAggregate) (value : Option Nat) (rows : List Row) (v : RowValue) : Prop :=
  match agg, value with
  | .count, _ => ∃ n : BitVec 64, v = .scalar (.i64 n) ∧ n.toInt = rows.length
  | .sum _, some o => ∃ n : BitVec 64, v = .scalar (.i64 n) ∧ n.toInt = (rows.map fun r => (valueAt o r).toInt).sum
  | .min _, some o => v ∈ rows.map (valueAt o) ∧ ∀ w ∈ rows.map (valueAt o), v.order w ≠ .gt
  | .max _, some o => v ∈ rows.map (valueAt o) ∧ ∀ w ∈ rows.map (valueAt o), v.order w ≠ .lt
  | _, _ => False

/-- One row for each group: the group and the aggregate of its rows. -/
structure IsGrouped (agg : MvAggregate) (value group : Option Nat) (rows out : List Row) : Prop where
  groups : (out.map List.head?).Perm ((rows.map (groupOf group)).dedup.map some)
  aggregates : ∀ row ∈ out, ∃ g v, row = [g, v] ∧ IsAggregate agg value (rows.filter (groupOf group · = g)) v

/-- By value in the direction, then by encoded primary key. -/
def Precedes (schema : TableSchema) (o : Nat) (descending : Bool) (a b : Row) : Prop :=
  ((if descending then (valueAt o b).order (valueAt o a) else (valueAt o a).order (valueAt o b)).then
    (compare (pkOf schema a) (pkOf schema b))) = .lt

/-- The first rows in order: rank, value and encoded primary key. -/
def IsWindow (schema : TableSchema) (o : Nat) (descending : Bool) (limit : Nat) (rows out : List Row) : Prop :=
  ∃ sorted : List Row, sorted.Perm rows ∧ sorted.Pairwise (Precedes schema o descending) ∧
    out = (sorted.take limit).mapIdx fun i r =>
      [.scalar (.u32 (BitVec.ofNat 32 (i + 1))), valueAt o r, .scalar (.bytes (pkOf schema r))]

namespace ResolvedView

/-- The rows of the view over the base rows. -/
def IsView (view : ResolvedView) (rows out : List Row) : Prop :=
  match view.kind with
  | .aggregate agg value group => IsGrouped agg value group rows out
  | .topN o descending limit => IsWindow view.tableSchema o descending limit rows out

/-- What the view compares: the values of one group under `MIN` and `MAX`, or all in a window. -/
def Compared (view : ResolvedView) (o : Nat) (r r' : Row) : Prop :=
  match view.kind with
  | .aggregate (.min _) value group | .aggregate (.max _) value group => value = some o ∧ groupOf group r = groupOf group r'
  | .topN ordinal _ _ => ordinal = o
  | _ => False

/-- The decimals that the view compares have one scale. -/
def OneScale (view : ResolvedView) (rows : List Row) : Prop :=
  ∀ o, ∀ r ∈ rows, ∀ r' ∈ rows, view.Compared o r r' → (valueAt o r).scale = (valueAt o r').scale

/-- Counts and sums fit an `i64`. -/
def FitsI64 (view : ResolvedView) (rows : List Row) : Prop :=
  match view.kind with
  | .aggregate (.sum _) (some o) group => ∀ g, -2 ^ 63 ≤ ((rows.filter (groupOf group · = g)).map fun r => (valueAt o r).toInt).sum ∧
      ((rows.filter (groupOf group · = g)).map fun r => (valueAt o r).toInt).sum < 2 ^ 63
  | _ => rows.length < 2 ^ 63

/-- A resolved view of the kinds `COUNT`, `SUM`, `MIN`, `MAX` and top-N over keyable columns without
floats. -/
structure Supported (view : ResolvedView) : Prop where
  keyable : ∀ o ∈ view.columns, view.KeyableColumn o
  value : ∀ agg value group, view.kind = .aggregate agg value group → (agg = .count ∨ value.isSome) ∧ ∀ c, agg ≠ .avg c
  limit : ∀ o desc limit, view.kind = .topN o desc limit → limit < 2 ^ 32

variable {view : ResolvedView} {rows : List Row} {state : ViewState}

/-- On rows whose scales agree the order of the keys is that of the values. -/
theorem Supported.compare_valueAt (hsup : view.Supported) {o : Nat} (ho : o ∈ view.columns) {r r' : Row} (hr : view.RowOk r)
    (hr' : view.RowOk r') (hs : (valueAt o r).scale = (valueAt o r').scale) :
    compare (encodeValue (valueAt o r)) (encodeValue (valueAt o r')) = (valueAt o r).order (valueAt o r') := by
  obtain ⟨c, hc, hkey, hf⟩ := hsup.keyable o ho
  obtain ⟨c₁, v, hc₁, hv, hty, -⟩ := hr.typed o ho
  obtain ⟨c₂, v', hc₂, hv', hty', -⟩ := hr'.typed o ho
  cases hc.symm.trans hc₁
  cases hc.symm.trans hc₂
  rw [valueAt, valueAt, hv, hv', getD_some, getD_some] at hs ⊢
  exact compare_encodeValue hty hty' hkey hf hs

/-! ### Rendering an aggregate -/

section Aggregate

variable {agg : MvAggregate} {value group : Option Nat} {acc : GroupAcc} {l : List Row}

theorem toInt_ofInt {n : Int} (hle : -2 ^ 63 ≤ n) (hlt : n < 2 ^ 63) : (BitVec.ofInt 64 n).toInt = n := by
  rw [BitVec.toInt_ofInt]
  exact Int.bmod_eq_of_le (by omega) (by omega)

theorem Supported.extreme (hsup : view.Supported) {o : Nat} (ho : o ∈ view.columns) (hl : ∀ r ∈ l, view.RowOk r)
    (hscale : ∀ r ∈ l, ∀ r' ∈ l, (valueAt o r).scale = (valueAt o r').scale) (hne : l ≠ [])
    (h : Summarises (fun r => encodeValue (valueAt o r)) (TallyOf o) l acc.values) (c : Ordering)
    {last : List (Bytes × RowValue × Int) → Option (Bytes × RowValue × Int)}
    (hmem : ∀ xs p, last xs = some p → p ∈ xs) (hsome : ∀ xs, xs ≠ [] → ∃ p, last xs = some p)
    (hlast : ∀ p q, last acc.values.toList = some p → q ∈ acc.values.toList → compare p.1 q.1 ≠ c) :
    ∃ v, last acc.values.toList = some v ∧ v.2.1 ∈ l.map (valueAt o) ∧ ∀ w ∈ l.map (valueAt o), v.2.1.order w ≠ c := by
  obtain ⟨r₀, hr₀⟩ := exists_mem_of_ne_nil l hne
  obtain ⟨e, he⟩ := h.exists_entry hr₀
  obtain ⟨p, hp⟩ := hsome _ (ne_nil_of_mem he)
  obtain ⟨htally, r, hgroup, hr, hkey⟩ := h.of_entry (hmem _ _ hp)
  have hv := htally.2 r hgroup
  refine ⟨p, hp, mem_map.mpr ⟨r, hr, hv⟩, fun w hw => ?_⟩
  obtain ⟨r', hr', rfl⟩ := mem_map.mp hw
  obtain ⟨e', he'⟩ := h.exists_entry hr'
  have hne := hlast p _ hp he'
  rwa [← hkey, hsup.compare_valueAt ho (hl r hr) (hl r' hr') (hscale r hr r' hr'), hv] at hne

/-- The rendered value of a group is its aggregate. -/
theorem Supported.isAggregate (fl : FloatOps) (hsup : view.Supported) (hkind : view.kind = .aggregate agg value group)
    (hok : view.BaseOk rows) (hscale : view.OneScale rows) (hfits : view.FitsI64 rows) {r : Row} (hr : r ∈ rows)
    (hacc : AccOf value group (rows.filter (groupOf group · = groupOf group r)) acc) :
    IsAggregate agg value (rows.filter (groupOf group · = groupOf group r)) (aggregateValue fl agg acc) := by
  obtain ⟨hvalue, havg⟩ := hsup.value agg value group hkind
  have hl : ∀ r' ∈ rows.filter (groupOf group · = groupOf group r), view.RowOk r' := fun r' hr' =>
    hok.row r' (mem_filter.mp hr').1
  have hne : rows.filter (groupOf group · = groupOf group r) ≠ [] := ne_nil_of_mem (mem_filter.mpr ⟨hr, by simp⟩)
  have hcompared : ∀ o, (∀ a b, groupOf group a = groupOf group b → view.Compared o a b) →
      ∀ a ∈ rows.filter (groupOf group · = groupOf group r), ∀ b ∈ rows.filter (groupOf group · = groupOf group r),
        (valueAt o a).scale = (valueAt o b).scale := by
    intro o hcmp a ha b hb
    obtain ⟨ha, hga⟩ := mem_filter.mp ha
    obtain ⟨hb, hgb⟩ := mem_filter.mp hb
    exact hscale o a ha b hb (hcmp a b ((of_decide_eq_true hga).trans (of_decide_eq_true hgb).symm))
  cases agg with
  | count =>
    have hlen := length_filter_le (groupOf group · = groupOf group r) rows
    simp only [FitsI64, hkind] at hfits
    exact ⟨_, rfl, by rw [hacc.count]; exact toInt_ofInt (by omega) (by omega)⟩
  | avg c => exact absurd rfl (havg c)
  | sum c =>
    obtain ⟨o, rfl⟩ := isSome_iff_exists.mp (hvalue.resolve_left (by simp))
    simp only [FitsI64, hkind] at hfits
    have hsum := hacc.sum
    simp only [map_some, elim_some] at hsum
    obtain ⟨hle, hlt⟩ := hfits (groupOf group r)
    rw [← hsum] at hle hlt
    refine ⟨BitVec.ofInt 64 acc.sumInt, ?_, by rw [toInt_ofInt hle hlt, hsum]⟩
    rw [aggregateValue, hacc.float, if_pos (by decide), if_pos ⟨hle, hlt⟩]
  | min c =>
    obtain ⟨o, rfl⟩ := isSome_iff_exists.mp (hvalue.resolve_left (by simp))
    obtain ⟨p, hp, hspec⟩ := hsup.extreme (o := o) (by simp [columns, hkind]) hl
      (hcompared o fun a b hab => by simp [Compared, hkind, hab]) hne hacc.values .gt
      (fun _ _ => mem_of_mem_head?) (fun xs hxs => ⟨xs.head hxs, head?_eq_some_head hxs⟩)
      (fun _ _ hp hq => compare_head_toList hp hq)
    rw [aggregateValue, hp]
    exact hspec
  | max c =>
    obtain ⟨o, rfl⟩ := isSome_iff_exists.mp (hvalue.resolve_left (by simp))
    obtain ⟨p, hp, hspec⟩ := hsup.extreme (o := o) (by simp [columns, hkind]) hl
      (hcompared o fun a b hab => by simp [Compared, hkind, hab]) hne hacc.values .lt
      (fun _ _ => mem_of_getLast?) (fun xs hxs => ⟨xs.getLast hxs, getLast?_eq_some_getLast hxs⟩)
      (fun _ _ hp hq => compare_getLast_toList hp hq)
    rw [aggregateValue, hp]
    exact hspec

theorem groups_entry (hcols : ∀ o ∈ group, o ∈ view.columns) (hok : view.BaseOk rows)
    (h : Summarises (fun r => encodeValue (groupOf group r)) (AccOf value group) rows state.groups)
    {p : Bytes × GroupAcc} (hp : p ∈ state.groups.toList) : ∃ r ∈ rows, p.1 = encodeValue (groupOf group r) ∧
      p.2.groupValue = some (groupOf group r) ∧ AccOf value group (rows.filter (groupOf group · = groupOf group r)) p.2 := by
  obtain ⟨hacc, r, hr, hrow, hkey⟩ := h.of_entry hp
  refine ⟨r, hrow, hkey.symm, hacc.group r hr, ?_⟩
  -- the rows of a group have one group value
  have hgroup : rows.filter (groupOf group · = groupOf group r) =
      Grouped.group (fun r => encodeValue (groupOf group r)) p.1 rows := by
    refine filter_congr fun r' hr' => ?_
    rw [decide_eq_decide, ← hkey]
    exact ⟨congrArg encodeValue, (hok.row r' hr').groupOf_inj (hok.row r hrow) hcols⟩
  rwa [hgroup]

theorem isGrouped (fl : FloatOps) (hsup : view.Supported) (hkind : view.kind = .aggregate agg value group)
    (hok : view.BaseOk rows) (hscale : view.OneScale rows) (hfits : view.FitsI64 rows)
    (h : Summarises (fun r => encodeValue (groupOf group r)) (AccOf value group) rows state.groups) :
    IsGrouped agg value group rows
      (state.groups.toList.map fun p => [p.2.groupValue.getD globalGroup, aggregateValue fl agg p.2]) := by
  have hcols : ∀ o ∈ group, o ∈ view.columns := by simp [columns, hkind]; tauto
  refine ⟨?_, ?_⟩
  · have hgs : (state.groups.toList.map fun p => [p.2.groupValue.getD globalGroup, aggregateValue fl agg p.2]).map
        head? = (state.groups.toList.map fun p => p.2.groupValue.getD globalGroup).map some := by simp
    rw [hgs]
    refine Perm.map some ((perm_ext_iff_of_nodup ?_ (nodup_dedup _)).mpr fun g => ?_)
    · -- the keys of the map are the encodings of its groups
      refine Nodup.of_map encodeValue ?_
      have hkeys : (state.groups.toList.map fun p => p.2.groupValue.getD globalGroup).map encodeValue =
          state.groups.toList.map Prod.fst := by
        rw [List.map_map]
        refine map_congr_left fun p hp => ?_
        obtain ⟨r, -, hkey, hg, -⟩ := groups_entry hcols hok h hp
        rw [Function.comp, hg, getD_some, hkey]
      rw [hkeys]
      exact nodup_keys_toList _
    · rw [List.mem_dedup, List.mem_map, List.mem_map]
      constructor
      · rintro ⟨p, hp, rfl⟩
        obtain ⟨r, hr, -, hg, -⟩ := groups_entry hcols hok h hp
        exact ⟨r, hr, by rw [hg, getD_some]⟩
      · rintro ⟨r, hr, rfl⟩
        obtain ⟨acc, hp⟩ := h.exists_entry hr
        obtain ⟨r', hr', hkey, hg, -⟩ := groups_entry hcols hok h hp
        refine ⟨_, hp, ?_⟩
        rw [hg, getD_some, (hok.row r hr).groupOf_inj (hok.row r' hr') hcols hkey]
  · intro row hrow
    obtain ⟨p, hp, rfl⟩ := mem_map.mp hrow
    obtain ⟨r, hr, -, hg, hacc⟩ := groups_entry hcols hok h hp
    refine ⟨_, _, rfl, ?_⟩
    rw [hg, getD_some]
    exact hsup.isAggregate fl hkind hok hscale hfits hr hacc

end Aggregate

/-! ### Rendering a window -/

theorem exists_map_eq {α β : Type*} {f : α → β} {xs : List α} : ∀ {ys : List β}, (∀ y ∈ ys, ∃ x ∈ xs, f x = y) →
    ∃ zs : List α, zs.map f = ys ∧ ∀ z ∈ zs, z ∈ xs
  | [], _ => ⟨[], rfl, by simp⟩
  | y :: ys, h => by
    obtain ⟨x, hx, rfl⟩ := h y (by simp)
    obtain ⟨zs, rfl, hzs⟩ := exists_map_eq fun y' hy' => h y' (mem_cons_of_mem _ hy')
    exact ⟨x :: zs, rfl, by simpa using ⟨hx, hzs⟩⟩

variable {o : Nat} {desc : Bool}

theorem compare_complement (a b : UInt8) : compare (255 - a) (255 - b) = compare b a := by
  have ha := a.toNat_lt
  have hb := b.toNat_lt
  rw [compare_toNat, compare_toNat, UInt8.toNat_sub_of_le _ _ (UInt8.le_iff_toNat_le.mpr (by simpa using Nat.le_of_lt_succ ha)),
    UInt8.toNat_sub_of_le _ _ (UInt8.le_iff_toNat_le.mpr (by simpa using Nat.le_of_lt_succ hb))]
  rcases Nat.lt_trichotomy a.toNat b.toNat with h | h | h
  · rw [Nat.compare_eq_gt.mpr h, Nat.compare_eq_gt.mpr (by simp; omega)]
  · rw [h, compare_self, compare_self]
  · rw [Nat.compare_eq_lt.mpr h, Nat.compare_eq_lt.mpr (by simp; omega)]

/-- **The order keys are in the order of the window.** -/
theorem Supported.compare_orderKey (hsup : view.Supported) (ho : o ∈ view.columns) {r r' : Row} (hr : view.RowOk r)
    (hr' : view.RowOk r') (hs : (valueAt o r).scale = (valueAt o r').scale) :
    compare (orderKey view.tableSchema o desc r) (orderKey view.tableSchema o desc r') =
      (if desc then (valueAt o r').order (valueAt o r) else (valueAt o r).order (valueAt o r')).then
        (compare (pkOf view.tableSchema r) (pkOf view.tableSchema r')) := by
  have hbegins : encodeValue (valueAt o r) <+: encodeValue (valueAt o r') ∨
      encodeValue (valueAt o r') <+: encodeValue (valueAt o r) → encodeValue (valueAt o r) = encodeValue (valueAt o r') := by
    obtain ⟨c, v, hc, hv, hty, -⟩ := hr.typed o ho
    obtain ⟨c', v', hc', hv', hty', -⟩ := hr'.typed o ho
    cases hc.symm.trans hc'
    rw [valueAt, valueAt, hv, hv', getD_some, getD_some]
    exact encodeValue_eq_of_isPrefix hty hty'
  unfold orderKey
  cases desc with
  | false =>
    simp only [Bool.false_eq_true, if_false]
    rw [Lex.compare_append hbegins, hsup.compare_valueAt ho hr hr' hs]
  | true =>
    simp only [if_true]
    have hinv : invert (encodeValue (valueAt o r)) <+: invert (encodeValue (valueAt o r')) ∨
        invert (encodeValue (valueAt o r')) <+: invert (encodeValue (valueAt o r)) →
        invert (encodeValue (valueAt o r)) = invert (encodeValue (valueAt o r')) := by
      have hback : ∀ a b : Bytes, invert a <+: invert b → a <+: b := by
        rintro a b ⟨t, ht⟩
        exact ⟨invert t, by rw [← invert_invert a, ← invert_append, ht, invert_invert]⟩
      exact fun h => congrArg invert (hbegins (h.imp (hback _ _) (hback _ _)))
    rw [Lex.compare_append hinv, invert, invert, Lex.compare_map_of_reverses compare_complement hbegins,
      hsup.compare_valueAt ho hr' hr hs.symm]

theorem isWindow (hsup : view.Supported) {limit : Nat} (hkind : view.kind = .topN o desc limit) (hok : view.BaseOk rows)
    (hscale : view.OneScale rows) (h : Summarises (orderKey view.tableSchema o desc)
      (fun l entry => ∀ r ∈ l, entry = (valueAt o r, pkOf view.tableSchema r)) rows state.ordered) :
    IsWindow view.tableSchema o desc limit rows
      ((state.ordered.toList.take limit).zipIdx.map fun p => windowRow p.2 p.1.2) := by
  have ho : o ∈ view.columns := by simp [columns, hkind]
  have hscale' : ∀ r ∈ rows, ∀ r' ∈ rows, (valueAt o r).scale = (valueAt o r').scale := fun r hr r' hr' =>
    hscale o r hr r' hr' (by simp [Compared, hkind])
  have hentry : ∀ p ∈ state.ordered.toList, ∃ r ∈ rows,
      (orderKey view.tableSchema o desc r, valueAt o r, pkOf view.tableSchema r) = p := by
    intro p hp
    obtain ⟨hs, r, hgroup, hr, hkey⟩ := h.of_entry hp
    exact ⟨r, hr, Prod.ext hkey (hs r hgroup).symm⟩
  obtain ⟨sorted, hsorted, hmem⟩ := exists_map_eq hentry
  refine ⟨sorted, ?_, ?_, ?_⟩
  · -- both list every row once
    have hkeys := nodup_keys_toList state.ordered
    rw [← hsorted, List.map_map] at hkeys
    refine (perm_ext_iff_of_nodup hkeys.of_map hok.nodup.of_map).mpr fun r => ⟨hmem r, fun hr => ?_⟩
    obtain ⟨e, he⟩ := h.exists_entry hr
    rw [← hsorted] at he
    obtain ⟨r', hr', heq⟩ := mem_map.mp he
    have hpk := (hok.row r' (hmem r' hr')).orderKey_inj (hok.row r hr) ho (congrArg Prod.fst heq)
    rwa [← inj_on_of_nodup_map hok.nodup (hmem r' hr') hr hpk]
  · have hpair := state.ordered.ordered_keys_toList
    rw [← hsorted, pairwise_map] at hpair
    refine hpair.imp_of_mem fun {a b} ha hb hlt => ?_
    have ha := hmem a ha
    have hb := hmem b hb
    rwa [hsup.compare_orderKey ho (hok.row a ha) (hok.row b hb) (hscale' a ha b hb)] at hlt
  · have hlimit := hsup.limit o desc limit hkind
    rw [← hsorted]
    refine ext_getElem (by simp) fun i hi hi' => ?_
    have hrank : ¬ 4294967295 ≤ i := by
      simp only [length_mapIdx, length_take] at hi'
      omega
    simp [windowRow, hrank]

/-- **A state that represents the base rows renders the view.** -/
theorem Represents.isView (fl : FloatOps) (h : view.Represents rows state) (hsup : view.Supported) (hok : view.BaseOk rows)
    (hscale : view.OneScale rows) (hfits : view.FitsI64 rows) : view.IsView rows (view.renderAll fl state) := by
  cases hkind : view.kind with
  | aggregate agg value group =>
    simp only [Represents, hkind] at h
    simp only [IsView, renderAll, hkind]
    exact isGrouped fl hsup hkind hok hscale hfits h.1
  | topN o descending limit =>
    simp only [Represents, hkind] at h
    simp only [IsView, renderAll, hkind]
    exact isWindow hsup hkind hok hscale h.2

end ResolvedView

end Fluxum
