/-
# The state of a view is determined by the base rows

The maps of a view summarise the base rows group by group: the accumulators
of each group, in them the count of each value, and the rows of a window by
their order keys. `Represents` says so, a row that comes or goes keeps it,
and only one state represents a given table. So the state kept up to date
from the diffs is the state rebuilt from the base table.
-/
import Mathlib.Algebra.BigOperators.Group.List.Basic
import Fluxum.Lib.Grouped
import Fluxum.View.MatView
import Fluxum.Query.KeyOrder

namespace Fluxum

open Std Grouped List

/-! ### Base rows -/

/-- `FluxType::is_keyable`. -/
def FluxType.isKeyable : FluxType → Bool
  | .scalar .bytes => false
  | .scalar _ => true
  | _ => false

def valueAt (o : Nat) (row : Row) : RowValue := row[o]?.getD globalGroup

/-- The integer that a value stands for in a sum. -/
def RowValue.toInt : RowValue → Int
  | .scalar (.i8 v) => v.toInt
  | .scalar (.i16 v) => v.toInt
  | .scalar (.i32 v) => v.toInt
  | .scalar (.i64 v) => v.toInt
  | .scalar (.u8 v) => v.toNat
  | .scalar (.u16 v) => v.toNat
  | .scalar (.u32 v) => v.toNat
  | .scalar (.u64 v) => v.toNat
  | _ => 0

/-- The encoded primary key of a row that has one. -/
def pkOf (schema : TableSchema) (row : Row) : Bytes := (encodePkOfRow schema row).toOption.getD []

namespace ResolvedView

/-- The columns that the view reads. -/
def columns (view : ResolvedView) : List Nat :=
  match view.kind with
  | .aggregate _ value group => value.toList ++ group.toList
  | .topN ordinal _ _ => [ordinal]

/-- A keyable column without floats. -/
def KeyableColumn (view : ResolvedView) (o : Nat) : Prop :=
  ∃ c, view.tableSchema.columns[o]? = some c ∧ c.ty.isKeyable = true ∧ c.ty.isFloat = false

/-- A base row, with values of the declared types in the columns of the view. -/
structure RowOk (view : ResolvedView) (row : Row) : Prop where
  typed : ∀ o ∈ view.columns, ∃ c v, view.tableSchema.columns[o]? = some c ∧ row[o]? = some v ∧ v.matchesType c.ty = true ∧
    c.ty.isFloat = false
  key : encodePkOfRow view.tableSchema row = .ok (pkOf view.tableSchema row)

/-- The rows of a base table: each key once. -/
structure BaseOk (view : ResolvedView) (rows : List Row) : Prop where
  row : ∀ r ∈ rows, view.RowOk r
  nodup : (rows.map (pkOf view.tableSchema)).Nodup

variable {view : ResolvedView} {r r' : Row} {rows rows' : List Row} {o : Nat}

theorem BaseOk.perm (h : view.BaseOk rows) (hp : rows.Perm rows') : view.BaseOk rows' :=
  ⟨fun r hr => h.row r (hp.mem_iff.mpr hr), (hp.map _).nodup_iff.mp h.nodup⟩

theorem BaseOk.of_append {l : List Row} (h : view.BaseOk (l ++ rows)) : view.BaseOk rows :=
  ⟨fun r hr => h.row r (mem_append_right l hr), (nodup_append.mp (map_append ▸ h.nodup)).2.1⟩

theorem BaseOk.tail (h : view.BaseOk (r :: rows)) : view.BaseOk rows := of_append (l := [r]) h

theorem RowOk.getElem? (h : view.RowOk r) (ho : o ∈ view.columns) : r[o]? = some (valueAt o r) := by
  obtain ⟨c, v, -, hv, -⟩ := h.typed o ho
  rw [valueAt, hv, Option.getD_some]

theorem RowOk.valueAt_append_inj (h : view.RowOk r) (h' : view.RowOk r') (ho : o ∈ view.columns) {a b : Bytes}
    (heq : encodeValue (valueAt o r) ++ a = encodeValue (valueAt o r') ++ b) : valueAt o r = valueAt o r' ∧ a = b := by
  obtain ⟨c, v, hc, hv, hty, -⟩ := h.typed o ho
  obtain ⟨c', v', hc', hv', hty', -⟩ := h'.typed o ho
  cases hc.symm.trans hc'
  rw [valueAt, valueAt, hv, hv', Option.getD_some, Option.getD_some] at heq ⊢
  exact encodeValue_append_inj hty hty' heq

theorem RowOk.valueAt_inj (h : view.RowOk r) (h' : view.RowOk r') (ho : o ∈ view.columns)
    (heq : encodeValue (valueAt o r) = encodeValue (valueAt o r')) : valueAt o r = valueAt o r' :=
  (h.valueAt_append_inj h' ho (congrArg (· ++ []) heq)).1

end ResolvedView

/-! ### The accumulators of a group -/

/-- How often a value occurs. -/
def TallyOf (o : Nat) (rows : List Row) (entry : RowValue × Int) : Prop :=
  entry.2 = rows.length ∧ ∀ r ∈ rows, valueAt o r = entry.1

/-- The accumulators of the rows of one group. -/
structure AccOf (value group : Option Nat) (rows : List Row) (acc : GroupAcc) : Prop where
  group : ∀ r ∈ rows, acc.groupValue = some (groupOf group r)
  fresh : rows = [] → acc.groupValue = none
  count : acc.count = rows.length
  sum : acc.sumInt = (rows.map fun r => (value.map (valueAt · r)).elim 0 RowValue.toInt).sum
  float : acc.sumFloat = 0
  values : value.elim (acc.values = ∅) fun o => Summarises (fun r => encodeValue (valueAt o r)) (TallyOf o) rows acc.values

variable {o : Nat}

theorem TallyOf.perm {l l' : List Row} {e : RowValue × Int} (hp : l.Perm l') (h : TallyOf o l e) : TallyOf o l' e :=
  ⟨by rw [h.1, hp.length_eq], fun r hr => h.2 r (hp.mem_iff.mpr hr)⟩

theorem TallyOf.unique {l : List Row} {e e' : RowValue × Int} (hne : l ≠ []) (h : TallyOf o l e)
    (h' : TallyOf o l e') : e = e' := by
  obtain ⟨r, hr⟩ := exists_mem_of_ne_nil l hne
  exact Prod.ext ((h.2 r hr).symm.trans (h'.2 r hr)) (h.1.trans h'.1.symm)

namespace AccOf

variable {value group : Option Nat} {l l' : List Row} {acc acc' : GroupAcc}

theorem empty (value group : Option Nat) : AccOf value group [] .default :=
  ⟨by simp, fun _ => rfl, rfl, rfl, rfl, by cases value <;> [rfl; exact .empty _ _]⟩

theorem perm (hp : l.Perm l') (h : AccOf value group l acc) : AccOf value group l' acc where
  group r hr := h.group r (hp.mem_iff.mpr hr)
  fresh hnil := h.fresh (hnil ▸ hp).eq_nil
  count := by rw [h.count, hp.length_eq]
  sum := by rw [h.sum, (hp.map _).sum_eq]
  float := h.float
  values := by
    have hv := h.values
    cases value with
    | none => exact hv
    | some o => exact hv.perm (fun _ _ _ hp h => h.perm hp) hp

theorem unique (hne : l ≠ []) (h : AccOf value group l acc) (h' : AccOf value group l acc') : acc = acc' := by
  obtain ⟨r, hr⟩ := exists_mem_of_ne_nil l hne
  have hg : acc.groupValue = acc'.groupValue := (h.group r hr).trans (h'.group r hr).symm
  have hv : acc.values = acc'.values := by
    have hv := h.values
    have hv' := h'.values
    cases value with
    | none => exact hv.trans hv'.symm
    | some o => exact hv.unique (fun _ _ _ hne h h' => h.unique hne h') hv'
  cases acc
  cases acc'
  exact GroupAcc.mk.injEq .. ▸ ⟨hg, h.count.trans h'.count.symm, h.sum.trans h'.sum.symm, h.float.trans h'.float.symm, hv⟩

end AccOf

theorem GroupAcc.add_eq (fl : FloatOps) (acc : GroupAcc) (sign : Int) (g : RowValue) (value : Option RowValue)
    (hnum : ∀ v ∈ value, numericOf fl v = none ∧ v.toInt = 0 ∨ numericOf fl v = some (.int v.toInt)) :
    acc.add fl sign g value = ⟨some (acc.groupValue.getD g), acc.count + sign, acc.sumInt + sign * value.elim 0 RowValue.toInt,
      acc.sumFloat, value.elim acc.values fun v => (acc.addValue sign v).values⟩ := by
  cases value with
  | none => simp [GroupAcc.add]
  | some v =>
    rcases hnum v rfl with ⟨hn, h0⟩ | hn <;> simp [GroupAcc.add, GroupAcc.addNumeric, GroupAcc.addValue, *]

section Rows

open ResolvedView

variable {view : ResolvedView} {agg : MvAggregate} {value group : Option Nat} {r : Row} {l : List Row} {acc : GroupAcc}

theorem tally_put (ho : o ∈ view.columns) (hr : view.RowOk r) (hl : ∀ r' ∈ l, view.RowOk r')
    (h : Summarises (fun r => encodeValue (valueAt o r)) (TallyOf o) l acc.values) :
    Summarises (fun r => encodeValue (valueAt o r)) (TallyOf o) (r :: l) (acc.addValue 1 (valueAt o r)).values := by
  have htally := h.getD (d := (valueAt o r, 0)) ⟨rfl, by simp⟩ (encodeValue (valueAt o r))
  have hpos : ¬ (acc.values[encodeValue (valueAt o r)]?.getD (valueAt o r, 0)).2 + 1 ≤ 0 := by
    rw [htally.1]
    omega
  rw [GroupAcc.addValue]
  simp only [hpos, if_false]
  refine h.put (r := r) ⟨?_, ?_⟩
  · simp [htally.1]
  intro r' hr'
  rcases mem_cons.mp hr' with rfl | hr'
  · -- the value that is counted already has the same key, so it is the same
    cases hk : acc.values[encodeValue (valueAt o r')]? with
    | none => rfl
    | some e =>
      obtain ⟨hne, he⟩ := h.present _ _ hk
      obtain ⟨w, hw⟩ := exists_mem_of_ne_nil _ hne
      obtain ⟨hwl, hkey⟩ := mem_group.mp hw
      exact (hr.valueAt_inj (hl w hwl) ho hkey.symm).trans (he.2 w hw)
  · exact htally.2 r' hr'

theorem tally_take (h : Summarises (fun r => encodeValue (valueAt o r)) (TallyOf o) (r :: l) acc.values) :
    Summarises (fun r => encodeValue (valueAt o r)) (TallyOf o) l (acc.addValue (-1) (valueAt o r)).values := by
  have htally := h.getD (d := (valueAt o r, 0)) ⟨rfl, by simp⟩ (encodeValue (valueAt o r))
  rw [group_cons_self (fun r => encodeValue (valueAt o r)) r l] at htally
  have hn : (acc.values[encodeValue (valueAt o r)]?.getD (valueAt o r, 0)).2 + -1 =
      (Grouped.group (fun r => encodeValue (valueAt o r)) (encodeValue (valueAt o r)) l).length := by
    rw [htally.1, length_cons]
    omega
  rw [GroupAcc.addValue]
  simp only [hn]
  split
  · exact h.drop (length_eq_zero_iff.mp (by omega))
  rename_i hpos
  refine h.take (fun hnil => ?_) ⟨rfl, fun r' hr' => htally.2 r' (mem_cons_of_mem r hr')⟩
  rw [hnil] at hpos
  simp at hpos

theorem ResolvedView.RowOk.value_eq (hr : view.RowOk r) (hcols : ∀ o ∈ value, o ∈ view.columns) :
    value.bind (r[·]?) = value.map (valueAt · r) := by
  cases value with
  | none => rfl
  | some o => exact hr.getElem? (hcols o rfl)

theorem ResolvedView.RowOk.numericOf_eq (fl : FloatOps) (hr : view.RowOk r) (hcols : ∀ o ∈ value, o ∈ view.columns) :
    ∀ v ∈ value.map (valueAt · r), numericOf fl v = none ∧ v.toInt = 0 ∨ numericOf fl v = some (.int v.toInt) := by
  intro v hv
  obtain ⟨o, ho, rfl⟩ := Option.map_eq_some_iff.mp hv
  obtain ⟨⟨name, ty⟩, v, -, hrow, hty, hf⟩ := hr.typed o (hcols o ho)
  rw [valueAt, hrow, Option.getD_some]
  cases v with
  | scalar s =>
    cases s <;> first | exact .inr rfl | exact .inl ⟨rfl, rfl⟩ | skip
    all_goals
      cases ty with
      | scalar t =>
        rw [RowValue.matchesType, decide_eq_true_eq] at hty
        subst hty
        simp [FluxType.isFloat, FluxType.scalarOf, Scalar.type] at hf
      | _ => simp [RowValue.matchesType] at hty
  | _ => exact .inl ⟨rfl, rfl⟩

theorem AccOf.put (fl : FloatOps) (hcols : ∀ o ∈ value, o ∈ view.columns) (hr : view.RowOk r)
    (hl : ∀ r' ∈ l, view.RowOk r') (hg : ∀ r' ∈ l, groupOf group r' = groupOf group r) (h : AccOf value group l acc) :
    AccOf value group (r :: l) (acc.add fl 1 (groupOf group r) (value.bind (r[·]?))) := by
  rw [hr.value_eq hcols, GroupAcc.add_eq fl acc 1 _ _ (hr.numericOf_eq fl hcols)]
  have hgroup : acc.groupValue.getD (groupOf group r) = groupOf group r := by
    rcases eq_nil_or_concat l with hnil | ⟨l', r', hl'⟩
    · rw [h.fresh hnil, Option.getD_none]
    · have hmem : r' ∈ l := by simp [hl']
      rw [h.group r' hmem, Option.getD_some, hg r' hmem]
  refine ⟨?_, fun hnil => absurd hnil (cons_ne_nil r l), ?_, ?_, h.float, ?_⟩
  · intro r' hr'
    rcases mem_cons.mp hr' with rfl | hr'
    · exact congrArg some hgroup
    · exact congrArg some (hgroup.trans (hg r' hr').symm)
  · simp [h.count]
  · simp only [h.sum, map_cons, sum_cons, one_mul]
    exact add_comm _ _
  · have hv := h.values
    cases value with
    | none => exact hv
    | some o => exact tally_put (hcols o rfl) hr hl hv

theorem AccOf.take (fl : FloatOps) (hcols : ∀ o ∈ value, o ∈ view.columns) (hr : view.RowOk r) (hne : l ≠ [])
    (h : AccOf value group (r :: l) acc) :
    AccOf value group l (acc.add fl (-1) (groupOf group r) (value.bind (r[·]?))) := by
  rw [hr.value_eq hcols, GroupAcc.add_eq fl acc (-1) _ _ (hr.numericOf_eq fl hcols)]
  refine ⟨?_, fun hnil => absurd hnil hne, ?_, ?_, h.float, ?_⟩
  · intro r' hr'
    rw [h.group r' (mem_cons_of_mem r hr'), Option.getD_some]
  · have := h.count
    rw [length_cons] at this
    show acc.count + -1 = _
    omega
  · have hsum := h.sum
    rw [map_cons, sum_cons] at hsum
    rw [hsum]
    ring
  · have hv := h.values
    cases value with
    | none => exact hv
    | some o => exact tally_take hv

end Rows

/-! ### Representation -/

namespace ResolvedView

/-- The key of a row in a window. -/
def orderKey (schema : TableSchema) (ordinal : Nat) (descending : Bool) (row : Row) : Bytes :=
  (if descending then invert (encodeValue (valueAt ordinal row)) else encodeValue (valueAt ordinal row)) ++ pkOf schema row

/-- The state represents the rows. -/
def Represents (view : ResolvedView) (rows : List Row) (state : ViewState) : Prop :=
  match view.kind with
  | .aggregate _ value group =>
    Summarises (fun r => encodeValue (groupOf group r)) (AccOf value group) rows state.groups ∧ state.ordered = ∅
  | .topN ordinal descending _ =>
    state.groups = ∅ ∧ Summarises (orderKey view.tableSchema ordinal descending)
      (fun l entry => ∀ r ∈ l, entry = (valueAt ordinal r, pkOf view.tableSchema r)) rows state.ordered

variable {view : ResolvedView} {r : Row} {l rows rows' : List Row} {state state' : ViewState} {o : Nat} {desc : Bool}

theorem represents_empty (view : ResolvedView) : view.Represents [] .empty := by
  unfold Represents
  split
  · exact ⟨.empty _ _, rfl⟩
  · exact ⟨rfl, .empty _ _⟩

theorem Represents.perm (h : view.Represents rows state) (hp : rows.Perm rows') : view.Represents rows' state := by
  unfold Represents at h ⊢
  split at h
  · exact ⟨h.1.perm (fun _ _ _ hp h => h.perm hp) hp, h.2⟩
  · exact ⟨h.1, h.2.perm (fun _ _ _ hp h r hr => h r (hp.mem_iff.mpr hr)) hp⟩

/-- **The state is determined by the rows.** -/
theorem Represents.unique (h : view.Represents rows state) (h' : view.Represents rows state') : state = state' := by
  cases state
  cases state'
  cases hkind : view.kind with
  | aggregate agg value group =>
    simp only [Represents, hkind] at h h'
    exact ViewState.mk.injEq .. ▸ ⟨h.1.unique (fun _ _ _ hne h h' => h.unique hne h') h'.1, h.2.trans h'.2.symm⟩
  | topN ordinal descending limit =>
    simp only [Represents, hkind] at h h'
    refine ViewState.mk.injEq .. ▸ ⟨h.1.trans h'.1.symm, h.2.unique (fun l s s' hne hs hs' => ?_) h'.2⟩
    obtain ⟨r, hr⟩ := exists_mem_of_ne_nil l hne
    exact (hs r hr).trans (hs' r hr).symm

theorem invert_invert (bytes : Bytes) : invert (invert bytes) = bytes := by
  rw [invert, invert, map_map]
  calc bytes.map ((fun b => 255 - b) ∘ fun b => 255 - b) = bytes.map id :=
        map_congr_left fun b _ => by simp
    _ = bytes := map_id bytes

theorem invert_append (a b : Bytes) : invert (a ++ b) = invert a ++ invert b := map_append

theorem RowOk.orderKey_inj {r' : Row} (hr : view.RowOk r) (hr' : view.RowOk r') (ho : o ∈ view.columns)
    (h : orderKey view.tableSchema o desc r = orderKey view.tableSchema o desc r') :
    pkOf view.tableSchema r = pkOf view.tableSchema r' := by
  unfold orderKey at h
  cases desc with
  | false => exact (hr.valueAt_append_inj hr' ho h).2
  | true =>
    have h' : encodeValue (valueAt o r) ++ invert (pkOf view.tableSchema r) =
        encodeValue (valueAt o r') ++ invert (pkOf view.tableSchema r') := by
      have := congrArg invert h
      simpa only [if_true, invert_append, invert_invert] using this
    have := congrArg invert (hr.valueAt_append_inj hr' ho h').2
    rwa [invert_invert, invert_invert] at this

theorem BaseOk.orderKey_free (h : view.BaseOk (r :: rows)) (ho : o ∈ view.columns) :
    group (orderKey view.tableSchema o desc) (orderKey view.tableSchema o desc r) rows = [] := by
  refine filter_eq_nil_iff.mpr fun r' hr' hkey => ?_
  have hpk := (h.row r' (mem_cons_of_mem r hr')).orderKey_inj (h.row r (by simp)) ho (of_decide_eq_true hkey)
  have hnodup := h.nodup
  rw [map_cons, nodup_cons] at hnodup
  exact hnodup.1 (mem_map.mpr ⟨r', hr', hpk⟩)

theorem applyRow_topN (fl : FloatOps) (hr : view.RowOk r) {limit : Nat} (hkind : view.kind = .topN o desc limit) (sign : Int) :
    view.applyRow fl state r sign = .ok { state with
      ordered := if 0 < sign then
          state.ordered.insert (orderKey view.tableSchema o desc r) (valueAt o r, pkOf view.tableSchema r)
        else state.ordered.erase (orderKey view.tableSchema o desc r) } := by
  have ho : o ∈ view.columns := by simp [columns, hkind]
  simp only [applyRow, hkind, hr.getElem? ho, hr.key]
  rfl

theorem applyRow_aggregate (fl : FloatOps) {agg : MvAggregate} {value group : Option Nat}
    (hkind : view.kind = .aggregate agg value group) (sign : Int) {acc : GroupAcc}
    (hacc : acc = (state.groups[encodeValue (groupOf group r)]?.getD .default).add fl sign (groupOf group r)
      (value.bind (r[·]?))) :
    view.applyRow fl state r sign = .ok { state with
      groups := if acc.count ≤ 0 then state.groups.erase (encodeValue (groupOf group r))
        else state.groups.insert (encodeValue (groupOf group r)) acc } := by
  simp only [applyRow, hkind, hacc]

/-- The groups of a table: the key determines the group. -/
theorem RowOk.groupOf_inj {r' : Row} {group : Option Nat} (hr : view.RowOk r) (hr' : view.RowOk r')
    (hcols : ∀ o ∈ group, o ∈ view.columns) (h : encodeValue (groupOf group r) = encodeValue (groupOf group r')) :
    groupOf group r = groupOf group r' := by
  cases group with
  | none => rfl
  | some o => exact hr.valueAt_inj hr' (hcols o rfl) h

/-- **A row comes.** -/
theorem Represents.insert (fl : FloatOps) (h : view.Represents rows state) (hok : view.BaseOk (r :: rows)) :
    ∃ state', view.applyRow fl state r 1 = .ok state' ∧ view.Represents (r :: rows) state' := by
  have hr := hok.row r (by simp)
  cases hkind : view.kind with
  | aggregate agg value group =>
    have hcols : ∀ o, o ∈ value ∨ o ∈ group → o ∈ view.columns := by simp [columns, hkind]
    simp only [Represents, hkind] at h ⊢
    have hacc := h.1.getD (AccOf.empty value group) (encodeValue (groupOf group r))
    have hmem : ∀ r' ∈ Grouped.group (fun r => encodeValue (groupOf group r)) (encodeValue (groupOf group r)) rows,
        view.RowOk r' ∧ encodeValue (groupOf group r') = encodeValue (groupOf group r) := fun r' hr' =>
      ⟨hok.row r' (mem_cons_of_mem r (mem_group.mp hr').1), (mem_group.mp hr').2⟩
    have hput := hacc.put fl (fun o ho => hcols o (.inl ho)) hr (fun r' hr' => (hmem r' hr').1)
      fun r' hr' => (hmem r' hr').1.groupOf_inj hr (fun o ho => hcols o (.inr ho)) (hmem r' hr').2
    refine ⟨_, applyRow_aggregate fl hkind _ rfl, ?_, h.2⟩
    have hpos := hput.count
    rw [length_cons] at hpos
    rw [if_neg (by omega)]
    exact h.1.put hput
  | topN ordinal descending limit =>
    have ho : ordinal ∈ view.columns := by simp [columns, hkind]
    refine ⟨_, applyRow_topN fl hr hkind 1, ?_⟩
    simp only [Represents, hkind] at h ⊢
    refine ⟨h.1, ?_⟩
    refine h.2.put fun r' hr' => ?_
    rw [hok.orderKey_free ho] at hr'
    obtain rfl := mem_singleton.mp hr'
    rfl

/-- **A row goes.** -/
theorem Represents.delete (fl : FloatOps) (h : view.Represents (r :: rows) state) (hok : view.BaseOk (r :: rows)) :
    ∃ state', view.applyRow fl state r (-1) = .ok state' ∧ view.Represents rows state' := by
  have hr := hok.row r (by simp)
  cases hkind : view.kind with
  | aggregate agg value group =>
    have hcols : ∀ o ∈ value, o ∈ view.columns := by simp [columns, hkind]; tauto
    simp only [Represents, hkind] at h ⊢
    have hacc := h.1.getD (AccOf.empty value group) (encodeValue (groupOf group r))
    rw [group_cons_self (fun r => encodeValue (groupOf group r)) r rows] at hacc
    refine ⟨_, applyRow_aggregate fl hkind _ rfl, ?_, h.2⟩
    by_cases hnil : Grouped.group (fun r => encodeValue (groupOf group r)) (encodeValue (groupOf group r)) rows = []
    · have hcount := hacc.count
      rw [hnil] at hcount
      rw [if_pos ?_]
      · exact h.1.drop hnil
      · rw [hr.value_eq hcols, GroupAcc.add_eq fl _ (-1) _ _ (hr.numericOf_eq fl hcols), hcount]
        simp
    · have htake := hacc.take fl hcols hr hnil
      have hpos := htake.count
      have := length_pos_iff.mpr hnil
      rw [if_neg (by omega)]
      exact h.1.take hnil htake
  | topN ordinal descending limit =>
    have ho : ordinal ∈ view.columns := by simp [columns, hkind]
    refine ⟨_, applyRow_topN fl hr hkind (-1), ?_⟩
    simp only [Represents, hkind] at h ⊢
    exact ⟨h.1, h.2.drop (hok.orderKey_free ho)⟩

theorem Represents.inserts (fl : FloatOps) : ∀ {l rows : List Row} {state : ViewState}, view.Represents rows state →
    view.BaseOk (l ++ rows) → ∃ state', view.applyRows fl state l 1 = .ok state' ∧ view.Represents (l ++ rows) state'
  | [], _, state, h, _ => ⟨state, rfl, h⟩
  | r :: l, rows, state, h, hok => by
    have hmiddle : (r :: l ++ rows).Perm (l ++ r :: rows) := perm_middle.symm
    obtain ⟨s, hs, hrep⟩ := h.insert fl (hok.perm hmiddle).of_append
    obtain ⟨state', hstate', hrep'⟩ := hrep.inserts fl (hok.perm hmiddle)
    refine ⟨state', ?_, hrep'.perm hmiddle.symm⟩
    rw [applyRows, foldlM_cons, hs]
    exact hstate'

theorem Represents.deletes (fl : FloatOps) : ∀ {l rows : List Row} {state : ViewState}, view.Represents (l ++ rows) state →
    view.BaseOk (l ++ rows) → ∃ state', view.applyRows fl state l (-1) = .ok state' ∧ view.Represents rows state'
  | [], _, state, h, _ => ⟨state, rfl, h⟩
  | r :: l, rows, state, h, hok => by
    obtain ⟨s, hs, hrep⟩ := Represents.delete fl h hok
    obtain ⟨state', hstate', hrep'⟩ := Represents.deletes fl hrep hok.tail
    refine ⟨state', ?_, hrep'⟩
    rw [applyRows, foldlM_cons, hs]
    exact hstate'

end ResolvedView

end Fluxum
