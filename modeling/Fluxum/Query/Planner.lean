/-
# What the planner guarantees

Conditions consumed into an equality prefix, into expanded `IN` probes or into
the range behind them are not checked again per row. This module says what the
probes and bounds stand for.
-/
import Fluxum.Query.Read

namespace Fluxum

open Std Bytes List

/-- The conditions are compiled against the table and touch no float column. -/
structure CondsOk (schema : TableSchema) (conditions : List CompiledCond) : Prop where
  ok : ∀ c ∈ conditions, c.Ok schema
  float : ∀ c ∈ conditions, ∀ col, schema.columns[c.ordinal]? = some col → col.ty.isFloat = false

/-! ### Equalities -/

/-- How often a condition's values are the row's value: an `IN` list may repeat one. -/
def CompiledCond.multiplicity (row : Row) : CompiledCond → Nat
  | .isIn o vs => (row[o]?.map (vs.count ·)).getD 0
  | c => if c.holds row then 1 else 0

variable {vs : List RowValue} {v : RowValue}

section Conditions

variable {schema : TableSchema} {conditions : List CompiledCond} {row : Row} {c : CompiledCond}

section

variable (hconds : CondsOk schema conditions)
include hconds

theorem CondsOk.value (hrow : Typed schema row) (hc : c ∈ conditions) :
    ∃ col v, schema.columns[c.ordinal]? = some col ∧ row[c.ordinal]? = some v ∧ v.matchesType col.ty = true ∧
      col.ty.isFloat = false := by
  obtain ⟨col, hcol, -⟩ := hconds.ok c hc
  have hlt : c.ordinal < row.length := by
    rw [hrow.1]
    exact (List.getElem?_eq_some_iff.mp hcol).1
  have hv := getElem?_eq_getElem hlt
  exact ⟨col, _, hcol, hv, hrow.2 _ _ _ hv hcol, hconds.float c hc col hcol⟩

end

end Conditions

/-! ### The equality prefix -/

def multiplicityAt (conditions : List CompiledCond) (row : Row) (i : Nat) : Nat :=
  (conditions[i]?.map (·.multiplicity row)).getD 1

def ValueFits (schema : TableSchema) (o : Nat) (v : RowValue) : Prop :=
  ∃ c, schema.columns[o]? = some c ∧ v.matchesType c.ty = true

/-- What the loop over the columns of an index keeps: the probes fit the columns passed, and the
number of probes that are the row's values is the product of the multiplicities consumed. -/
structure PrefixOk (schema : TableSchema) (conditions : List CompiledCond) (passed : List Nat) (s : EqPrefix) : Prop where
  len : s.len = passed.length
  fits : ∀ probe ∈ s.probes, List.Forall₂ (ValueFits schema) passed probe
  consumed : ∀ i ∈ s.consumed, i < conditions.length
  nodup : s.consumed.Nodup
  count : ∀ row vs, Typed schema row → passed.map (row[·]?) = vs.map some →
    s.probes.count vs = (s.consumed.map (multiplicityAt conditions row)).prod

theorem count_expand (vs ws : List RowValue) (x : RowValue) : ∀ probes : List (List RowValue),
    (probes.flatMap fun probe => vs.map fun v => probe ++ [v]).count (ws ++ [x]) = probes.count ws * vs.count x
  | [] => by simp
  | probe :: probes => by
    rw [List.flatMap_cons, List.count_append, count_expand vs ws x probes, List.count_cons, Nat.add_mul, Nat.add_comm]
    congr 1
    by_cases hp : probe = ws
    · subst hp
      have hinj : Function.Injective fun v : RowValue => probe ++ [v] := fun a b h => by simpa using h
      rw [List.count_map_of_injective vs _ hinj x]
      simp
    · have hno : ws ++ [x] ∉ vs.map fun v => probe ++ [v] := by
        intro hmem
        obtain ⟨v, -, heq⟩ := mem_map.mp hmem
        exact hp (append_inj' heq rfl).1
      rw [count_eq_zero_of_not_mem hno]
      simp [hp]

section Prefix

variable {schema : TableSchema} {conditions : List CompiledCond} {passed : List Nat} {s : EqPrefix} {col i : Nat}

theorem PrefixOk.push {c : CompiledCond} (hs : PrefixOk schema conditions passed s)
    (hi : conditions[i]? = some c) (hfresh : i ∉ s.consumed) (hfits : ∀ v ∈ vs, ValueFits schema col v)
    (hcount : ∀ row x, Typed schema row → row[col]? = some x → vs.count x = c.multiplicity row) :
    PrefixOk schema conditions (passed ++ [col]) (s.pushIn i vs) := by
  refine ⟨by simp [EqPrefix.pushIn, hs.len], fun probe hprobe => ?_, fun j hj => ?_, ?_, fun row us hrow hus => ?_⟩
  · obtain ⟨probe', hprobe', hmap⟩ := mem_flatMap.mp hprobe
    obtain ⟨v, hv, rfl⟩ := mem_map.mp hmap
    exact rel_append (hs.fits probe' hprobe') (.cons (hfits v hv) .nil)
  · rcases mem_append.mp hj with hj | hj
    · exact hs.consumed j hj
    · obtain rfl : j = i := by simpa using hj
      exact (List.getElem?_eq_some_iff.mp hi).1
  · show (s.consumed ++ [i]).Nodup
    rw [nodup_append]
    refine ⟨hs.nodup, by simp, fun a ha b hb => ?_⟩
    obtain rfl : b = i := by simpa using hb
    exact fun hab => hfresh (hab ▸ ha)
  · -- a tuple over one more column
    rw [map_append] at hus
    obtain ⟨ws, xs, rfl, hws, hxs⟩ := map_eq_append_iff.mp hus.symm
    obtain ⟨x, xs', rfl, hx, hnil⟩ := map_eq_cons_iff.mp hxs
    obtain rfl := map_eq_nil_iff.mp hnil
    show (s.probes.flatMap _).count (ws ++ [x]) = ((s.consumed ++ [i]).map _).prod
    rw [count_expand, hs.count row ws hrow hws.symm, hcount row x hrow hx.symm]
    simp [multiplicityAt, hi]

end Prefix

/-! ### The range behind it -/

section Tighter

variable {t : ScalarType} {a b : Bound RowValue} {x : RowValue}

section

variable (cmp : Bytes → Bytes → Ordering) [TransCmp cmp]

end

variable {v : RowValue}

end Tighter

/-- What the fold over the conditions keeps: the bounds fit the column, and they hold of a row exactly
if the conditions folded into them do. -/
structure RangeOk (schema : TableSchema) (conditions : List CompiledCond) (col : Nat) (base : List Nat) (r : Range) :
    Prop where
  lower : r.lower.Fits schema (some col)
  upper : r.upper.Fits schema (some col)
  nodup : r.consumed.Nodup
  folded : ∃ new, r.consumed = base ++ new ∧ (∀ i ∈ new, i < conditions.length) ∧
    ∀ row x, Typed schema row → row[col]? = some x → ((r.lower.admitsFrom x && r.upper.admitsTo x) = true ↔
      ∀ i ∈ new, ∀ c, conditions[i]? = some c → c.holds row = true)

section Range

variable {schema : TableSchema} {conditions : List CompiledCond} {col i : Nat} {base : List Nat} {r : Range}
  {c : CompiledCond}

theorem RangeOk.push {lower upper : Bound RowValue} (hr : RangeOk schema conditions col base r)
    (hi : conditions[i]? = some c) (hfresh : i ∉ r.consumed) (hlower : lower.Fits schema (some col))
    (hupper : upper.Fits schema (some col))
    (hholds : ∀ row x, Typed schema row → row[col]? = some x →
      (lower.admitsFrom x && upper.admitsTo x) = (r.lower.admitsFrom x && r.upper.admitsTo x && c.holds row)) :
    RangeOk schema conditions col base ⟨lower, upper, r.consumed ++ [i], true⟩ := by
  obtain ⟨new, hnew, hlt, hiff⟩ := hr.folded
  refine ⟨hlower, hupper, ?_, new ++ [i], ?_, fun j hj => ?_, fun row x hrow hx => ?_⟩
  · rw [nodup_append]
    refine ⟨hr.nodup, by simp, fun a ha b hb => ?_⟩
    obtain rfl : b = i := by simpa using hb
    exact fun hab => hfresh (hab ▸ ha)
  · rw [hnew, append_assoc]
  · rcases mem_append.mp hj with hj | hj
    · exact hlt j hj
    · obtain rfl : j = i := by simpa using hj
      exact (List.getElem?_eq_some_iff.mp hi).1
  · rw [hholds row x hrow hx, Bool.and_eq_true, hiff row x hrow hx]
    simp only [mem_append, mem_singleton, or_imp, forall_and, forall_eq, hi, Option.some.injEq]
    simp

theorem CondsOk.comparable (hconds : CondsOk schema conditions) (hc : c ∈ conditions)
    (hrange : match c with
      | .between _ _ _ | .cmp _ _ _ => True
      | _ => False) :
    ∃ ccol t, schema.columns[c.ordinal]? = some ccol ∧ ccol.ty = .scalar t ∧ t.comparable = true := by
  obtain ⟨⟨name, ty⟩, hcol, hok⟩ := hconds.ok c hc
  have hf := hconds.float c hc _ hcol
  cases c with
  | between o lo hi | cmp o op v =>
    -- a column with an order that literals inhabit, floats apart, is of a comparable scalar type
    obtain ⟨-, hl, ho⟩ := hok
    cases ty with
    | scalar t =>
      refine ⟨_, t, hcol, rfl, ?_⟩
      cases t <;> simp_all [FluxType.hasLiterals, FluxType.scalarOf, ScalarType.hasLiterals, FluxType.unordered,
        FluxType.isFloat, ScalarType.comparable]
    | option _ => simp [FluxType.unordered] at ho
    | _ => simp [FluxType.hasLiterals, FluxType.scalarOf] at hl
  | _ => exact hrange.elim

theorem Bound.Fits.tighter {side : Ordering} {a b : Bound RowValue} {ordinal : Option Nat} (ha : a.Fits schema ordinal)
    (hb : b.Fits schema ordinal) : (tighter side a b).Fits schema ordinal := by
  unfold Fluxum.tighter
  repeat' split
  all_goals assumption

end Range

/-! ### The access path of one index -/

section Access

variable {schema : TableSchema} {conditions : List CompiledCond} {columns : List Nat} {orderBy : Option OrderSpec}

end Access

/-! ### The preferred index -/

/-- Scores as numbers. -/
def Score.rank (a : Score) : Nat := 4 * a.1 + 2 * a.2.1.toNat + a.2.2.toNat

/-- The first of the indexes with the highest score, if any index scores. -/
def Preferred (indexes : List (List Nat)) (conditions : List CompiledCond) (orderBy : Option OrderSpec)
    (columns : List Nat) : Prop :=
  ∃ before after, indexes = before ++ columns :: after ∧ indexScore conditions orderBy columns ≠ (0, false, false) ∧
    (∀ other ∈ before, (indexScore conditions orderBy other).lt (indexScore conditions orderBy columns) = true) ∧
    ∀ other ∈ after, (indexScore conditions orderBy columns).lt (indexScore conditions orderBy other) = false

section Choice

variable {indexes : List (List Nat)} {conditions : List CompiledCond} {orderBy : Option OrderSpec}

theorem Preferred.mem {columns : List Nat} (h : Preferred indexes conditions orderBy columns) : columns ∈ indexes := by
  obtain ⟨before, after, rfl, -⟩ := h
  simp

end Choice

end Fluxum
