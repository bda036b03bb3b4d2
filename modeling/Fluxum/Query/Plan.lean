/-
# Query compilation and access paths

The compiler of the SQL subset from the parsed query on (`sql/mod.rs`): table
and column resolution, the rule-based choice of an access path, and the keyset
cursor.
-/
import Mathlib.Data.List.Sort
import Fluxum.Query.Match
import Fluxum.Store.IndexKey

namespace Fluxum

/-! ### Declarations -/

/-- Who sees a row. -/
inductive VisibilityRule where
  | publicAll
  | ownerOnly (owner : Nat)
  /-- Members of the row's group: the membership table and the key column both tables have. -/
  | memberOf (table key : String)
deriving DecidableEq, Repr

/-- Who may read the raw value of a column. -/
inductive GrantScope where
  | pub
  | serverPeer
  | role (name : String)
  | owner
deriving DecidableEq, Repr

/-- What an unauthorized caller receives. -/
inductive MaskStrategy where
  | null
  | redact
  | ciphertext
  | hash
deriving DecidableEq, Repr

/-- One column's resolved read policy. -/
structure ColumnPolicy where
  ordinal : Nat
  grant : GrantScope
  mask : MaskStrategy
  encrypted : Bool
deriving DecidableEq, Repr

/-- A table with what reads of it go by. -/
structure TableDecl extends TableSchema where
  id : Nat
  visibility : VisibilityRule
  /-- The `#[fulltext]` columns with their analyzers. -/
  fulltext : List (Nat × Analyzer)
  /-- The coordinate columns of the spatial index; none without one. -/
  spatialColumns : List Nat
  /-- The columns with a grant that is not public. -/
  policies : List ColumnPolicy

/-- The assembled schema. -/
abbrev Schema := List TableDecl

/-- One spatial clause; coordinates are the bits of doubles. -/
inductive SpatialAst where
  | region (x y w h : BitVec 64)
  | radius (r x y : BitVec 64)
deriving DecidableEq, Repr

/-- `replace('\'', "''")`. -/
def quoteEscaped (s : String) : String := String.ofList (s.toList.flatMap fun c => if c = '\'' then ['\'', '\''] else [c])

def Lit.text (p : Platform) : Lit → String
  | .int n => toString n.toInt
  | .float x => p.showFloat x
  | .str s => "'" ++ quoteEscaped s ++ "'"
  | .bool b => if b then "TRUE" else "FALSE"

def CmpOp.text : CmpOp → String
  | .lt => "<"
  | .le => "<="
  | .gt => ">"
  | .ge => ">="

def CondAst.text (p : Platform) : CondAst → String
  | .eq column lit => column ++ " = " ++ lit.text p
  | .isIn column lits => column ++ " IN (" ++ ", ".intercalate (lits.map (·.text p)) ++ ")"
  | .between column low high => column ++ " BETWEEN " ++ low.text p ++ " AND " ++ high.text p
  | .cmp column op lit => column ++ " " ++ op.text ++ " " ++ lit.text p
  | .isMatch column raw => column ++ " MATCH '" ++ quoteEscaped raw ++ "'"

def SpatialAst.text (p : Platform) : SpatialAst → String
  | .region x y w h => " IN REGION (" ++ ", ".intercalate ([x, y, w, h].map p.showFloat) ++ ")"
  | .radius r x y => " WITHIN RADIUS " ++ p.showFloat r ++ " OF (" ++ ", ".intercalate ([x, y].map p.showFloat) ++ ")"

/-- An end of a range. -/
inductive Bound (α : Type) where
  | unbounded
  | included (v : α)
  | excluded (v : α)
deriving DecidableEq, Repr

structure OrderSpec where
  column : Nat
  descending : Bool
deriving DecidableEq, Repr

/-- Bounded scans of one index: an equality probe each, and a range on the column after it. -/
structure IndexScanPlan where
  columns : List Nat
  probes : List (List RowValue)
  lower : Bound RowValue
  upper : Bound RowValue
deriving DecidableEq, Repr

inductive AccessPath where
  | fullScan
  | indexScan (scan : IndexScanPlan)
deriving DecidableEq, Repr

/-- The order value and the primary key of the previous page's last row. -/
structure Keyset where
  orderValue : RowValue
  pkValue : RowValue
deriving DecidableEq, Repr

structure CompiledPlan where
  tableId : Nat
  /-- The complete predicate. -/
  conditions : List CompiledCond
  /-- The owner column of an `owner_only` table. -/
  rls : Option Nat
  orderBy : Option OrderSpec
  limit : Option Nat
  equalities : List (Nat × RowValue)
  spatial : Option SpatialAst
  queryHash : BitVec 64
  normalized : String
  access : AccessPath
  /-- The conditions that the index bounds do not cover. -/
  residual : List CompiledCond
  orderedByIndex : Bool
  cursor : Option Keyset
  fts : Option FtsQuery
  orderByScore : Option Bool
  selectScore : Bool
  callerScoped : Bool
  asOf : Option (Bool × Nat)

def CompiledPlan.holds (plan : CompiledPlan) (row : Row) : Bool := plan.conditions.all (·.holds row)

/-! ### Range bounds -/

def Bound.value? {α : Type} : Bound α → Option α
  | .unbounded => none
  | .included v | .excluded v => some v

def Bound.isExcluded {α : Type} : Bound α → Bool
  | .excluded _ => true
  | _ => false

/-- The tighter of two bounds on one side, where a value is tighter than another if it compares as
`side`; on equal values an exclusive bound is tighter. -/
def tighter (side : Ordering) (a b : Bound RowValue) : Bound RowValue :=
  match a.value?, b.value? with
  | none, _ => b
  | _, none => a
  | some x, some y =>
    match cmpValues x y with
    | none => a
    | some .eq => if a.isExcluded then a else b
    | some ord => if ord = side then a else b

/-- The greater of two lower bounds. -/
def tighterLower : Bound RowValue → Bound RowValue → Bound RowValue := tighter .gt

/-- The smaller of two upper bounds. -/
def tighterUpper : Bound RowValue → Bound RowValue → Bound RowValue := tighter .lt

/-! ### Choice of the access path -/

def indexInExpansionMax : Nat := 128

/-- The position and value of the first equality on `col` that is not consumed yet. -/
def findEq (conditions : List CompiledCond) (consumed : List Nat) (col : Nat) : Option (Nat × RowValue) :=
  conditions.zipIdx.findSome? fun c =>
    match c.1 with
    | .eq o v => if o = col ∧ c.2 ∉ consumed then some (c.2, v) else none
    | _ => none

/-- The position and values of the first `IN` on `col` that is not consumed yet. -/
def findIn (conditions : List CompiledCond) (consumed : List Nat) (col : Nat) : Option (Nat × List RowValue) :=
  conditions.zipIdx.findSome? fun c =>
    match c.1 with
    | .isIn o vs => if o = col ∧ c.2 ∉ consumed then some (c.2, vs) else none
    | _ => none

/-- The equality prefix of an index: its length, the conditions it consumes and the probes they
make. -/
structure EqPrefix where
  len : Nat
  consumed : List Nat
  probes : List (List RowValue)

namespace EqPrefix

def empty : EqPrefix := ⟨0, [], [[]]⟩

/-- One more column, equal to `v`. -/
def pushEq (s : EqPrefix) (i : Nat) (v : RowValue) : EqPrefix :=
  ⟨s.len + 1, s.consumed ++ [i], s.probes.map (· ++ [v])⟩

/-- One more column, with a probe for each of `vs`. -/
def pushIn (s : EqPrefix) (i : Nat) (vs : List RowValue) : EqPrefix :=
  ⟨s.len + 1, s.consumed ++ [i], s.probes.flatMap fun probe => vs.map fun v => probe ++ [v]⟩

end EqPrefix

/-- The loop over the columns of an index that finds its equality prefix. -/
def takePrefix (conditions : List CompiledCond) : List Nat → EqPrefix → EqPrefix
  | [], s => s
  | col :: cols, s =>
    match findEq conditions s.consumed col with
    | some (i, v) => takePrefix conditions cols (s.pushEq i v)
    | none =>
      match findIn conditions s.consumed col with
      | some (i, vs) =>
        -- past the cap the list, and everything after it, stays residual
        if s.probes.length * max vs.length 1 > indexInExpansionMax ∨ vs = [] then s
        else takePrefix conditions cols (s.pushIn i vs)
      | none => s

/-- The range on the column after the prefix, and the conditions folded into it. -/
structure Range where
  lower : Bound RowValue
  upper : Bound RowValue
  consumed : List Nat
  hasRange : Bool

/-- Fold one condition into the range on `col`. -/
def foldRange (col : Nat) (r : Range) (c : CompiledCond × Nat) : Range :=
  if c.2 ∈ r.consumed then r
  else
    match c.1 with
    | .between o low high =>
      if o = col then
        ⟨tighterLower r.lower (.included low), tighterUpper r.upper (.included high), r.consumed ++ [c.2], true⟩
      else r
    | .cmp o op v =>
      if o = col then
        match op with
        | .gt => ⟨tighterLower r.lower (.excluded v), r.upper, r.consumed ++ [c.2], true⟩
        | .ge => ⟨tighterLower r.lower (.included v), r.upper, r.consumed ++ [c.2], true⟩
        | .lt => ⟨r.lower, tighterUpper r.upper (.excluded v), r.consumed ++ [c.2], true⟩
        | .le => ⟨r.lower, tighterUpper r.upper (.included v), r.consumed ++ [c.2], true⟩
      else r
    | _ => r

/-- Every range condition on the column after the prefix, folded into one interval. -/
def takeRange (conditions : List CompiledCond) (columns : List Nat) (s : EqPrefix) : Range :=
  match columns[s.len]? with
  | some col => conditions.zipIdx.foldl (foldRange col) ⟨.unbounded, .unbounded, s.consumed, false⟩
  | none => ⟨.unbounded, .unbounded, s.consumed, false⟩

/-- Whether a single probe of the index yields the rows in the order asked for: the order column
comes right after the equality prefix, or inside it. -/
def servesOrder (columns : List Nat) (s : EqPrefix) : Option OrderSpec → Bool
  | some order =>
    s.probes.length = 1 ∧ (columns[s.len]? = some order.column ∨ order.column ∈ columns.take s.len)
  | none => false

/-- Prefix length, then whether there is a range, then whether the order is served. -/
abbrev Score := Nat × Bool × Bool

def Score.lt (a b : Score) : Bool :=
  a.1 < b.1 ∨ a.1 = b.1 ∧ (a.2.1 < b.2.1 ∨ a.2.1 = b.2.1 ∧ a.2.2 < b.2.2)

/-- How an index scores for the query. -/
def indexScore (conditions : List CompiledCond) (orderBy : Option OrderSpec) (columns : List Nat) : Score :=
  let s := takePrefix conditions columns .empty
  (s.len, (takeRange conditions columns s).hasRange, servesOrder columns s orderBy)

/-- Whether results depend on who is asking. -/
def callerScoped (table : TableDecl) : Bool :=
  match table.visibility with
  | .publicAll => !table.policies.isEmpty
  | _ => true

end Fluxum
