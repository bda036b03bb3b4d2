/-
# The row cache of a client

The byte-keyed, reference-counted store behind a client's subscriptions
(`sdks/rust/src/cache.rs`). Each query holds a set of rows; a row is cached as
long as a query holds it, and a second map leads from primary keys to rows.
-/
import Mathlib.Logic.Function.Basic
import Fluxum.Lib.Bytes
import Fluxum.Lib.OrdMap

namespace Fluxum

open Std List OrdMap Function Option

/-- What the bindings of a table supply. -/
structure CacheSchema where
  name : String
  pkOfRow : Bytes → Bytes
  /-- Delete entries hold the primary key fields only. -/
  pkOfDelete : Bytes → Bytes

/-- One table's inserts and deletes within an update. -/
structure WireDiff where
  table : String
  inserts : List Bytes
  deletes : List Bytes

inductive RowEvent where
  | insert (table : String) (row : Bytes)
  | delete (table : String) (row : Bytes)
  /-- A delete and an insert of one primary key. -/
  | update (table : String) (old row : Bytes)
deriving DecidableEq, Repr

structure CacheEntry where
  bytes : Bytes
  /-- How many queries see the row. -/
  refs : Nat
deriving DecidableEq, Repr

/-- A cached table (`TableState`). -/
structure CacheTable where
  schema : CacheSchema
  byKey : ExtTreeMap Bytes CacheEntry
  order : List Bytes
  byPk : ExtTreeMap Bytes Bytes

namespace CacheTable

def new (schema : CacheSchema) : CacheTable := ⟨schema, ∅, [], ∅⟩

def insertRow (t : CacheTable) (key row : Bytes) : CacheTable :=
  { t with
    order := t.order ++ [key]
    byPk := t.byPk.insert (t.schema.pkOfRow row) key
    byKey := t.byKey.insert key ⟨row, 1⟩ }

def removeKey (t : CacheTable) (key : Bytes) : CacheTable × Option Bytes :=
  match t.byKey[key]? with
  | none => (t, none)
  | some entry =>
    let pk := t.schema.pkOfRow entry.bytes
    ({ t with
        byKey := t.byKey.erase key
        order := t.order.erase key
        byPk := if t.byPk[pk]? = some key then t.byPk.erase pk else t.byPk },
      some entry.bytes)

/-- The rows that the delete entries resolve to. -/
def doomed (t : CacheTable) (deletes : List Bytes) : List Bytes :=
  deletes.filterMap fun entry => t.byPk[t.schema.pkOfDelete entry]?.filter (· ∈ t.byKey)

/-- One more query sees a row; the flag says that the row is new. -/
def take (t : CacheTable) (row : Bytes) : CacheTable × Bool :=
  match t.byKey[row]? with
  | some entry => ({ t with byKey := t.byKey.insert row { entry with refs := entry.refs + 1 } }, false)
  | none => (t.insertRow row row, true)

/-- One query fewer sees a row; its bytes are returned if it leaves the cache. -/
def drop (t : CacheTable) (key : Bytes) : CacheTable × Option Bytes :=
  match t.byKey[key]? with
  | none => (t, none)
  | some entry =>
    if 1 < entry.refs then ({ t with byKey := t.byKey.insert key { entry with refs := entry.refs - 1 } }, none)
    else removeKey t key

end CacheTable

/-- The rows that one query holds, by table. -/
abbrev QueryKeys := ExtTreeMap String (ExtTreeSet Bytes)

structure RowCache where
  tables : ExtTreeMap String CacheTable
  queryKeys : ExtTreeMap Nat QueryKeys

namespace RowCache

def new (schemas : List CacheSchema) : RowCache :=
  ⟨ExtTreeMap.ofList (schemas.map fun schema => (schema.name, CacheTable.new schema)), ∅⟩

def rows (c : RowCache) (table : String) : List Bytes :=
  match c.tables[table]? with
  | some t => t.order.filterMap fun key => t.byKey[key]?.map (·.bytes)
  | none => []

/-- How many queries see this exact row. -/
def refcount (c : RowCache) (table : String) (row : Bytes) : Nat :=
  ((c.tables[table]?.bind (·.byKey[row]?)).map (·.refs)).getD 0

def projectPk (c : RowCache) (table : String) (row : Bytes) : Option Bytes :=
  c.tables[table]?.map (·.schema.pkOfRow row)

/-- The cached rows with their primary keys; of rows that share one, the row it resolves to. -/
def pkRows (c : RowCache) (table : String) : List (Bytes × Bytes) :=
  match c.tables[table]? with
  | none => []
  | some t => t.order.filterMap fun key =>
      t.byKey[key]?.bind fun entry =>
        let pk := t.schema.pkOfRow entry.bytes
        if t.byPk[pk]? = some key then some (pk, entry.bytes) else none

def held (c : RowCache) (query : Nat) (table : String) : ExtTreeSet Bytes :=
  (c.queryKeys[query]?.bind (·[table]?)).getD ∅

/-- Fold delete and insert events of one primary key into updates. Inserts come first, then
deletes, then updates. -/
def coalesce (c : RowCache) (inserts deletes : List (String × Bytes)) : List RowEvent :=
  let pk (e : String × Bytes) : String × Bytes := (e.1, (c.projectPk e.1 e.2).getD [])
  let isUpdate (e : String × Bytes) : Bool := deletes.any (pk · = pk e)
  -- of several deletes of one key the last one counts
  let oldOf (e : String × Bytes) : Bytes := ((deletes.reverse.find? (pk · = pk e)).map (·.2)).getD []
  (inserts.filter (!isUpdate ·)).map (fun e => .insert e.1 e.2) ++
    (deletes.filter fun d => !inserts.any fun e => pk e = pk d).map (fun e => .delete e.1 e.2) ++
    (inserts.filter isUpdate).map fun e => .update e.1 (oldOf e) e.2

end RowCache

/-- The state of the loops over one table's diff: the table, the rows the query holds, and the rows
that came and went. -/
structure DiffLoop where
  table : CacheTable
  held : ExtTreeSet Bytes
  came : List Bytes
  went : List Bytes

namespace DiffLoop

def insert (s : DiffLoop) (row : Bytes) : DiffLoop :=
  if row ∈ s.held then s
  else
    let r := s.table.take row
    ⟨r.1, s.held.insert row, if r.2 then s.came ++ [row] else s.came, s.went⟩

def remove (s : DiffLoop) (key : Bytes) : DiffLoop :=
  if key ∈ s.held then
    let r := s.table.drop key
    ⟨r.1, s.held.erase key, s.came, s.went ++ r.2.toList⟩
  else s

/-- The loops over a diff. Deletes are resolved before inserts run. -/
def run (s : DiffLoop) (diff : WireDiff) : DiffLoop :=
  let doomed := s.table.doomed diff.deletes
  doomed.foldl remove (diff.inserts.foldl insert s)

end DiffLoop

namespace RowCache

/-- The cache, and the rows that came and went. -/
structure Applied where
  cache : RowCache
  inserts : List (String × Bytes)
  deletes : List (String × Bytes)

/-- Apply one table's diff of a query. -/
def applyTableDiff (query : Nat) (s : Applied) (diff : WireDiff) : Applied :=
  match s.cache.tables[diff.table]? with
  | none => s
  | some t =>
    let r := DiffLoop.run ⟨t, s.cache.held query diff.table, [], []⟩ diff
    ⟨⟨s.cache.tables.insert diff.table r.table,
        s.cache.queryKeys.insert query (((s.cache.queryKeys[query]?).getD ∅).insert diff.table r.held)⟩,
      s.inserts ++ r.came.map (diff.table, ·), s.deletes ++ r.went.map (diff.table, ·)⟩

/-- Apply an update or the initial data of a query. -/
def applyQueryDiff (c : RowCache) (query : Nat) (diffs : List WireDiff) : RowCache × List RowEvent :=
  let r := diffs.foldl (applyTableDiff query) ⟨c, [], []⟩
  (r.cache, r.cache.coalesce r.inserts r.deletes)

def releaseTable (s : ExtTreeMap String CacheTable × List RowEvent) (held : String × ExtTreeSet Bytes) :
    ExtTreeMap String CacheTable × List RowEvent :=
  match s.1[held.1]? with
  | none => s
  | some t =>
    let r := held.2.toList.foldl (fun r key => ((CacheTable.drop r.1 key).1, r.2 ++ (CacheTable.drop r.1 key).2.toList)) (t, [])
    (s.1.insert held.1 r.1, s.2 ++ r.2.map (.delete held.1 ·))

def releaseQuery (c : RowCache) (query : Nat) : RowCache × List RowEvent :=
  match c.queryKeys[query]? with
  | none => (c, [])
  | some held =>
    let r := held.toList.foldl releaseTable (c.tables, [])
    (⟨r.1, c.queryKeys.erase query⟩, r.2)

end RowCache

/-! ### Counts -/

theorem option_filter_congr {α : Type*} {o : Option α} {p q : α → Bool} (h : ∀ a, o = some a → p a = q a) :
    o.filter p = o.filter q := by
  cases o with
  | none => rfl
  | some a => simp [Option.filter, h a rfl]

namespace CacheTable

variable {t : CacheTable} {count : Bytes → Nat} {front : Bytes → Option Bytes} {row key : Bytes}

/-- The maps of a table hold each row with its count, and lead from a primary key to the row in
front, if that is cached. -/
structure Counts (t : CacheTable) (count : Bytes → Nat) (front : Bytes → Option Bytes) : Prop where
  byKey : ∀ k, t.byKey[k]? = if count k = 0 then none else some ⟨k, count k⟩
  nodup : t.order.Nodup
  order : ∀ k, k ∈ t.order ↔ count k ≠ 0
  byPk : ∀ pk, t.byPk[pk]? = (front pk).filter (count · ≠ 0)
  front : ∀ pk r, front pk = some r → t.schema.pkOfRow r = pk

theorem counts_new (schema : CacheSchema) : Counts (.new schema) (fun _ => 0) fun _ => none := by
  refine ⟨fun k => ?_, nodup_nil, fun k => ?_, fun pk => ?_, fun pk r h => ?_⟩
  · simp [new]
  · simp [new]
  · simp [new]
  · simp at h

theorem Counts.mem_byKey (h : t.Counts count front) : key ∈ t.byKey ↔ count key ≠ 0 := by
  rw [ExtTreeMap.mem_iff_isSome_getElem?, h.byKey key]
  by_cases hk : count key = 0 <;> simp [hk]

theorem Counts.congr {count' : Bytes → Nat} {front' : Bytes → Option Bytes} (h : t.Counts count front)
    (hcount : ∀ k, count k = count' k) (hbyPk : ∀ pk, (front pk).filter (count · ≠ 0) = (front' pk).filter (count · ≠ 0))
    (hfront : ∀ pk r, front' pk = some r → t.schema.pkOfRow r = pk) : t.Counts count' front' := by
  obtain rfl : count = count' := funext hcount
  exact ⟨h.byKey, h.nodup, h.order, fun pk => (h.byPk pk).trans (hbyPk pk), hfront⟩

theorem schema_take : (t.take row).1.schema = t.schema := by
  unfold CacheTable.take
  split <;> rfl

theorem schema_drop : (t.drop key).1.schema = t.schema := by
  unfold CacheTable.drop removeKey
  repeat' split
  all_goals rfl

/-- **One more query takes a row**; the row comes to the front of its primary key. -/
theorem Counts.take (h : t.Counts count front) (hfront : count row ≠ 0 → front (t.schema.pkOfRow row) = some row) :
    (t.take row).1.Counts (update count row (count row + 1))
      (update front (t.schema.pkOfRow row) (some row)) := by
  have hkeep : ∀ pk r, update front (t.schema.pkOfRow row) (some row) pk = some r → t.schema.pkOfRow r = pk := by
    intro pk r hr
    by_cases hpk : pk = t.schema.pkOfRow row
    · subst hpk
      rw [update_self, Option.some.injEq] at hr
      rw [hr]
    · rw [update_of_ne hpk] at hr
      exact h.front pk r hr
  unfold CacheTable.take
  rw [h.byKey row]
  by_cases hrow : count row = 0
  · simp only [hrow, if_true]
    refine ⟨fun k => ?_, ?_, fun k => ?_, fun pk => ?_, hkeep⟩
    · rw [insertRow, lookup_insert]
      by_cases hk : row = k
      · subst hk
        simp
      · rw [if_neg hk, h.byKey k, update_of_ne (Ne.symm hk)]
    · have hnot : row ∉ t.order := fun hmem => (h.order row).mp hmem hrow
      exact h.nodup.append (nodup_singleton row) (by simpa using hnot)
    · rw [insertRow, mem_append, h.order k, mem_singleton]
      by_cases hk : k = row <;> simp [hk]
    · rw [insertRow, lookup_insert]
      by_cases hpk : t.schema.pkOfRow row = pk
      · simp [hpk, Option.filter]
      rw [if_neg hpk, h.byPk pk, update_of_ne (Ne.symm hpk)]
      refine option_filter_congr fun r hr => ?_
      have hne : r ≠ row := fun heq => hpk (heq ▸ h.front pk r hr)
      rw [update_of_ne hne]
  · simp only [hrow, if_false]
    refine ⟨fun k => ?_, h.nodup, fun k => ?_, fun pk => ?_, hkeep⟩
    · rw [lookup_insert]
      by_cases hk : row = k
      · subst hk
        simp
      · rw [if_neg hk, h.byKey k, update_of_ne (Ne.symm hk)]
    · rw [h.order k]
      by_cases hk : k = row
      · simp [hk, hrow]
      · rw [update_of_ne hk]
    · rw [h.byPk pk]
      by_cases hpk : pk = t.schema.pkOfRow row
      · subst hpk
        simp [hfront hrow, Option.filter, hrow]
      rw [update_of_ne hpk]
      refine option_filter_congr fun r hr => ?_
      have hne : r ≠ row := fun heq => hpk (heq ▸ h.front pk r hr).symm
      rw [update_of_ne hne]

/-- **One query drops a row.** -/
theorem Counts.drop (h : t.Counts count front) (hkey : count key ≠ 0) :
    (t.drop key).1.Counts (update count key (count key - 1)) front := by
  unfold CacheTable.drop
  rw [h.byKey key, if_neg hkey]
  by_cases hone : 1 < count key
  · simp only [hone, if_true]
    have hpos : count key - 1 ≠ 0 := by omega
    have hcount : ∀ k, update count key (count key - 1) k = 0 ↔ count k = 0 := by
      intro k
      by_cases hk : k = key
      · simp [hk, hpos, hkey]
      · rw [update_of_ne hk]
    refine ⟨fun k => ?_, h.nodup, fun k => ?_, fun pk => ?_, h.front⟩
    · rw [lookup_insert]
      by_cases hk : key = k
      · subst hk
        simp [hpos]
      · rw [if_neg hk, h.byKey k, update_of_ne (Ne.symm hk)]
    · rw [h.order k]
      exact (hcount k).not.symm
    · rw [h.byPk pk]
      exact option_filter_congr fun r _ => by simp only [ne_eq, hcount r]
  · have hlast : count key - 1 = 0 := by omega
    simp only [hone, if_false, removeKey]
    rw [h.byKey key, if_neg hkey, hlast]
    refine ⟨fun k => ?_, h.nodup.erase key, fun k => ?_, fun pk => ?_, h.front⟩
    · rw [lookup_erase]
      by_cases hk : key = k
      · subst hk
        simp
      · rw [if_neg hk, h.byKey k, update_of_ne (Ne.symm hk)]
    · rw [h.nodup.mem_erase_iff, h.order k]
      by_cases hk : k = key <;> simp [hk]
    · -- the entry of the primary key goes with the row if it leads to it
      show (if _ then _ else _ : ExtTreeMap Bytes Bytes)[pk]? = _
      have hother : ∀ r, r ≠ key → (update count key 0 r ≠ 0 ↔ count r ≠ 0) := by
        intro r hr
        rw [update_of_ne hr]
      split
      · rename_i hlead
        rw [lookup_erase]
        split
        · rename_i hpk
          subst hpk
          rw [h.byPk, Option.filter_eq_some_iff] at hlead
          simp [hlead.1, Option.filter]
        · rename_i hpk
          rw [h.byPk pk]
          refine option_filter_congr fun r hr => ?_
          have hne : r ≠ key := fun heq => hpk (heq ▸ h.front pk r hr)
          simp only [hother r hne]
      · rename_i hlead
        rw [h.byPk pk]
        refine option_filter_congr fun r hr => ?_
        have hne : r ≠ key := by
          rintro rfl
          have hpk := h.front pk r hr
          refine hlead ?_
          rw [hpk, h.byPk pk, hr]
          simp [Option.filter, hkey]
        simp only [hother r hne]

theorem Counts.foldl_drop : ∀ {keys : List Bytes} {t : CacheTable} {count : Bytes → Nat}, t.Counts count front →
    keys.Nodup → (∀ k ∈ keys, count k ≠ 0) →
    (keys.foldl (fun t k => (CacheTable.drop t k).1) t).Counts (fun k => count k - if k ∈ keys then 1 else 0) front ∧
      (keys.foldl (fun t k => (CacheTable.drop t k).1) t).schema = t.schema
  | [], t, count, h, _, _ => by simpa using h
  | key :: keys, t, count, h, hnodup, hkeys => by
    rw [List.nodup_cons] at hnodup
    have hrest : ∀ k ∈ keys, update count key (count key - 1) k ≠ 0 := by
      intro k hk
      rw [update_of_ne (ne_of_mem_of_not_mem hk hnodup.1)]
      exact hkeys k (mem_cons_of_mem key hk)
    obtain ⟨ih, hschema⟩ := (h.drop (hkeys key (by simp))).foldl_drop hnodup.2 hrest
    refine ⟨ih.congr (fun k => ?_) (fun _ => rfl) ih.front, hschema.trans schema_drop⟩
    by_cases hk : k = key
    · subst hk
      simp [hnodup.1]
    · simp [hk]

end CacheTable

namespace DiffLoop

open CacheTable

/-- What is in front once the rows have been inserted. -/
def frontWith (schema : CacheSchema) (news : List Bytes) (front : Bytes → Option Bytes) (pk : Bytes) : Option Bytes :=
  (news.find? (schema.pkOfRow · = pk)).or (front pk)

theorem foldl_insert : ∀ {news : List Bytes} {s : DiffLoop} {count : Bytes → Nat} {front : Bytes → Option Bytes},
    s.table.Counts count front → (news.map s.table.schema.pkOfRow).Nodup → (∀ r ∈ news, r ∉ s.held) →
    (∀ r ∈ news, count r ≠ 0 → front (s.table.schema.pkOfRow r) = some r) →
    (news.foldl insert s).table.Counts (fun k => count k + if k ∈ news then 1 else 0)
        (frontWith s.table.schema news front) ∧
      (∀ k, k ∈ (news.foldl insert s).held ↔ k ∈ s.held ∨ k ∈ news) ∧
      (news.foldl insert s).table.schema = s.table.schema
  | [], s, count, front, h, _, _, _ => by
    refine ⟨h.congr (fun k => by simp) (fun pk => by simp [frontWith]) fun pk r hr => ?_, by simp, rfl⟩
    exact h.front pk r (by simpa [frontWith] using hr)
  | row :: news, s, count, front, h, hnodup, hfresh, hfront => by
    rw [List.map_cons, List.nodup_cons] at hnodup
    have hne : ∀ r ∈ news, s.table.schema.pkOfRow r ≠ s.table.schema.pkOfRow row := by
      intro r hr heq
      exact hnodup.1 (heq ▸ mem_map_of_mem hr)
    have hstep : s.insert row = ⟨(s.table.take row).1, s.held.insert row,
        if (s.table.take row).2 then s.came ++ [row] else s.came, s.went⟩ := by
      rw [DiffLoop.insert, if_neg (hfresh row (by simp))]
    rw [foldl_cons, hstep]
    have htake := h.take (hfront row (by simp))
    have ih := @foldl_insert news ⟨(s.table.take row).1, s.held.insert row,
        if (s.table.take row).2 then s.came ++ [row] else s.came, s.went⟩ _ _ htake ?_ ?_ ?_
    · obtain ⟨ih, hheld, hschema⟩ := ih
      rw [schema_take] at ih hschema
      refine ⟨ih.congr (fun k => ?_) (fun pk => ?_) ?_, fun k => ?_, hschema⟩
      · by_cases hk : k = row
        · subst hk
          have : k ∉ news := fun hmem => hne k hmem rfl
          simp [this]
        · simp [hk]
      · by_cases hpk : s.table.schema.pkOfRow row = pk
        · have : news.find? (s.table.schema.pkOfRow · = pk) = none := by
            simpa [← hpk] using hne
          simp [frontWith, hpk, this]
        · simp [frontWith, hpk, update_of_ne (Ne.symm hpk)]
      · intro pk r hr
        rw [hschema]
        unfold frontWith at hr
        cases hfind : (row :: news).find? (s.table.schema.pkOfRow · = pk) with
        | some r' =>
          rw [hfind, some_or, some.injEq] at hr
          subst hr
          simpa using find?_some hfind
        | none =>
          rw [hfind, none_or] at hr
          exact h.front pk r hr
      · rw [hheld k, mem_insert, mem_cons]
        tauto
    · rw [schema_take]
      exact hnodup.2
    · intro r hr
      rw [mem_insert]
      rintro (rfl | hmem)
      · exact hne row hr rfl
      · exact hfresh r (mem_cons_of_mem row hr) hmem
    · intro r hr hcount
      have hrow : r ≠ row := fun heq => hne r hr (by rw [heq])
      rw [update_of_ne hrow] at hcount
      rw [schema_take, update_of_ne (hne r hr)]
      exact hfront r (mem_cons_of_mem row hr) hcount

theorem foldl_remove : ∀ {olds : List Bytes} {s : DiffLoop}, olds.Nodup → (∀ r ∈ olds, r ∈ s.held) →
    (olds.foldl remove s).table = olds.foldl (fun t k => (CacheTable.drop t k).1) s.table ∧
      ∀ k, k ∈ (olds.foldl remove s).held ↔ k ∈ s.held ∧ k ∉ olds
  | [], s, _, _ => by simp
  | row :: olds, s, hnodup, hheld => by
    rw [List.nodup_cons] at hnodup
    have hstep : s.remove row = ⟨(s.table.drop row).1, s.held.erase row, s.came,
        s.went ++ (s.table.drop row).2.toList⟩ := by
      rw [DiffLoop.remove, if_pos (hheld row (by simp))]
    have hrest : ∀ r ∈ olds, r ∈ (s.remove row).held := by
      intro r hr
      rw [hstep]
      have hne : row ≠ r := fun heq => hnodup.1 (heq ▸ hr)
      simpa [hne] using hheld r (mem_cons_of_mem row hr)
    obtain ⟨htable, hmem⟩ := foldl_remove hnodup.2 hrest
    rw [foldl_cons, htable, foldl_cons]
    refine ⟨by rw [hstep], fun k => ?_⟩
    rw [hmem k, hstep]
    by_cases hk : row = k
    · simp [hk]
    · simp [hk, Ne.symm hk]

/-- **The loops over a diff**: the inserts are new to the query, and the deletes resolve to rows that it
holds. -/
theorem run_counts (s : DiffLoop) (diff : WireDiff) (olds : List Bytes) {count : Bytes → Nat}
    {front : Bytes → Option Bytes} (h : s.table.Counts count front)
    (hnodup : (diff.inserts.map s.table.schema.pkOfRow).Nodup) (hfresh : ∀ r ∈ diff.inserts, r ∉ s.held)
    (hfront : ∀ r ∈ diff.inserts, count r ≠ 0 → front (s.table.schema.pkOfRow r) = some r)
    (hdoomed : s.table.doomed diff.deletes = olds) (holds : olds.Nodup) (hheld : ∀ r ∈ olds, r ∈ s.held ∧ count r ≠ 0) :
    (s.run diff).table.Counts (fun k => (count k + if k ∈ diff.inserts then 1 else 0) - if k ∈ olds then 1 else 0)
        (frontWith s.table.schema diff.inserts front) ∧
      (s.run diff).table.schema = s.table.schema ∧
      ∀ k, k ∈ (s.run diff).held ↔ (k ∈ s.held ∨ k ∈ diff.inserts) ∧ k ∉ olds := by
  obtain ⟨hins, hmem, hschema⟩ := foldl_insert h hnodup hfresh hfront
  unfold run
  rw [hdoomed]
  have hin : ∀ r ∈ olds, r ∈ (diff.inserts.foldl insert s).held := fun r hr => (hmem r).mpr (.inl (hheld r hr).1)
  obtain ⟨htable, hrem⟩ := foldl_remove holds hin
  have hpos : ∀ r ∈ olds, (count r + if r ∈ diff.inserts then 1 else 0) ≠ 0 := by
    intro r hr
    have := (hheld r hr).2
    omega
  obtain ⟨hcounts, hschema'⟩ := hins.foldl_drop holds hpos
  rw [htable]
  refine ⟨hcounts, hschema'.trans hschema, fun k => ?_⟩
  rw [hrem k, hmem k]

end DiffLoop

namespace RowCache

variable {c : RowCache} {t : CacheTable} {query : Nat}

theorem applyQueryDiff_eq (query : Nat) (diff : WireDiff) (htable : c.tables[diff.table]? = some t) :
    (c.applyQueryDiff query [diff]).1 =
      ⟨c.tables.insert diff.table (DiffLoop.run ⟨t, c.held query diff.table, [], []⟩ diff).table,
        c.queryKeys.insert query (((c.queryKeys[query]?).getD ∅).insert diff.table
          (DiffLoop.run ⟨t, c.held query diff.table, [], []⟩ diff).held)⟩ := by
  simp [applyQueryDiff, applyTableDiff, htable]

theorem releaseQuery_eq {keys : QueryKeys} {rows : ExtTreeSet Bytes} {table : String}
    (hkeys : c.queryKeys[query]? = some keys) (honly : ∀ other, other ≠ table → keys[other]? = none)
    (hrows : keys[table]? = some rows) (htable : c.tables[table]? = some t) :
    (c.releaseQuery query).1 =
      ⟨c.tables.insert table (rows.toList.foldl (fun t k => (CacheTable.drop t k).1) t), c.queryKeys.erase query⟩ := by
  have hlist : keys.toList = [(table, rows)] := by
    have hall : ∀ e ∈ keys.toList, e = (table, rows) := by
      intro e he
      have hget : keys[e.1]? = some e.2 := ExtTreeMap.mem_toList_iff_getElem?_eq_some.mp he
      by_cases htab : e.1 = table
      · rw [htab, hrows, some.injEq] at hget
        exact Prod.ext htab hget.symm
      · simp [honly e.1 htab] at hget
    have hmem : (table, rows) ∈ keys.toList := ExtTreeMap.mem_toList_iff_getElem?_eq_some.mpr hrows
    have hnodup := (nodup_keys_toList keys).of_map
    match hl : keys.toList with
    | [] => simp [hl] at hmem
    | [e] => rw [hall e (by simp [hl])]
    | e :: e' :: l =>
      rw [hl, nodup_cons] at hnodup
      rw [hall e (by simp [hl]), hall e' (by simp [hl])] at hnodup
      simp at hnodup
  have hfst : ∀ (ks : List Bytes) (s : CacheTable × List Bytes),
      (ks.foldl (fun r key => ((CacheTable.drop r.1 key).1, r.2 ++ (CacheTable.drop r.1 key).2.toList)) s).1 =
        ks.foldl (fun t k => (CacheTable.drop t k).1) s.1 := by
    intro ks
    induction ks with
    | nil => intro s; rfl
    | cons k ks ih => intro s; rw [foldl_cons, ih, foldl_cons]
  simp only [releaseQuery, hkeys, hlist, foldl_cons, foldl_nil, releaseTable, htable, hfst]

end RowCache

end Fluxum
