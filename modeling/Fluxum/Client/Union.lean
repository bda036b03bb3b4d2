/-
# The row cache is the union of its queries

A server's table with live queries on it, and the client's cache fed by the
diffs of each query. The diffs of one commit arrive query by query, and a query
may be released at any point in between.

* `feed_union`: the cache holds the rows of the live queries, each as the
  queries that were told of the last commit have it.
* `shared_row_stays_stale`: a row of two queries that stays as it was.
-/
import Fluxum.Lib.Runs
import Fluxum.Client.RowCache

namespace Fluxum

open Std List ExtTreeMap OrdMap

/-- A table on the wire: its schema, and the delete entry that the server writes for a key. -/
structure Wire where
  schema : CacheSchema
  deleteEntry : Bytes → Bytes
  pkOfDelete_deleteEntry : ∀ pk, schema.pkOfDelete (deleteEntry pk) = pk

/-- A live query: its id, and which rows it matches. -/
structure LiveQuery where
  id : Nat
  sees : Bytes → Bool

/-- The server's table, the live queries, the commit whose diffs are being delivered, and the cache. -/
structure Feed where
  cache : RowCache
  /-- The rows before the commit, and now. -/
  before : ExtTreeMap Bytes Bytes
  rows : ExtTreeMap Bytes Bytes
  /-- The primary keys that the commit wrote. -/
  written : List Bytes
  live : List LiveQuery
  /-- The queries whose diff is still to come. -/
  pending : List Nat
  /-- The queries whose diff has been applied, released ones included. -/
  delivered : List (Bytes → Bool)

inductive FeedStep where
  | subscribe (query : Nat) (sees : Bytes → Bool)
  /-- Primary keys with their new rows; none is a delete. -/
  | commit (writes : List (Bytes × Option Bytes))
  | deliver (query : Nat)
  | release (query : Nat)

def applyWrites (rows : ExtTreeMap Bytes Bytes) (writes : List (Bytes × Option Bytes)) : ExtTreeMap Bytes Bytes :=
  writes.foldl (fun m w => match w.2 with
    | some row => m.insert w.1 row
    | none => m.erase w.1) rows

namespace Feed

variable (w : Wire)

def new : Feed := ⟨.new [w.schema], ∅, ∅, [], [], [], []⟩

def initialData (f : Feed) (sees : Bytes → Bool) : WireDiff :=
  ⟨w.schema.name, (f.rows.toList.map (·.2)).filter sees, []⟩

/-- The diff of a query: deletes of the old rows that it matched, inserts of the new ones that it
matches. -/
def diffFor (f : Feed) (sees : Bytes → Bool) : WireDiff :=
  ⟨w.schema.name, f.written.filterMap fun pk => f.rows[pk]?.filter sees,
    f.written.filterMap fun pk => (f.before[pk]?.filter sees).map fun _ => w.deleteEntry pk⟩

def step (f : Feed) : FeedStep → Option Feed
  | .subscribe query sees =>
    if f.pending = [] ∧ ∀ s ∈ f.live, s.id ≠ query then
      some { f with
        cache := (f.cache.applyQueryDiff query [f.initialData w sees]).1
        before := f.rows
        written := []
        live := f.live ++ [⟨query, sees⟩]
        delivered := [] }
    else none
  | .commit writes =>
    if f.pending = [] ∧ (writes.map (·.1)).Nodup ∧ ∀ e ∈ writes, ∀ row ∈ e.2, w.schema.pkOfRow row = e.1 then
      some { f with
        before := f.rows
        rows := applyWrites f.rows writes
        written := writes.map (·.1)
        pending := f.live.map (·.id)
        delivered := [] }
    else none
  | .deliver query =>
    match f.live.find? (·.id = query) with
    | some s =>
      if query ∈ f.pending then
        some { f with
          cache := (f.cache.applyQueryDiff query [f.diffFor w s.sees]).1
          pending := f.pending.erase query
          delivered := f.delivered ++ [s.sees] }
      else none
    | none => none
  | .release query =>
    if ∃ s ∈ f.live, s.id = query then
      some { f with
        cache := (f.cache.releaseQuery query).1
        live := f.live.filter (·.id ≠ query)
        pending := f.pending.erase query }
    else none

/-- The cache holds the rows that a live query matches, each with the number of queries that do. -/
structure Union (f : Feed) : Prop where
  rows : (f.cache.rows w.schema.name).Perm ((f.rows.toList.map (·.2)).filter fun row => f.live.any (·.sees row))
  refcount : ∀ row, f.cache.refcount w.schema.name row =
    if f.rows[w.schema.pkOfRow row]? = some row then f.live.countP (·.sees row) else 0

/-- The commit does not rewrite a row that the query saw to the same bytes, nor to a row that a query
served earlier in the commit has put in its place. -/
def resolves (f : Feed) : FeedStep → Bool
  | .deliver query => f.live.all fun s => s.id ≠ query ||
      f.written.all fun pk => f.before[pk]?.all fun old => f.rows[pk]?.all fun row =>
        !s.sees old || (old ≠ row && f.delivered.all fun sees => !sees row)
  | _ => true

/-! ### What each query holds -/

/-- Whether the query holds the row: as before the commit until its diff has come. -/
def holds (f : Feed) (s : LiveQuery) (row : Bytes) : Bool :=
  s.sees row && (if s.id ∈ f.pending then f.before else f.rows)[w.schema.pkOfRow row]? = some row

/-- How many queries hold the row. -/
def count (f : Feed) (row : Bytes) : Nat := f.live.countP fun s => f.holds w s row

/-- The row that a primary key leads to, if it is cached: the new one once a query has put it in. -/
def front (f : Feed) (pk : Bytes) : Option Bytes :=
  if f.rows[pk]?.any fun row => f.delivered.any fun sees => sees row then f.rows[pk]? else f.before[pk]?

/-- What the cache holds between the diffs. -/
structure Inv (f : Feed) (t : CacheTable) : Prop where
  table : f.cache.tables[w.schema.name]? = some t
  schema : t.schema = w.schema
  counts : t.Counts (f.count w) f.front
  held : ∀ s ∈ f.live, ∃ keys, f.cache.queryKeys[s.id]? = some keys ∧
    (∀ table, table ≠ w.schema.name → keys[table]? = none) ∧
    ∃ rows, keys[w.schema.name]? = some rows ∧ ∀ row, row ∈ rows ↔ f.holds w s row = true
  free : ∀ query, (∀ s ∈ f.live, s.id ≠ query) → f.cache.queryKeys[query]? = none
  ids : (f.live.map (·.id)).Nodup
  pending : ∀ query ∈ f.pending, ∃ s ∈ f.live, s.id = query
  pendingNodup : f.pending.Nodup
  writtenNodup : f.written.Nodup
  beforePk : ∀ (pk row : Bytes), f.before[pk]? = some row → w.schema.pkOfRow row = pk
  rowsPk : ∀ (pk row : Bytes), f.rows[pk]? = some row → w.schema.pkOfRow row = pk
  same : ∀ pk : Bytes, pk ∉ f.written → f.before[pk]? = f.rows[pk]?
  told : (∀ pk : Bytes, f.before[pk]? = f.rows[pk]?) ∨ ∀ s ∈ f.live, s.id ∉ f.pending → s.sees ∈ f.delivered

variable {w} {f f' : Feed} {t : CacheTable} {s : LiveQuery} {query : Nat}

theorem inv_new : Inv w (new w) (.new w.schema) where
  table := by simp [new, RowCache.new]
  schema := rfl
  counts := (CacheTable.counts_new w.schema).congr (fun k => by simp [count, new]) (fun pk => by simp [front, new])
    fun pk r h => by simp [front, new] at h
  held := by simp [new]
  free := by simp [new, RowCache.new]
  ids := by simp [new]
  pending := by simp [new]
  pendingNodup := by simp [new]
  writtenNodup := by simp [new]
  beforePk := by simp [new]
  rowsPk := by simp [new]
  same := by simp [new]
  told := by simp [new]

theorem exists_of_count_ne_zero {row : Bytes} (h : f.count w row ≠ 0) : ∃ s ∈ f.live, f.holds w s row = true :=
  countP_pos_iff.mp (Nat.pos_of_ne_zero h)

theorem holds_eq_true {row : Bytes} : f.holds w s row = true ↔
    s.sees row = true ∧ (if s.id ∈ f.pending then f.before else f.rows)[w.schema.pkOfRow row]? = some row := by
  rw [holds, Bool.and_eq_true, decide_eq_true_eq]

theorem Inv.settled (h : Inv w f t) (hpending : f.pending = []) : t.Counts (f.count w) fun pk => f.rows[pk]? := by
  have hschema := h.schema
  refine h.counts.congr (fun _ => rfl) (fun pk => ?_) fun pk r hr => hschema ▸ h.rowsPk pk r hr
  unfold front
  split
  · rfl
  rename_i hnone
  rcases h.told with hsame | htold
  · rw [hsame pk]
  -- every live query has been told, and none of them matches the new row
  have hzero : ∀ row, w.schema.pkOfRow row = pk → f.count w row = 0 := by
    intro row hrow
    by_contra hne
    obtain ⟨s, hs, hholds⟩ := exists_of_count_ne_zero hne
    obtain ⟨hsees, hget⟩ := holds_eq_true.mp hholds
    have hget : f.rows[pk]? = some row := by simpa [hpending, hrow] using hget
    refine hnone ?_
    rw [hget, Option.any_some, any_eq_true]
    exact ⟨s.sees, htold s hs (by simp [hpending]), hsees⟩
  have hfilter : ∀ o : Option Bytes, (∀ r, o = some r → w.schema.pkOfRow r = pk) →
      o.filter (fun r => decide (f.count w r ≠ 0)) = none := by
    intro o ho
    cases o with
    | none => rfl
    | some r => simp [Option.filter, hzero r (ho r rfl)]
  rw [hfilter _ (h.beforePk pk), hfilter _ (h.rowsPk pk)]

theorem count_settled (hpending : f.pending = []) (row : Bytes) :
    f.count w row = if f.rows[w.schema.pkOfRow row]? = some row then f.live.countP (·.sees row) else 0 := by
  split
  · rename_i hrow
    exact countP_congr fun s _ => by simp [holds, hpending, hrow]
  · rename_i hrow
    exact countP_eq_zero.mpr fun s _ => by simp [holds, hpending, hrow]

theorem Inv.union (h : Inv w f t) (hpending : f.pending = []) : f.Union w := by
  have hcounts := h.counts
  have hrows : f.cache.rows w.schema.name = t.order := by
    simp only [RowCache.rows, h.table]
    have : ∀ l : List Bytes, (∀ k ∈ l, f.count w k ≠ 0) → l.filterMap (fun key => t.byKey[key]?.map (·.bytes)) = l := by
      intro l hl
      induction l with
      | nil => rfl
      | cons k l ih =>
        have hk := hl k (by simp)
        rw [filterMap_cons, hcounts.byKey k, if_neg hk, Option.map_some]
        rw [ih fun k' hk' => hl k' (mem_cons_of_mem k hk')]
    exact this t.order fun k hk => (hcounts.order k).mp hk
  refine ⟨?_, fun row => ?_⟩
  · have hnodup : (f.rows.toList.map (·.2)).Nodup := by
      refine (nodup_keys_toList f.rows).of_map.map_on fun a ha b hb hab => ?_
      have ha' := h.rowsPk a.1 a.2 (mem_toList_iff_getElem?_eq_some.mp ha)
      have hb' := h.rowsPk b.1 b.2 (mem_toList_iff_getElem?_eq_some.mp hb)
      exact Prod.ext (by rw [← ha', ← hb', hab]) hab
    rw [hrows, perm_ext_iff_of_nodup hcounts.nodup (hnodup.filter _)]
    intro row
    rw [hcounts.order row, mem_filter, count_settled hpending]
    constructor
    · intro hne
      split at hne
      · rename_i hrow
        refine ⟨mem_map.mpr ⟨(_, row), mem_toList_iff_getElem?_eq_some.mpr hrow, rfl⟩, ?_⟩
        exact any_eq_true.mpr (countP_pos_iff.mp (Nat.pos_of_ne_zero hne))
      · exact absurd rfl hne
    · rintro ⟨hmem, hany⟩
      obtain ⟨e, he, rfl⟩ := mem_map.mp hmem
      have hget : f.rows[e.1]? = some e.2 := mem_toList_iff_getElem?_eq_some.mp he
      rw [h.rowsPk e.1 e.2 hget, if_pos hget]
      exact (countP_pos_iff.mpr (any_eq_true.mp hany)).ne'
  · rw [RowCache.refcount, h.table, Option.bind_some, hcounts.byKey row, ← count_settled hpending]
    by_cases hzero : f.count w row = 0 <;> simp [hzero]

/-! ### Steps -/

theorem getElem?_applyWrites : ∀ {writes : List (Bytes × Option Bytes)} {rows : ExtTreeMap Bytes Bytes},
    (writes.map (·.1)).Nodup → ∀ pk : Bytes, (applyWrites rows writes)[pk]? =
      match writes.find? (·.1 = pk) with
      | some e => e.2
      | none => rows[pk]?
  | [], rows, _, pk => rfl
  | e :: writes, rows, hnodup, pk => by
    rw [List.map_cons, List.nodup_cons] at hnodup
    unfold applyWrites
    rw [List.foldl_cons]
    refine (getElem?_applyWrites hnodup.2 pk).trans ?_
    by_cases he : e.1 = pk
    · have hnone : writes.find? (·.1 = pk) = none := by
        rw [find?_eq_none]
        intro e' he' heq
        exact hnodup.1 (mem_map.mpr ⟨e', he', by rw [he]; exact of_decide_eq_true heq⟩)
      rw [hnone, find?_cons_of_pos (by simpa using he)]
      obtain ⟨pk', new⟩ := e
      obtain rfl : pk' = pk := he
      cases new with
      | some row | none => simp
    · rw [find?_cons_of_neg (by simpa using he)]
      cases writes.find? (·.1 = pk) with
      | some e' => rfl
      | none =>
        cases e.2 with
        | some row => exact (lookup_insert rows e.1 pk row).trans (if_neg he)
        | none => exact (lookup_erase rows e.1 pk).trans (if_neg he)

theorem holds_due {row : Bytes} (hdue : s.id ∈ f'.pending) (hpending : f.pending = []) (hbefore : f'.before = f.rows) :
    f.holds w s row = f'.holds w s row := by
  simp only [holds, hdue, if_true, hbefore, hpending, not_mem_nil, if_false]

theorem Inv.commit {writes : List (Bytes × Option Bytes)} (h : Inv w f t)
    (hstep : f.step w (.commit writes) = some f') : Inv w f' t := by
  obtain ⟨⟨hpending, hnodup, hpk⟩, rfl⟩ := Runs.of_guard hstep
  have hsettled := h.settled hpending
  have hmem : ∀ s ∈ f.live, s.id ∈ f.live.map (·.id) := fun s hs => mem_map_of_mem hs
  refine ⟨h.table, h.schema, hsettled.congr (fun k => ?_) (fun pk => by simp [front]) fun pk r hr => ?_, fun s hs => ?_,
    h.free, h.ids, ?_, h.ids, hnodup, h.rowsPk, fun pk row hrow => ?_, fun pk hpk' => ?_, .inr fun s hs hno => ?_⟩
  · exact countP_congr fun s hs => Bool.eq_iff_iff.mp (holds_due (hmem s hs) hpending rfl)
  · rw [h.schema]
    exact h.rowsPk pk r (by simpa [front] using hr)
  · obtain ⟨keys, hkeys, honly, rows, hrows, hiff⟩ := h.held s hs
    exact ⟨keys, hkeys, honly, rows, hrows, fun row =>
      (hiff row).trans (Bool.eq_iff_iff.mp (holds_due (hmem s hs) hpending rfl))⟩
  · intro query hquery
    exact mem_map.mp hquery
  · rw [getElem?_applyWrites hnodup] at hrow
    split at hrow
    · rename_i e he
      rw [hpk e (mem_of_find?_eq_some he) row hrow]
      simpa using find?_some he
    · exact h.rowsPk pk row hrow
  · rw [getElem?_applyWrites hnodup]
    have hnone : writes.find? (·.1 = pk) = none := by
      rw [find?_eq_none]
      intro e he heq
      exact hpk' (mem_map.mpr ⟨e, he, of_decide_eq_true heq⟩)
    rw [hnone]
  · exact absurd (hmem s hs) hno

theorem countP_split {live : List LiveQuery} (p : LiveQuery → Bool) (hids : (live.map (·.id)).Nodup)
    (hs : s ∈ live) : live.countP p = (live.filter (·.id ≠ s.id)).countP p + if p s then 1 else 0 := by
  induction live with
  | nil => simp at hs
  | cons a live ih =>
    rw [map_cons, nodup_cons] at hids
    by_cases ha : a.id = s.id
    · have hsa : s = a := by
        rcases mem_cons.mp hs with rfl | hs
        · rfl
        · exact absurd (mem_map.mpr ⟨s, hs, ha.symm⟩) hids.1
      subst hsa
      have hall : live.filter (·.id ≠ s.id) = live := by
        rw [filter_eq_self]
        intro b hb
        simpa using fun heq => hids.1 (mem_map.mpr ⟨b, hb, heq⟩)
      rw [filter_cons_of_neg (by simp), hall, countP_cons]
    · have hs' : s ∈ live := by
        rcases mem_cons.mp hs with rfl | hs
        · exact absurd rfl ha
        · exact hs
      rw [filter_cons_of_pos (by simpa using ha), countP_cons, countP_cons, ih hids.2 hs']
      omega

theorem holds_erase {row : Bytes} {delivered : List (Bytes → Bool)} {cache : RowCache}
    {live : List LiveQuery} (hne : s.id ≠ query) :
    holds w { f with cache, live, pending := f.pending.erase query, delivered } s row = f.holds w s row := by
  simp only [holds, mem_erase_of_ne hne]

theorem Inv.release (h : Inv w f t) (hstep : f.step w (.release query) = some f') :
    ∃ t', Inv w f' t' := by
  obtain ⟨⟨s, hs, rfl⟩, rfl⟩ := Runs.of_guard hstep
  obtain ⟨keys, hkeys, honly, rows, hrows, hiff⟩ := h.held s hs
  have hcache := RowCache.releaseQuery_eq hkeys honly hrows h.table
  have hmem : ∀ k, k ∈ rows.toList ↔ f.holds w s k = true := fun k => by rw [ExtTreeSet.mem_toList, hiff]
  have hnodup : rows.toList.Nodup := by
    refine nodup_iff_pairwise_ne.mpr (rows.distinct_toList.imp fun hab heq => ?_)
    exact hab (LawfulEqCmp.compare_eq_iff_eq.mpr heq)
  have hpos : ∀ k ∈ rows.toList, f.count w k ≠ 0 := by
    intro k hk
    exact (countP_pos_iff.mpr ⟨s, hs, (hmem k).mp hk⟩).ne'
  obtain ⟨hcounts, hschema⟩ := h.counts.foldl_drop hnodup hpos
  rw [hcache]
  refine ⟨rows.toList.foldl (fun t k => (CacheTable.drop t k).1) t, ?_⟩
  have hother : ∀ s' ∈ f.live.filter (·.id ≠ s.id), s' ∈ f.live ∧ s'.id ≠ s.id := by
    intro s' hs'
    simpa using mem_filter.mp hs'
  refine ⟨by simp, hschema.trans h.schema, hcounts.congr (fun k => ?_) (fun _ => rfl) hcounts.front, fun s' hs' => ?_,
    fun query hquery => ?_, h.ids.sublist (filter_sublist.map _), fun query hquery => ?_, h.pendingNodup.erase _,
    h.writtenNodup, h.beforePk, h.rowsPk, h.same, h.told.imp id fun htold s' hs' hno => ?_⟩
  · have hsplit := countP_split (f.holds w · k) h.ids hs
    refine .trans ?_ (countP_congr fun s' hs' => by rw [holds_erase (hother s' hs').2]).symm
    rw [count, hsplit]
    by_cases hk : f.holds w s k = true
    · simp [hk, (hmem k).mpr hk]
    · simp [hk, mt (hmem k).mp hk]
  · obtain ⟨hs', hne⟩ := hother s' hs'
    obtain ⟨keys', hkeys', honly', rows', hrows', hiff'⟩ := h.held s' hs'
    refine ⟨keys', ?_, honly', rows', hrows', fun row => by rw [hiff' row, holds_erase hne]⟩
    rw [lookup_erase, if_neg (Ne.symm hne)]
    exact hkeys'
  · rw [lookup_erase]
    split
    · rfl
    rename_i hne
    refine h.free query fun s' hs' heq => ?_
    refine hquery s' (mem_filter.mpr ⟨hs', ?_⟩) heq
    simpa [heq] using Ne.symm hne
  · obtain ⟨hne, hq⟩ := (h.pendingNodup.mem_erase_iff).mp hquery
    obtain ⟨s', hs', rfl⟩ := h.pending query hq
    exact ⟨s', mem_filter.mpr ⟨hs', by simpa using hne⟩, rfl⟩
  · obtain ⟨hs', hne⟩ := hother s' hs'
    exact htold s' hs' fun hp => hno ((mem_erase_of_ne hne).mpr hp)

theorem map_pk_sublist {g : Bytes → Option Bytes} (hg : ∀ pk row, g pk = some row → w.schema.pkOfRow row = pk) :
    ∀ pks : List Bytes, ((pks.filterMap g).map w.schema.pkOfRow).Sublist pks
  | [] => by simp
  | pk :: pks => by
    cases hpk : g pk with
    | none =>
      rw [List.filterMap_cons_none hpk]
      exact (map_pk_sublist hg pks).cons pk
    | some row =>
      rw [List.filterMap_cons_some hpk, List.map_cons, hg pk row hpk]
      exact (map_pk_sublist hg pks).cons_cons pk

theorem getElem?_served {cache : RowCache} {query query' : Nat} {table : String} {rows : ExtTreeSet Bytes} :
    (cache.queryKeys.insert query (((cache.queryKeys[query]?).getD ∅).insert table rows))[query']? =
      if query = query' then some (((cache.queryKeys[query]?).getD ∅).insert table rows)
      else cache.queryKeys[query']? :=
  lookup_insert _ _ _ _

theorem mem_initialData (h : Inv w f t) (sees : Bytes → Bool) (row : Bytes) :
    row ∈ (f.initialData w sees).inserts ↔ f.rows[w.schema.pkOfRow row]? = some row ∧ sees row = true := by
  rw [initialData, mem_filter, mem_map]
  refine and_congr_left fun _ => ⟨?_, fun hrow => ⟨(_, row), mem_toList_iff_getElem?_eq_some.mpr hrow, rfl⟩⟩
  rintro ⟨e, he, rfl⟩
  have hget : f.rows[e.1]? = some e.2 := mem_toList_iff_getElem?_eq_some.mp he
  rwa [h.rowsPk e.1 e.2 hget]

theorem nodup_initialData (h : Inv w f t) (sees : Bytes → Bool) :
    ((f.initialData w sees).inserts.map w.schema.pkOfRow).Nodup := by
  have hkeys : (f.rows.toList.map (·.2)).map w.schema.pkOfRow = f.rows.toList.map (·.1) := by
    rw [List.map_map]
    refine map_congr_left fun e he => ?_
    exact h.rowsPk e.1 e.2 (mem_toList_iff_getElem?_eq_some.mp he)
  refine Nodup.sublist (filter_sublist.map _) ?_
  rw [hkeys]
  exact nodup_keys_toList f.rows

theorem Inv.subscribe {sees : Bytes → Bool} (h : Inv w f t)
    (hstep : f.step w (.subscribe query sees) = some f') : ∃ t', Inv w f' t' := by
  obtain ⟨⟨hpending, hnew⟩, rfl⟩ := Runs.of_guard hstep
  have hfree := h.free query hnew
  have hheld : f.cache.held query w.schema.name = ∅ := by simp [RowCache.held, hfree]
  have hschema := h.schema
  have hmem := mem_initialData h sees
  obtain ⟨hcounts, hschema', hserved⟩ := DiffLoop.run_counts ⟨t, f.cache.held query w.schema.name, [], []⟩
    (f.initialData w sees) [] (h.settled hpending) (by rw [hschema]; exact nodup_initialData h sees) (by simp [hheld])
    (fun r hr _ => by rw [hschema]; exact ((hmem r).mp hr).1) rfl nodup_nil (by simp)
  rw [RowCache.applyQueryDiff_eq query (f.initialData w sees) h.table]
  have hname : (f.initialData w sees).table = w.schema.name := rfl
  rw [hname]
  generalize DiffLoop.run ⟨t, f.cache.held query w.schema.name, [], []⟩ (f.initialData w sees) = r at *
  refine ⟨r.table, ?_⟩
  refine ⟨by simp, hschema'.trans hschema, hcounts.congr (fun k => ?_) (fun pk => ?_) fun pk row hr => ?_, fun s hs => ?_,
    fun query' hquery' => ?_, ?_, by simp [hpending], h.pendingNodup, nodup_nil, h.rowsPk, h.rowsPk, fun _ _ => rfl,
    .inl fun _ => rfl⟩
  · -- the rows of the initial data are counted once more
    simp only [count, holds, hpending, countP_append, not_mem_nil, if_false, Nat.sub_zero]
    congr 1
    by_cases hk : f.rows[w.schema.pkOfRow k]? = some k ∧ sees k = true
    · simp [(hmem k).mpr hk, hk.1, hk.2]
    · rw [if_neg (mt (hmem k).mp hk), countP_singleton, if_neg]
      simpa [and_comm] using hk
  · have hfront : DiffLoop.frontWith t.schema (f.initialData w sees).inserts (fun pk => f.rows[pk]?) pk = f.rows[pk]? := by
      unfold DiffLoop.frontWith
      cases hfind : (f.initialData w sees).inserts.find? (t.schema.pkOfRow · = pk) with
      | none => simp
      | some row =>
        have hpk : w.schema.pkOfRow row = pk := by simpa [hschema] using find?_some hfind
        have hrow := (hmem row).mp (mem_of_find?_eq_some hfind)
        rw [Option.some_or, ← hpk, hrow.1]
    simp only [hfront, front, any_nil]
    simp
  · rw [hschema', hschema]
    exact h.rowsPk pk row (by simpa [front] using hr)
  · simp only [getElem?_served]
    rcases mem_append.mp hs with hs | hs
    · obtain ⟨keys, hkeys, honly, rows, hrows, hiff⟩ := h.held s hs
      rw [if_neg (Ne.symm (hnew s hs))]
      exact ⟨keys, hkeys, honly, rows, hrows, fun row => by rw [hiff row]; simp [holds, hpending]⟩
    · obtain rfl : s = ⟨query, sees⟩ := by simpa using hs
      rw [if_pos rfl, hfree]
      refine ⟨_, rfl, fun table htable => ?_, r.held, by simp, fun row => ?_⟩
      · simp [Ne.symm htable]
      · rw [hserved row, hheld]
        simp [hmem row, holds, hpending, and_comm]
  · simp only [getElem?_served]
    rw [if_neg fun heq => hquery' ⟨query, sees⟩ (by simp) heq]
    exact h.free query' fun s hs => hquery' s (by simp [hs])
  · rw [map_append, map_singleton]
    refine h.ids.append (nodup_singleton query) ?_
    simpa using hnew

theorem mem_picked {pks : List Bytes} {m : ExtTreeMap Bytes Bytes} {sees : Bytes → Bool} {row : Bytes}
    (hm : ∀ pk r : Bytes, m[pk]? = some r → w.schema.pkOfRow r = pk) :
    row ∈ pks.filterMap (fun pk => m[pk]?.filter sees) ↔
      w.schema.pkOfRow row ∈ pks ∧ m[w.schema.pkOfRow row]? = some row ∧ sees row = true := by
  simp only [mem_filterMap, Option.filter_eq_some_iff]
  constructor
  · rintro ⟨pk, hpk, hrow, hsees⟩
    obtain rfl := hm pk row hrow
    exact ⟨hpk, hrow, hsees⟩
  · rintro ⟨hpk, hrow, hsees⟩
    exact ⟨_, hpk, hrow, hsees⟩

/-- Delivery resolves: what the query saw of a written key is not what stands there now, and no query
served before has put the new row in. -/
theorem resolves_spec {pk old row : Bytes} (h : f.resolves (.deliver s.id) = true) (hs : s ∈ f.live)
    (hpk : pk ∈ f.written) (hold : f.before[pk]? = some old) (hrow : f.rows[pk]? = some row) (hsees : s.sees old = true) :
    old ≠ row ∧ ∀ sees ∈ f.delivered, sees row = false := by
  simp only [resolves, all_eq_true] at h
  have := h s hs
  simp only [ne_eq, not_true_eq_false, decide_false, Bool.false_or, all_eq_true] at this
  have := this pk hpk
  rw [hold, hrow] at this
  simpa [hsees] using this

/-- The rows that the query saw of the written keys. -/
def seen (f : Feed) (s : LiveQuery) : List Bytes := f.written.filterMap fun pk => f.before[pk]?.filter s.sees

/-- The feed once a query's diff has been applied, with the cache left open. -/
def told (f : Feed) (s : LiveQuery) (cache : RowCache) : Feed :=
  { f with cache, pending := f.pending.erase s.id, delivered := f.delivered ++ [s.sees] }

section Deliver

variable {s : LiveQuery} (h : Inv w f t) (hresolves : f.resolves (.deliver s.id) = true) (hs : s ∈ f.live)
  (hquery : s.id ∈ f.pending)

include h in
theorem mem_news {row : Bytes} : row ∈ (f.diffFor w s.sees).inserts ↔
    w.schema.pkOfRow row ∈ f.written ∧ f.rows[w.schema.pkOfRow row]? = some row ∧ s.sees row = true :=
  mem_picked h.rowsPk

include h in
theorem mem_seen {row : Bytes} : row ∈ f.seen s ↔
    w.schema.pkOfRow row ∈ f.written ∧ f.before[w.schema.pkOfRow row]? = some row ∧ s.sees row = true :=
  mem_picked h.beforePk

include hquery in
theorem holds_pending {row : Bytes} :
    f.holds w s row = true ↔ s.sees row = true ∧ f.before[w.schema.pkOfRow row]? = some row := by
  rw [holds_eq_true, if_pos hquery]

include hs in
theorem count_ne_zero {row : Bytes} (hrow : f.holds w s row = true) : f.count w row ≠ 0 :=
  (countP_pos_iff.mpr ⟨s, hs, hrow⟩).ne'

include h hresolves hs hquery in
theorem doomed_eq : t.doomed (f.diffFor w s.sees).deletes = f.seen s := by
  simp only [CacheTable.doomed, diffFor, filterMap_filterMap, seen]
  refine filterMap_congr fun pk hpk => ?_
  cases hb : f.before[pk]?.filter s.sees with
  | none => rfl
  | some old =>
    obtain ⟨hb, hsees⟩ := Option.filter_eq_some_iff.mp hb
    have hpkold := h.beforePk pk old hb
    have hne := count_ne_zero hs ((holds_pending hquery).mpr ⟨hsees, by rwa [hpkold]⟩)
    have hfront : f.front pk = some old := by
      unfold front
      rw [if_neg, hb]
      intro hany
      obtain ⟨row, hrow, hrow'⟩ := (Option.any_eq_true _ _).mp hany
      obtain ⟨sees, hmem, hsees'⟩ := any_eq_true.mp hrow'
      rw [(resolves_spec hresolves hs hpk hb hrow hsees).2 sees hmem] at hsees'
      simp at hsees'
    rw [Option.map_some, Option.bind_some, h.schema, w.pkOfDelete_deleteEntry, h.counts.byPk, hfront]
    simp [Option.filter, hne, h.counts.mem_byKey]

include hresolves hs in
theorem before_ne {row : Bytes} (hpk : w.schema.pkOfRow row ∈ f.written)
    (hrows : f.rows[w.schema.pkOfRow row]? = some row) (hsees : s.sees row = true) :
    f.before[w.schema.pkOfRow row]? ≠ some row := by
  intro hbefore
  exact (resolves_spec hresolves hs hpk hbefore hrows hsees).1 rfl

include h hresolves hs in
theorem front_of_news {row : Bytes} (hrow : row ∈ (f.diffFor w s.sees).inserts) (hne : f.count w row ≠ 0) :
    f.front (w.schema.pkOfRow row) = some row := by
  obtain ⟨hpk, hrows, hsees⟩ := (mem_news h).mp hrow
  have hbefore := before_ne hresolves hs hpk hrows hsees
  obtain ⟨s', hs', hholds'⟩ := exists_of_count_ne_zero hne
  obtain ⟨hsees', hget'⟩ := holds_eq_true.mp hholds'
  have hdone : s'.id ∉ f.pending := fun hp => hbefore (by simpa [hp] using hget')
  unfold front
  rcases h.told with hsame | htold
  · exact absurd ((hsame _).trans hrows) hbefore
  · rw [if_pos, hrows]
    rw [hrows, Option.any_some, any_eq_true]
    exact ⟨s'.sees, htold s' hs' hdone, hsees'⟩

include h hresolves hs hquery in
theorem holds_told (cache : RowCache) (row : Bytes) : (f.told s cache).holds w s row = true ↔
    (f.holds w s row = true ∨ row ∈ (f.diffFor w s.sees).inserts) ∧ row ∉ f.seen s := by
  rw [holds_eq_true, told, if_neg h.pendingNodup.not_mem_erase, holds_pending hquery, mem_news h, mem_seen h]
  have hne := fun hpk hrows hsees => @before_ne w f s hresolves hs row hpk hrows hsees
  by_cases hpk : w.schema.pkOfRow row ∈ f.written
  · tauto
  · rw [h.same _ hpk]
    tauto

include h hresolves hs hquery in
/-- Only the query's own share of the counts changes. -/
theorem count_told (cache : RowCache) (row : Bytes) : (f.told s cache).count w row =
    (f.count w row + if row ∈ (f.diffFor w s.sees).inserts then 1 else 0) - if row ∈ f.seen s then 1 else 0 := by
  have hothers : (f.live.filter (·.id ≠ s.id)).countP (fun s' => (f.told s cache).holds w s' row) =
      (f.live.filter (·.id ≠ s.id)).countP (f.holds w · row) := by
    refine countP_congr fun s' hs' => ?_
    rw [told, holds_erase (by simpa using (mem_filter.mp hs').2)]
  have hsplit := countP_split (f.holds w · row) h.ids hs
  have hsplit' := countP_split (fun s' => (f.told s cache).holds w s' row) h.ids hs
  have hlive : (f.told s cache).count w row = f.live.countP fun s' => (f.told s cache).holds w s' row := rfl
  rw [hlive, hsplit', hothers, count, hsplit]
  simp only [holds_told h hresolves hs hquery]
  by_cases hseen : row ∈ f.seen s
  · obtain ⟨hpk, hbefore, hsees⟩ := (mem_seen h).mp hseen
    have hheld := (holds_pending hquery).mpr ⟨hsees, hbefore⟩
    have hnew : row ∉ (f.diffFor w s.sees).inserts := fun hnew =>
      before_ne hresolves hs hpk ((mem_news h).mp hnew).2.1 hsees hbefore
    simp [hseen, hheld, hnew]
  · by_cases hnew : row ∈ (f.diffFor w s.sees).inserts
    · obtain ⟨hpk, hrows, hsees⟩ := (mem_news h).mp hnew
      have hheld : ¬ f.holds w s row = true := fun hh =>
        before_ne hresolves hs hpk hrows hsees ((holds_pending hquery).mp hh).2
      simp [hseen, hheld, hnew]
    · simp [hseen, hnew]

include h in
theorem front_told (cache : RowCache) (pk : Bytes) :
    DiffLoop.frontWith w.schema (f.diffFor w s.sees).inserts f.front pk = (f.told s cache).front pk := by
  have hany : ∀ row, (f.delivered ++ [s.sees]).any (fun sees => sees row) =
      (f.delivered.any (fun sees => sees row) || s.sees row) := by
    intro row
    simp
  unfold DiffLoop.frontWith
  cases hfind : (f.diffFor w s.sees).inserts.find? (w.schema.pkOfRow · = pk) with
  | some row =>
    obtain rfl : w.schema.pkOfRow row = pk := by simpa using find?_some hfind
    obtain ⟨-, hrows, hsees⟩ := (mem_news h).mp (mem_of_find?_eq_some hfind)
    rw [Option.some_or, front, told]
    simp [hrows, hsees]
  | none =>
    rw [Option.none_or, front, front, told]
    cases hrow : f.rows[pk]? with
    | none => simp
    | some row =>
      simp only [Option.any_some, hany]
      by_cases hsees : s.sees row = true
      · -- the key is not written, so the row stood there before
        have hpk : pk ∉ f.written := by
          intro hpk
          have hpkrow := h.rowsPk pk row hrow
          refine find?_eq_none.mp hfind row ((mem_news h).mpr ?_) (by simpa using hpkrow)
          rw [hpkrow]
          exact ⟨hpk, hrow, hsees⟩
        simp [hsees, h.same pk hpk, hrow]
      · simp [hsees]

end Deliver

theorem Inv.deliver (h : Inv w f t) (hresolves : f.resolves (.deliver query) = true)
    (hstep : f.step w (.deliver query) = some f') : ∃ t', Inv w f' t' := by
  simp only [step] at hstep
  cases hfind : f.live.find? (·.id = query) with
  | none => simp [hfind] at hstep
  | some s =>
  rw [hfind] at hstep
  obtain ⟨hquery, rfl⟩ := Runs.of_guard hstep
  have hs := mem_of_find?_eq_some hfind
  obtain rfl : s.id = query := by simpa using find?_some hfind
  obtain ⟨keys, hkeys, honly, held, hheld, hiff⟩ := h.held s hs
  have hschema := h.schema
  have hget : f.cache.held s.id w.schema.name = held := by simp [RowCache.held, hkeys, hheld]
  have hpicked : ∀ m : ExtTreeMap Bytes Bytes, (∀ pk r : Bytes, m[pk]? = some r → w.schema.pkOfRow r = pk) →
      ((f.written.filterMap fun pk => m[pk]?.filter s.sees).map w.schema.pkOfRow).Nodup := by
    intro m hm
    refine h.writtenNodup.sublist (map_pk_sublist (fun pk row hrow => ?_) f.written)
    exact hm pk row (Option.filter_eq_some_iff.mp hrow).1
  have hfresh : ∀ row ∈ (f.diffFor w s.sees).inserts, row ∉ f.cache.held s.id w.schema.name := by
    intro row hrow
    obtain ⟨hpk, hrows, hsees⟩ := (mem_news h).mp hrow
    rw [hget, hiff row, holds_pending hquery]
    exact fun hh => before_ne hresolves hs hpk hrows hsees hh.2
  have hseen : ∀ row ∈ f.seen s, row ∈ f.cache.held s.id w.schema.name ∧ f.count w row ≠ 0 := by
    intro row hrow
    obtain ⟨-, hbefore, hsees⟩ := (mem_seen h).mp hrow
    have hh := (holds_pending hquery).mpr ⟨hsees, hbefore⟩
    exact ⟨by rw [hget]; exact (hiff row).mpr hh, count_ne_zero hs hh⟩
  obtain ⟨hcounts, hschema', hserved⟩ := DiffLoop.run_counts ⟨t, f.cache.held s.id w.schema.name, [], []⟩
    (f.diffFor w s.sees) (f.seen s) h.counts (by rw [hschema]; exact hpicked f.rows h.rowsPk) hfresh
    (by rw [hschema]; exact fun row hrow => front_of_news h hresolves hs hrow)
    (doomed_eq h hresolves hs hquery) (hpicked f.before h.beforePk).of_map hseen
  have hname : (f.diffFor w s.sees).table = w.schema.name := rfl
  rw [RowCache.applyQueryDiff_eq s.id (f.diffFor w s.sees) h.table, hname]
  generalize DiffLoop.run ⟨t, f.cache.held s.id w.schema.name, [], []⟩ (f.diffFor w s.sees) = r at *
  refine ⟨r.table, by simp, hschema'.trans hschema,
    hcounts.congr (fun k => (count_told h hresolves hs hquery _ k).symm) (fun pk => ?_) fun pk row hr => ?_,
    fun s' hs' => ?_, fun query hquery' => ?_, h.ids, fun query hquery' => h.pending query (mem_of_mem_erase hquery'),
    h.pendingNodup.erase _, h.writtenNodup, h.beforePk, h.rowsPk, h.same, h.told.imp id fun htold s' hs' hno => ?_⟩
  · rw [hschema, front_told h]
    rfl
  · rw [hschema', hschema]
    unfold front at hr
    split at hr
    · exact h.rowsPk pk row hr
    · exact h.beforePk pk row hr
  · simp only [getElem?_served]
    by_cases hid : s'.id = s.id
    · obtain rfl : s' = s := inj_on_of_nodup_map h.ids hs' hs hid
      rw [if_pos rfl, hkeys]
      refine ⟨_, rfl, fun table htable => ?_, r.held, by simp, fun row => ?_⟩
      · simpa [Ne.symm htable] using honly table htable
      · rw [hserved row, hget, hiff row]
        exact (holds_told h hresolves hs hquery _ row).symm
    · obtain ⟨keys', hkeys', honly', held', hheld', hiff'⟩ := h.held s' hs'
      rw [if_neg (Ne.symm hid)]
      exact ⟨keys', hkeys', honly', held', hheld', fun row => by rw [hiff' row, holds_erase hid]⟩
  · simp only [getElem?_served]
    rw [if_neg (hquery' s hs)]
    exact h.free query hquery'
  · by_cases hid : s'.id = s.id
    · obtain rfl : s' = s := inj_on_of_nodup_map h.ids hs' hs hid
      simp
    · exact mem_append_left _ (htold s' hs' fun hp => hno ((mem_erase_of_ne hid).mpr hp))

theorem Inv.step {l : FeedStep} (h : Inv w f t) (hresolves : f.resolves l = true) (hstep : f.step w l = some f') :
    ∃ t', Inv w f' t' := by
  cases l with
  | subscribe query sees => exact h.subscribe hstep
  | commit writes => exact ⟨t, h.commit hstep⟩
  | deliver query => exact h.deliver hresolves hstep
  | release query => exact h.release hstep

end Feed

/-- **The cache is the union of its queries.** When no commit rewrites a row that a query saw to the
same bytes, or to a row that a query served before it in the commit has put in its place, the cache
holds, once all diffs of a commit have come, the rows that a live query matches, each with the number
of queries that match it. -/
theorem feed_union {w : Wire} {ls : List FeedStep} {f : Feed}
    (hmeets : Runs.Meets (Feed.step w) (fun f l => f.resolves l = true) (.new w) ls)
    (hrun : Runs.run (Feed.step w) (.new w) ls = some f) (hpending : f.pending = []) : f.Union w := by
  have hstep : ∀ f l f', (∃ t, Feed.Inv w f t) → f.resolves l = true → f.step w l = some f' → ∃ t, Feed.Inv w f' t := by
    rintro f l f' ⟨t, h⟩ hresolves hstep
    exact h.step hresolves hstep
  obtain ⟨t, h⟩ := Runs.run_invariant_of_meets hstep ⟨_, Feed.inv_new⟩ hmeets hrun
  exact h.union hpending

/-- Rows of two bytes: the primary key and a payload. -/
def taskWire : Wire := ⟨⟨"Task", (·.take 1), id⟩, id, fun _ => rfl⟩

/-- A task moves from one query to another, which is released once the first has its diff. -/
def moveRun : List FeedStep :=
  [.commit [([1], some [1, 0]), ([2], some [2, 0])], .subscribe 1 (fun row => row.getLast? = some 0),
    .subscribe 2 (fun row => row.getLast? = some 9), .commit [([1], some [1, 9]), ([2], none)], .deliver 1, .deliver 2,
    .release 1]

theorem feed_union_moveRun : ∃ f, Runs.run (Feed.step taskWire) (.new taskWire) moveRun = some f ∧
    f.cache.rows "Task" = [[1, 9]] ∧ f.Union taskWire := by
  obtain ⟨f, hrun, hrows, hpending⟩ : ∃ f ∈ Runs.run (Feed.step taskWire) (.new taskWire) moveRun,
      f.cache.rows "Task" = [[1, 9]] ∧ f.pending = [] := by
    decide +kernel
  exact ⟨f, hrun, hrows, feed_union (by decide +kernel) hrun hpending⟩

/-- A task that two queries see is rewritten. The diff of the first query puts the new row in front of
the primary key, and the delete of the second leads to it: the old row stays. -/
theorem shared_row_stays_stale : ∃ f, Runs.run (Feed.step taskWire) (.new taskWire)
      [.commit [([1], some [1, 0])], .subscribe 1 (fun _ => true), .subscribe 2 (fun _ => true),
        .commit [([1], some [1, 9])], .deliver 1, .deliver 2] = some f ∧
    f.pending = [] ∧ f.cache.rows "Task" = [[1, 0], [1, 9]] ∧ ¬ f.Union taskWire := by
  obtain ⟨f, hrun, hpending, hrows, hperm⟩ : ∃ f ∈ Runs.run (Feed.step taskWire) (.new taskWire)
      [.commit [([1], some [1, 0])], .subscribe 1 (fun _ => true), .subscribe 2 (fun _ => true),
        .commit [([1], some [1, 9])], .deliver 1, .deliver 2],
      f.pending = [] ∧ f.cache.rows "Task" = [[1, 0], [1, 9]] ∧ ¬ (f.cache.rows "Task").Perm
        ((f.rows.toList.map (·.2)).filter fun row => f.live.any (·.sees row)) := by
    decide +kernel
  exact ⟨f, hrun, hpending, hrows, fun hunion => hperm hunion.rows⟩

end Fluxum
