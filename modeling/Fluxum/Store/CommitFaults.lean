/-
# Commits under pager failures

`Tx::commit` over a store whose pages fail: faulting and installing pages
while the buffer is merged, and freeing the pages that no live version can
reach (`store/pager/reclaim.rs`), which `publish` runs after it has swapped
the new state in. Which operations fail, and which pages a merge supersedes,
are parameters.

* `commit_all_or_nothing_iff`: a commit is all or nothing exactly if its merge
  fails or every page that may be reclaimed can be freed.
* `failed_free_commits`: a commit that returns an error and is published.
-/
import Fluxum.Store.Counters

namespace Fluxum

open Std Outcome List ExtTreeMap

/-- A page that a commit superseded: table and page. -/
abbrev SupersededPage := Nat × Nat

/-- `reclaim.rs`: batches of superseded pages by the version that superseded them, and pin counts of the live versions. -/
structure Reclaimer where
  garbage : ExtTreeMap Nat (List SupersededPage)
  live : ExtTreeMap Nat Nat

/-- Which pager operations fail, and what the copy-on-write merge supersedes. -/
structure PagerFaults where
  /-- Reading a released row, while the operation on this key of this table is merged. -/
  release : Nat → Bytes → Bool
  /-- Faulting, installing or spilling a page, while the operation on this key of this table is merged. -/
  merge : Nat → Bytes → Bool
  free : SupersededPage → Bool
  superseded : Nat → Bytes → List Nat

inductive CommitError where
  | store (error : StoreError)
  | pager

namespace Reclaimer

def new : Reclaimer := ⟨∅, ∅⟩

def pin (r : Reclaimer) (version : Nat) : Reclaimer :=
  { r with live := r.live.insert version (r.live[version]?.getD 0 + 1) }

/-- The first half of `unpin`, under the lock; `collect` follows. -/
def unpin (r : Reclaimer) (version : Nat) : Reclaimer :=
  match r.live[version]? with
  | none => r
  | some count => { r with live := if count - 1 = 0 then r.live.erase version else r.live.insert version (count - 1) }

def floor (r : Reclaimer) : Nat := (r.live.toList.head?.map Prod.fst).getD (2 ^ 64 - 1)

/-- The batches that `collect` frees. -/
def reclaimable (r : Reclaimer) : List SupersededPage :=
  (r.garbage.toList.filter fun p => decide (p.1 < saturatingAdd r.floor 1)).flatMap Prod.snd

/-- What `collect` keeps. -/
def drained (r : Reclaimer) : Reclaimer :=
  { r with garbage := r.garbage.filter fun version _ => decide (saturatingAdd r.floor 1 ≤ version) }

/-- Record what a version superseded. -/
def record (r : Reclaimer) (version : Nat) (pages : List SupersededPage) : Reclaimer :=
  if pages.isEmpty then r else { r with garbage := r.garbage.insert version (r.garbage[version]?.getD [] ++ pages) }

/-- `Reclaimer::retire`: the first page that cannot be freed is its error. -/
def retire (f : PagerFaults) (r : Reclaimer) (version : Nat) (pages : List SupersededPage) : Except CommitError Unit × Reclaimer :=
  let r := r.record version pages
  (if r.reclaimable.any f.free then .error .pager else .ok (), r.drained)

end Reclaimer

structure CommittedState where
  tables : Tables
  version : Nat

structure PagedStore where
  published : CommittedState
  writer : WriterState
  nextVersion : Nat
  reclaimer : Reclaimer

/-- The store at assembly: version 0 is published and live. -/
def PagedStore.new (cat : Catalog) : PagedStore :=
  ⟨⟨(MemStore.new cat).committed, 0⟩, (MemStore.new cat).writer, 1, Reclaimer.new.pin 0⟩

/-- `MemStore::begin`: the transaction takes the writer lock, and its base keeps the published version live. -/
def PagedStore.begin (s : PagedStore) : Tx := ⟨s.writer, s.published.tables, s.writer.nextTxId, ∅⟩

section Commit

variable (cat : Catalog) (f : PagerFaults)

/-- Merge the operations on one table, with the pages that are superseded. -/
def mergePaged (s : (Tables × List TableDiff) × List SupersededPage) (p : Nat × Tree PendingOp) :
    Except CommitError ((Tables × List TableDiff) × List SupersededPage) :=
  if p.2.toList.any fun q => f.release p.1 q.1 || f.merge p.1 q.1 then .error .pager
  else
    match mergePending cat.fits s.1 p with
    | .error e => .error (.store e)
    | .ok tables => .ok (tables, s.2 ++ p.2.toList.flatMap fun q => (f.superseded p.1 q.1).map (p.1, ·))

/-- The merge of the whole buffer. -/
def Tx.mergePaged (tx : Tx) : Except CommitError ((Tables × List TableDiff) × List SupersededPage) :=
  tx.pending.toList.foldlM (Fluxum.mergePaged cat f) ((tx.base, []), [])

/-- `publish_versioned`: the version that `tables` get, and the swap. -/
def PagedStore.publishVersioned (s : PagedStore) (tables : Tables) : PagedStore :=
  { s with
    published := ⟨tables, s.nextVersion⟩
    nextVersion := saturatingAdd s.nextVersion 1
    reclaimer := s.reclaimer.pin s.nextVersion }

/-- `Tx::commit`, with the store it leaves. The transaction holds the writer lock, so the writer state is its own. -/
def PagedStore.commit (s : PagedStore) (tx : Tx) : Except CommitError TxDiff × PagedStore :=
  match tx.mergePaged cat f with
  | .error e => (.error e, { s with writer := tx.writer })
  | .ok ((tables, diffs), superseded) =>
    -- the dirty set is taken before the marks are published
    let writer := { tx.writer with highWaterDirty := ∅ }
    match tx.writer.highWaterDirty.toList.foldlM (publishHighWater tx.writer.counters) (tables, []) with
    | .error e => (.error (.store e), { s with writer })
    | .ok (tables, autoInc) =>
      let writer := { writer with nextTxId := saturatingAdd tx.txId 1 }
      let s := { s with writer }.publishVersioned tables
      match s.reclaimer.retire f s.published.version superseded with
      | (.error e, reclaimer) => (.error e, { s with reclaimer })
      | (.ok (), reclaimer) => (.ok ⟨tx.txId, diffs, autoInc⟩, { s with reclaimer })

end Commit

/-- What a commit should leave of the store `s` in which the transaction ran. -/
def AllOrNothing (s : PagedStore) (tx : Tx) (r : Except CommitError TxDiff × PagedStore) : Prop :=
  match r.1 with
  | .error _ => r.2.published = s.published ∧ r.2.writer.nextTxId = tx.writer.nextTxId ∧
      r.2.writer.highWaterDirty = tx.writer.highWaterDirty
  | .ok diff => (∀ table pk, rowIn r.2.published.tables table pk = tx.view table pk) ∧ diff.txId = tx.txId ∧
      r.2.writer.nextTxId = saturatingAdd tx.txId 1

/-! ### Reclaimed pages -/

namespace Reclaimer

variable {r : Reclaimer} {base version : Nat}

theorem mem_reclaimable {page : SupersededPage} : page ∈ r.reclaimable ↔
    ∃ (v : Nat) (pages : List SupersededPage), r.garbage[v]? = some pages ∧ v < saturatingAdd r.floor 1 ∧ page ∈ pages := by
  simp only [reclaimable, mem_flatMap, mem_filter, Prod.exists, mem_toList_iff_getElem?_eq_some,
    decide_eq_true_eq, and_assoc]

theorem floor_spec (hbase : base ∈ r.live) : r.floor ∈ r.live ∧ ∀ v ∈ r.live, r.floor ≤ v := by
  have hmem : ∀ v ∈ r.live, ∃ count, (v, count) ∈ r.live.toList := by
    intro v hv
    obtain ⟨count, hcount⟩ := Option.isSome_iff_exists.mp (mem_iff_isSome_getElem?.mp hv)
    exact ⟨count, mem_toList_iff_getElem?_eq_some.mpr hcount⟩
  cases hhead : r.live.toList.head? with
  | none =>
    obtain ⟨count, hcount⟩ := hmem base hbase
    rw [head?_eq_none_iff.mp hhead] at hcount
    cases hcount
  | some p =>
    have hfloor : r.floor = p.1 := by rw [floor, hhead]; rfl
    rw [hfloor]
    refine ⟨?_, fun v hv => ?_⟩
    · have hp := mem_toList_iff_getElem?_eq_some.mp (mem_of_mem_head? hhead)
      rw [mem_iff_isSome_getElem?, hp]
      rfl
    · obtain ⟨count, hcount⟩ := hmem v hv
      exact Nat.compare_ne_gt.mp (OrdMap.compare_head_toList hhead hcount)

theorem mem_pin {v : Nat} : v ∈ (r.pin version).live ↔ version = v ∨ v ∈ r.live := by
  rw [ExtTreeMap.mem_iff_isSome_getElem?, ExtTreeMap.mem_iff_isSome_getElem?, pin, OrdMap.lookup_insert]
  split <;> simp [*]

theorem floor_pin (hbase : base ∈ r.live) (hlt : base < version) : (r.pin version).floor = r.floor := by
  obtain ⟨hmem, hmin⟩ := floor_spec hbase
  obtain ⟨hmem', hmin'⟩ := floor_spec (r := r.pin version) (mem_pin.mpr (.inr hbase))
  refine Nat.le_antisymm (hmin' _ (mem_pin.mpr (.inr hmem))) (hmin _ ?_)
  refine (mem_pin.mp hmem').resolve_left ?_
  have := hmin' base (mem_pin.mpr (.inr hbase))
  omega

/-- What a new version supersedes stays as long as an older version is live. -/
theorem mem_reclaimable_record {pages : List SupersededPage} {page : SupersededPage} (hbase : base ∈ r.live) (hlt : base < version) :
    page ∈ ((r.pin version).record version pages).reclaimable ↔ page ∈ r.reclaimable := by
  have hfloor : ((r.pin version).record version pages).floor = r.floor := by
    rw [← floor_pin hbase hlt]
    unfold record
    split <;> rfl
  have hbound : saturatingAdd r.floor 1 ≤ version := by
    have := (floor_spec hbase).2 base hbase
    unfold saturatingAdd
    omega
  rw [mem_reclaimable, mem_reclaimable, hfloor]
  unfold record
  split
  · rfl
  refine exists_congr fun v => exists_congr fun batch => ?_
  show (r.garbage.insert version _)[v]? = some batch ∧ _ ∧ _ ↔ _
  rw [OrdMap.lookup_insert]
  by_cases hv : version = v
  · constructor
    · rintro ⟨-, hlt', -⟩
      omega
    · rintro ⟨-, hlt', -⟩
      omega
  · rw [if_neg hv]

end Reclaimer

/-! ### Commits -/

section Commit

variable {cat : Catalog} {f : PagerFaults} {s : PagedStore} {tx : Tx}

theorem foldlM_mergePaged : ∀ {l : List (Nat × Tree PendingOp)} {m m' : (Tables × List TableDiff) × List SupersededPage},
    l.foldlM (mergePaged cat f) m = .ok m' → l.foldlM (mergePending cat.fits) m.1 = .ok m'.1
  | [], m, m', h => by
    cases h
    rfl
  | p :: l, m, m', h => by
    rw [List.foldlM_cons] at h ⊢
    obtain ⟨mid, hmid, h⟩ := bind_eq_ok.mp h
    refine bind_eq_ok.mpr ⟨mid.1, ?_, foldlM_mergePaged h⟩
    unfold mergePaged at hmid
    split at hmid
    · cases hmid
    split at hmid
    · cases hmid
    · rename_i tables htables
      cases hmid
      exact htables

/-- The store that a commit publishes, whether or not the pages it may reclaim can be freed. -/
def PagedStore.publishedBy (s : PagedStore) (tx : Tx) (tables : Tables) (superseded : List SupersededPage) : PagedStore :=
  { published := ⟨tables, s.nextVersion⟩
    writer := { tx.writer with highWaterDirty := ∅, nextTxId := saturatingAdd tx.txId 1 }
    nextVersion := saturatingAdd s.nextVersion 1
    reclaimer := ((s.reclaimer.pin s.nextVersion).record s.nextVersion superseded).drained }

/-- **The outcomes of a commit**: the merge fails and nothing is published, or the new state is published and the frees that
follow decide what is returned. -/
theorem pagedCommit_cases (hok : tx.Ok cat) :
    (∃ e, tx.mergePaged cat f = .error e ∧ s.commit cat f tx = (.error e, { s with writer := tx.writer })) ∨
    ∃ tables diffs superseded tables' autoInc,
      tx.mergePaged cat f = .ok ((tables, diffs), superseded) ∧
      tx.commit cat = .ok (⟨tx.txId, diffs, autoInc⟩, ⟨tables', (s.publishedBy tx tables' superseded).writer⟩) ∧
      s.commit cat f tx =
        (if ((s.reclaimer.pin s.nextVersion).record s.nextVersion superseded).reclaimable.any f.free then .error .pager
          else .ok ⟨tx.txId, diffs, autoInc⟩, s.publishedBy tx tables' superseded) := by
  rcases hmerge : tx.mergePaged cat f with e | ⟨⟨tables, diffs⟩, superseded⟩
  · exact .inl ⟨e, rfl, by simp only [PagedStore.commit, hmerge]⟩
  have hmerged := foldlM_mergePaged hmerge
  obtain ⟨⟨tables', autoInc⟩, hpublish⟩ := publish_of_merged hok hmerged
  refine .inr ⟨tables, diffs, superseded, tables', autoInc, rfl, ?_, ?_⟩
  · exact bind_eq_ok.mpr ⟨_, hmerged, bind_eq_ok.mpr ⟨_, hpublish, rfl⟩⟩
  simp only [PagedStore.commit, hmerge, hpublish, Reclaimer.retire, PagedStore.publishVersioned]
  by_cases hfree : ((s.reclaimer.pin s.nextVersion).record s.nextVersion superseded).reclaimable.any f.free = true
  · simp only [hfree, if_true]
    rfl
  · simp only [hfree]
    rfl

/-- The published version is pinned, and the next one is newer. -/
def PagedStore.VersionsOk (s : PagedStore) : Prop :=
  s.published.version ∈ s.reclaimer.live ∧ s.published.version < s.nextVersion

/-- The tables are in order, and so are the versions. -/
structure PagedStore.Ok (cat : Catalog) (s : PagedStore) : Prop where
  store : (⟨s.published.tables, s.writer⟩ : MemStore).Ok cat
  versions : s.VersionsOk

theorem PagedStore.Ok.begin (h : s.Ok cat) : s.begin.OkOver cat s.published.tables := begin_okOver h.store.tables h.store.dirty

/-- **Commits keep the versions in order**, whatever fails, while there is a next one. -/
theorem PagedStore.Ok.commit (h : s.Ok cat) (htx : tx.OkOver cat s.published.tables) (hlt : s.nextVersion < 2 ^ 64 - 1) :
    (s.commit cat f tx).2.Ok cat := by
  have hunique : UniqueMaps tx.base := htx.2 ▸ h.store.unique
  rcases pagedCommit_cases htx.1 with ⟨e, -, hcommit⟩ | ⟨_, _, superseded, tables, _, -, hdone, hcommit⟩
  · rw [hcommit]
    refine ⟨?_, h.versions⟩
    have hrollback := MemStore.Ok.rollback htx.1 hunique
    rwa [Tx.rollback, htx.2] at hrollback
  · rw [hcommit]
    refine ⟨MemStore.Ok.commit htx.1 hunique hdone, ?_, ?_⟩
    · have hlive : (s.publishedBy tx tables superseded).reclaimer.live = (s.reclaimer.pin s.nextVersion).live := by
        show ((s.reclaimer.pin s.nextVersion).record s.nextVersion superseded).live = _
        unfold Reclaimer.record
        split <;> rfl
      rw [hlive]
      exact Reclaimer.mem_pin.mpr (.inl rfl)
    · show s.nextVersion < saturatingAdd s.nextVersion 1
      unfold saturatingAdd
      omega

/-- **A commit is all or nothing** exactly if its merge fails or every page that may be reclaimed can be freed. -/
theorem commit_all_or_nothing_iff (cat : Catalog) (f : PagerFaults) (s : PagedStore) (tx : Tx) (hok : tx.Ok cat)
    (hversions : s.VersionsOk) :
    AllOrNothing s tx (s.commit cat f tx) ↔
      (∃ e, tx.mergePaged cat f = .error e) ∨ ∀ page ∈ s.reclaimer.reclaimable, f.free page = false := by
  obtain ⟨hlive, hversion⟩ := hversions
  rcases pagedCommit_cases hok with ⟨e, hmerge, hcommit⟩ | ⟨tables, diffs, superseded, tables', autoInc, hmerge, htx, hcommit⟩
  · rw [hcommit]
    exact ⟨fun _ => .inl ⟨e, hmerge⟩, fun _ => ⟨rfl, rfl, rfl⟩⟩
  have hno : ¬ ∃ e, tx.mergePaged cat f = .error e := by
    rintro ⟨e, he⟩
    rw [hmerge] at he
    cases he
  have hfree : ((s.reclaimer.pin s.nextVersion).record s.nextVersion superseded).reclaimable.any f.free = true ↔
      ¬ ∀ page ∈ s.reclaimer.reclaimable, f.free page = false := by
    simp only [any_eq_true, Reclaimer.mem_reclaimable_record hlive hversion]
    push Not
    simp
  rw [hcommit, or_iff_right hno]
  by_cases hall : ∀ page ∈ s.reclaimer.reclaimable, f.free page = false
  · rw [if_neg (fun h => hfree.mp h hall)]
    exact ⟨fun _ => hall, fun _ => ⟨fun table pk => commit_rowIn htx table pk, rfl, rfl⟩⟩
  rw [if_pos (hfree.mpr hall)]
  refine ⟨fun h => ?_, fun h => absurd h hall⟩
  -- the published state has a new version
  have hsame := congrArg CommittedState.version h.1
  exact absurd hsame hversion.ne'

end Commit

/-! ### A page that cannot be freed -/

/-- The first account's insert supersedes page 3, which cannot be freed; any other insert supersedes page 4. -/
def stuckPage : PagerFaults where
  release _ _ := false
  merge _ _ := false
  free page := page.2 = 3
  superseded _ pk := if pk = [1, 0, 0, 0, 0, 0, 0, 0] then [3] else [4]

/-- A transaction that inserts one account. -/
def PagedStore.inserting (s : PagedStore) (row : Row) : Option Tx :=
  (s.begin.call (plainServices accountCatalog) (.insert 1 row)).map Tx.after

/-- A first account is committed, and the last reader of version 0 drops its snapshot: it has unpinned the version and not yet
collected. -/
def readerGone : Option PagedStore := do
  let tx ← (PagedStore.new accountCatalog).inserting (account 1 [7] 30)
  let s := ((PagedStore.new accountCatalog).commit accountCatalog stuckPage tx).2
  return { s with reclaimer := s.reclaimer.unpin 0 }

/-- The next commit collects what the reader left: a page that cannot be freed fails it after it has published. -/
theorem failed_free_commits : ∃ s tx, readerGone = some s ∧ s.inserting (account 2 [8] 40) = some tx ∧
    ¬ AllOrNothing s tx (s.commit accountCatalog stuckPage tx) := by
  obtain ⟨s, hs, tx, htx, herror, hversion⟩ : ∃ s ∈ readerGone, ∃ tx ∈ s.inserting (account 2 [8] 40),
      (s.commit accountCatalog stuckPage tx).1.toOption.isNone ∧
        (s.commit accountCatalog stuckPage tx).2.published.version ≠ s.published.version := by
    decide +kernel
  refine ⟨s, tx, hs, htx, fun h => ?_⟩
  unfold AllOrNothing at h
  split at h
  · exact hversion (congrArg CommittedState.version h.1)
  · rename_i diff hok
    rw [hok] at herror
    cases herror

theorem okOver_inserting {s : PagedStore} {tx : Tx} {row : Row} (h : s.Ok accountCatalog) (htx : s.inserting row = some tx) :
    tx.OkOver accountCatalog s.published.tables := by
  obtain ⟨x, hx, rfl⟩ := Option.map_eq_some_iff.mp htx
  exact call_okOver h.begin hx

theorem ok_readerGone {s : PagedStore} (h : readerGone = some s)
    (hlive : s.published.version ∈ s.reclaimer.live) : s.Ok accountCatalog := by
  unfold readerGone at h
  obtain ⟨tx, htx, h⟩ := Option.bind_eq_some_iff.mp h
  cases h
  have hnew : (PagedStore.new accountCatalog).Ok accountCatalog :=
    ⟨memStore_ok_new accountCatalog, by decide +kernel, by decide⟩
  have hok := hnew.commit (f := stuckPage) (okOver_inserting hnew htx) (by decide)
  exact ⟨hok.store, hlive, hok.versions.2⟩

/-- With a pager that can free the page, the same commit is all or nothing. -/
theorem commit_all_or_nothing_iff_readerGone : ∃ s tx, readerGone = some s ∧ s.inserting (account 2 [8] 40) = some tx ∧
    s.reclaimer.reclaimable = [(1, 3)] ∧
    AllOrNothing s tx (s.commit accountCatalog { stuckPage with free := fun _ => false } tx) := by
  obtain ⟨s, hs, tx, htx, hpages, hlive⟩ : ∃ s ∈ readerGone, ∃ tx ∈ s.inserting (account 2 [8] 40),
      s.reclaimer.reclaimable = [(1, 3)] ∧ s.published.version ∈ s.reclaimer.live := by
    decide +kernel
  have hok := ok_readerGone hs hlive
  refine ⟨s, tx, hs, htx, hpages, ?_⟩
  exact (commit_all_or_nothing_iff _ _ s tx (okOver_inserting hok htx).1 hok.versions).mpr (.inr fun _ _ => rfl)

end Fluxum
