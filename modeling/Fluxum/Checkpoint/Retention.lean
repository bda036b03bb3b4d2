/-
# Retention

The checkpoint worker of a shard writes checkpoints into a repository, prunes
the old ones and drops the log segments that the oldest one left covers, while
the shard goes on with its transactions (`checkpoint/worker.rs`). Three rules
take files away, and each has to leave what a retained checkpoint needs: its
objects, and the records after its stamp. The stamp is a commit that the worker
was told of before it took the snapshot, so the snapshot may be newer. A commit
is published, and the worker told of it, before the log gets its record.

* `retained_checkpoints_recover`: retention keeps recovery possible, for a
  shard whose repository no other shard prunes.
* `checkpoint_incomplete`: what a checkpoint does not bring back, and when two
  checkpoints recover to different states.
-/
import Fluxum.Checkpoint.Failover
import Fluxum.Checkpoint.Replay

namespace Fluxum

open Std List Function ExtTreeMap

/-- A shard: its store, its log and its checkpoint worker. -/
structure ShardState where
  store : MemStore
  segments : List LogSegment
  /-- All records that the log has accepted. -/
  appended : List TxRecord
  /-- The record of a commit that is published and not appended yet. -/
  unlogged : Option TxRecord
  /-- The highest commit that the worker has been told of. -/
  highestCommitted : Nat

namespace ShardState

/-- The records of all commits. -/
def history (sh : ShardState) : List TxRecord := sh.appended ++ sh.unlogged.toList

/-- The id of the last record, zero before the first. -/
def lastAppended (sh : ShardState) : Nat := (sh.appended.getLast?.map (·.txId)).getD 0

theorem history_eq {sh : ShardState} (h : sh.unlogged = none) : sh.history = sh.appended := by
  rw [history, h, Option.toList_none, append_nil]

end ShardState

/-- Shards that share a repository. -/
structure Site (A : Artifacts) where
  shard : Nat → ShardState
  repo : CheckpointRepo A

namespace Site

inductive Step (cat : Catalog) (A : Artifacts) where
  /-- A job of the shard's pipeline, as far as its commit is published. -/
  | run (shard : Nat) (reducer : Reducer cat) (authoritative : Bool) (info : CommitMeta)
  /-- The job goes on with the append of its record. -/
  | append (shard : Nat) (rotate : Bool)
  /-- The worker takes the notice of a commit. -/
  | observe (shard tx : Nat)
  | checkpoint (shard salt : Nat) (writable : Bytes → Bool) (manifestWritten : Bool)
  | prune (shard retention : Nat) (stuck : Nat → Bool) (left : A.Hash → Bool)
  /-- Compact the log to the oldest checkpoint that is listed. -/
  | compact (shard : Nat) (hold : Option Nat) (archived : Nat → Bool)
  | pin (tx : Nat)
  | unpin (tx : Nat)

variable {A : Artifacts}

def new (cat : Catalog) : Site A := ⟨fun _ => ⟨.new cat, [], [], none, 0⟩, .empty⟩

def set (s : Site A) (k : Nat) (sh : ShardState) : Site A := { s with shard := update s.shard k sh }

def step (cat : Catalog) (s : Site A) : Step cat A → Option (Site A)
  | .run k reducer authoritative info => do
    let sh := s.shard k
    -- a job waits for the append of the one before it
    if sh.unlogged.isSome then none
    else
      let (out, store) ← sh.store.execute cat (reducer.body authoritative)
      match out with
      | none => return s.set k { sh with store }
      | some diff => return s.set k { sh with store, unlogged := some (.fromDiff (durableDiff cat diff) info) }
  | .append k rotate => do
    let sh := s.shard k
    let record ← sh.unlogged
    -- the log takes a record only if its id is higher than the last one
    if record.txId ≤ sh.lastAppended then none
    else return s.set k { sh with
      segments := appendRecord rotate sh.segments record
      appended := sh.appended ++ [record]
      unlogged := none }
  | .observe k tx =>
    let sh := s.shard k
    if sh.history.any (·.txId = tx) then some (s.set k { sh with highestCommitted := max sh.highestCommitted tx }) else none
  | .checkpoint k salt writable manifestWritten =>
    let sh := s.shard k
    match s.repo.write writable manifestWritten salt sh.store.committed k sh.highestCommitted with
    | .ok repo => some { s with repo }
    | .error repo => some { s with repo }
  | .prune k retention stuck left => some { s with repo := s.repo.prune stuck left k retention }
  | .compact k hold archived =>
    some ((s.repo.list k).head?.elim s fun oldest =>
      s.set k { s.shard k with segments := compactCovered oldest hold archived (s.shard k).segments })
  | .pin tx => some { s with repo := { s.repo with pins := s.repo.pins.insert tx } }
  | .unpin tx => some { s with repo := { s.repo with pins := s.repo.pins.erase tx } }

/-- A prune of another shard. -/
def Step.prunesOther {cat : Catalog} (k : Nat) : Step cat A → Bool
  | .prune shard .. => shard ≠ k
  | _ => false

end Site

/-! ### The log -/

/-- The segments hold the records from one on, each under the id of its first record. -/
structure LogOk (history : List TxRecord) (gone : Nat) (segments : List LogSegment) : Prop where
  records : segmentRecords segments = history.drop gone
  le : gone ≤ history.length
  first : ∀ segment ∈ segments, segment.records.head?.map (·.txId) = some segment.firstTxId

/-- The ids of the records are consecutive. -/
def Numbered (history : List TxRecord) : Prop := history.map (·.txId) = List.range' 1 history.length

section Log

variable {history : List TxRecord} {gone : Nat} {segments : List LogSegment} {r : TxRecord}

section

variable (h : Numbered history)
include h

theorem Numbered.txId {i : Nat} (hi : history[i]? = some r) : r.txId = i + 1 := by
  have hmap : (history.map (·.txId))[i]? = some r.txId := by rw [getElem?_map, hi]; rfl
  obtain ⟨hlt, -⟩ := List.getElem?_eq_some_iff.mp hi
  rw [h, getElem?_range' hlt] at hmap
  have := Option.some.inj hmap
  omega

theorem Numbered.concat (hr : r.txId = history.length + 1) : Numbered (history ++ [r]) := by
  unfold Numbered at *
  rw [map_append, h, length_append, length_singleton, range'_concat, map_singleton, hr]
  congr 2
  omega

theorem Numbered.last : (history.getLast?.map (·.txId)).getD 0 = history.length := by
  cases hlast : history.getLast? with
  | none =>
    rw [getLast?_eq_none_iff] at hlast
    simp [hlast]
  | some r =>
    rw [getLast?_eq_getElem?] at hlast
    have htx := h.txId hlast
    obtain ⟨hlt, -⟩ := List.getElem?_eq_some_iff.mp hlast
    simp only [Option.map_some, Option.getD_some, htx]
    omega

theorem Numbered.filter {stamp : Nat} (hgone : gone ≤ stamp) :
    (history.drop gone).filter (stamp < ·.txId) = history.drop stamp := by
  have hsplit : history.drop gone = (history.drop gone).take (stamp - gone) ++ history.drop stamp := by
    have hdrop : history.drop stamp = (history.drop gone).drop (stamp - gone) := by
      rw [drop_drop]
      congr 1
      omega
    rw [hdrop, take_append_drop]
  rw [hsplit, filter_append]
  have hold : ((history.drop gone).take (stamp - gone)).filter (stamp < ·.txId) = [] := by
    rw [filter_eq_nil_iff]
    intro r hr
    obtain ⟨i, hi⟩ := mem_iff_getElem?.mp hr
    rw [getElem?_take] at hi
    split at hi
    · rw [getElem?_drop] at hi
      have := h.txId hi
      simp only [decide_eq_true_eq]
      omega
    · cases hi
  have hnew : (history.drop stamp).filter (stamp < ·.txId) = history.drop stamp := by
    rw [filter_eq_self]
    intro r hr
    obtain ⟨i, hi⟩ := mem_iff_getElem?.mp hr
    rw [getElem?_drop] at hi
    have := h.txId hi
    simp only [decide_eq_true_eq]
    omega
  rw [hold, hnew, nil_append]

end

theorem logOk_append (h : LogOk history gone segments) (rotate : Bool) (r : TxRecord) :
    LogOk (history ++ [r]) gone (appendRecord rotate segments r) := by
  have hdrop : (history ++ [r]).drop gone = segmentRecords segments ++ [r] := by
    rw [drop_append_of_le_length h.le, h.records]
  refine ⟨?_, by rw [length_append]; exact h.le.trans (Nat.le_add_right ..), fun segment hsegment => ?_⟩
  · rw [hdrop]
    unfold appendRecord
    split
    · rename_i last hlast
      split
      · simp [segmentRecords]
      · obtain ⟨init, rfl⟩ := getLast?_eq_some_iff.mp hlast
        simp [segmentRecords]
    · rename_i hnone
      rw [getLast?_eq_none_iff] at hnone
      simp [segmentRecords, hnone]
  · unfold appendRecord at hsegment
    split at hsegment
    · rename_i last hlast
      split at hsegment
      · rcases mem_append.mp hsegment with hsegment | hsegment
        · exact h.first segment hsegment
        · obtain rfl := mem_singleton.mp hsegment
          rfl
      · obtain ⟨init, rfl⟩ := getLast?_eq_some_iff.mp hlast
        rw [dropLast_concat] at hsegment
        rcases mem_append.mp hsegment with hsegment | hsegment
        · exact h.first segment (mem_append_left _ hsegment)
        obtain rfl := mem_singleton.mp hsegment
        have hhead := h.first last (by simp)
        cases hrecords : last.records with
        | nil => simp [hrecords] at hhead
        | cons r' rest => simpa [hrecords] using hhead
    · obtain rfl := mem_singleton.mp hsegment
      rfl

theorem firstTxIds_sublist : ∀ {segments : List LogSegment},
    (∀ segment ∈ segments, segment.records.head?.map (·.txId) = some segment.firstTxId) →
    (segments.map (·.firstTxId)).Sublist ((segmentRecords segments).map (·.txId))
  | [], _ => .slnil
  | segment :: segments, h => by
    have hhead := h segment (by simp)
    have hrest : (segments.map (·.firstTxId)).Sublist ((segmentRecords segments).map (·.txId)) :=
      firstTxIds_sublist fun segment' hmem => h segment' (by simp [hmem])
    cases hrecords : segment.records with
    | nil => simp [hrecords] at hhead
    | cons r rest =>
      have hr : r.txId = segment.firstTxId := by simpa [hrecords] using hhead
      rw [map_cons, segmentRecords, flatMap_cons, hrecords, cons_append, map_cons, map_append, hr]
      exact .cons_cons _ (hrest.trans (sublist_append_right ..))

/-- **Compaction drops records up to the covered one**, and the rest stays one suffix. -/
theorem logOk_compact (h : LogOk history gone segments) (hnum : Numbered history) {covered : Nat} (hold : Option Nat)
    (archived : Nat → Bool) (hcovered : gone ≤ covered) :
    ∃ gone', LogOk history gone' (compactCovered covered hold archived segments) ∧ gone' ≤ covered := by
  have hsorted : (segments.map (·.firstTxId)).Pairwise (· < ·) := by
    refine Pairwise.sublist (firstTxIds_sublist h.first) ?_
    rw [h.records, map_drop, hnum]
    exact Pairwise.sublist (drop_sublist ..) pairwise_lt_range'
  obtain ⟨old, heq, hhead⟩ := compactCovered_suffix covered hold archived hsorted
  generalize compactCovered covered hold archived segments = kept at *
  subst heq
  have hrecords : segmentRecords old ++ segmentRecords kept = history.drop gone := by
    rw [← h.records, segmentRecords, segmentRecords, segmentRecords, flatMap_append]
  have hfirst : ∀ segment ∈ kept, segment.records.head?.map (·.txId) = some segment.firstTxId := fun segment hmem =>
    h.first segment (mem_append_right _ hmem)
  have hlength : gone + (segmentRecords old).length ≤ history.length := by
    have := congrArg length hrecords
    rw [length_append, length_drop] at this
    have := h.le
    omega
  have hkept : segmentRecords kept = history.drop (gone + (segmentRecords old).length) := by
    rw [← drop_drop, ← hrecords, drop_left]
  refine ⟨gone + (segmentRecords old).length, ⟨hkept, hlength, hfirst⟩, ?_⟩
  by_cases hnil : old = []
  · simpa [hnil, segmentRecords] using hcovered
  -- the first segment that is kept starts at most one past what is covered
  obtain ⟨b, hb, hle⟩ := hhead hnil
  obtain ⟨rest, rfl⟩ : ∃ rest, kept = b :: rest := by
    cases kept with
    | nil => simp at hb
    | cons a rest => exact ⟨rest, by rw [Option.some.inj hb]⟩
  have hbfirst := hfirst b (by simp)
  cases hbrecords : b.records with
  | nil => simp [hbrecords] at hbfirst
  | cons r rs =>
    have hr : r.txId = b.firstTxId := by simpa [hbrecords] using hbfirst
    have hat : history[gone + (segmentRecords old).length]? = some r := by
      rw [← head?_drop, ← hkept, segmentRecords, flatMap_cons, hbrecords]
      rfl
    have htx := hnum.txId hat
    unfold saturatingAdd at hle
    omega

end Log

/-! ### Retained checkpoints -/

/-- A checkpoint whose manifest is intact, the snapshot it was taken of, and the records: some of those after
its stamp led to the snapshot, the others lead from there to the present. -/
structure Retained (cat : Catalog) {A : Artifacts} (repo : CheckpointRepo A) (sh : ShardState) (k tx : Nat)
    (m : Manifest A.Hash) (early snapshot : Tables) (taken : Nat) : Prop where
  shardId : m.shardId = k
  lastTxId : m.lastTxId = tx
  intact : repo.Intact m snapshot
  storable : TablesStorable cat snapshot
  count : ∀ (table : Nat) t, snapshot[table]? = some t → t.rowCount = t.rows.size
  stamp : tx ≤ taken
  le : taken ≤ sh.history.length
  early : Leads cat early ((sh.history.take taken).drop tx) snapshot
  late : Leads cat snapshot (sh.history.drop taken) sh.store.committed

/-- A shard whose store is that of its history. -/
structure ShardOk (cat : Catalog) (sh : ShardState) : Prop where
  store : sh.store.Recoverable cat
  leads : Leads cat (MemStore.new cat).committed sh.history sh.store.committed
  numbered : Numbered sh.appended
  unlogged : ∀ r ∈ sh.unlogged, r.txId = saturatingAdd sh.appended.length 1
  next : sh.store.writer.nextTxId = saturatingAdd sh.history.length 1
  highest : sh.highestCommitted ≤ sh.history.length

/-- What holds of one shard of a site. -/
structure SiteOk (cat : Catalog) {A : Artifacts} (k : Nat) (s : Site A) : Prop where
  addressed : s.repo.Addressed
  shard : ShardOk cat (s.shard k)
  log : ∃ gone, LogOk (s.shard k).appended gone (s.shard k).segments ∧ (∀ tx ∈ s.repo.list k, gone ≤ tx) ∧
    (s.repo.list k = [] → gone = 0)
  retained : ∀ (tx : Nat) m, (s.repo.manifests k)[tx]? = some m →
    ∃ manifest early snapshot taken, m = some manifest ∧
      Retained cat s.repo (s.shard k) k tx manifest early snapshot taken

section Steps

variable {cat : Catalog} {A : Artifacts} {k tx taken : Nat} {s s' : Site A} {repo repo' : CheckpointRepo A} {sh sh' : ShardState}
  {m : Manifest A.Hash} {early snapshot : Tables}

section

variable (h : Retained cat repo sh k tx m early snapshot taken)
include h

theorem Retained.withRepo (hintact : repo'.Intact m snapshot) :
    Retained cat repo' sh k tx m early snapshot taken :=
  { h with intact := hintact }

theorem Retained.append {r : TxRecord} (hhistory : sh'.history = sh.history ++ [r])
    (hr : Follows cat sh.store.committed r sh'.store.committed) : Retained cat repo sh' k tx m early snapshot taken :=
  { h with
    le := by
      rw [hhistory, length_append]
      exact h.le.trans (Nat.le_add_right ..)
    early := by
      rw [hhistory, take_append_of_le_length h.le]
      exact h.early
    late := by
      rw [hhistory, drop_append_of_le_length h.le]
      exact h.late.concat hr }

theorem Retained.of_eq (hhistory : sh'.history = sh.history)
    (hcommitted : sh'.store.committed = sh.store.committed) : Retained cat repo sh' k tx m early snapshot taken :=
  { h with
    le := hhistory ▸ h.le
    early := hhistory ▸ h.early
    late := by
      rw [hhistory, hcommitted]
      exact h.late }

end

theorem retained_new (h : ShardOk cat sh) (hintact : repo.Intact m sh.store.committed) (hshard : m.shardId = k)
    (htx : m.lastTxId = tx) (hstamp : tx ≤ sh.history.length) :
    ∃ early, Retained cat repo sh k tx m early sh.store.committed sh.history.length := by
  have hleads := h.leads
  rw [← take_append_drop tx sh.history] at hleads
  obtain ⟨early, -, hlate⟩ := hleads.split
  refine ⟨early, hshard, htx, hintact, ⟨h.store.tables, h.store.storable⟩, h.store.count, hstamp, Nat.le_refl _, ?_, ?_⟩
  · rw [take_length]
    exact hlate
  · rw [drop_length]
    exact .nil _

section

variable (h : SiteOk cat k s)
include h

theorem SiteOk.withRepo (hadd : repo'.Addressed)
    (hmanifests : ∀ (tx : Nat) m, (repo'.manifests k)[tx]? = some m → (s.repo.manifests k)[tx]? = some m)
    (hintact : ∀ (tx : Nat) m, (repo'.manifests k)[tx]? = some (some m) → ∀ snapshot, s.repo.Intact m snapshot → repo'.Intact m snapshot)
    (hnil : repo'.list k = [] → s.repo.list k = []) : SiteOk cat k { s with repo := repo' } := by
  obtain ⟨gone, hlog, hgone, hzero⟩ := h.log
  refine ⟨hadd, h.shard, ⟨gone, hlog, fun tx htx => ?_, fun hempty => hzero (hnil hempty)⟩, fun tx m hm => ?_⟩
  · obtain ⟨m, hm⟩ := Option.isSome_iff_exists.mp (CheckpointRepo.mem_list.mp htx)
    exact hgone tx (CheckpointRepo.mem_list.mpr (by rw [hmanifests tx m hm]; rfl))
  · obtain ⟨manifest, early, snapshot, taken, rfl, hretained⟩ := h.retained tx m (hmanifests tx m hm)
    exact ⟨manifest, early, snapshot, taken, rfl, hretained.withRepo (hintact tx manifest hm snapshot hretained.intact)⟩

theorem SiteOk.grows (hg : s.repo.Grows repo') (hadd : repo'.Addressed) : SiteOk cat k { s with repo := repo' } :=
  h.withRepo hadd (fun _ _ hm => by rwa [hg.manifests] at hm) (fun _ _ _ _ hintact => hintact.grows hg) fun hnil => by
    rwa [CheckpointRepo.list, hg.manifests] at hnil

theorem SiteOk.pruned (hp : CheckpointRepo.Pruned k s.repo repo') : SiteOk cat k { s with repo := repo' } := by
  refine h.withRepo (hp.addressed h.addressed) hp.manifests
    (fun tx m hm _ hintact => hintact.of_objects fun hash hhash => hp.objects tx m hm hash hhash) fun hnil => ?_
  cases hlast : (s.repo.list k).getLast? with
  | none => exact getLast?_eq_none_iff.mp hlast
  | some tx =>
    have hmem := hp.newest tx hlast
    rw [hnil] at hmem
    exact absurd hmem not_mem_nil

theorem SiteOk.sameFiles (hobjects : repo'.objects = s.repo.objects)
    (hmanifests : repo'.manifests k = s.repo.manifests k) : SiteOk cat k { s with repo := repo' } := by
  refine h.withRepo (fun hash bytes hb => h.addressed hash bytes (hobjects ▸ hb)) (fun _ _ hm => by rwa [hmanifests] at hm)
    (fun _ _ _ _ hintact => hintact.of_objects fun hash _ => by rw [hobjects]) fun hnil => ?_
  rwa [CheckpointRepo.list, hmanifests] at hnil

theorem SiteOk.written (hnewest : ∀ tx' ∈ (s.repo.list k).getLast?, tx' < tx)
    (hintact : s.repo.Intact m (s.shard k).store.committed) (hshard : m.shardId = k) (htx : m.lastTxId = tx)
    (hstamp : tx ≤ (s.shard k).history.length) :
    SiteOk cat k { s with repo := { s.repo with
      manifests := update s.repo.manifests k ((s.repo.manifests k).insert tx (some m)) } } := by
  obtain ⟨gone, hlog, hgone, hzero⟩ := h.log
  have hfile : ∀ tx' : Nat, ((update s.repo.manifests k ((s.repo.manifests k).insert tx (some m))) k)[tx']? =
      if tx = tx' then some (some m) else (s.repo.manifests k)[tx']? := fun tx' => by
    rw [update_self, OrdMap.lookup_insert]
  have hgoneTx : gone ≤ tx := by
    cases hlast : (s.repo.list k).getLast? with
    | none =>
      rw [hzero (getLast?_eq_none_iff.mp hlast)]
      exact Nat.zero_le tx
    | some tx' => exact (hgone tx' (mem_of_getLast? hlast)).trans (hnewest tx' hlast).le
  refine ⟨h.addressed, h.shard, ⟨gone, hlog, fun tx' htx' => ?_, fun hnil => ?_⟩, fun tx' m' hm' => ?_⟩
  · rw [CheckpointRepo.mem_list] at htx'
    rw [hfile] at htx'
    split at htx'
    · rename_i heq
      exact heq ▸ hgoneTx
    · exact hgone tx' (CheckpointRepo.mem_list.mpr htx')
  · have hmem : tx ∈ CheckpointRepo.list { s.repo with
        manifests := update s.repo.manifests k ((s.repo.manifests k).insert tx (some m)) } k := by
      rw [CheckpointRepo.mem_list]
      rw [hfile, if_pos rfl]
      rfl
    rw [hnil] at hmem
    exact absurd hmem not_mem_nil
  · rw [hfile] at hm'
    split at hm'
    · rename_i heq
      subst heq
      cases hm'
      obtain ⟨early, hretained⟩ := retained_new h.shard hintact hshard htx hstamp
      exact ⟨m, early, _, _, rfl, hretained.withRepo (hintact.of_objects fun _ _ => rfl)⟩
    · obtain ⟨manifest, early, snapshot, taken, rfl, hretained⟩ := h.retained tx' m' hm'
      exact ⟨manifest, early, snapshot, taken, rfl, hretained.withRepo (hretained.intact.of_objects fun _ _ => rfl)⟩

theorem SiteOk.withShard (hok : ShardOk cat sh)
    (hlog : ∃ gone, LogOk sh.appended gone sh.segments ∧ (∀ tx ∈ s.repo.list k, gone ≤ tx) ∧ (s.repo.list k = [] → gone = 0))
    (hretained : ∀ tx m early snapshot taken, Retained cat s.repo (s.shard k) k tx m early snapshot taken →
      Retained cat s.repo sh k tx m early snapshot taken) : SiteOk cat k (s.set k sh) := by
  have hself : (s.set k sh).shard k = sh := update_self ..
  refine ⟨h.addressed, hself.symm ▸ hok, hself.symm ▸ hlog, fun tx m hm => ?_⟩
  obtain ⟨manifest, early, snapshot, taken, rfl, hr⟩ := h.retained tx m hm
  exact ⟨manifest, early, snapshot, taken, rfl, hself.symm ▸ hretained _ _ _ _ _ hr⟩

theorem SiteOk.other {j : Nat} (hj : j ≠ k) (sh : ShardState) : SiteOk cat k (s.set j sh) := by
  have hother : (s.set j sh).shard k = s.shard k := update_of_ne (Ne.symm hj) ..
  exact ⟨h.addressed, hother.symm ▸ h.shard, hother.symm ▸ h.log, hother.symm ▸ h.retained⟩

end

theorem ShardOk.lastAppended (h : ShardOk cat sh) : sh.lastAppended = sh.appended.length := h.numbered.last

/-- No commit has an id higher than their number. -/
theorem ShardOk.txId_le (h : ShardOk cat sh) {r : TxRecord} (hr : r ∈ sh.history) : r.txId ≤ sh.history.length := by
  rw [ShardState.history, length_append]
  rcases mem_append.mp hr with hr | hr
  · obtain ⟨i, hi⟩ := mem_iff_getElem?.mp hr
    have htx := h.numbered.txId hi
    obtain ⟨hlt, -⟩ := List.getElem?_eq_some_iff.mp hi
    omega
  · have hsome := Option.mem_toList.mp hr
    have htx := h.unlogged r hsome
    rw [Option.mem_def.mp hsome, Option.toList_some, length_singleton]
    unfold saturatingAdd at htx
    omega

/-- **A job of the shard**: it publishes its commit, or leaves the tables. -/
theorem SiteOk.run {reducer : Reducer cat} {authoritative : Bool} {info : CommitMeta} (h : SiteOk cat k s)
    (hstep : s.step cat (.run k reducer authoritative info) = some s') : SiteOk cat k s' := by
  rw [Site.step, Option.ite_none_left_eq_some, Bool.not_eq_true, Option.isSome_eq_false_iff, Option.isNone_iff_eq_none] at hstep
  obtain ⟨hnone, hstep⟩ := hstep
  obtain ⟨⟨out, store⟩, hexec, hstep⟩ := Option.bind_eq_some_iff.mp hstep
  have hok := h.shard
  cases out with
  | none =>
    cases hstep
    obtain ⟨hstore, hcommitted, hnext⟩ := execute_aborted hok.store hexec
    refine h.withShard { hok with store := hstore, leads := ?_, next := hnext.trans hok.next } h.log
      fun _ _ _ _ _ hr => hr.of_eq rfl hcommitted
    exact hcommitted.symm ▸ hok.leads
  | some diff =>
    cases hstep
    obtain ⟨hstore, hfollows, htx, hnext⟩ := execute_follows hok.store hexec info
    have hhistory : (s.shard k).history = (s.shard k).appended := ShardState.history_eq hnone
    have happ : ({ s.shard k with store, unlogged := some (.fromDiff (durableDiff cat diff) info) } : ShardState).history =
        (s.shard k).history ++ [.fromDiff (durableDiff cat diff) info] := by
      rw [hhistory]
      rfl
    refine h.withShard ⟨hstore, ?_, hok.numbered, fun r hr => ?_, ?_, ?_⟩ h.log fun _ _ _ _ _ hr => hr.append happ hfollows
    · rw [happ]
      exact hok.leads.concat hfollows
    · cases hr
      exact htx.trans (hhistory ▸ hok.next)
    · rw [hnext, hok.next, happ, length_append, length_singleton]
      unfold saturatingAdd
      omega
    · rw [happ, length_append]
      exact hok.highest.trans (Nat.le_add_right ..)

/-- **The log accepts the record** of the published commit. -/
theorem SiteOk.append {rotate : Bool} (h : SiteOk cat k s) (hstep : s.step cat (.append k rotate) = some s') :
    SiteOk cat k s' := by
  obtain ⟨record, hrecord, hstep⟩ := Option.bind_eq_some_iff.mp hstep
  rw [Option.ite_none_left_eq_some] at hstep
  obtain ⟨hlast, hstep⟩ := hstep
  cases hstep
  have hok := h.shard
  have hsat := hok.unlogged record hrecord
  -- the id is one more than the last, as it could not be appended otherwise
  have hid : record.txId = (s.shard k).appended.length + 1 := by
    rw [hok.lastAppended] at hlast
    unfold saturatingAdd at hsat
    omega
  have hhistory : (s.shard k).appended ++ [record] ++ (none : Option TxRecord).toList = (s.shard k).history := by
    rw [ShardState.history, hrecord, Option.toList_none, append_nil, Option.toList_some]
  refine h.withShard ⟨hok.store, ?_, hok.numbered.concat hid, nofun, ?_, ?_⟩
    (h.log.imp fun gone hlog => ⟨logOk_append hlog.1 rotate _, hlog.2⟩) fun _ _ _ _ _ hr => hr.of_eq hhistory rfl
  all_goals simp only [ShardState.history, hhistory]
  · exact hok.leads
  · exact hok.next
  · exact hok.highest

/-- **A checkpoint of the shard**, written or not. -/
theorem SiteOk.checkpoint {salt : Nat} {writable : Bytes → Bool} {manifestWritten : Bool} (h : SiteOk cat k s)
    (hstep : s.step cat (.checkpoint k salt writable manifestWritten) = some s') : SiteOk cat k s' := by
  have hwrite := CheckpointRepo.write_ok writable manifestWritten salt (s.shard k).store.committed k (s.shard k).highestCommitted
    h.addressed
  simp only [Site.step] at hstep
  split at hstep
  · rename_i repo hres
    cases hstep
    obtain ⟨-, hnewest, mid, m, hg, hadd, hshard, htx, hintact, rfl⟩ := hwrite.of_ok hres
    have hmid := h.grows hg hadd
    refine hmid.written (fun tx' htx' => hnewest tx' ?_) hintact hshard htx h.shard.highest
    rwa [CheckpointRepo.list, ← hg.manifests]
  · rename_i repo hres
    cases hstep
    obtain ⟨hg, hadd⟩ := hwrite.of_error hres
    exact h.grows hg hadd

/-- A checkpoint of another shard brings objects and takes none. -/
theorem SiteOk.checkpointOther {j salt : Nat} {writable : Bytes → Bool} {manifestWritten : Bool} (h : SiteOk cat k s)
    (hj : j ≠ k) (hstep : s.step cat (.checkpoint j salt writable manifestWritten) = some s') : SiteOk cat k s' := by
  have hwrite := CheckpointRepo.write_ok writable manifestWritten salt (s.shard j).store.committed j (s.shard j).highestCommitted
    h.addressed
  simp only [Site.step] at hstep
  split at hstep
  · rename_i repo hres
    cases hstep
    obtain ⟨-, -, mid, m, hg, hadd, -, -, -, rfl⟩ := hwrite.of_ok hres
    exact (h.grows hg hadd).sameFiles rfl (update_of_ne (Ne.symm hj) ..)
  · rename_i repo hres
    cases hstep
    obtain ⟨hg, hadd⟩ := hwrite.of_error hres
    exact h.grows hg hadd

theorem oldest_le {oldest : Nat} (holdest : (repo.list k).head? = some oldest) (htx : tx ∈ repo.list k) : oldest ≤ tx := by
  have hsorted : (repo.list k).Pairwise (· < ·) := by
    simpa [CheckpointRepo.list, compare_lt_iff_lt] using ordered_keys (t := repo.manifests k)
  obtain ⟨rest, hlist⟩ : ∃ rest, repo.list k = oldest :: rest := by
    cases hlist : repo.list k with
    | nil => simp [hlist] at holdest
    | cons a rest => exact ⟨rest, by rw [hlist, head?_cons] at holdest; rw [Option.some.inj holdest]⟩
  rw [hlist, pairwise_cons] at hsorted
  rw [hlist] at htx
  rcases mem_cons.mp htx with rfl | htx
  · exact Nat.le_refl tx
  · exact (hsorted.1 tx htx).le

/-- **Compaction to the oldest checkpoint.** -/
theorem SiteOk.compact (h : SiteOk cat k s) {oldest : Nat} (holdest : (s.repo.list k).head? = some oldest) (hold : Option Nat)
    (archived : Nat → Bool) :
    SiteOk cat k (s.set k { s.shard k with segments := compactCovered oldest hold archived (s.shard k).segments }) := by
  obtain ⟨gone, hlog, hgone, hzero⟩ := h.log
  have hmem : oldest ∈ s.repo.list k := mem_of_mem_head? holdest
  obtain ⟨gone', hlog', hle⟩ := logOk_compact hlog h.shard.numbered hold archived (hgone oldest hmem)
  refine h.withShard { h.shard with }
    ⟨gone', hlog', fun tx htx => hle.trans (oldest_le holdest htx), fun hnil => ?_⟩ fun _ _ _ _ _ hr => hr.of_eq rfl rfl
  rw [hnil] at hmem
  exact absurd hmem not_mem_nil

/-- **Every step keeps what holds of the shard**, if it is no prune of another one. -/
theorem SiteOk.step {l : Site.Step cat A} (h : SiteOk cat k s) (hl : l.prunesOther k = false) (hstep : s.step cat l = some s') :
    SiteOk cat k s' := by
  cases l with
  | run j reducer authoritative info =>
    by_cases hj : j = k
    · subst hj
      exact h.run hstep
    rw [Site.step, Option.ite_none_left_eq_some] at hstep
    obtain ⟨⟨out, store⟩, -, hstep⟩ := Option.bind_eq_some_iff.mp hstep.2
    cases out <;> cases hstep <;> exact h.other hj _
  | append j rotate =>
    by_cases hj : j = k
    · subst hj
      exact h.append hstep
    obtain ⟨record, -, hstep⟩ := Option.bind_eq_some_iff.mp hstep
    rw [Option.ite_none_left_eq_some] at hstep
    cases hstep.2
    exact h.other hj _
  | observe j tx =>
    obtain ⟨hseen, rfl⟩ := Runs.of_guard hstep
    by_cases hj : j = k
    · subst hj
      obtain ⟨r, hr, htx⟩ := any_eq_true.mp hseen
      have hle := h.shard.txId_le hr
      rw [of_decide_eq_true htx] at hle
      exact h.withShard { h.shard with highest := max_le h.shard.highest hle } h.log fun _ _ _ _ _ hr => hr.of_eq rfl rfl
    · exact h.other hj _
  | checkpoint j salt writable manifestWritten =>
    by_cases hj : j = k
    · subst hj
      exact h.checkpoint hstep
    · exact h.checkpointOther hj hstep
  | prune j retention stuck left =>
    obtain rfl : j = k := by simpa [Site.Step.prunesOther] using hl
    cases hstep
    exact h.pruned (CheckpointRepo.prune_pruned stuck left s.repo j retention)
  | compact j hold archived =>
    cases hstep
    cases hhead : (s.repo.list j).head? with
    | none => exact h
    | some oldest =>
      by_cases hj : j = k
      · subst hj
        exact h.compact hhead hold archived
      · exact h.other hj _
  | pin tx | unpin tx =>
    cases hstep
    exact h.sameFiles rfl rfl

theorem siteOk_new (cat : Catalog) (k : Nat) : SiteOk cat k (.new cat : Site A) where
  addressed _ _ hb := by cases hb
  shard := ⟨recoverable_new cat, .nil _, rfl, nofun, rfl, Nat.le_refl 0⟩
  log := ⟨0, ⟨rfl, Nat.le_refl 0, by simp [Site.new]⟩, fun tx _ => Nat.zero_le tx, fun _ => rfl⟩
  retained tx m hm := by simp [Site.new, CheckpointRepo.empty] at hm

/-- **A retained checkpoint and the log recover the present state**, unless a commit is still to be appended. -/
theorem SiteOk.recovers (ids : TableIds cat) (h : SiteOk cat k s) (hnone : (s.shard k).unlogged = none)
    (htx : tx ∈ s.repo.list k) : ∃ loaded recovered,
    s.repo.load k tx = some loaded ∧ recoverFrom ids (some loaded) (segmentRecords (s.shard k).segments) = .ok recovered ∧
      DurableEq cat recovered.committed (s.shard k).store.committed ∧
      recovered.writer.nextTxId = (s.shard k).store.writer.nextTxId := by
  obtain ⟨gone, hlog, hgone, -⟩ := h.log
  have hnumbered := h.shard.numbered
  rw [← ShardState.history_eq hnone] at hlog hnumbered
  obtain ⟨m, hm⟩ := Option.isSome_iff_exists.mp (CheckpointRepo.mem_list.mp htx)
  obtain ⟨manifest, early, snapshot, taken, rfl, hr⟩ := h.retained tx m hm
  have hload := hr.intact.load hm hr.shardId hr.lastTxId fun p hp => by
    have hmem := mem_toList_iff_getElem?_eq_some.mp (mem_of_mem_filter hp)
    rw [hr.count p.1 p.2 hmem, length_toList]
  have hfilter : (segmentRecords (s.shard k).segments).filter (tx < ·.txId) =
      ((s.shard k).history.take taken).drop tx ++ (s.shard k).history.drop taken := by
    rw [hlog.records, hnumbered.filter (hgone tx htx), ← drop_append_of_le_length, take_append_drop]
    rw [length_take]
    have := hr.stamp
    have := hr.le
    omega
  have hstored : ∀ r ∈ segmentRecords (s.shard k).segments, RecordStored cat r := fun r hmem =>
    h.shard.leads.stored r (mem_of_mem_drop (hlog.records ▸ hmem))
  obtain ⟨recovered, hrecover, heq, hnext⟩ := hr.early.recover ids hr.late hfilter hstored hr.storable h.shard.store.tables
    h.shard.store.count
  refine ⟨_, recovered, hload, hrecover, heq, ?_⟩
  -- the last id is that of the last record, or the stamp if none is left
  have hstamp : tx ≤ (s.shard k).history.length := hr.stamp.trans hr.le
  have hmax : max ((segmentRecords (s.shard k).segments).getLast?.map (·.txId)) (some tx) = some (s.shard k).history.length := by
    rw [hlog.records, getLast?_drop]
    split
    · have := hgone tx htx
      have : tx = (s.shard k).history.length := by omega
      simp [this]
    · cases hlast : (s.shard k).history.getLast? with
      | none =>
        simp_all
      | some r =>
        have htx := hnumbered.last
        rw [hlast] at htx
        have htx : r.txId = (s.shard k).history.length := htx
        simp [htx, hstamp]
  rw [hnext, hmax, h.shard.next]
  rfl

end Steps

section Main

variable {cat : Catalog} {A : Artifacts} {s : Site A}

/-- **Retention keeps recovery possible**, in every run of transactions, checkpoints, prunes and compactions in
which no other shard prunes the repository: every checkpoint of the shard has its objects, the log is one suffix
of what was appended with every record after the oldest checkpoint, and once every commit is appended each checkpoint
with the log recovers to the durable tables and the next transaction id of the present. -/
theorem retained_checkpoints_recover (ids : TableIds cat) (k : Nat) {labels : List (Site.Step cat A)}
    (hlabels : ∀ l ∈ labels, l.prunesOther k = false) (hrun : Runs.run (Site.step cat) (.new cat) labels = some s) :
    (∀ (tx : Nat) m, (s.repo.manifests k)[tx]? = some m →
      ∃ manifest, m = some manifest ∧ ∀ hash ∈ manifest.hashes, (s.repo.objects hash).isSome = true) ∧
    (∃ gone, segmentRecords (s.shard k).segments = (s.shard k).appended.drop gone) ∧ Numbered (s.shard k).appended ∧
    (∀ oldest ∈ (s.repo.list k).head?, ∀ r ∈ (s.shard k).appended, oldest < r.txId →
      r ∈ segmentRecords (s.shard k).segments) ∧
    ((s.shard k).unlogged = none → ∀ tx ∈ s.repo.list k, ∃ loaded recovered, s.repo.load k tx = some loaded ∧
      recoverFrom ids (some loaded) (segmentRecords (s.shard k).segments) = .ok recovered ∧
      DurableEq cat recovered.committed (s.shard k).store.committed ∧
      recovered.writer.nextTxId = (s.shard k).store.writer.nextTxId) := by
  have hok : SiteOk cat k s := Runs.run_invariant_of_meets (fun s l s' h hl hstep => h.step hl hstep) (siteOk_new cat k)
    (Runs.meets_of_forall hlabels) hrun
  obtain ⟨gone, hlog, hgone, -⟩ := hok.log
  refine ⟨fun tx m hm => ?_, ⟨gone, hlog.records⟩, hok.shard.numbered, fun oldest holdest r hr hlt => ?_,
    fun hnone tx htx => hok.recovers ids hnone htx⟩
  · obtain ⟨manifest, early, snapshot, taken, rfl, hretained⟩ := hok.retained tx m hm
    exact ⟨manifest, rfl, fun hash hhash => hretained.intact.present hhash⟩
  have hle := hgone oldest (mem_of_mem_head? holdest)
  have hmem : r ∈ (s.shard k).appended.filter (oldest < ·.txId) := mem_filter.mpr ⟨hr, by simpa using hlt⟩
  have hdrop := hok.shard.numbered.filter (Nat.zero_le oldest)
  rw [drop_zero] at hdrop
  rw [hlog.records]
  rw [hdrop, ← hok.shard.numbered.filter hle] at hmem
  exact mem_of_mem_filter hmem

end Main

/-- Chunks of one account with a short id and age; the hash of an object is its bytes. -/
def accountArtifacts : Artifacts where
  Hash := Bytes
  decEq := inferInstance
  hash := id
  crc32 _ := 0
  encode
    | _, [[.scalar (.u64 id), .scalar (.bytes handle), .scalar (.u32 age)]] =>
      if id.toNat < 256 ∧ age.toNat < 256 then some (.ofNat id.toNat :: .ofNat age.toNat :: handle) else none
    | _, _ => none
  decode
    | id :: age :: handle => some [[.scalar (.u64 (.ofNat 64 id.toNat)), .scalar (.bytes handle), .scalar (.u32 (.ofNat 32 age.toNat))]]
    | _ => none
  hash_inj h := h
  decode_encode := by
    intro salt rows bytes h
    split at h
    · split at h
      · rename_i id handle age hlt
        cases h
        simp [Nat.mod_eq_of_lt hlt.1, Nat.mod_eq_of_lt hlt.2]
      · cases h
    · cases h

/-- A job that inserts a row. -/
def insertJob (table : Nat) (id : BitVec 64) (handle : Bytes) : Reducer visitorCatalog :=
  ⟨[(plainServices _, .insert table (account id handle 30))], true⟩

/-- A job of a shard that inserts a row, as far as its commit is published and the worker told of it. -/
def publish (shard table : Nat) (id : BitVec 64) (handle : Bytes) (tx : Nat) : List (Site.Step visitorCatalog accountArtifacts) :=
  [.run shard (insertJob table id handle) true ⟨0, 0, [], "insert"⟩, .observe shard tx]

/-- The same with the append of its record. -/
def runInsert (shard table : Nat) (id : BitVec 64) (handle : Bytes) (tx : Nat) (rotate : Bool) :
    List (Site.Step visitorCatalog accountArtifacts) := publish shard table id handle tx ++ [.append shard rotate]

/-- A checkpoint of a shard that the disk takes. -/
def writeCheckpoint (shard : Nat) : Site.Step visitorCatalog accountArtifacts := .checkpoint shard 0 (fun _ => true) true

/-- Three accounts and as many checkpoints, the second of which is newer than its stamp, and the third taken before
the append; then a prune and a compaction. -/
def maintainRun : List (Site.Step visitorCatalog accountArtifacts) :=
  runInsert 0 1 1 [7] 1 false ++ writeCheckpoint 0 :: runInsert 0 1 2 [8] 2 true ++
    [.run 0 (insertJob 1 3 [9]) true ⟨0, 0, [], "insert"⟩, writeCheckpoint 0, .observe 0 3, writeCheckpoint 0, .append 0 true,
      .prune 0 2 (fun _ => false) (fun _ => false), .compact 0 none (fun _ => true)]

/-- Two checkpoints and the last record are left, and the older checkpoint recovers the present state. -/
theorem retained_checkpoints_recover_maintainRun : ∃ s : Site accountArtifacts,
    Runs.run (Site.step visitorCatalog) (.new visitorCatalog) maintainRun = some s ∧ s.repo.list 0 = [2, 3] ∧
    (segmentRecords (s.shard 0).segments).map (·.txId) = [3] ∧ ∃ loaded recovered, s.repo.load 0 2 = some loaded ∧
      recoverFrom visitorIds (some loaded) (segmentRecords (s.shard 0).segments) = .ok recovered ∧
      DurableEq visitorCatalog recovered.committed (s.shard 0).store.committed ∧
      recovered.writer.nextTxId = (s.shard 0).store.writer.nextTxId := by
  obtain ⟨s, hrun, hlist, hlog, hnone⟩ : ∃ s : Site accountArtifacts,
      s ∈ Runs.run (Site.step visitorCatalog) (.new visitorCatalog) maintainRun ∧ s.repo.list 0 = [2, 3] ∧
      (segmentRecords (s.shard 0).segments).map (·.txId) = [3] ∧ (s.shard 0).unlogged.isNone = true := by
    decide +kernel
  have hlabels : ∀ l ∈ maintainRun, l.prunesOther 0 = false := by decide
  refine ⟨s, hrun, hlist, hlog,
    (retained_checkpoints_recover visitorIds 0 hlabels hrun).2.2.2.2 (Option.isNone_iff_eq_none.mp hnone) 2 ?_⟩
  rw [hlist]
  decide

/-- A visitor and a checkpoint. -/
def visitorRun : List (Site.Step visitorCatalog accountArtifacts) := runInsert 0 2 1 [7] 1 false ++ [writeCheckpoint 0]

/-- The first shard has one checkpoint; the other writes three and prunes. -/
def foreignPruneRun : List (Site.Step visitorCatalog accountArtifacts) :=
  runInsert 0 1 1 [7] 1 false ++ writeCheckpoint 0 :: runInsert 1 1 1 [8] 1 false ++ writeCheckpoint 1 ::
    runInsert 1 1 2 [9] 2 false ++ writeCheckpoint 1 :: runInsert 1 1 3 [10] 3 false ++
    [writeCheckpoint 1, .prune 1 2 (fun _ => false) (fun _ => false)]

/-- A checkpoint after the first account, and one between the commit and the append of the second. -/
def unloggedRun : List (Site.Step visitorCatalog accountArtifacts) :=
  runInsert 0 1 1 [7] 1 false ++ writeCheckpoint 0 :: publish 0 1 2 [8] 2 ++ [writeCheckpoint 0]

/-- A row of an ephemeral table is not recovered; a prune of another shard takes an object that a retained
checkpoint names; and as long as a commit is not appended, a checkpoint that has it and one that does not recover to
different states. -/
theorem checkpoint_incomplete :
    (∃ (s : Site accountArtifacts) (loaded : LoadedCheckpoint) (recovered : MemStore),
      Runs.run (Site.step visitorCatalog) (.new visitorCatalog) visitorRun = some s ∧ s.repo.load 0 1 = some loaded ∧
      recoverFrom visitorIds (some loaded) (segmentRecords (s.shard 0).segments) = .ok recovered ∧
      (s.shard 0).store.committed[2]?.map TableState.rowCount = some 1 ∧
      recovered.committed[2]?.map TableState.rowCount = some 0) ∧
    (∃ (s : Site accountArtifacts) (m : Manifest Bytes),
      Runs.run (Site.step visitorCatalog) (.new visitorCatalog) foreignPruneRun = some s ∧
      (s.repo.manifests 0)[1]? = some (some m) ∧ ∃ hash ∈ m.hashes, s.repo.objects hash = none) ∧
    ∃ s : Site accountArtifacts, Runs.run (Site.step visitorCatalog) (.new visitorCatalog) unloggedRun = some s ∧
      [1, 2].map (fun tx => (s.repo.load 0 tx).bind fun loaded =>
        (recoverFrom visitorIds (some loaded) (segmentRecords (s.shard 0).segments)).toOption.map (·.writer.nextTxId)) =
        [some 2, some 3] := by
  refine ⟨?_, ?_, ?_⟩
  · obtain ⟨s, hrun, loaded, hload, recovered, hrecover, hcounts⟩ :
        ∃ s ∈ Runs.run (Site.step visitorCatalog) (.new visitorCatalog) visitorRun, ∃ loaded ∈ s.repo.load 0 1,
          ∃ recovered ∈ (recoverFrom visitorIds (some loaded) (segmentRecords (s.shard 0).segments)).toOption,
            (s.shard 0).store.committed[2]?.map TableState.rowCount = some 1 ∧
              recovered.committed[2]?.map TableState.rowCount = some 0 := by
      decide +kernel
    exact ⟨s, loaded, recovered, hrun, hload, Outcome.toOption_eq_some_iff.mp hrecover, hcounts⟩
  · obtain ⟨s, hrun, m, hm, hash, hhash, hnone⟩ :
        ∃ s ∈ Runs.run (Site.step visitorCatalog) (.new visitorCatalog) foreignPruneRun,
          ∃ m ∈ (s.repo.manifests 0)[1]?.join, ∃ hash ∈ m.hashes, (s.repo.objects hash).isNone := by
      decide +kernel
    exact ⟨s, m, hrun, Option.join_eq_some_iff.mp hm, hash, hhash, Option.isNone_iff_eq_none.mp hnone⟩
  · decide +kernel

end Fluxum
