/-
# The checkpoint repository

`checkpoint/repo.rs`: a directory of content-addressed row chunks and of
manifests that name them. A checkpoint writes the chunks that are not there
yet and then its manifest; pruning deletes old manifests of a shard and then
every object that no remaining manifest of this shard names. Also
`compact_covered` of `checkpoint/compact.rs` on the segments of a log.

A manifest file is taken as the manifest it decodes to, an object file as its
bytes; encoding, compression, encryption and the hash are parameters.
-/
import Fluxum.Checkpoint.Recover

namespace Fluxum

open Std Outcome List Function ExtTreeMap Option

/-- The codec of a row chunk as it is stored, with the salt of its encryption, the content hash, and the
checksum that places the chunk boundaries. -/
structure Artifacts where
  Hash : Type
  decEq : DecidableEq Hash
  hash : Bytes → Hash
  crc32 : Bytes → Nat
  encode : Nat → List (List LogValue) → Option Bytes
  decode : Bytes → Option (List (List LogValue))
  hash_inj : ∀ {a b}, hash a = hash b → a = b
  decode_encode : ∀ {salt rows bytes}, encode salt rows = some bytes → decode bytes = some rows

attribute [instance] Artifacts.decEq

structure TableManifest (Hash : Type) where
  tableId : Nat
  tableName : String
  autoIncHighWater : Nat
  rowCount : Nat
  chunks : List Hash

structure Manifest (Hash : Type) where
  shardId : Nat
  lastTxId : Nat
  tables : List (TableManifest Hash)

def Manifest.hashes {Hash : Type} (m : Manifest Hash) : List Hash := m.tables.flatMap (·.chunks)

/-- The files of a repository and its pins. A manifest that does not decode is `none`. -/
structure CheckpointRepo (A : Artifacts) where
  objects : A.Hash → Option Bytes
  manifests : Nat → ExtTreeMap Nat (Option (Manifest A.Hash))
  pins : ExtTreeSet Nat

def chunkTargetRows : Nat := 64

def chunkMaxRows : Nat := 256

/-- The chunks of a table's rows, in key order, after the rows of `current`. -/
def chunkRows (crc32 : Bytes → Nat) : List (List LogValue) → List (Bytes × Row) → List (List (List LogValue))
  | current, [] => if current.isEmpty then [] else [current]
  | current, (pk, row) :: rows =>
    let current := current ++ [LogValue.rowToLog row]
    if chunkMaxRows ≤ current.length ∨ crc32 pk % chunkTargetRows = 0 then current :: chunkRows crc32 [] rows
    else chunkRows crc32 current rows

namespace CheckpointRepo

section

variable {A : Artifacts}

def empty : CheckpointRepo A := ⟨fun _ => none, fun _ => ∅, ∅⟩

def list (repo : CheckpointRepo A) (shardId : Nat) : List Nat := (repo.manifests shardId).keys

/-- `write_chunk`; `writable` tells the files that the disk takes. -/
def writeChunk (writable : Bytes → Bool) (salt : Nat) (s : CheckpointRepo A × List A.Hash) (rows : List (List LogValue)) :
    Except (CheckpointRepo A) (CheckpointRepo A × List A.Hash) :=
  match A.encode salt rows with
  | none => .error s.1
  | some bytes =>
    if (s.1.objects (A.hash bytes)).isSome then .ok (s.1, s.2 ++ [A.hash bytes])
    else if writable bytes then
      .ok ({ s.1 with objects := update s.1.objects (A.hash bytes) (some bytes) }, s.2 ++ [A.hash bytes])
    else .error s.1

/-- The part of a checkpoint that is one table; ephemeral tables are left out. -/
def writeTable (writable : Bytes → Bool) (salt : Nat) (s : CheckpointRepo A × List (TableManifest A.Hash)) (p : Nat × TableState) :
    Except (CheckpointRepo A) (CheckpointRepo A × List (TableManifest A.Hash)) :=
  if p.2.schema.isEphemeral then .ok s
  else do
    let (repo, chunks) ← (chunkRows A.crc32 [] p.2.rows.toList).foldlM (writeChunk writable salt) (s.1, [])
    return (repo, s.2 ++ [⟨p.1, p.2.schema.name, p.2.autoIncHighWater, p.2.rowCount, chunks⟩])

/-- `CheckpointRepo::write` of a snapshot; the error is the repository that a failed write leaves. -/
def write (writable : Bytes → Bool) (manifestWritten : Bool) (salt : Nat) (repo : CheckpointRepo A)
    (snapshot : Tables) (shardId lastTxId : Nat) : Except (CheckpointRepo A) (CheckpointRepo A) :=
  if lastTxId = 0 then .error repo
  else if (repo.list shardId).getLast?.any (lastTxId ≤ ·) then .error repo
  else do
    let (repo, tables) ← snapshot.toList.foldlM (writeTable writable salt) (repo, [])
    let manifests := (repo.manifests shardId).insert lastTxId (some ⟨shardId, lastTxId, tables⟩)
    if manifestWritten then return { repo with manifests := update repo.manifests shardId manifests }
    else .error repo

/-- One object of a checkpoint: its bytes must be there and hash to its name. -/
def loadChunk (repo : CheckpointRepo A) (hash : A.Hash) : Option (List Row) := do
  let bytes ← repo.objects hash
  if A.hash bytes = hash then (← A.decode bytes).mapM fun values => (LogValue.toRow values).toOption else none

def loadTable (repo : CheckpointRepo A) (table : TableManifest A.Hash) : Option LoadedTable := do
  let rows := (← table.chunks.mapM repo.loadChunk).flatten
  if rows.length = table.rowCount then
    return ⟨table.tableId, table.tableName, table.autoIncHighWater, rows⟩
  else none

def load (repo : CheckpointRepo A) (shardId lastTxId : Nat) : Option LoadedCheckpoint := do
  let manifest ← (repo.manifests shardId)[lastTxId]?.join
  if manifest.shardId = shardId ∧ manifest.lastTxId = lastTxId then
    return ⟨lastTxId, ← manifest.tables.mapM repo.loadTable⟩
  else none

/-- The objects that some manifest of the shard names; `none` if one does not decode. -/
def referenced (repo : CheckpointRepo A) (shardId : Nat) : Option (List A.Hash) := do
  let manifests ← (repo.list shardId).mapM fun tx => (repo.manifests shardId)[tx]?.join
  return manifests.flatMap Manifest.hashes

def remove (repo : CheckpointRepo A) (shardId : Nat) (txs : List Nat) : CheckpointRepo A :=
  { repo with manifests := update repo.manifests shardId (txs.foldl ExtTreeMap.erase (repo.manifests shardId)) }

/-- `CheckpointRepo::prune`. `stuck` tells the manifests that cannot be deleted, and `left` the objects that
the collection does not come to: the first failure ends it. -/
def prune (stuck : Nat → Bool) (left : A.Hash → Bool) (repo : CheckpointRepo A) (shardId retention : Nat) : CheckpointRepo A :=
  let refs := repo.list shardId
  if retention < 2 ∨ refs.length ≤ retention then repo
  else
    let old := (refs.take (refs.length - retention)).filter (!repo.pins.contains ·)
    let removed := old.takeWhile (!stuck ·)
    let repo := repo.remove shardId removed
    if removed.isEmpty || removed.length < old.length then repo
    else
      match repo.referenced shardId with
      | none => repo
      | some hashes =>
        { repo with objects := fun hash => if hashes.contains hash || left hash then repo.objects hash else none }

/-- The checkpoint that recovery adopts: the newest one that loads. -/
def adopt (repo : CheckpointRepo A) (shardId : Nat) : Option LoadedCheckpoint :=
  (repo.list shardId).reverse.findSome? (repo.load shardId)

end

end CheckpointRepo

/-! ### Log segments -/

/-- A segment of the log, under the id of its first record. -/
structure LogSegment where
  firstTxId : Nat
  records : List TxRecord

def segmentRecords (segments : List LogSegment) : List TxRecord := segments.flatMap (·.records)

/-- A record at the end of the log, in a segment of its own if the log rotates before it. -/
def appendRecord (rotate : Bool) (segments : List LogSegment) (record : TxRecord) : List LogSegment :=
  match segments.getLast? with
  | some last =>
    if rotate then segments ++ [⟨record.txId, [record]⟩]
    else segments.dropLast ++ [{ last with records := last.records ++ [record] }]
  | none => [⟨record.txId, [record]⟩]

/-- `compact_covered`: a segment goes if the next one starts at most one past what is covered and no hold
needs it; `archived` tells the segments whose archival succeeds, and the first failure ends it. -/
def compactCovered (covered : Nat) (hold : Option Nat) (archived : Nat → Bool) : List LogSegment → List LogSegment
  | a :: b :: rest =>
    if saturatingAdd covered 1 < b.firstTxId ∨ hold.any (· < b.firstTxId) then
      a :: compactCovered covered hold archived (b :: rest)
    else if archived a.firstTxId then compactCovered covered hold archived (b :: rest)
    else a :: b :: rest
  | segments => segments

section Compact

variable {covered : Nat} {hold : Option Nat} {archived : Nat → Bool}

theorem compactCovered_eq_self : ∀ {segments : List LogSegment},
    (∀ c ∈ segments.tail, saturatingAdd covered 1 < c.firstTxId ∨ hold.any (· < c.firstTxId) = true) →
      compactCovered covered hold archived segments = segments
  | [], _ => rfl
  | [_], _ => rfl
  | a :: b :: rest, h => by
    have hrest : compactCovered covered hold archived (b :: rest) = b :: rest :=
      compactCovered_eq_self fun c hc => h c (by simpa using Or.inr hc)
    rw [compactCovered, if_pos (h b (by simp)), hrest]

/-- **Compaction takes segments from the front**, and what is left starts at most one past what is covered. -/
theorem compactCovered_suffix (covered : Nat) (hold : Option Nat) (archived : Nat → Bool) :
    ∀ {segments : List LogSegment}, (segments.map (·.firstTxId)).Pairwise (· < ·) →
    ∃ gone, segments = gone ++ compactCovered covered hold archived segments ∧
      (gone ≠ [] → ∃ b, (compactCovered covered hold archived segments).head? = some b ∧
        b.firstTxId ≤ saturatingAdd covered 1)
  | [], _ => ⟨[], rfl, fun h => absurd rfl h⟩
  | [_], _ => ⟨[], rfl, fun h => absurd rfl h⟩
  | a :: b :: rest, hsorted => by
    have htail : ((b :: rest).map (·.firstTxId)).Pairwise (· < ·) := hsorted.of_cons
    rw [compactCovered]
    split
    · rename_i hkeep
      -- the later segments start later still, so they stay as well
      have hself : compactCovered covered hold archived (b :: rest) = b :: rest := by
        refine compactCovered_eq_self fun c hc => ?_
        have hlt : b.firstTxId < c.firstTxId := by
          rw [map_cons, pairwise_cons] at htail
          exact htail.1 _ (mem_map_of_mem hc)
        refine hkeep.imp (fun h => h.trans hlt) fun h => ?_
        obtain ⟨x, hx, hlt'⟩ := (any_eq_true _ _).mp h
        exact (any_eq_true _ _).mpr ⟨x, hx, by simpa using (by simpa using hlt' : x < b.firstTxId).trans hlt⟩
      exact ⟨[], by rw [hself]; rfl, fun h => absurd rfl h⟩
    · rename_i hgo
      rw [not_or, Nat.not_lt] at hgo
      split
      · obtain ⟨gone, heq, hfirst⟩ := compactCovered_suffix covered hold archived htail
        refine ⟨a :: gone, by rw [cons_append, ← heq], fun _ => ?_⟩
        by_cases hnil : gone = []
        · rw [hnil, nil_append] at heq
          exact ⟨b, by rw [← heq]; rfl, hgo.1⟩
        · exact hfirst hnil
      · exact ⟨[], rfl, fun h => absurd rfl h⟩

end Compact

/-! ### Objects -/

theorem flatten_chunkRows (crc32 : Bytes → Nat) : ∀ (current : List (List LogValue)) (rows : List (Bytes × Row)),
    (chunkRows crc32 current rows).flatten = current ++ rows.map fun p => LogValue.rowToLog p.2
  | current, [] => by
    rw [chunkRows]
    split
    · rename_i h
      simp [List.isEmpty_iff.mp h]
    · simp
  | current, (pk, row) :: rows => by
    rw [chunkRows]
    split
    · rw [List.flatten_cons, flatten_chunkRows crc32 [] rows]
      simp
    · rw [flatten_chunkRows crc32 _ rows]
      simp

namespace CheckpointRepo

section Objects

variable {A : Artifacts} {repo repo' repo'' : CheckpointRepo A} (writable : Bytes → Bool) (salt : Nat)

/-- The object of a hash is there and decodes to the chunk. -/
def Holds (repo : CheckpointRepo A) (hash : A.Hash) (rows : List (List LogValue)) : Prop :=
  ∃ bytes, repo.objects hash = some bytes ∧ A.hash bytes = hash ∧ A.decode bytes = some rows

/-- Every object is named by its hash. -/
def Addressed (repo : CheckpointRepo A) : Prop := ∀ hash bytes, repo.objects hash = some bytes → A.hash bytes = hash

/-- Objects come and none goes. -/
structure Grows (repo repo' : CheckpointRepo A) : Prop where
  manifests : repo'.manifests = repo.manifests
  pins : repo'.pins = repo.pins
  objects : ∀ hash bytes, repo.objects hash = some bytes → repo'.objects hash = some bytes

theorem Grows.refl (repo : CheckpointRepo A) : repo.Grows repo := ⟨rfl, rfl, fun _ _ h => h⟩

theorem Grows.trans (h : repo.Grows repo') (h' : repo'.Grows repo'') : repo.Grows repo'' :=
  ⟨h'.manifests.trans h.manifests, h'.pins.trans h.pins, fun hash bytes hb => h'.objects _ _ (h.objects hash bytes hb)⟩

theorem Holds.grows {hash : A.Hash} {rows : List (List LogValue)} (h : repo.Holds hash rows) (hg : repo.Grows repo') :
    repo'.Holds hash rows := by
  obtain ⟨bytes, hobj, hrest⟩ := h
  exact ⟨bytes, hg.objects hash bytes hobj, hrest⟩

/-- **A chunk is there after it is written**, whether it was there before or not. -/
theorem writeChunk_ok (hrepo : repo.Addressed) (hashes : List A.Hash) (rows : List (List LogValue)) :
    Ends (fun repo' => repo.Grows repo' ∧ repo'.Addressed) (writeChunk writable salt (repo, hashes) rows)
      (fun r => repo.Grows r.1 ∧ r.1.Addressed ∧ ∃ hash, r.2 = hashes ++ [hash] ∧ r.1.Holds hash rows) := by
  unfold writeChunk
  split
  · exact ⟨Grows.refl repo, hrepo⟩
  rename_i bytes henc
  have hdec := A.decode_encode henc
  split
  · rename_i hsome
    obtain ⟨bytes', hobj⟩ := isSome_iff_exists.mp hsome
    obtain rfl : bytes' = bytes := A.hash_inj (hrepo _ _ hobj)
    exact ⟨Grows.refl repo, hrepo, _, rfl, bytes', hobj, rfl, hdec⟩
  · rename_i hnone
    split
    · refine ⟨⟨rfl, rfl, fun hash b hb => ?_⟩, fun hash b hb => ?_, _, rfl, bytes, by simp, rfl, hdec⟩
      · have hne : hash ≠ A.hash bytes := fun heq => by simp [heq ▸ hb] at hnone
        simpa [update_of_ne hne] using hb
      · by_cases heq : hash = A.hash bytes
        · subst heq
          obtain rfl : bytes = b := by simpa using hb
          rfl
        · exact hrepo hash b (by simpa [update_of_ne heq] using hb)
    · exact ⟨Grows.refl repo, hrepo⟩

theorem writeChunks_ok : ∀ (chunks : List (List (List LogValue))) {repo : CheckpointRepo A} (hashes : List A.Hash), repo.Addressed →
    Ends (fun repo' => repo.Grows repo' ∧ repo'.Addressed) (chunks.foldlM (writeChunk writable salt) (repo, hashes))
      (fun r => repo.Grows r.1 ∧ r.1.Addressed ∧ ∃ new, r.2 = hashes ++ new ∧ List.Forall₂ r.1.Holds new chunks)
  | [], repo, hashes, hrepo => ⟨Grows.refl repo, hrepo, [], by simp, .nil⟩
  | chunk :: chunks, repo, hashes, hrepo => by
    rw [List.foldlM_cons]
    have hone := writeChunk_ok writable salt hrepo hashes chunk
    cases hres : writeChunk writable salt (repo, hashes) chunk with
    | error repo' => exact hone.of_error hres
    | ok r =>
      obtain ⟨hg, hadd, hash, hr, hholds⟩ := hone.of_ok hres
      have hrest := writeChunks_ok chunks r.2 hadd
      show Ends _ (chunks.foldlM (writeChunk writable salt) r) _
      cases hres' : chunks.foldlM (writeChunk writable salt) r with
      | error repo' =>
        obtain ⟨hg', hadd'⟩ := hrest.of_error hres'
        exact ⟨hg.trans hg', hadd'⟩
      | ok r' =>
        obtain ⟨hg', hadd', new, hr', hall⟩ := hrest.of_ok hres'
        exact ⟨hg.trans hg', hadd', hash :: new, by simp [hr', hr], .cons (hholds.grows hg') hall⟩

end Objects

/-! ### Checkpoints -/

def durableTables (snapshot : Tables) : List (Nat × TableState) :=
  snapshot.toList.filter (!·.2.schema.isEphemeral)

section Checkpoints

variable {A : Artifacts} {repo repo' : CheckpointRepo A} {snapshot : Tables}

/-- A part of a manifest describes the table, and its chunks are there. -/
structure SavedTable (repo : CheckpointRepo A) (m : TableManifest A.Hash) (p : Nat × TableState) : Prop where
  tableId : m.tableId = p.1
  tableName : m.tableName = p.2.schema.name
  highWater : m.autoIncHighWater = p.2.autoIncHighWater
  rowCount : m.rowCount = p.2.rowCount
  chunks : ∃ chunks, List.Forall₂ repo.Holds m.chunks chunks ∧
    chunks.flatten = p.2.rows.toList.map fun q => LogValue.rowToLog q.2

/-- The manifest is of the snapshot, and every object it names is there. -/
def Intact (repo : CheckpointRepo A) (m : Manifest A.Hash) (snapshot : Tables) : Prop :=
  List.Forall₂ repo.SavedTable m.tables (durableTables snapshot)

theorem Intact.of_objects {m : Manifest A.Hash} (h : repo.Intact m snapshot)
    (hobjects : ∀ hash ∈ m.hashes, repo'.objects hash = repo.objects hash) : repo'.Intact m snapshot := by
  unfold Intact at h ⊢
  rw [forall₂_iff_zip] at h ⊢
  refine ⟨h.1, fun {t p} hmem => ?_⟩
  obtain ⟨hid, hname, hmark, hcount, chunks, hholds, hflat⟩ := h.2 hmem
  refine ⟨hid, hname, hmark, hcount, chunks, ?_, hflat⟩
  rw [forall₂_iff_zip] at hholds ⊢
  refine ⟨hholds.1, fun {hash chunk} hchunk => ?_⟩
  obtain ⟨bytes, hobj, hrest⟩ := hholds.2 hchunk
  have hhash : hash ∈ m.hashes := mem_flatMap.mpr ⟨t, (of_mem_zip hmem).1, (of_mem_zip hchunk).1⟩
  exact ⟨bytes, (hobjects hash hhash).trans hobj, hrest⟩

theorem SavedTable.grows {m : TableManifest A.Hash} {p : Nat × TableState} (h : repo.SavedTable m p) (hg : repo.Grows repo') :
    repo'.SavedTable m p := by
  obtain ⟨hid, hname, hmark, hcount, chunks, hholds, hflat⟩ := h
  exact ⟨hid, hname, hmark, hcount, chunks, hholds.imp fun _ _ hone => hone.grows hg, hflat⟩

theorem Intact.grows {m : Manifest A.Hash} (h : repo.Intact m snapshot) (hg : repo.Grows repo') : repo'.Intact m snapshot :=
  Forall₂.imp (fun _ _ hone => hone.grows hg) h

theorem Intact.present {m : Manifest A.Hash} (h : repo.Intact m snapshot) {hash : A.Hash} (hhash : hash ∈ m.hashes) :
    (repo.objects hash).isSome = true := by
  obtain ⟨t, ht, hhash⟩ := mem_flatMap.mp hhash
  obtain ⟨p, -, hsaved⟩ := forall₂_exists_right h ht
  obtain ⟨chunks, hholds, -⟩ := hsaved.chunks
  obtain ⟨rows, -, bytes, hobj, -⟩ := forall₂_exists_right hholds hhash
  simp [hobj]

theorem writeTables_ok (writable : Bytes → Bool) (salt : Nat) : ∀ (tables : List (Nat × TableState)) {repo : CheckpointRepo A}
    (ms : List (TableManifest A.Hash)), repo.Addressed →
    Ends (fun repo' => repo.Grows repo' ∧ repo'.Addressed) (tables.foldlM (writeTable writable salt) (repo, ms))
      (fun r => repo.Grows r.1 ∧ r.1.Addressed ∧ ∃ new, r.2 = ms ++ new ∧
        List.Forall₂ r.1.SavedTable new (tables.filter (!·.2.schema.isEphemeral)))
  | [], repo, ms, hrepo => ⟨Grows.refl repo, hrepo, [], by simp, .nil⟩
  | p :: tables, repo, ms, hrepo => by
    rw [List.foldlM_cons]
    unfold writeTable
    split
    · rename_i heph
      rw [List.filter_cons_of_neg (by simpa using heph)]
      exact writeTables_ok writable salt tables ms hrepo
    · rename_i hdur
      rw [List.filter_cons_of_pos (by simpa using hdur)]
      have hchunks := writeChunks_ok writable salt (chunkRows A.crc32 [] p.2.rows.toList) [] hrepo
      cases hres : (chunkRows A.crc32 [] p.2.rows.toList).foldlM (writeChunk writable salt) (repo, []) with
      | error repo' => exact hchunks.of_error hres
      | ok r =>
        obtain ⟨hg, hadd, hashes, hr, hholds⟩ := hchunks.of_ok hres
        have hsaved : r.1.SavedTable ⟨p.1, p.2.schema.name, p.2.autoIncHighWater, p.2.rowCount, r.2⟩ p := by
          refine ⟨rfl, rfl, rfl, rfl, _, ?_, flatten_chunkRows A.crc32 [] _⟩
          rw [hr]
          exact hholds
        have hrest := writeTables_ok writable salt tables
          (ms ++ [⟨p.1, p.2.schema.name, p.2.autoIncHighWater, p.2.rowCount, r.2⟩]) hadd
        show Ends _ (tables.foldlM (writeTable writable salt)
          (r.1, ms ++ [⟨p.1, p.2.schema.name, p.2.autoIncHighWater, p.2.rowCount, r.2⟩])) _
        cases hres' : tables.foldlM (writeTable writable salt)
            (r.1, ms ++ [⟨p.1, p.2.schema.name, p.2.autoIncHighWater, p.2.rowCount, r.2⟩]) with
        | error repo' =>
          obtain ⟨hg', hadd'⟩ := hrest.of_error hres'
          exact ⟨hg.trans hg', hadd'⟩
        | ok r' =>
          obtain ⟨hg', hadd', new, hr', hall⟩ := hrest.of_ok hres'
          exact ⟨hg.trans hg', hadd', _ :: new, by simp [hr'], .cons (hsaved.grows hg') hall⟩

/-- **A checkpoint write** that succeeds leaves an intact manifest newer than the others of the shard; one that
fails leaves the manifests and no fewer objects. -/
theorem write_ok (writable : Bytes → Bool) (manifestWritten : Bool) (salt : Nat) (snapshot : Tables)
    (shardId lastTxId : Nat) (hrepo : repo.Addressed) :
    Ends (fun repo' => repo.Grows repo' ∧ repo'.Addressed)
      (write writable manifestWritten salt repo snapshot shardId lastTxId)
      (fun repo' => lastTxId ≠ 0 ∧ (∀ tx ∈ (repo.list shardId).getLast?, tx < lastTxId) ∧
        ∃ mid m, repo.Grows mid ∧ mid.Addressed ∧ m.shardId = shardId ∧ m.lastTxId = lastTxId ∧ mid.Intact m snapshot ∧
          repo' = { mid with
            manifests := update mid.manifests shardId ((mid.manifests shardId).insert lastTxId (some m)) }) := by
  unfold write
  split
  · exact ⟨Grows.refl repo, hrepo⟩
  rename_i hne
  split
  · exact ⟨Grows.refl repo, hrepo⟩
  rename_i hnewest
  have htables := writeTables_ok writable salt snapshot.toList [] hrepo
  cases hres : snapshot.toList.foldlM (writeTable writable salt) (repo, []) with
  | error repo' => exact htables.of_error hres
  | ok r =>
    obtain ⟨hg, hadd, new, hr, hall⟩ := htables.of_ok hres
    cases manifestWritten with
    | false => exact ⟨hg, hadd⟩
    | true =>
      refine ⟨hne, fun tx htx => ?_, r.1, ⟨shardId, lastTxId, r.2⟩, hg, hadd, rfl, rfl, ?_, rfl⟩
      · rw [mem_def] at htx
        simpa [htx] using hnewest
      · rw [hr]
        exact hall

end Checkpoints

/-! ### Loading -/

theorem mapM_flatten {α β : Type} (f : α → Option β) : ∀ chunks : List (List α),
    chunks.flatten.mapM f = (chunks.mapM fun (chunk : List α) => chunk.mapM f).map List.flatten
  | [] => rfl
  | chunk :: chunks => by
    rw [List.flatten_cons, List.mapM_append, mapM_flatten f chunks, List.mapM_cons]
    cases chunk.mapM f <;> cases chunks.mapM (fun chunk => chunk.mapM f) <;> rfl

theorem mapM_toRow_toOption : ∀ rows : List Row,
    (rows.map LogValue.rowToLog).mapM (fun values => (LogValue.toRow values).toOption) = some rows
  | [] => rfl
  | row :: rows => by
    rw [List.map_cons, List.mapM_cons, mapM_toRow_toOption rows, toRow_rowToLog]
    rfl

section Load

variable {A : Artifacts} {repo : CheckpointRepo A} {snapshot : Tables}

theorem mapM_loadChunk {hashes : List A.Hash} {chunks : List (List (List LogValue))} (h : List.Forall₂ repo.Holds hashes chunks) :
    hashes.mapM repo.loadChunk =
      chunks.mapM fun (chunk : List (List LogValue)) => chunk.mapM fun values => (LogValue.toRow values).toOption := by
  induction h with
  | nil => rfl
  | cons hone _ ih =>
    obtain ⟨bytes, hobj, hhash, hdec⟩ := hone
    rw [mapM_cons, mapM_cons, ih]
    simp [loadChunk, hobj, hhash, hdec]

/-- The table as a checkpoint restores it. -/
def loaded (p : Nat × TableState) : LoadedTable :=
  ⟨p.1, p.2.schema.name, p.2.autoIncHighWater, p.2.rows.toList.map Prod.snd⟩

theorem SavedTable.load {m : TableManifest A.Hash} {p : Nat × TableState} (h : repo.SavedTable m p)
    (hcount : p.2.rowCount = p.2.rows.toList.length) : repo.loadTable m = some (loaded p) := by
  obtain ⟨chunks, hholds, hflat⟩ := h.chunks
  have hrows : (m.chunks.mapM repo.loadChunk).map flatten = some (p.2.rows.toList.map Prod.snd) := by
    rw [mapM_loadChunk hholds, ← mapM_flatten, hflat, ← mapM_toRow_toOption (p.2.rows.toList.map Prod.snd), List.map_map]
    rfl
  obtain ⟨rowss, hrowss, hrows⟩ := map_eq_some_iff.mp hrows
  unfold loadTable
  rw [hrowss, bind_eq_bind, bind_some, hrows, if_pos (by simp [h.rowCount, hcount]), h.tableId, h.tableName,
    h.highWater]
  rfl

/-- **A checkpoint whose objects are there loads as it was saved.** -/
theorem Intact.load {m : Manifest A.Hash} {shardId lastTxId : Nat} (h : repo.Intact m snapshot)
    (hfile : (repo.manifests shardId)[lastTxId]? = some (some m)) (hshard : m.shardId = shardId) (htx : m.lastTxId = lastTxId)
    (hcount : ∀ p ∈ durableTables snapshot, p.2.rowCount = p.2.rows.toList.length) :
    repo.load shardId lastTxId = some ⟨lastTxId, (durableTables snapshot).map loaded⟩ := by
  have htables : ∀ {ms : List (TableManifest A.Hash)} {ps : List (Nat × TableState)}, Forall₂ repo.SavedTable ms ps →
      (∀ p ∈ ps, p.2.rowCount = p.2.rows.toList.length) → ms.mapM repo.loadTable = some (ps.map loaded) := by
    intro ms ps hsaved hcount
    induction hsaved with
    | nil => rfl
    | cons hone _ ih =>
      rw [mapM_cons, hone.load (hcount _ (by simp)), ih fun p hp => hcount p (by simp [hp])]
      rfl
  unfold CheckpointRepo.load
  rw [hfile, join_some, bind_eq_bind, bind_some, if_pos ⟨hshard, htx⟩, htables h hcount]
  rfl

end Load

/-! ### Pruning -/

section Prune

variable {A : Artifacts} {repo : CheckpointRepo A} {shardId : Nat}

theorem mem_list {tx : Nat} : tx ∈ repo.list shardId ↔ ((repo.manifests shardId)[tx]?).isSome = true := by
  rw [list, ExtTreeMap.mem_keys, ExtTreeMap.mem_iff_isSome_getElem?]

theorem manifests_remove (txs : List Nat) (shard tx : Nat) :
    ((repo.remove shardId txs).manifests shard)[tx]? =
      if shard = shardId ∧ tx ∈ txs then none else (repo.manifests shard)[tx]? := by
  show ((update repo.manifests shardId (txs.foldl erase (repo.manifests shardId))) shard)[tx]? = _
  by_cases hs : shard = shardId
  · subst hs
    rw [update_self, OrdMap.getElem?_foldl_erase]
    simp
  · rw [update_of_ne hs, if_neg (by simp [hs])]

theorem mem_of_mapM_eq_some {α β : Type} {f : α → Option β} {x : α} {y : β} (hy : f x = some y) :
    ∀ {xs : List α} {ys : List β}, xs.mapM f = some ys → x ∈ xs → y ∈ ys
  | a :: xs, ys, h, hx => by
    rw [List.mapM_cons] at h
    obtain ⟨b, hb, h⟩ := bind_eq_some_iff.mp h
    obtain ⟨bs, hbs, h⟩ := bind_eq_some_iff.mp h
    cases h
    rcases mem_cons.mp hx with rfl | hx
    · rw [some.inj (hy.symm.trans hb)]
      simp
    · exact mem_cons_of_mem _ (mem_of_mapM_eq_some hy hbs hx)

theorem mem_referenced {hashes : List A.Hash} {tx : Nat} {m : Manifest A.Hash} (h : repo.referenced shardId = some hashes)
    (hm : (repo.manifests shardId)[tx]? = some (some m)) {hash : A.Hash} (hhash : hash ∈ m.hashes) : hash ∈ hashes := by
  obtain ⟨ms, hms, h⟩ := bind_eq_some_iff.mp h
  cases h
  have htx : tx ∈ repo.list shardId := mem_list.mpr (by simp [hm])
  exact mem_flatMap.mpr ⟨m, mem_of_mapM_eq_some (by simp [hm]) hms htx, hhash⟩

/-- What pruning may do to a repository: it takes manifests of the shard away, not the newest, and objects that
no manifest left to the shard names. -/
structure Pruned (shardId : Nat) (repo repo' : CheckpointRepo A) : Prop where
  addressed : repo.Addressed → repo'.Addressed
  others : ∀ shard, shard ≠ shardId → repo'.manifests shard = repo.manifests shard
  manifests : ∀ (tx : Nat) m, (repo'.manifests shardId)[tx]? = some m → (repo.manifests shardId)[tx]? = some m
  objects : ∀ (tx : Nat) m, (repo'.manifests shardId)[tx]? = some (some m) → ∀ hash ∈ m.hashes,
    repo'.objects hash = repo.objects hash
  newest : ∀ tx ∈ (repo.list shardId).getLast?, tx ∈ repo'.list shardId

theorem Pruned.refl (shardId : Nat) (repo : CheckpointRepo A) : Pruned shardId repo repo :=
  ⟨id, fun _ _ => rfl, fun _ _ h => h, fun _ _ _ _ _ => rfl, fun _ htx => mem_of_getLast? htx⟩

theorem pruned_remove {txs : List Nat} (htxs : ∀ tx ∈ (repo.list shardId).getLast?, tx ∉ txs) :
    Pruned shardId repo (repo.remove shardId txs) := by
  refine ⟨fun h => h, fun shard hne => ?_, fun tx m hm => ?_, fun _ _ _ _ _ => rfl, fun tx htx => ?_⟩
  · exact update_of_ne hne _ _
  · rw [manifests_remove] at hm
    split at hm
    · cases hm
    · exact hm
  · rw [mem_list, manifests_remove, if_neg (by simp [htxs tx htx])]
    exact mem_list.mp (mem_of_getLast? htx)

/-- The newest checkpoint is not among the oldest ones that go. -/
theorem newest_not_old {retention tx : Nat} (hretention : 2 ≤ retention)
    (htx : (repo.list shardId).getLast? = some tx) :
    tx ∉ (repo.list shardId).take ((repo.list shardId).length - retention) := by
  obtain ⟨init, hinit⟩ := getLast?_eq_some_iff.mp htx
  have hnodup : (repo.list shardId).Nodup := by
    rw [list, ← map_fst_toList_eq_keys]
    exact OrdMap.nodup_keys_toList _
  rw [hinit, nodup_append] at hnodup
  rw [hinit, length_append, length_singleton, take_append_of_le_length (by omega)]
  intro hmem
  exact hnodup.2.2 tx (mem_of_mem_take hmem) tx (by simp) rfl

/-- **Pruning keeps the objects of the shard's other checkpoints.** -/
theorem prune_pruned (stuck : Nat → Bool) (left : A.Hash → Bool) (repo : CheckpointRepo A) (shardId retention : Nat) :
    Pruned shardId repo (repo.prune stuck left shardId retention) := by
  unfold prune
  dsimp only
  split
  · exact Pruned.refl shardId repo
  rename_i hcond
  rw [not_or, Nat.not_lt, Nat.not_le] at hcond
  generalize hremoved : takeWhile (fun x => !stuck x) _ = removed
  have hold : ∀ tx ∈ removed, tx ∈ (repo.list shardId).take ((repo.list shardId).length - retention) := by
    intro tx htx
    rw [← hremoved] at htx
    exact (mem_filter.mp (takeWhile_subset _ htx)).1
  have hpruned : Pruned shardId repo (repo.remove shardId removed) := pruned_remove fun tx htx hmem =>
    newest_not_old hcond.1 htx (hold tx hmem)
  split
  · exact hpruned
  split
  · exact hpruned
  rename_i hashes href
  refine ⟨fun hrepo hash bytes hb => ?_, hpruned.others, hpruned.manifests, fun tx m hm hash hhash => ?_, hpruned.newest⟩
  · dsimp only at hb
    split at hb
    · exact hpruned.addressed hrepo hash bytes hb
    · cases hb
  · have hmem := mem_referenced href hm hhash
    show (if hashes.contains hash || left hash then _ else none) = _
    rw [if_pos (by simp [hmem])]
    exact hpruned.objects tx m hm hash hhash

end Prune

end CheckpointRepo

end Fluxum
