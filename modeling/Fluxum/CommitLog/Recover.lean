/-
# Opening a log

A shard's segment files in name order, `replay` over them, and the `recover`
of `commitlog/writer.rs`, which repairs a torn tail before the writer resumes
(`commitlog/segment.rs`, `commitlog/replay.rs`).
-/
import Fluxum.CommitLog.Segment

namespace Fluxum
namespace CommitLog

open Bytes List Except

/-- The segment files of a shard, by the first transaction id in their names. Names are unique and
the files are listed in name order, as `list_segments` does. -/
structure SegmentDir where
  files : List (Nat × Bytes)
  sorted : (files.map Prod.fst).Pairwise (· < ·)

variable {pre : List (Nat × Bytes)} {name : Nat}

namespace SegmentDir

def empty : SegmentDir := ⟨[], .nil⟩

def names (d : SegmentDir) : List Nat := d.files.map Prod.fst

def update (d : SegmentDir) (name : Nat) (f : Bytes → Bytes) : SegmentDir where
  files := d.files.map fun x => if x.1 = name then (x.1, f x.2) else x
  sorted := by
    have : (fun x : Nat × Bytes => (if x.1 = name then (x.1, f x.2) else x).1) = Prod.fst := by
      funext x
      split <;> rfl
    simpa only [List.map_map, Function.comp_def, this] using d.sorted

def append (d : SegmentDir) (name : Nat) (bytes : Bytes) : SegmentDir := d.update name (· ++ bytes)

def truncate (d : SegmentDir) (name len : Nat) : SegmentDir := d.update name (·.take len)

/-- Rename a file away. -/
def remove (d : SegmentDir) (name : Nat) : SegmentDir where
  files := d.files.filter (·.1 ≠ name)
  sorted := d.sorted.sublist (List.filter_sublist.map _)

def create (d : SegmentDir) (name : Nat) (bytes : Bytes) : Option SegmentDir :=
  if name ∈ d.names then none
  else some
    { files := d.files.filter (·.1 < name) ++ (name, bytes) :: d.files.filter (name < ·.1)
      sorted := by
        rw [List.map_append, List.map_cons, List.pairwise_append, List.pairwise_cons]
        refine ⟨d.sorted.sublist (List.filter_sublist.map _),
          ⟨by simp, d.sorted.sublist (List.filter_sublist.map _)⟩, ?_⟩
        intro a ha b hb
        simp only [List.mem_map, List.mem_filter, decide_eq_true_eq] at ha
        obtain ⟨x, ⟨-, hx⟩, rfl⟩ := ha
        rcases List.mem_cons.mp hb with rfl | hb
        · exact hx
        · simp only [List.mem_map, List.mem_filter, decide_eq_true_eq] at hb
          obtain ⟨y, ⟨-, hy⟩, rfl⟩ := hb
          exact lt_trans hx hy }

variable {bytes : Bytes} {d : SegmentDir}

section

variable (h : d.files = pre ++ [(name, bytes)])
include h

theorem lt_of_mem_pre : ∀ x ∈ pre, x.1 < name := by
  have hsorted := d.sorted
  rw [h, map_append, pairwise_append] at hsorted
  intro x hx
  exact hsorted.2.2 x.1 (mem_map_of_mem hx) name (by simp)

theorem files_update_last (f : Bytes → Bytes) : (d.update name f).files = pre ++ [(name, f bytes)] := by
  have hlt := lt_of_mem_pre h
  change d.files.map _ = _
  rw [h, map_append]
  congr 1
  · exact (map_congr_left (g := id) fun x hx => if_neg (hlt x hx).ne).trans (map_id pre)
  · simp

theorem files_remove_last : (d.remove name).files = pre := by
  have hlt := lt_of_mem_pre h
  change d.files.filter _ = _
  rw [h, filter_append, filter_eq_self.mpr (fun x hx => by simpa using (hlt x hx).ne)]
  simp

end

theorem files_create_max {d d' : SegmentDir} (hmax : ∀ n ∈ d.names, n ≤ name)
    (h : d.create name bytes = some d') : d'.files = d.files ++ [(name, bytes)] := by
  unfold create at h
  split at h
  · simp at h
  rename_i hnew
  cases h
  have hlt : ∀ x ∈ d.files, x.1 < name := by
    intro x hx
    have hmem : x.1 ∈ d.names := mem_map_of_mem hx
    exact lt_of_le_of_ne (hmax _ hmem) (fun heq => hnew (heq ▸ hmem))
  dsimp only
  rw [filter_eq_self.mpr (fun x hx => by simpa using hlt x hx),
    filter_eq_nil_iff.mpr (fun x hx => by have := hlt x hx; simp; omega)]

end SegmentDir

/-! ### Replay -/

/-- What a segment inherits from the segments before it. -/
structure Carry where
  prevTx : Option Nat
  minEpoch : Nat

def Carry.init : Carry := ⟨none, 0⟩

/-- Why a segment is corrupt. -/
inductive SegmentFault where
  | header (reason : HeaderFault)
  | entry (reason : FaultReason)
deriving DecidableEq, Repr

/-- Where replay stopped early. -/
structure Corruption where
  segment : Nat
  offset : Nat
  reason : SegmentFault
deriving DecidableEq, Repr

section

variable (C : Codec) (shardId : Nat)

/-- Replay the segments: the entries visited, and where it stopped early. -/
def replayLoop : Carry → List (Nat × Bytes) → List (Nat × TxRecord) × Option Corruption
  | _, [] => ([], none)
  | c, (name, buf) :: rest =>
    match scanSegmentBytes C shardId c.prevTx c.minEpoch buf with
    | .headerCorrupt reason => ([], some ⟨name, 0, .header reason⟩)
    | .scanned scan (some fault) => (scan.visited, some ⟨name, fault.offset, .entry fault.reason⟩)
    | .scanned scan none =>
      let (visited, corruption) := replayLoop ⟨scan.lastTx.or c.prevTx, max scan.maxEpoch c.minEpoch⟩ rest
      (scan.visited ++ visited, corruption)

def replay (d : SegmentDir) : List (Nat × TxRecord) × Option Corruption := replayLoop C shardId .init d.files

/-! ### Recover -/

structure QuarantineReport where
  segment : Nat
  fromOffset : Nat
  bytes : Nat
  reason : SegmentFault
deriving DecidableEq, Repr

structure RecoveryReport where
  lastTxId : Option Nat
  epoch : Nat
  segments : Nat
  quarantine : Option QuarantineReport
deriving DecidableEq, Repr

/-- The result of `recover`: its report, the file to resume in with its valid length, the directory
it leaves, and the entries it visited. -/
structure Recovery where
  report : RecoveryReport
  tail : Option (Nat × Nat)
  dir : SegmentDir
  visited : List (Nat × TxRecord)

/-- Corruption in a segment other than the tail: the log does not open. -/
structure NonTailCorruption where
  segment : Nat
  reason : SegmentFault
deriving DecidableEq, Repr

/-- The loop of `recover`. `r` holds the report so far, the tail so far and the directory. -/
def recoverLoop : Carry → Recovery → List (Nat × Bytes) → Except NonTailCorruption Recovery
  | _, r, [] => .ok r
  | c, r, (name, buf) :: rest =>
    match scanSegmentBytes C shardId c.prevTx c.minEpoch buf with
    | .headerCorrupt reason =>
      if rest ≠ [] then .error ⟨name, .header reason⟩
      else .ok
        { r with
          -- the tail stays on the previous segment
          dir := r.dir.remove name
          report := { r.report with
            segments := r.report.segments - 1
            quarantine := some ⟨name, 0, buf.length, .header reason⟩ } }
    | .scanned scan fault =>
      let c' : Carry := ⟨scan.lastTx.or c.prevTx, scan.maxEpoch⟩
      let r' : Recovery :=
        { report := { r.report with lastTxId := c'.prevTx, epoch := max r.report.epoch scan.maxEpoch }
          tail := some (name, scan.validLen)
          dir := r.dir
          visited := r.visited ++ scan.visited }
      match fault with
      | none => recoverLoop c' r' rest
      | some f =>
        if rest ≠ [] then .error ⟨name, .entry f.reason⟩
        else .ok
          { r' with
            dir := r.dir.truncate name f.offset
            report := { r'.report with
              quarantine := some ⟨name, f.offset, (buf.drop f.offset).length, .entry f.reason⟩ } }

def recover (d : SegmentDir) : Except NonTailCorruption Recovery :=
  recoverLoop C shardId .init ⟨⟨none, 0, d.files.length, none⟩, none, d, []⟩ d.files

/-! ### Clean segments -/

/-- Segments that scan without a fault, from the carry `c` to the carry `c'`, with the entries visited. -/
inductive CleanSegs : Carry → List (Nat × Bytes) → List (Nat × TxRecord) → Carry → Prop where
  | nil (c) : CleanSegs c [] [] c
  | cons {c name buf rest scan visited c'} (h : scanSegmentBytes C shardId c.prevTx c.minEpoch buf = .scanned scan none)
      (ht : CleanSegs ⟨scan.lastTx.or c.prevTx, scan.maxEpoch⟩ rest visited c') :
      CleanSegs c ((name, buf) :: rest) (scan.visited ++ visited) c'

/-- The carry after segments that scan without a fault. -/
def carryOf : Carry → List (Nat × Bytes) → Carry
  | c, [] => c
  | c, (_, buf) :: rest =>
    match scanSegmentBytes C shardId c.prevTx c.minEpoch buf with
    | .headerCorrupt _ => c
    | .scanned scan _ => carryOf ⟨scan.lastTx.or c.prevTx, scan.maxEpoch⟩ rest

/-- The header of the last segment, if it is readable, is not of an older epoch than the segments
before it. -/
def TailEpochOk (d : SegmentDir) : Prop :=
  ∀ tail ∈ d.files.getLast?,
    match decodeSegmentHeader C tail.2 with
    | .ok epoch => (carryOf C shardId .init d.files.dropLast).minEpoch ≤ epoch
    | .error _ => True

instance (d : SegmentDir) : Decidable (TailEpochOk C shardId d) := by
  unfold TailEpochOk
  have : ∀ tail : Nat × Bytes, Decidable (match decodeSegmentHeader C tail.2 with
      | .ok epoch => (carryOf C shardId .init d.files.dropLast).minEpoch ≤ epoch
      | .error _ => True) := by
    intro tail
    split <;> infer_instance
  infer_instance

variable {C shardId}

variable {xs : List (Nat × Bytes)} {prevTx : Option Nat} {minEpoch : Nat} {d : SegmentDir}
variable {us : List (Nat × TxRecord)} {buf : Bytes} {scan : SegmentScan} {r : Recovery}

theorem CleanSegs.carryOf_eq {c c' : Carry} (h : CleanSegs C shardId c xs us c') :
    carryOf C shardId c xs = c' := by
  induction h with
  | nil => rfl
  | cons hscan _ ih =>
    rw [carryOf, hscan]
    exact ih

theorem CleanSegs.append {c c' c'' : Carry} {ys : List (Nat × Bytes)} {us vs : List (Nat × TxRecord)}
    (h : CleanSegs C shardId c xs us c') (h' : CleanSegs C shardId c' ys vs c'') :
    CleanSegs C shardId c (xs ++ ys) (us ++ vs) c'' := by
  induction h with
  | nil => exact h'
  | cons hscan _ ih =>
    rw [cons_append, append_assoc]
    exact .cons hscan (ih h')

theorem CleanSegs.single {c : Carry}
    (h : scanSegmentBytes C shardId c.prevTx c.minEpoch buf = .scanned scan none) :
    CleanSegs C shardId c [(name, buf)] scan.visited ⟨scan.lastTx.or c.prevTx, scan.maxEpoch⟩ := by
  rw [← append_nil scan.visited]
  exact .cons h (.nil _)

theorem minEpoch_le_maxEpoch {fault : Option ScanFault}
    (h : scanSegmentBytes C shardId prevTx minEpoch buf = .scanned scan fault) : minEpoch ≤ scan.maxEpoch := by
  unfold scanSegmentBytes at h
  split at h
  · simp at h
  rename_i headerEpoch _
  split at h
  · obtain ⟨rfl, -⟩ := ScanOutcome.scanned.inj h
    simp [startScan]
  · obtain ⟨rfl, -⟩ := ScanOutcome.scanned.inj h
    exact le_trans (le_max_right headerEpoch minEpoch) (maxEpoch_le_scanFrom (startScan prevTx _))

theorem replayLoop_append {c c' : Carry} (h : CleanSegs C shardId c xs us c') (ys : List (Nat × Bytes)) :
    replayLoop C shardId c (xs ++ ys) = (us ++ (replayLoop C shardId c' ys).1, (replayLoop C shardId c' ys).2) := by
  induction h with
  | nil => rfl
  | cons hscan _ ih =>
    have hmax := max_eq_left (minEpoch_le_maxEpoch hscan)
    rw [cons_append, replayLoop, hscan]
    dsimp only
    rw [hmax, ih, append_assoc]

theorem replay_of_clean {c : Carry} (h : CleanSegs C shardId .init d.files us c) :
    replay C shardId d = (us, none) := by
  have := replayLoop_append h []
  simpa [replay, replayLoop] using this

/-! ### Growing files -/

def ScanOutcome.visited : ScanOutcome → List (Nat × TxRecord)
  | .headerCorrupt _ => []
  | .scanned scan _ => scan.visited

theorem visited_prefix_append (prevTx : Option Nat) (minEpoch : Nat) (buf more : Bytes) :
    (scanSegmentBytes C shardId prevTx minEpoch buf).visited <+:
      (scanSegmentBytes C shardId prevTx minEpoch (buf ++ more)).visited := by
  cases hhead : decodeSegmentHeader C buf with
  | error reason => simp [scanSegmentBytes, hhead, ScanOutcome.visited]
  | ok epoch =>
    have hlen := length_of_decodeSegmentHeader C hhead
    have hhead' : decodeSegmentHeader C (buf ++ more) = .ok epoch := by
      rw [← hhead]
      exact decodeSegmentHeader_congr C hlen (by simp; omega) (take_append_of_le_length hlen)
    unfold scanSegmentBytes
    rw [hhead, hhead']
    dsimp only
    split
    · exact prefix_rfl
    -- over the longer buffer the scan gets at least to where it got before
    have hb := scanFrom_bounds C shardId buf (startScan prevTx (max epoch minEpoch)) hlen
    have := scanFrom_congr C shardId buf (buf ++ more)
      (startScan prevTx (max epoch minEpoch)) hlen (by simp; omega) (take_append_of_le_length hb.2)
    rw [this]
    exact visited_prefix_scanFrom _

theorem replayLoop_prefix_add (ys : List (Nat × Bytes)) : ∀ (xs : List (Nat × Bytes)) (c : Carry),
    (replayLoop C shardId c xs).1 <+: (replayLoop C shardId c (xs ++ ys)).1
  | [], c => by simp [replayLoop]
  | (name, buf) :: rest, c => by
    rw [List.cons_append, replayLoop, replayLoop]
    split
    · exact List.prefix_rfl
    · exact List.prefix_rfl
    · exact (List.prefix_append_right_inj _).mpr (replayLoop_prefix_add ys rest _)

theorem replayLoop_prefix_append (name : Nat) (buf more : Bytes) : ∀ (pre : List (Nat × Bytes)) (c : Carry),
    (replayLoop C shardId c (pre ++ [(name, buf)])).1 <+:
      (replayLoop C shardId c (pre ++ [(name, buf ++ more)])).1
  | [], c => by
    have hvis : (replayLoop C shardId c [(name, buf)]).1 =
        (scanSegmentBytes C shardId c.prevTx c.minEpoch buf).visited := by
      rw [replayLoop]
      split <;> simp [*, ScanOutcome.visited, replayLoop]
    rw [nil_append, nil_append, hvis]
    refine (visited_prefix_append _ _ _ more).trans ?_
    unfold replayLoop
    split <;> simp [*, ScanOutcome.visited]
  | (n, b) :: rest, c => by
    rw [cons_append, cons_append, replayLoop, replayLoop]
    split
    · exact prefix_rfl
    · exact prefix_rfl
    · exact (prefix_append_right_inj _).mpr (replayLoop_prefix_append name buf more rest _)

/-- The file to resume in after clean segments. -/
def tailOf (tail : Option (Nat × Nat)) (xs : List (Nat × Bytes)) : Option (Nat × Nat) :=
  (xs.getLast?.map fun x => (x.1, x.2.length)).or tail

theorem validLen_of_scanned
    (h : scanSegmentBytes C shardId prevTx minEpoch buf = .scanned scan none) : scan.validLen = buf.length := by
  unfold scanSegmentBytes at h
  split at h
  · simp at h
  rename_i headerEpoch hhead
  dsimp only at h
  split at h
  · simp at h
  · obtain ⟨rfl, hr⟩ := ScanOutcome.scanned.inj h
    have hlen : segmentHeaderLen ≤ buf.length := length_of_decodeSegmentHeader C hhead
    exact validLen_of_clean _ hlen (by simpa using hr)

theorem recoverLoop_append {c c' : Carry} (h : CleanSegs C shardId c xs us c')
    (r : Recovery) (hlast : r.report.lastTxId = c.prevTx) (hepoch : r.report.epoch = c.minEpoch)
    (ys : List (Nat × Bytes)) : recoverLoop C shardId c r (xs ++ ys) = recoverLoop C shardId c'
      ⟨{ r.report with lastTxId := c'.prevTx, epoch := c'.minEpoch }, tailOf r.tail xs, r.dir, r.visited ++ us⟩ ys := by
  induction h generalizing r with
  | nil c =>
    rw [← hlast, ← hepoch]
    simp [tailOf]
  | @cons c name buf rest scan visited c' hscan _ ih =>
    rw [cons_append, recoverLoop, hscan]
    dsimp only
    rw [ih _ rfl (by rw [hepoch]; exact max_eq_right (minEpoch_le_maxEpoch hscan))]
    congr 2
    · cases rest with
      | nil => simp [tailOf, validLen_of_scanned hscan]
      | cons y ys =>
        rw [tailOf, tailOf, getLast?_cons_cons, getLast?_eq_some_getLast (cons_ne_nil y ys)]
        rfl
    · exact append_assoc ..

/-! ### What recovery leaves -/

/-- The scan of a segment whose header is readable and not of an older epoch. -/
theorem scanSegmentBytes_of_header {epoch : Nat} (hhead : decodeSegmentHeader C buf = .ok epoch)
    (hmin : minEpoch ≤ epoch) : scanSegmentBytes C shardId prevTx minEpoch buf =
      .scanned (scanFrom C shardId buf (startScan prevTx epoch)).1
        ((scanFrom C shardId buf (startScan prevTx epoch)).2.map
          (⟨(scanFrom C shardId buf (startScan prevTx epoch)).1.validLen, ·⟩)) := by
  unfold scanSegmentBytes
  rw [hhead]
  dsimp only
  rw [if_neg (by omega), max_eq_left hmin]

/-- A segment scanned without a fault has a readable header that is not of an older epoch. -/
theorem header_of_scanned (h : scanSegmentBytes C shardId prevTx minEpoch buf = .scanned scan none) :
    ∃ epoch, decodeSegmentHeader C buf = .ok epoch ∧ minEpoch ≤ epoch ∧
      scanFrom C shardId buf (startScan prevTx epoch) = (scan, none) := by
  cases hhead : decodeSegmentHeader C buf with
  | error reason => simp [scanSegmentBytes, hhead] at h
  | ok epoch =>
    have hmin : minEpoch ≤ epoch := by
      by_contra hlt
      simp [scanSegmentBytes, hhead, not_le.mp hlt] at h
    rw [scanSegmentBytes_of_header hhead hmin] at h
    obtain ⟨hs, hr⟩ := ScanOutcome.scanned.inj h
    exact ⟨epoch, rfl, hmin, Prod.ext hs (by simpa using hr)⟩

/-- Cut back to its valid part, a segment scans to the same point without a fault. -/
theorem scanSegmentBytes_take {epoch : Nat} {fault : Option ScanFault}
    (hhead : decodeSegmentHeader C buf = .ok epoch) (hmin : minEpoch ≤ epoch)
    (h : scanSegmentBytes C shardId prevTx minEpoch buf = .scanned scan fault) :
    scanSegmentBytes C shardId prevTx minEpoch (buf.take scan.validLen) = .scanned scan none ∧
      scan.validLen ≤ buf.length ∧ ∀ f ∈ fault, f.offset = scan.validLen := by
  have hlen := length_of_decodeSegmentHeader C hhead
  rw [scanSegmentBytes_of_header hhead hmin] at h
  obtain ⟨rfl, rfl⟩ := ScanOutcome.scanned.inj h
  have hb := scanFrom_bounds C shardId buf (startScan prevTx epoch) hlen
  generalize hscan : (scanFrom C shardId buf (startScan prevTx epoch)).1 = scan at hb
  have hb₁ : segmentHeaderLen ≤ scan.validLen := hb.1
  have htake : (buf.take scan.validLen).take scan.validLen = buf.take scan.validLen := by simp
  have hlen' : scan.validLen ≤ (buf.take scan.validLen).length := by simp [hb.2]
  have hhead' : decodeSegmentHeader C (buf.take scan.validLen) = .ok epoch := by
    rw [← hhead]
    exact decodeSegmentHeader_congr C hlen (hb₁.trans hlen') (take_congr htake hb₁)
  have hgo := scanFrom_congr C shardId buf (buf.take scan.validLen)
    (startScan prevTx epoch) hlen (by rw [hscan]; exact hlen') (by rw [hscan]; exact htake)
  rw [hscan, scanFrom_end scan (by simp [hb.2])] at hgo
  refine ⟨?_, hb.2, ?_⟩
  · rw [scanSegmentBytes_of_header hhead' hmin, hgo]
    rfl
  · intro f hf
    obtain ⟨reason, -, rfl⟩ := Option.map_eq_some_iff.mp hf
    rfl

theorem CleanSegs.of_append {c c'' : Carry} {ys : List (Nat × Bytes)} :
    ∀ {xs : List (Nat × Bytes)}, CleanSegs C shardId c (xs ++ ys) us c'' →
      ∃ us' vs c', CleanSegs C shardId c xs us' c' ∧ CleanSegs C shardId c' ys vs c'' ∧ us = us' ++ vs := by
  intro xs
  induction xs generalizing c us with
  | nil => exact fun h => ⟨[], us, c, .nil c, h, rfl⟩
  | cons x xs ih =>
    intro h
    cases h with
    | cons hscan ht =>
      obtain ⟨us', vs, c', h₁, h₂, rfl⟩ := ih ht
      exact ⟨_, vs, c', .cons hscan h₁, h₂, (append_assoc ..).symm⟩

theorem CleanSegs.last {c c'' : Carry} (h : CleanSegs C shardId c (pre ++ [(name, buf)]) us c'') :
    ∃ us' c' epoch scan, CleanSegs C shardId c pre us' c' ∧ decodeSegmentHeader C buf = .ok epoch ∧
      c'.minEpoch ≤ epoch ∧ scanFrom C shardId buf (startScan c'.prevTx epoch) = (scan, none) ∧
      us = us' ++ scan.visited ∧ c'' = ⟨scan.lastTx.or c'.prevTx, scan.maxEpoch⟩ := by
  obtain ⟨us', vs, c', hpre, hlast, rfl⟩ := h.of_append
  cases hlast with
  | @cons _ _ _ _ scan _ _ hscan ht =>
    cases ht
    obtain ⟨epoch, hhead, hmin, hgo⟩ := header_of_scanned hscan
    exact ⟨us', c', epoch, scan, hpre, hhead, hmin, hgo, by rw [append_nil], rfl⟩

/-- Segments are clean, or the first that is not follows clean ones. -/
theorem cleanSegs_or_fault (C : Codec) (shardId : Nat) : ∀ (xs : List (Nat × Bytes)) (c : Carry),
    (∃ us c', CleanSegs C shardId c xs us c') ∨
    ∃ pre name buf rest us c', xs = pre ++ (name, buf) :: rest ∧ CleanSegs C shardId c pre us c' ∧
      ∀ scan, scanSegmentBytes C shardId c'.prevTx c'.minEpoch buf ≠ .scanned scan none
  | [], c => .inl ⟨[], c, .nil c⟩
  | (name, buf) :: xs, c => by
    by_cases hclean : ∃ scan, scanSegmentBytes C shardId c.prevTx c.minEpoch buf = .scanned scan none
    · obtain ⟨scan, hscan⟩ := hclean
      rcases cleanSegs_or_fault C shardId xs ⟨scan.lastTx.or c.prevTx, scan.maxEpoch⟩ with
        ⟨us, c', h⟩ | ⟨pre, n, b, rest, us, c', rfl, h, hb⟩
      · exact .inl ⟨_, c', .cons hscan h⟩
      · exact .inr ⟨(name, buf) :: pre, n, b, rest, _, c', rfl, .cons hscan h, hb⟩
    · exact .inr ⟨[], name, buf, xs, [], c, rfl, .nil c, fun scan h => hclean ⟨scan, h⟩⟩

/-- What recovery can find: only clean segments, or a last one whose header or whose entries from
some point on are not valid. -/
inductive Recovered (C : Codec) (shardId : Nat) (d : SegmentDir) (r : Recovery) : Prop where
  | clean {us c} (hclean : CleanSegs C shardId .init d.files us c)
      (hr : r = ⟨⟨c.prevTx, c.minEpoch, d.files.length, none⟩, tailOf none d.files, d, us⟩)
  | header {pre name buf us c reason} (hfiles : d.files = pre ++ [(name, buf)])
      (hclean : CleanSegs C shardId .init pre us c) (hhead : decodeSegmentHeader C buf = .error reason)
      (hr : r = ⟨⟨c.prevTx, c.minEpoch, d.files.length - 1, some ⟨name, 0, buf.length, .header reason⟩⟩,
        tailOf none pre, d.remove name, us⟩)
  | entry {pre name buf us c scan fault} (hfiles : d.files = pre ++ [(name, buf)])
      (hclean : CleanSegs C shardId .init pre us c)
      (hscan : scanSegmentBytes C shardId c.prevTx c.minEpoch buf = .scanned scan (some fault))
      (hr : r = ⟨⟨scan.lastTx.or c.prevTx, scan.maxEpoch, d.files.length,
          some ⟨name, fault.offset, (buf.drop fault.offset).length, .entry fault.reason⟩⟩,
        some (name, scan.validLen), d.truncate name fault.offset, us ++ scan.visited⟩)

theorem recovered_of_recover (h : recover C shardId d = .ok r) : Recovered C shardId d r := by
  unfold recover at h
  generalize hstart : (⟨⟨none, 0, d.files.length, none⟩, none, d, []⟩ : Recovery) = start at h
  have hlast : start.report.lastTxId = Carry.init.prevTx := by rw [← hstart]; rfl
  have hepoch : start.report.epoch = Carry.init.minEpoch := by rw [← hstart]; rfl
  rcases cleanSegs_or_fault C shardId d.files .init with
    ⟨us, c, hclean⟩ | ⟨pre, name, buf, rest, us, c, hfiles, hclean, hbad⟩
  · have := recoverLoop_append hclean start hlast hepoch []
    rw [append_nil] at this
    rw [this, recoverLoop] at h
    refine .clean hclean ?_
    rw [← ok.inj h, ← hstart]
    simp
  · rw [hfiles, recoverLoop_append hclean start hlast hepoch, recoverLoop] at h
    split at h
    · rename_i reason hscan
      split at h
      · simp at h
      rename_i hrest
      obtain rfl : rest = [] := by simpa using hrest
      have hhead : decodeSegmentHeader C buf = .error reason := by
        unfold scanSegmentBytes at hscan
        split at hscan
        · rename_i hdec
          rw [hdec, ScanOutcome.headerCorrupt.inj hscan]
        · split at hscan <;> simp at hscan
      refine .header hfiles hclean hhead ?_
      rw [← ok.inj h, ← hstart]
      simp
    · rename_i scan fault hscan
      split at h
      · exact absurd hscan (hbad scan)
      split at h
      · simp at h
      rename_i hrest
      obtain rfl : rest = [] := by simpa using hrest
      refine .entry hfiles hclean hscan ?_
      rw [← ok.inj h, ← hstart, max_eq_right (minEpoch_le_maxEpoch hscan)]
      simp

theorem tailEpochOk_of_error {reason : HeaderFault}
    (hfiles : d.files = pre ++ [(name, buf)]) (hhead : decodeSegmentHeader C buf = .error reason) :
    TailEpochOk C shardId d := by
  intro tail htail
  rw [hfiles, getLast?_concat] at htail
  cases htail
  simp only [hhead]

theorem tailEpochOk_iff {name epoch : Nat}
    {c : Carry} (hfiles : d.files = pre ++ [(name, buf)]) (hclean : CleanSegs C shardId .init pre us c)
    (hhead : decodeSegmentHeader C buf = .ok epoch) : TailEpochOk C shardId d ↔ c.minEpoch ≤ epoch := by
  simp [TailEpochOk, hfiles, hclean.carryOf_eq, hhead]

/-- **Recovery leaves a clean log**, unless the header of the last segment is of an older epoch. -/
theorem clean_of_recover (h : recover C shardId d = .ok r) (htail : TailEpochOk C shardId d) :
    ∃ c, CleanSegs C shardId .init r.dir.files r.visited c ∧ r.tail = tailOf none r.dir.files ∧
      r.report.lastTxId = c.prevTx ∧ r.report.epoch = c.minEpoch := by
  cases recovered_of_recover h with
  | @clean us c hclean hr =>
    rw [hr]
    exact ⟨c, hclean, rfl, rfl, rfl⟩
  | @header pre name buf us c reason hfiles hclean hhead hr =>
    rw [hr]
    have hdir := SegmentDir.files_remove_last hfiles
    exact ⟨c, hdir ▸ hclean, by rw [hdir], rfl, rfl⟩
  | @entry pre name buf us c scan fault hfiles hclean hscan hr =>
    rw [hr]
    cases hhead : decodeSegmentHeader C buf with
    | error reason => simp [scanSegmentBytes, hhead] at hscan
    | ok epoch =>
      have hmin := (tailEpochOk_iff hfiles hclean hhead).mp htail
      obtain ⟨htake, hvalid, hoff⟩ := scanSegmentBytes_take hhead hmin hscan
      have hdir : (d.truncate name fault.offset).files = pre ++ [(name, buf.take scan.validLen)] := by
        rw [SegmentDir.truncate, SegmentDir.files_update_last hfiles, hoff fault rfl]
      refine ⟨_, hdir ▸ hclean.append (.single htake), ?_, rfl, rfl⟩
      simp [hdir, tailOf, hvalid]

/-- A last segment whose header is of an older epoch is cut back to nothing, and the log resumes in
it as if its header were there. -/
theorem cut_of_recover (h : recover C shardId d = .ok r) (htail : ¬ TailEpochOk C shardId d) :
    ∃ pre name us c, r.dir.files = pre ++ [(name, [])] ∧ r.tail = some (name, segmentHeaderLen) ∧
      CleanSegs C shardId .init pre us c ∧ r.report.lastTxId = c.prevTx := by
  cases recovered_of_recover h with
  | @clean us c hclean hr =>
    exfalso
    rcases eq_nil_or_concat' d.files with hnil | ⟨pre, ⟨name, buf⟩, hfiles⟩
    · exact htail (by simp [TailEpochOk, hnil])
    · rw [hfiles] at hclean
      obtain ⟨us', c', epoch, scan, hpre, hhead, hmin, -⟩ := hclean.last
      exact htail ((tailEpochOk_iff hfiles hpre hhead).mpr hmin)
  | @header pre name buf us c reason hfiles hclean hhead hr =>
    exact absurd (tailEpochOk_of_error hfiles hhead) htail
  | @entry pre name buf us c scan fault hfiles hclean hscan hr =>
    cases hhead : decodeSegmentHeader C buf with
    | error reason => exact absurd (tailEpochOk_of_error hfiles hhead) htail
    | ok epoch =>
      have hlt : epoch < c.minEpoch := not_le.mp ((tailEpochOk_iff hfiles hclean hhead).not.mp htail)
      -- the fault is the header's: nothing is scanned and the cut is at offset 0
      simp only [scanSegmentBytes, hhead, if_pos hlt, ScanOutcome.scanned.injEq, Option.some.injEq] at hscan
      obtain ⟨rfl, rfl⟩ := hscan
      refine ⟨pre, name, us, c, ?_, by rw [hr]; rfl, hclean, by rw [hr]; rfl⟩
      rw [hr, SegmentDir.truncate, SegmentDir.files_update_last hfiles]
      simp

end

end CommitLog
end Fluxum
