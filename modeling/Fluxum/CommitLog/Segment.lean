/-
# Scanning a segment

`scan_segment_bytes` of `commitlog/segment.rs`: after the header, entries are
read one by one until the bytes end or one of them is not valid. An entry is
valid if its frame is, its epoch does not go back, its body decodes to a
record of this shard, and its transaction id increases.
-/
import Fluxum.CommitLog.Format

namespace Fluxum
namespace CommitLog

open Bytes

/-- Why an entry, or the whole segment after its header, is not valid. -/
inductive FaultReason where
  | headerEpoch (epoch minEpoch : Nat)
  | torn (reason : TornFrame)
  | corrupt (reason : CorruptFrame)
  | epochRegress (epoch maxEpoch : Nat)
  | decode
  | wrongShard (shardId : Nat)
  | txOrder (txId : Nat) (prevTx : Option Nat)
deriving DecidableEq, Repr

structure ScanFault where
  offset : Nat
  reason : FaultReason
deriving DecidableEq, Repr

/-- The progress of a scan: the last transaction id seen, here or in earlier segments (`prevTx`)
and here (`lastTx`), the highest epoch, the length of the valid part, and the entries visited. -/
structure SegmentScan where
  prevTx : Option Nat
  lastTx : Option Nat
  maxEpoch : Nat
  validLen : Nat
  visited : List (Nat × TxRecord)

inductive ScanOutcome where
  | headerCorrupt (reason : HeaderFault)
  | scanned (scan : SegmentScan) (fault : Option ScanFault)

section

variable (C : Codec) (shardId : Nat)

/-- One round of the scan loop, at the end of the valid part: the scan after one more entry, or the
reason it stops there, which at a clean end of the bytes is none. -/
def scanStep (buf : Bytes) (s : SegmentScan) : Except (Option FaultReason) SegmentScan :=
  match scanEntry C buf s.validLen with
  | .cleanEof => .error none
  | .torn reason => .error (some (.torn reason))
  | .corrupt reason => .error (some (.corrupt reason))
  | .entry epoch body e =>
    if epoch < s.maxEpoch then .error (some (.epochRegress epoch s.maxEpoch))
    else
      match C.decode body with
      | none => .error (some .decode)
      | some record =>
        if record.shardId ≠ shardId then .error (some (.wrongShard record.shardId))
        else if s.prevTx.any (record.txId ≤ ·) then .error (some (.txOrder record.txId s.prevTx))
        else .ok
          { prevTx := some record.txId
            lastTx := some record.txId
            maxEpoch := max s.maxEpoch epoch
            validLen := e
            visited := s.visited ++ [(epoch, record)] }

/-- The scan loop, for at most `fuel` rounds. -/
def scanLoop (buf : Bytes) : Nat → SegmentScan → SegmentScan × Option FaultReason
  | 0, s => (s, none)
  | fuel + 1, s =>
    match scanStep C shardId buf s with
    | .error reason => (s, reason)
    | .ok s' => scanLoop buf fuel s'

/-- The scan loop. Every round but the last consumes a frame, so the rounds are fewer than the bytes. -/
def scanFrom (buf : Bytes) (s : SegmentScan) : SegmentScan × Option FaultReason :=
  scanLoop C shardId buf (buf.length - s.validLen + 1) s

/-- The scan right after a header of epoch `epoch`. -/
def startScan (prevTx : Option Nat) (epoch : Nat) : SegmentScan := ⟨prevTx, none, epoch, segmentHeaderLen, []⟩

/-- Scan a segment; `prevTx` and `minEpoch` are what the segments before it expect. -/
def scanSegmentBytes (prevTx : Option Nat) (minEpoch : Nat) (buf : Bytes) : ScanOutcome :=
  match decodeSegmentHeader C buf with
  | .error reason => .headerCorrupt reason
  | .ok headerEpoch =>
    let start := startScan prevTx (max headerEpoch minEpoch)
    if headerEpoch < minEpoch then .scanned start (some ⟨0, .headerEpoch headerEpoch minEpoch⟩)
    else
      let (scan, reason) := scanFrom C shardId buf start
      .scanned scan (reason.map (⟨scan.validLen, ·⟩))

variable {C shardId}

/-! ### One round -/

variable {s : SegmentScan} {buf : Bytes} {s' : SegmentScan}

theorem scanStep_ok (h : scanStep C shardId buf s = .ok s') :
    ∃ epoch body e record, scanEntry C buf s.validLen = .entry epoch body e ∧ s.maxEpoch ≤ epoch ∧
      C.decode body = some record ∧ record.shardId = shardId ∧ (∀ p ∈ s.prevTx, p < record.txId) ∧
      s' = ⟨some record.txId, some record.txId, max s.maxEpoch epoch, e, s.visited ++ [(epoch, record)]⟩ := by
  unfold scanStep at h
  split at h
  · simp at h
  · simp at h
  · simp at h
  rename_i epoch body e hentry
  split at h
  · simp at h
  split at h
  · simp at h
  rename_i record hdec
  split at h
  · simp at h
  rename_i hshard
  split at h
  · simp at h
  rename_i horder
  refine ⟨epoch, body, e, record, hentry, by omega, hdec, by simpa using hshard, ?_, (Except.ok.inj h).symm⟩
  intro p hp
  rw [Option.mem_def] at hp
  simpa [hp] using horder

theorem scanStep_of_entry {epoch e : Nat} {body : Bytes} {record : TxRecord}
    (hentry : scanEntry C buf s.validLen = .entry epoch body e) (hepoch : s.maxEpoch ≤ epoch)
    (hdec : C.decode body = some record) (hshard : record.shardId = shardId)
    (horder : ∀ p ∈ s.prevTx, p < record.txId) : scanStep C shardId buf s =
      .ok ⟨some record.txId, some record.txId, max s.maxEpoch epoch, e, s.visited ++ [(epoch, record)]⟩ := by
  have hany : s.prevTx.any (record.txId ≤ ·) = false := by
    cases hp : s.prevTx with
    | none => rfl
    | some p =>
      have := horder p hp
      simp only [Option.any_some, decide_eq_false_iff_not]
      omega
  unfold scanStep
  rw [hentry]
  dsimp only
  rw [if_neg (by omega), hdec]
  simp [hshard, hany]

theorem scanStep_bounds (h : scanStep C shardId buf s = .ok s') :
    s.validLen < s'.validLen ∧ s'.validLen ≤ buf.length := by
  obtain ⟨epoch, body, e, record, hentry, -, -, -, -, rfl⟩ := scanStep_ok h
  have := scanEntry_bounds C hentry
  unfold entryOverhead at this
  dsimp only
  omega

theorem scanStep_frame {epoch : Nat} {body pre : Bytes} {record : TxRecord} (hpre : pre.length = s.validLen)
    (hu64 : epoch < 2 ^ 64) (hbody : body.length ≤ maxBodyLen) (hepoch : s.maxEpoch ≤ epoch)
    (hdec : C.decode body = some record) (hshard : record.shardId = shardId)
    (horder : ∀ p ∈ s.prevTx, p < record.txId) (rest : Bytes) :
    scanStep C shardId (pre ++ frame C epoch body ++ rest) s =
      .ok ⟨some record.txId, some record.txId, epoch, s.validLen + (frame C epoch body).length,
        s.visited ++ [(epoch, record)]⟩ := by
  have hentry := scanEntry_frame C hu64 hbody pre rest
  rw [hpre] at hentry
  rw [scanStep_of_entry hentry hepoch hdec hshard horder, max_eq_right hepoch]

/-! ### The loop -/

theorem scanLoop_fuel : ∀ {f g : Nat} {s : SegmentScan}, buf.length - s.validLen < f →
    buf.length - s.validLen < g → scanLoop C shardId buf f s = scanLoop C shardId buf g s
  | f + 1, g + 1, s, hf, hg => by
    unfold scanLoop
    cases hstep : scanStep C shardId buf s with
    | error r => rfl
    | ok s' =>
      have hb := scanStep_bounds hstep
      exact scanLoop_fuel (by omega) (by omega)

theorem scanFrom_stop {r : Option FaultReason} (h : scanStep C shardId buf s = .error r) :
    scanFrom C shardId buf s = (s, r) := by
  simp [scanFrom, scanLoop, h]

theorem scanFrom_step (h : scanStep C shardId buf s = .ok s') :
    scanFrom C shardId buf s = scanFrom C shardId buf s' := by
  have hb := scanStep_bounds h
  rw [scanFrom, scanLoop, h]
  exact scanLoop_fuel (by omega) (by omega)

theorem scan_induction (C : Codec) (shardId : Nat) (buf : Bytes) {motive : SegmentScan → Prop}
    (stop : ∀ s r, scanStep C shardId buf s = .error r → motive s)
    (step : ∀ s s', scanStep C shardId buf s = .ok s' → motive s' → motive s) : ∀ s, motive s := by
  intro s
  induction hn : buf.length - s.validLen using Nat.strong_induction_on generalizing s with
  | _ n ih =>
    cases hstep : scanStep C shardId buf s with
    | error r => exact stop s r hstep
    | ok s' =>
      have hb := scanStep_bounds hstep
      exact step s s' hstep (ih _ (by omega) s' rfl)

theorem scanFrom_bounds (C : Codec) (shardId : Nat) (buf : Bytes) (s : SegmentScan) (hs : s.validLen ≤ buf.length) :
    s.validLen ≤ (scanFrom C shardId buf s).1.validLen ∧
      (scanFrom C shardId buf s).1.validLen ≤ buf.length := by
  induction s using scan_induction C shardId buf with
  | stop s r h =>
    rw [scanFrom_stop h]
    exact ⟨le_rfl, hs⟩
  | step s s' h ih =>
    rw [scanFrom_step h]
    have hb := scanStep_bounds h
    omega

theorem validLen_of_clean (s : SegmentScan) (hs : s.validLen ≤ buf.length) :
    (scanFrom C shardId buf s).2 = none → (scanFrom C shardId buf s).1.validLen = buf.length := by
  induction s using scan_induction C shardId buf with
  | stop s r h =>
    rw [scanFrom_stop h]
    rintro rfl
    -- the only stop without a reason is the clean end of the bytes
    unfold scanStep at h
    split at h
    · rename_i heof
      unfold scanEntry at heof
      dsimp only at heof
      split at heof
      · dsimp only
        omega
      split at heof
      · simp at heof
      split at heof
      · simp at heof
      split at heof
      · simp at heof
      split at heof <;> simp at heof
    · simp at h
    · simp at h
    · split at h
      · simp at h
      split at h
      · simp at h
      split at h
      · simp at h
      split at h <;> simp at h
  | step s s' h ih =>
    rw [scanFrom_step h]
    exact ih (scanStep_bounds h).2

theorem scanFrom_end (s : SegmentScan) (h : s.validLen = buf.length) : scanFrom C shardId buf s = (s, none) :=
  scanFrom_stop (by simp [scanStep, scanEntry, h])

/-- **A scan depends on the bytes it accepts only**: over another buffer with the same accepted part
it gets to the same point, and goes on from there. -/
theorem scanFrom_congr (C : Codec) (shardId : Nat) (buf buf' : Bytes) (s : SegmentScan) (hs : s.validLen ≤ buf.length) :
    (scanFrom C shardId buf s).1.validLen ≤ buf'.length →
    buf'.take (scanFrom C shardId buf s).1.validLen = buf.take (scanFrom C shardId buf s).1.validLen →
    scanFrom C shardId buf' s = scanFrom C shardId buf' (scanFrom C shardId buf s).1 := by
  induction s using scan_induction C shardId buf with
  | stop s r h =>
    intro _ _
    rw [scanFrom_stop h]
  | step s s' h ih =>
    have hb := scanStep_bounds h
    rw [scanFrom_step h]
    intro hlen htake
    have hgrow := (scanFrom_bounds C shardId buf s' hb.2).1
    have h' : scanStep C shardId buf' s = .ok s' := by
      have htake' := take_congr htake hgrow
      obtain ⟨epoch, body, e, record, hentry, hepoch, hdec, hshard, horder, rfl⟩ := scanStep_ok h
      exact scanStep_of_entry (scanEntry_congr C hentry (hgrow.trans hlen) htake') hepoch hdec hshard horder
    rw [scanFrom_step h']
    exact ih hb.2 hlen htake

theorem scanFrom_prevTx (C : Codec) (shardId : Nat) (buf : Bytes) (prev : Option Nat) (s : SegmentScan) :
    s.prevTx = s.lastTx.or prev →
    (scanFrom C shardId buf s).1.prevTx = (scanFrom C shardId buf s).1.lastTx.or prev := by
  induction s using scan_induction C shardId buf with
  | stop s r h =>
    rw [scanFrom_stop h]
    exact id
  | step s s' h ih =>
    intro _
    rw [scanFrom_step h]
    obtain ⟨epoch, body, e, record, -, -, -, -, -, rfl⟩ := scanStep_ok h
    exact ih rfl

theorem visited_prefix_scanFrom (s : SegmentScan) : s.visited <+: (scanFrom C shardId buf s).1.visited := by
  induction s using scan_induction C shardId buf with
  | stop s r h => rw [scanFrom_stop h]
  | step s s' h ih =>
    rw [scanFrom_step h]
    obtain ⟨epoch, body, e, record, -, -, -, -, -, rfl⟩ := scanStep_ok h
    exact (List.prefix_append ..).trans ih

theorem maxEpoch_le_scanFrom (s : SegmentScan) : s.maxEpoch ≤ (scanFrom C shardId buf s).1.maxEpoch := by
  induction s using scan_induction C shardId buf with
  | stop s r h => rw [scanFrom_stop h]
  | step s s' h ih =>
    rw [scanFrom_step h]
    obtain ⟨epoch, body, e, record, -, -, -, -, -, rfl⟩ := scanStep_ok h
    exact le_trans (le_max_left ..) ih

end

end CommitLog
end Fluxum
