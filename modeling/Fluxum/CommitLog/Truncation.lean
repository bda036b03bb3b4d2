/-
# Truncated segments

* `scan_truncated`: what a scan makes of a segment that was cut anywhere after
  its header, namely the entries whose frames lie wholly before the cut, and a
  torn tail if the cut falls inside a frame.
-/
import Fluxum.CommitLog.Durability

namespace Fluxum
namespace CommitLog

open Bytes List

section

variable (C : Codec) (shardId : Nat)

/-- The bytes that `encode_entry` makes of an entry. -/
def Framed (entry : Nat × TxRecord) (bytes : Bytes) : Prop :=
  ∃ body, C.encode entry.2 = some body ∧ encodeEntry C entry.1 body = some bytes

/-- Entries that a scan accepts after the epoch `epoch` and the transaction `prevTx`. -/
def InOrder (epoch : Nat) (prevTx : Option Nat) : List (Nat × TxRecord) → Prop
  | [] => True
  | entry :: entries =>
    (epoch ≤ entry.1 ∧ entry.1 < 2 ^ 64 ∧ entry.2.shardId = shardId ∧ ∀ p ∈ prevTx, p < entry.2.txId) ∧
      InOrder entry.1 (some entry.2.txId) entries

/-- The end of the first `k` frames of a segment. -/
def frameEnd (frames : List Bytes) (k : Nat) : Nat := segmentHeaderLen + (frames.take k).flatten.length

variable {C shardId} {entry : Nat × TxRecord} {frames : List Bytes} {s : SegmentScan}

theorem framed_iff {bytes : Bytes} :
    Framed C entry bytes ↔ ∃ body, C.encode entry.2 = some body ∧ body.length ≤ maxBodyLen ∧ frame C entry.1 body = bytes := by
  unfold Framed encodeEntry
  simp

/-! ### A cut frame -/

/-- A frame cut after its first byte is torn, wherever it is cut. -/
theorem scanEntry_cut {epoch n : Nat} {body : Bytes} (hbody : body.length ≤ maxBodyLen) (hn : 0 < n)
    (hcut : n < (frame C epoch body).length) (pre : Bytes) :
    ∃ reason, scanEntry C (pre ++ (frame C epoch body).take n) pre.length = .torn reason := by
  have hrem : (pre ++ (frame C epoch body).take n).length - pre.length = n := by
    rw [length_append, length_take]
    omega
  have hlen4 : body.length < 256 ^ 4 := lt_of_le_of_lt hbody (by decide)
  unfold scanEntry
  simp only [hrem]
  rw [if_neg (by omega)]
  by_cases hshort : n < entryOverhead
  · exact ⟨_, if_pos hshort⟩
  -- the length prefix is whole, so it is the length of the body
  have hlen : ofLE (((pre ++ (frame C epoch body).take n).drop pre.length).take 4) = body.length := by
    have hfour : 4 ≤ n := by
      unfold entryOverhead at hshort
      omega
    rw [drop_left, take_take, Nat.min_eq_left hfour, frame, frameBody]
    simp only [append_assoc]
    rw [take_left' (length_leBytes ..), ofLE_leBytes hlen4]
  rw [length_frame] at hcut
  rw [hlen, if_neg hshort, if_neg (by omega), if_pos hcut]
  exact ⟨_, rfl⟩

/-! ### A cut segment -/

/-- The scan after the entries `entries`, whose frames end at `validLen`. -/
def SegmentScan.after (s : SegmentScan) (entries : List (Nat × TxRecord)) (validLen : Nat) : SegmentScan :=
  { prevTx := (entries.getLast?.map (·.2.txId)).or s.prevTx
    lastTx := (entries.getLast?.map (·.2.txId)).or s.lastTx
    maxEpoch := (entries.getLast?.map (·.1)).getD s.maxEpoch
    validLen
    visited := s.visited ++ entries }

theorem SegmentScan.after_nil (s : SegmentScan) : s.after [] s.validLen = s := by
  simp [after]

theorem SegmentScan.after_cons (s : SegmentScan) (entry : Nat × TxRecord) (entries : List (Nat × TxRecord)) (mid validLen : Nat) :
    (s.after [entry] mid).after entries validLen = s.after (entry :: entries) validLen := by
  cases h : entries.getLast? <;> simp [after, getLast?_cons, h]

theorem scanFrom_cut_first (shardId : Nat) {bytes pre : Bytes} {n : Nat} (hframed : Framed C entry bytes)
    (hpre : pre.length = s.validLen) (hcut : n < bytes.length) :
    ∃ fault, scanFrom C shardId (pre ++ bytes.take n) s = (s, fault) ∧
      (n = 0 ∧ fault = none ∨ 0 < n ∧ ∃ reason, fault = some (.torn reason)) := by
  obtain ⟨body, -, hlen, rfl⟩ := framed_iff.mp hframed
  rcases Nat.eq_zero_or_pos n with rfl | hn
  · refine ⟨none, scanFrom_end s ?_, .inl ⟨rfl, rfl⟩⟩
    simp [hpre]
  obtain ⟨reason, htorn⟩ := scanEntry_cut hlen hn hcut pre
  refine ⟨_, scanFrom_stop ?_, .inr ⟨hn, reason, rfl⟩⟩
  unfold scanStep
  rw [← hpre, htorn]

/-- **The scan of a cut run of frames**: it reads those that lie wholly before the cut. -/
theorem scanFrom_cut {entries : List (Nat × TxRecord)} (h : List.Forall₂ (Framed C) entries frames) :
    ∀ (s : SegmentScan) (pre : Bytes) (n : Nat), InOrder shardId s.maxEpoch s.prevTx entries → pre.length = s.validLen →
    n ≤ frames.flatten.length →
    ∃ k ≤ frames.length, (∀ i < frames.length, i < k ↔ (frames.take (i + 1)).flatten.length ≤ n) ∧
      ∃ fault, scanFrom C shardId (pre ++ frames.flatten.take n) s =
          (s.after (entries.take k) (s.validLen + (frames.take k).flatten.length), fault) ∧
        (n = (frames.take k).flatten.length ∧ fault = none ∨
          (frames.take k).flatten.length < n ∧ ∃ reason, fault = some (.torn reason)) := by
  induction h with
  | nil =>
    intro s pre n _ hpre hn
    obtain rfl : n = 0 := Nat.le_zero.mp hn
    refine ⟨0, Nat.le_refl 0, by simp, none, ?_, .inl ⟨rfl, rfl⟩⟩
    simp only [flatten_nil, take_nil, append_nil, length_nil, Nat.add_zero, s.after_nil]
    exact scanFrom_end s hpre.symm
  | @cons entry bytes entries frames hframed _ ih =>
    intro s pre n horder hpre hn
    obtain ⟨⟨hepoch, hu64, hshard, htx⟩, hrest⟩ := horder
    rw [flatten_cons]
    by_cases hwhole : bytes.length ≤ n
    · have hsplit : pre ++ (bytes ++ frames.flatten).take n = pre ++ bytes ++ frames.flatten.take (n - bytes.length) := by
        rw [take_append, take_of_length_le hwhole, append_assoc]
      have hnext (rest : Bytes) : scanFrom C shardId (pre ++ bytes ++ rest) s =
          scanFrom C shardId (pre ++ bytes ++ rest) (s.after [entry] (s.validLen + bytes.length)) := by
        obtain ⟨body, hbody, hlen, rfl⟩ := framed_iff.mp hframed
        exact scanFrom_step (scanStep_frame hpre hu64 hlen hepoch (C.decode_encode hbody) hshard htx rest)
      rw [hsplit, hnext]
      have hpre' : (pre ++ bytes).length = s.validLen + bytes.length := by rw [length_append, hpre]
      rw [flatten_cons, length_append] at hn
      obtain ⟨k, hk, hcount, fault, hscan, hfault⟩ :=
        ih (s.after [entry] (s.validLen + bytes.length)) (pre ++ bytes) (n - bytes.length) hrest hpre' (by omega)
      refine ⟨k + 1, by simpa using hk, ?_, fault, ?_, ?_⟩
      · intro i hi
        rw [take_succ_cons, flatten_cons, length_append]
        cases i with
        | zero => simp [hwhole]
        | succ i =>
          have := hcount i (by simpa using hi)
          omega
      · rw [hscan, s.after_cons, take_succ_cons, take_succ_cons, flatten_cons, length_append, ← Nat.add_assoc]
        rfl
      · rw [take_succ_cons, flatten_cons, length_append]
        rcases hfault with ⟨heq, hnone⟩ | ⟨hlt, htorn⟩
        · exact .inl ⟨by omega, hnone⟩
        · exact .inr ⟨by omega, htorn⟩
    · have hcut : n < bytes.length := by omega
      obtain ⟨fault, hscan, hfault⟩ := scanFrom_cut_first shardId hframed hpre hcut
      refine ⟨0, Nat.zero_le _, ?_, fault, ?_, hfault⟩
      · intro i hi
        rw [take_succ_cons, flatten_cons, length_append]
        omega
      · rw [take_append_of_le_length hcut.le, hscan]
        simp only [take_zero, flatten_nil, length_nil, Nat.add_zero, s.after_nil]

theorem inOrder_of_pairwise : ∀ {entries : List (Nat × TxRecord)} {epoch : Nat} {prevTx : Option Nat},
    (∀ e ∈ entries, e.1 < 2 ^ 64) → (epoch :: entries.map Prod.fst).Pairwise (· ≤ ·) →
    (∀ e ∈ entries, e.2.shardId = shardId) → (prevTx.toList ++ entries.map (·.2.txId)).Pairwise (· < ·) →
    InOrder shardId epoch prevTx entries
  | [], _, _, _, _, _, _ => trivial
  | entry :: entries, epoch, prevTx, hu64, hepochs, hshard, htx => by
    rw [List.map_cons, List.pairwise_cons] at hepochs
    rw [List.pairwise_append] at htx
    obtain ⟨-, htail, hprev⟩ := htx
    refine ⟨⟨hepochs.1 _ (by simp), hu64 entry (by simp), hshard entry (by simp), fun p hp => ?_⟩, ?_⟩
    · exact hprev p (Option.mem_toList.mpr hp) _ (by simp)
    · exact inOrder_of_pairwise (fun e he => hu64 e (by simp [he])) hepochs.2 (fun e he => hshard e (by simp [he])) htail

theorem frameEnd_mono (frames : List Bytes) {i j : Nat} (h : i ≤ j) : frameEnd frames i ≤ frameEnd frames j := by
  have hsplit := congrArg (·.flatten.length) (take_append_drop i (frames.take j))
  simp only [flatten_append, length_append, take_take, Nat.min_eq_left h] at hsplit
  unfold frameEnd
  omega

theorem frameEnd_length (frames : List Bytes) : frameEnd frames frames.length = segmentHeaderLen + frames.flatten.length := by
  rw [frameEnd, take_length]

/-- The scan of a segment that was cut `n` bytes after its header. -/
theorem scanSegmentBytes_cut {headerEpoch minEpoch n : Nat} {prevTx : Option Nat} {entries : List (Nat × TxRecord)}
    (hheader : headerEpoch < 2 ^ 64) (hmin : minEpoch ≤ headerEpoch)
    (hframes : List.Forall₂ (Framed C) entries frames) (horder : InOrder shardId headerEpoch prevTx entries)
    (hn : n ≤ frames.flatten.length) :
    ∃ k ≤ frames.length, (∀ i < frames.length, i < k ↔ frameEnd frames (i + 1) ≤ segmentHeaderLen + n) ∧
      ∃ fault, scanSegmentBytes C shardId prevTx minEpoch (encodeSegmentHeader C headerEpoch ++ frames.flatten.take n) =
          .scanned ((startScan prevTx headerEpoch).after (entries.take k) (frameEnd frames k)) fault ∧
        (segmentHeaderLen + n = frameEnd frames k ∧ fault = none ∨
          frameEnd frames k < segmentHeaderLen + n ∧ ∃ reason, fault = some ⟨frameEnd frames k, .torn reason⟩) := by
  obtain ⟨k, hk, hcount, fault, hscan, hfault⟩ := scanFrom_cut hframes (startScan prevTx headerEpoch)
    (encodeSegmentHeader C headerEpoch) n horder (length_encodeSegmentHeader C headerEpoch) hn
  refine ⟨k, hk, fun i hi => ?_, fault.map (⟨frameEnd frames k, ·⟩), ?_, ?_⟩
  · have := hcount i hi
    unfold frameEnd
    omega
  · unfold scanSegmentBytes
    rw [decodeSegmentHeader_append C hheader]
    simp only [max_eq_left hmin, if_neg (Nat.not_lt.mpr hmin), hscan]
    rfl
  · unfold frameEnd
    rcases hfault with ⟨heq, rfl⟩ | ⟨hlt, reason, rfl⟩
    · exact .inl ⟨by omega, rfl⟩
    · exact .inr ⟨by omega, reason, rfl⟩

theorem frameEnd_lt_iff {k n : Nat} (hk : k ≤ frames.length) (hn : n ≤ frameEnd frames frames.length)
    (hcount : ∀ i < frames.length, i < k ↔ frameEnd frames (i + 1) ≤ n) :
    frameEnd frames k < n ↔ ∃ i < frames.length, frameEnd frames i < n ∧ n < frameEnd frames (i + 1) := by
  constructor
  · intro hlt
    have hk' : k < frames.length := by
      refine lt_of_le_of_ne hk ?_
      rintro rfl
      omega
    have := hcount k hk'
    exact ⟨k, hk', hlt, by omega⟩
  · rintro ⟨i, hi, hlt, hlt'⟩
    have := hcount i hi
    exact lt_of_le_of_lt (frameEnd_mono frames (by omega)) hlt

end

/-- **Framing round-trips under truncation.** A segment of entries in order reads back, and cut anywhere after its header it
reads back the entries whose frames lie wholly before the cut, with a torn tail if the cut runs through a frame. -/
theorem scan_truncated (C : Codec) (shardId headerEpoch minEpoch : Nat) (prevTx : Option Nat) (entries : List (Nat × TxRecord))
    (frames : List Bytes) (hheader : headerEpoch < 2 ^ 64) (hmin : minEpoch ≤ headerEpoch)
    (hframes : List.Forall₂ (Framed C) entries frames) (hu64 : ∀ e ∈ entries, e.1 < 2 ^ 64)
    (hepochs : (headerEpoch :: entries.map Prod.fst).Pairwise (· ≤ ·)) (hshard : ∀ e ∈ entries, e.2.shardId = shardId)
    (htx : (prevTx.toList ++ entries.map (·.2.txId)).Pairwise (· < ·)) :
    (∃ scan, scanSegmentBytes C shardId prevTx minEpoch (encodeSegmentHeader C headerEpoch ++ frames.flatten) = .scanned scan none ∧
      scan.visited = entries) ∧
    ∀ n, segmentHeaderLen ≤ n → n ≤ (encodeSegmentHeader C headerEpoch ++ frames.flatten).length →
      ∃ k ≤ frames.length, (∀ i < frames.length, i < k ↔ frameEnd frames (i + 1) ≤ n) ∧
        ∃ scan fault,
          scanSegmentBytes C shardId prevTx minEpoch ((encodeSegmentHeader C headerEpoch ++ frames.flatten).take n) =
            .scanned scan fault ∧
          scan.visited = entries.take k ∧ scan.validLen = frameEnd frames k ∧
          scan.lastTx = (entries.take k).getLast?.map (·.2.txId) ∧
          scan.maxEpoch = ((entries.take k).getLast?.map Prod.fst).getD headerEpoch ∧
          ((∃ reason, fault = some ⟨frameEnd frames k, .torn reason⟩) ↔
            ∃ i < frames.length, frameEnd frames i < n ∧ n < frameEnd frames (i + 1)) ∧
          (fault = none ↔ n = frameEnd frames k) := by
  have horder := inOrder_of_pairwise hu64 hepochs hshard htx
  constructor
  · obtain ⟨k, hk, hcount, fault, hscan, hfault⟩ := scanSegmentBytes_cut hheader hmin hframes horder le_rfl
    rw [take_length] at hscan
    rw [← frameEnd_length] at hcount hfault
    -- every frame lies before the end
    obtain rfl : k = frames.length := by
      by_contra hne
      have := hcount k (by omega)
      have := frameEnd_mono frames (show k + 1 ≤ frames.length by omega)
      omega
    rcases hfault with ⟨-, rfl⟩ | ⟨hlt, -⟩
    · refine ⟨_, hscan, ?_⟩
      rw [← hframes.length_eq]
      simp [SegmentScan.after, startScan]
    · omega
  · intro n hn hlen
    rw [length_append, length_encodeSegmentHeader, ← frameEnd_length] at hlen
    obtain ⟨m, rfl⟩ := Nat.exists_eq_add_of_le hn
    obtain ⟨k, hk, hcount, fault, hscan, hfault⟩ := scanSegmentBytes_cut hheader hmin hframes horder
      (show m ≤ frames.flatten.length by rw [frameEnd_length] at hlen; omega)
    have htake : (encodeSegmentHeader C headerEpoch ++ frames.flatten).take (segmentHeaderLen + m) =
        encodeSegmentHeader C headerEpoch ++ frames.flatten.take m := by
      rw [← length_encodeSegmentHeader C headerEpoch, take_length_add_append]
    rw [htake]
    refine ⟨k, hk, hcount, _, fault, hscan, rfl, rfl, ?_, rfl, ?_, ?_⟩
    · simp [SegmentScan.after, startScan]
    · rw [← frameEnd_lt_iff hk hlen hcount]
      rcases hfault with ⟨heq, rfl⟩ | ⟨hlt, reason, rfl⟩
      · simp [heq]
      · exact ⟨fun _ => hlt, fun _ => ⟨reason, rfl⟩⟩
    · rcases hfault with ⟨heq, rfl⟩ | ⟨hlt, reason, rfl⟩
      · simp [heq]
      · simp [hlt.ne']

/-- Two records, the second in a later epoch. -/
def twoEntries : List (Nat × TxRecord) := [(0, idRecord 1), (3, idRecord 2)]

theorem scan_truncated_twoEntries : ∃ scan, scanSegmentBytes idCodec 0 none 0
    (encodeSegmentHeader idCodec 0 ++ [frame idCodec 0 (leBytes 8 1), frame idCodec 3 (leBytes 8 2)].flatten) = .scanned scan none ∧
    scan.visited = twoEntries := by
  have hframes : Forall₂ (Framed idCodec) twoEntries [frame idCodec 0 (leBytes 8 1), frame idCodec 3 (leBytes 8 2)] :=
    .cons ⟨leBytes 8 1, rfl, rfl⟩ (.cons ⟨leBytes 8 2, rfl, rfl⟩ .nil)
  exact (scan_truncated idCodec 0 0 0 none twoEntries _ (by decide) (by decide) hframes (by decide) (by decide) (by decide)
    (by decide)).1

end CommitLog
end Fluxum
