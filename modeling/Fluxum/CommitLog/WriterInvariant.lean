/-
# What the writer thread keeps

The segment files scan without a fault, and so does the active file with the
write buffer added to it; together they hold the records written so far, in
order. So when a flush succeeds and the `written` watermark moves, every
record up to it is read back from disk, and whatever a later failing write
adds to the file takes none of them away.
-/
import Fluxum.Lib.Outcome
import Fluxum.CommitLog.Writer

namespace Fluxum
namespace CommitLog

open Bytes Outcome List

variable {C : Codec} {shardId segmentMaxBytes : Nat} {seg : SegmentFile} {bytes : Bytes} {name : Nat}

/-! ### The last transaction id -/

def lastId (vs : List (Nat × TxRecord)) : Option Nat := vs.getLast?.map (·.2.txId)

theorem lastId_append (us vs : List (Nat × TxRecord)) : lastId (us ++ vs) = (lastId vs).or (lastId us) := by
  unfold lastId
  rw [getLast?_append]
  cases vs.getLast? <;> rfl

theorem scanFrom_lastId (C : Codec) (shardId : Nat) (buf : Bytes) (prev : Option Nat) (s : SegmentScan) :
    s.prevTx = (lastId s.visited).or prev → s.lastTx = lastId s.visited →
    (scanFrom C shardId buf s).1.prevTx = (lastId (scanFrom C shardId buf s).1.visited).or prev ∧
      (scanFrom C shardId buf s).1.lastTx = lastId (scanFrom C shardId buf s).1.visited := by
  induction s using scan_induction C shardId buf with
  | stop s r h =>
    rw [scanFrom_stop h]
    exact fun hp hl => ⟨hp, hl⟩
  | step s s' h ih =>
    intro _ _
    rw [scanFrom_step h]
    obtain ⟨epoch, body, e, record, -, -, -, -, -, rfl⟩ := scanStep_ok h
    apply ih <;> simp [lastId]

theorem CleanSegs.prevTx {c c' : Carry} {xs : List (Nat × Bytes)} {us : List (Nat × TxRecord)}
    (h : CleanSegs C shardId c xs us c') : c'.prevTx = (lastId us).or c.prevTx := by
  induction h with
  | nil => rfl
  | @cons c name buf rest scan visited c' hscan _ ih =>
    have hlast : scan.lastTx = lastId scan.visited := by
      unfold scanSegmentBytes at hscan
      split at hscan
      · simp at hscan
      split at hscan
      · simp at hscan
      obtain ⟨rfl, -⟩ := ScanOutcome.scanned.inj hscan
      exact (scanFrom_lastId C shardId buf c.prevTx _ (by simp [startScan, lastId]) rfl).2
    rw [ih, lastId_append, hlast]
    cases lastId visited <;> rfl

/-! ### Files and buffer -/

/-- The files, and the active one with the buffer added, scan without a fault and hold `vs`. -/
inductive Consistent (C : Codec) (shardId : Nat) (a : Actor) : List (Nat × TxRecord) → Prop where
  | empty (hcur : a.current = none) (hfiles : a.dir.files = []) (hbuf : a.buf = [])
      (hlast : a.lastWritten = none) : Consistent C shardId a []
  | active {seg pre bytes us c headerEpoch sd sb} (hcur : a.current = some seg)
      (hfiles : a.dir.files = pre ++ [(seg.name, bytes)]) (hpre : CleanSegs C shardId .init pre us c)
      (hhead : decodeSegmentHeader C bytes = .ok headerEpoch) (hmin : c.minEpoch ≤ headerEpoch)
      (hdisk : scanFrom C shardId bytes (startScan c.prevTx headerEpoch) = (sd, none))
      (hbuf : scanFrom C shardId (bytes ++ a.buf) (startScan c.prevTx headerEpoch) = (sb, none))
      (hlen : seg.len = (bytes ++ a.buf).length) (hlast : a.lastWritten = sb.prevTx)
      (hepoch : sb.maxEpoch ≤ a.epoch) : Consistent C shardId a (us ++ sb.visited)

namespace Consistent

variable {a a' : Actor} {vs : List (Nat × TxRecord)}

section

variable (h : Consistent C shardId a vs)
include h

theorem congr (hdir : a'.dir = a.dir) (hcur : a'.current = a.current)
    (hbuf : a'.buf = a.buf) (hlast : a'.lastWritten = a.lastWritten) (hepoch : a.epoch ≤ a'.epoch) :
    Consistent C shardId a' vs := by
  cases h with
  | empty h₁ h₂ h₃ h₄ =>
    exact .empty (hcur.trans h₁) (hdir ▸ h₂) (hbuf.trans h₃) (hlast.trans h₄)
  | active h₁ h₂ h₃ h₄ h₅ h₆ h₇ h₈ h₉ h₁₀ =>
    rw [← hbuf] at h₇ h₈
    exact .active (hcur.trans h₁) (hdir ▸ h₂) h₃ h₄ h₅ h₆ h₇ h₈ (hlast.trans h₉) (h₁₀.trans hepoch)

theorem files (hcur : a.current = some seg) :
    ∃ pre bytes, a.dir.files = pre ++ [(seg.name, bytes)] := by
  cases h with
  | empty h₁ => simp [h₁] at hcur
  | active h₁ h₂ =>
    cases h₁.symm.trans hcur
    exact ⟨_, _, h₂⟩

theorem lastWritten : a.lastWritten = lastId vs := by
  cases h with
  | empty _ _ _ hlast => exact hlast
  | @active seg pre bytes us c headerEpoch sd sb _ _ hpre _ _ _ hbuf _ hlast _ =>
    have := (scanFrom_lastId C shardId (bytes ++ a.buf) c.prevTx
      (startScan c.prevTx headerEpoch) (by simp [startScan, lastId]) rfl).1
    rw [hbuf] at this
    rw [hlast, this, hpre.prevTx, lastId_append]
    cases lastId sb.visited <;> cases lastId us <;> rfl

theorem cleanSegs (hbuf : a.buf = []) :
    ∃ c, CleanSegs C shardId .init a.dir.files vs c ∧ c.prevTx = a.lastWritten ∧ c.minEpoch ≤ a.epoch := by
  cases h with
  | empty _ hfiles _ hlast =>
    rw [hfiles, hlast]
    exact ⟨.init, .nil _, rfl, Nat.zero_le _⟩
  | @active seg pre bytes us c headerEpoch sd sb hcur hfiles hpre hhead hmin _ hscan _ hlast hepoch =>
    rw [hbuf, append_nil] at hscan
    have hseg : scanSegmentBytes C shardId c.prevTx c.minEpoch bytes = .scanned sb none := by
      unfold scanSegmentBytes
      rw [hhead]
      dsimp only
      rw [if_neg (by omega), max_eq_left hmin, hscan]
      rfl
    have hprev : sb.lastTx.or c.prevTx = sb.prevTx := by
      have := scanFrom_prevTx C shardId bytes c.prevTx
        (startScan c.prevTx headerEpoch) rfl
      rw [hscan] at this
      exact this.symm
    refine ⟨_, hfiles ▸ hpre.append (.single hseg), ?_, hepoch⟩
    rw [hlast]
    exact hprev

theorem replay_eq (hbuf : a.buf = []) : replay C shardId a.dir = (vs, none) := by
  obtain ⟨c, hclean, -, -⟩ := h.cleanSegs hbuf
  exact replay_of_clean hclean

/-- Once the buffer is written, the files hold what they held with it. -/
theorem flushed (hcur : a.current = some seg)
    (hdir : a'.dir = a.dir.append seg.name a.buf) (hbuf : a'.buf = []) (hcur' : a'.current = a.current)
    (hlast : a'.lastWritten = a.lastWritten) (hepoch : a'.epoch = a.epoch) : Consistent C shardId a' vs := by
  cases h with
  | empty h₁ => simp [h₁] at hcur
  | @active seg' pre bytes us c headerEpoch sd sb h₁ h₂ h₃ h₄ h₅ h₆ h₇ h₈ h₉ h₁₀ =>
    cases h₁.symm.trans hcur
    have hlen := length_of_decodeSegmentHeader C h₄
    have hhead : decodeSegmentHeader C (bytes ++ a.buf) = .ok headerEpoch := by
      rw [← h₄]
      exact decodeSegmentHeader_congr C hlen (by simp; omega) (take_append_of_le_length hlen)
    refine .active (hcur'.trans h₁) (hdir ▸ SegmentDir.files_update_last h₂ _) h₃ hhead h₅ h₇ ?_ ?_
      (hlast.trans h₉) (hepoch ▸ h₁₀)
    · rw [hbuf, append_nil]
      exact h₇
    · rw [hbuf, append_nil]
      exact h₈

theorem buffer (hcur : a.current = some seg)
    {record : TxRecord} {body : Bytes} (hu64 : a.epoch < 2 ^ 64) (henc : C.encode record = some body)
    (hbody : body.length ≤ maxBodyLen) (hshard : record.shardId = shardId)
    (horder : ∀ p ∈ a.lastWritten, p < record.txId) :
    Consistent C shardId (CommitLog.buffer a seg (frame C a.epoch body) record.txId)
      (vs ++ [(a.epoch, record)]) := by
  cases h with
  | empty h₁ => simp [h₁] at hcur
  | @active seg' pre bytes us c headerEpoch sd sb h₁ h₂ h₃ h₄ h₅ h₆ h₇ h₈ h₉ h₁₀ =>
    obtain rfl := Option.some.inj (h₁.symm.trans hcur)
    have hhlen : segmentHeaderLen ≤ (bytes ++ a.buf).length :=
      le_trans (length_of_decodeSegmentHeader C h₄) (by simp)
    have hvalid : sb.validLen = (bytes ++ a.buf).length := by
      have := validLen_of_clean (startScan c.prevTx headerEpoch) hhlen (by rw [h₇])
      rwa [h₇] at this
    -- the scan goes through what was there, then reads the new frame, then is at the end
    have hgo := scanFrom_congr C shardId (bytes ++ a.buf)
      (bytes ++ a.buf ++ frame C a.epoch body) (startScan c.prevTx headerEpoch) hhlen
      (by rw [h₇, hvalid]; simp) (by rw [h₇, hvalid]; exact take_append_of_le_length le_rfl)
    rw [h₇] at hgo
    have hstep := scanStep_frame (s := sb) hvalid.symm hu64 hbody h₁₀ (C.decode_encode henc) hshard
      (by rw [← h₉]; exact horder) []
    rw [append_nil] at hstep
    have hend : sb.validLen + (frame C a.epoch body).length = (bytes ++ a.buf ++ frame C a.epoch body).length := by
      simp only [hvalid, length_append]
    rw [scanFrom_step hstep, scanFrom_end ⟨_, _, _, _, _⟩ hend, append_assoc] at hgo
    rw [append_assoc us]
    refine .active (a := CommitLog.buffer a seg' (frame C a.epoch body) record.txId) rfl h₂ h₃ h₄ h₅ h₆ hgo ?_ rfl le_rfl
    simp only [CommitLog.buffer, h₈, length_append]
    omega

theorem created (hbuf : a.buf = []) {txId : Nat} {dir : SegmentDir}
    (hu64 : a.epoch < 2 ^ 64) (hmax : ∀ n ∈ a.dir.names, n ≤ txId)
    (hdir : a.dir.create txId (encodeSegmentHeader C a.epoch) = some dir) (ha : a'.dir = dir)
    (hcur : a'.current = some ⟨txId, segmentHeaderLen⟩) (hbuf' : a'.buf = a.buf)
    (hlast : a'.lastWritten = a.lastWritten) (hepoch : a'.epoch = a.epoch) : Consistent C shardId a' vs := by
  obtain ⟨c, hclean, hprev, hmin⟩ := h.cleanSegs hbuf
  have hfiles := SegmentDir.files_create_max hmax hdir
  have hhead := decodeSegmentHeader_append C hu64 []
  have hscan : scanFrom C shardId (encodeSegmentHeader C a.epoch) (startScan c.prevTx a.epoch) =
      (startScan c.prevTx a.epoch, none) := scanFrom_end _ (by simp [startScan])
  rw [← ha] at hfiles
  have := Consistent.active (a := a') hcur hfiles hclean hhead hmin hscan
    (by rw [hbuf', hbuf, append_nil]; exact hscan) (by rw [hbuf', hbuf]; simp)
    (by rw [hlast, ← hprev]; rfl) (by rw [hepoch]; exact le_rfl)
  simpa [startScan] using this

end

end Consistent

/-! ### The writer thread -/

/-- The records replay finds in the files. -/
def recordsOf (C : Codec) (shardId : Nat) (d : SegmentDir) : List TxRecord := (replay C shardId d).1.map Prod.snd

/-- A watermark that was published is that of a known record, and every record up to it is read
back, from the files of that moment and from those of now. -/
def Acked (C : Codec) (shardId : Nat) (records : List TxRecord) (a : Actor) : Prop :=
  ∀ p ∈ a.written, ∀ t, p.state = .durable (some t) → (∃ r ∈ records, r.txId = t) ∧
    ∀ r ∈ records, r.txId ≤ t → r ∈ recordsOf C shardId p.dir ∧ r ∈ recordsOf C shardId a.dir

/-- No failure has been published on the `written` channel. -/
def Healthy (a : Actor) : Prop := ∀ p ∈ a.written, p.state ≠ .failed

/-- The writer in its command loop: `vs` is written or buffered, `pending` is still to come. Every
file is named after a transaction not beyond the pending ones, and so that `Named` holds. -/
structure ActorOk (C : Codec) (shardId : Nat) (records : List TxRecord) (Named : Nat → Prop) (a : Actor)
    (vs : List (Nat × TxRecord)) (pending : List TxRecord) : Prop where
  consistent : Consistent C shardId a vs
  u64 : a.epoch < 2 ^ 64
  known : vs.map Prod.snd ++ pending = records
  acked : Acked C shardId records a
  healthy : Healthy a
  names : ∀ n ∈ a.dir.names, ∀ r ∈ pending, n ≤ r.txId
  named : ∀ n ∈ a.dir.names, Named n

/-- The writer after a failure: what was published is still on disk, and if frames are buffered, the
active file is the last one. -/
structure Halted (C : Codec) (shardId : Nat) (records : List TxRecord) (a : Actor) : Prop where
  acked : Acked C shardId records a
  healthy : Healthy a
  active : a.buf ≠ [] → ∃ seg pre bytes, a.current = some seg ∧ a.dir.files = pre ++ [(seg.name, bytes)]

theorem Acked.grow {records : List TxRecord} {a a' : Actor} (h : Acked C shardId records a)
    (hw : a'.written = a.written)
    (hdir : (replay C shardId a.dir).1 <+: (replay C shardId a'.dir).1) : Acked C shardId records a' := by
  intro p hp t ht
  obtain ⟨hmark, hread⟩ := h p (hw ▸ hp) t ht
  refine ⟨hmark, fun r hr hle => ?_⟩
  obtain ⟨hpub, hnow⟩ := hread r hr hle
  exact ⟨hpub, (hdir.map Prod.snd).subset hnow⟩

theorem replay_prefix_append {d : SegmentDir} {pre : List (Nat × Bytes)}
    (h : d.files = pre ++ [(name, bytes)]) (more : Bytes) :
    (replay C shardId d).1 <+: (replay C shardId (d.append name more)).1 := by
  unfold replay
  rw [SegmentDir.append, SegmentDir.files_update_last h, h]
  exact replayLoop_prefix_append ..

theorem names_append (d : SegmentDir) (name : Nat) (bytes : Bytes) : (d.append name bytes).names = d.names := by
  change ((d.files.map _).map Prod.fst) = _
  rw [map_map]
  apply map_congr_left
  intro x _
  simp only [Function.comp_apply]
  split <;> rfl

section

variable {records : List TxRecord} {Named : Nat → Prop} {a a' : Actor} {vs : List (Nat × TxRecord)} {pending : List TxRecord}

theorem ActorOk.congr (h : ActorOk C shardId records Named a vs pending) (hdir : a'.dir = a.dir)
    (hcur : a'.current = a.current) (hbuf : a'.buf = a.buf) (hlast : a'.lastWritten = a.lastWritten)
    (hepoch : a.epoch ≤ a'.epoch) (hu64 : a'.epoch < 2 ^ 64) (hw : a'.written = a.written) :
    ActorOk C shardId records Named a' vs pending where
  consistent := h.consistent.congr hdir hcur hbuf hlast hepoch
  u64 := hu64
  known := h.known
  acked := h.acked.grow hw (by rw [hdir])
  healthy := by
    unfold Healthy
    rw [hw]
    exact h.healthy
  names := hdir ▸ h.names
  named := hdir ▸ h.named

theorem ActorOk.halted (h : ActorOk C shardId records Named a vs pending) : Halted C shardId records a where
  acked := h.acked
  healthy := h.healthy
  active := by
    intro hbuf
    cases hcur : a.current with
    | none =>
      cases h.consistent with
      | empty _ _ hb => exact absurd hb hbuf
      | active h₁ => simp [h₁] at hcur
    | some seg =>
      obtain ⟨pre, bytes, hfiles⟩ := h.consistent.files hcur
      exact ⟨seg, pre, bytes, rfl, hfiles⟩

theorem nextIo_ok (h : a.nextIo = (.ok, a')) : ∃ io, a' = { a with io } := by
  unfold Actor.nextIo at h
  split at h
  · exact ⟨a.io, (Prod.mk.inj h).2.symm⟩
  · exact ⟨_, (Prod.mk.inj h).2.symm⟩

theorem nextIo_fail {n : Nat} (h : a.nextIo = (.fail n, a')) : ∃ io, a' = { a with io } := by
  unfold Actor.nextIo at h
  split at h
  · simp at h
  · exact ⟨_, (Prod.mk.inj h).2.symm⟩

/-- A successful write moves the watermark to the last record, and the files now hold all of them. -/
theorem ActorOk.write (hsorted : records.Pairwise (·.txId < ·.txId))
    (h : ActorOk C shardId records Named a vs pending) (hcur : a.current = some seg) (io : List Io) :
    ActorOk C shardId records Named
      (Actor.publish { a with io, dir := a.dir.append seg.name a.buf, buf := [] } (.durable a.lastWritten)) vs pending := by
  have hcons : Consistent C shardId
      (Actor.publish { a with io, dir := a.dir.append seg.name a.buf, buf := [] } (.durable a.lastWritten)) vs :=
    h.consistent.flushed hcur rfl rfl rfl rfl rfl
  have hrep : replay C shardId (a.dir.append seg.name a.buf) = (vs, none) := hcons.replay_eq rfl
  obtain ⟨pre, bytes, hfiles⟩ := h.consistent.files hcur
  have hgrow : (replay C shardId a.dir).1 <+: (replay C shardId (a.dir.append seg.name a.buf)).1 :=
    replay_prefix_append hfiles a.buf
  refine ⟨hcons, h.u64, h.known, ?_, ?_, ?_, ?_⟩
  · intro p hp t ht
    rcases mem_cons.mp hp with rfl | hp
    · have hlast : lastId vs = some t := by
        rw [← h.consistent.lastWritten]
        exact DurableState.durable.inj ht
      refine ⟨?_, fun r hr hle => ?_⟩
      · obtain ⟨x, hx, rfl⟩ := Option.map_eq_some_iff.mp hlast
        refine ⟨x.2, ?_, rfl⟩
        rw [← h.known]
        exact mem_append_left _ (mem_map_of_mem (mem_of_getLast? hx))
      · have hmem : r ∈ recordsOf C shardId (a.dir.append seg.name a.buf) := by
          unfold recordsOf
          rw [hrep]
          -- in increasing order, a record up to the last one written has been written
          rw [← h.known] at hr hsorted
          rcases mem_append.mp hr with hr | hr
          · exact hr
          · obtain ⟨x, hx, rfl⟩ := Option.map_eq_some_iff.mp hlast
            have := (pairwise_append.mp hsorted).2.2 x.2 (mem_map_of_mem (mem_of_getLast? hx)) r hr
            omega
        exact ⟨hmem, hmem⟩
    · obtain ⟨hmark, hread⟩ := h.acked p hp t ht
      refine ⟨hmark, fun r hr hle => ?_⟩
      obtain ⟨hpub, hnow⟩ := hread r hr hle
      exact ⟨hpub, (hgrow.map Prod.snd).subset hnow⟩
  · intro p hp
    rcases mem_cons.mp hp with rfl | hp
    · simp
    · exact h.healthy p hp
  · exact (names_append a.dir seg.name a.buf).symm ▸ h.names
  · exact (names_append a.dir seg.name a.buf).symm ▸ h.named

/-- Whatever part of the buffer a failed write leaves in the last file, nothing is taken away. -/
theorem Halted.write (h : Halted C shardId records a) (hcur : a.current = some seg)
    (hbuf : a.buf ≠ []) (io : List Io) (bytes : Bytes) :
    Halted C shardId records { a with io, dir := a.dir.append seg.name bytes } := by
  obtain ⟨seg', pre, b, hcur', hfiles⟩ := h.active hbuf
  cases hcur.symm.trans hcur'
  refine ⟨h.acked.grow rfl (replay_prefix_append hfiles bytes), h.healthy, fun _ => ?_⟩
  exact ⟨seg, pre, b ++ bytes, hcur, SegmentDir.files_update_last hfiles _⟩

theorem ends_flushWritten (hsorted : records.Pairwise (·.txId < ·.txId))
    (h : ActorOk C shardId records Named a vs pending) :
    Ends (Halted C shardId records) (flushWritten a) fun a' =>
      ActorOk C shardId records Named a' vs pending ∧ a'.buf = [] ∧ a'.epoch = a.epoch := by
  unfold flushWritten
  split
  · rename_i hcur
    cases h.consistent with
    | empty _ _ hbuf => exact ⟨h, hbuf, rfl⟩
    | active h₁ => simp [h₁] at hcur
  rename_i seg hcur
  split
  · rename_i hbuf
    exact ⟨h, hbuf, rfl⟩
  rename_i hbuf
  split
  · rename_i b hio
    obtain ⟨io, rfl⟩ := nextIo_ok hio
    exact ⟨h.write hsorted hcur io, rfl, rfl⟩
  · rename_i n b hio
    obtain ⟨io, rfl⟩ := nextIo_fail hio
    exact h.halted.write hcur hbuf io _

theorem publishDurable_eq (a : Actor) (mark : Option Nat) :
    ∃ watch, a.publishDurable mark = { a with watch } ∧ (a.watch = .failed → watch = .failed) := by
  unfold Actor.publishDurable
  split
  · rename_i hw
    split
    · exact ⟨_, rfl, by simp [hw]⟩
    · exact ⟨a.watch, rfl, id⟩
  · exact ⟨a.watch, rfl, id⟩

theorem publishDurable_failed (mark : Option Nat) (h : a.watch = .failed) : (a.publishDurable mark).watch = .failed := by
  obtain ⟨watch, hw, hfailed⟩ := publishDurable_eq a mark
  rw [hw]
  exact hfailed h

@[simp] theorem publishDurable_frame (a : Actor) (mark : Option Nat) :
    (a.publishDurable mark).dir = a.dir ∧ (a.publishDurable mark).buf = a.buf ∧
      (a.publishDurable mark).current = a.current ∧ (a.publishDurable mark).epoch = a.epoch ∧
      (a.publishDurable mark).written = a.written := by
  obtain ⟨watch, h, -⟩ := publishDurable_eq a mark
  simp [h]

theorem ActorOk.publishDurable (h : ActorOk C shardId records Named a vs pending) (mark : Option Nat) :
    ActorOk C shardId records Named (a.publishDurable mark) vs pending := by
  obtain ⟨watch, hw, -⟩ := publishDurable_eq a mark
  rw [hw]
  exact h.congr rfl rfl rfl rfl le_rfl h.u64 rfl

theorem ends_flushSync (hsorted : records.Pairwise (·.txId < ·.txId))
    (h : ActorOk C shardId records Named a vs pending) :
    Ends (Halted C shardId records) (flushSync a) fun a' =>
      ActorOk C shardId records Named a' vs pending ∧ a'.buf = [] ∧ a'.epoch = a.epoch := by
  refine (ends_flushWritten hsorted h).bind fun b ⟨hb, hbuf, hepoch⟩ => ?_
  split
  · exact ⟨hb, hbuf, hepoch⟩
  split
  · rename_i n b' hio
    obtain ⟨io, rfl⟩ := nextIo_fail hio
    have hb' : ActorOk C shardId records Named { b with io } vs pending :=
      hb.congr rfl rfl rfl rfl le_rfl hb.u64 rfl
    exact hb'.halted
  · rename_i b' hio
    obtain ⟨io, rfl⟩ := nextIo_ok hio
    refine ⟨ActorOk.publishDurable ?_ _, by simpa using hbuf, by simpa using hepoch⟩
    exact hb.congr rfl rfl rfl rfl le_rfl hb.u64 rfl

theorem replay_prefix_create {d d' : SegmentDir} (hmax : ∀ n ∈ d.names, n ≤ name)
    (h : d.create name bytes = some d') : (replay C shardId d).1 <+: (replay C shardId d').1 := by
  unfold replay
  rw [SegmentDir.files_create_max hmax h]
  exact replayLoop_prefix_add ..

variable {record : TxRecord} {rest : List TxRecord}

section

variable (h : ActorOk C shardId records Named a vs (record :: rest))
include h

theorem ends_createSegment (hbuf : a.buf = [])
    (hsorted : records.Pairwise (·.txId < ·.txId)) (hnamed : Named record.txId) :
    Ends (Halted C shardId records) (createSegment C a record.txId) fun a' =>
      ActorOk C shardId records Named a' vs (record :: rest) ∧ a'.epoch = a.epoch ∧ ∃ seg, a'.current = some seg := by
  have hmax : ∀ n ∈ a.dir.names, n ≤ record.txId := fun n hn => h.names n hn record (by simp)
  -- the records to come are after this one
  have hafter : ∀ r ∈ record :: rest, record.txId ≤ r.txId := by
    rw [← h.known] at hsorted
    intro r hr
    rcases mem_cons.mp hr with rfl | hr
    · exact le_rfl
    · exact ((pairwise_cons.mp (pairwise_append.mp hsorted).2.1).1 r hr).le
  have hhalt : ∀ io dir, (replay C shardId a.dir).1 <+: (replay C shardId dir).1 →
      Halted C shardId records { a with io, dir } := fun io dir hgrow =>
    ⟨h.acked.grow rfl hgrow, h.healthy, fun hb => absurd hbuf hb⟩
  unfold createSegment
  split
  · rename_i b hio
    obtain ⟨io, rfl⟩ := nextIo_ok hio
    split
    · rename_i dir hdir
      have hnames : dir.names = a.dir.names ++ [record.txId] := by
        simp [SegmentDir.names, SegmentDir.files_create_max hmax hdir]
      refine ⟨⟨h.consistent.created hbuf h.u64 hmax hdir rfl rfl rfl rfl rfl, h.u64, h.known,
        h.acked.grow rfl (replay_prefix_create hmax hdir), h.healthy, ?_, ?_⟩, rfl, _, rfl⟩
      · intro n hn r hr
        rw [hnames, mem_append, mem_singleton] at hn
        rcases hn with hn | rfl
        · exact h.names n hn r hr
        · exact hafter r hr
      · intro n hn
        change n ∈ dir.names at hn
        rw [hnames, mem_append, mem_singleton] at hn
        rcases hn with hn | rfl
        · exact h.named n hn
        · exact hnamed
    · exact hhalt io a.dir prefix_rfl
  · rename_i b hio
    obtain ⟨io, rfl⟩ := nextIo_fail hio
    exact hhalt io a.dir prefix_rfl
  · rename_i n b hio
    obtain ⟨io, rfl⟩ := nextIo_fail hio
    split
    · rename_i dir hdir
      exact hhalt io dir (replay_prefix_create hmax hdir)
    · exact hhalt io a.dir prefix_rfl

section

variable (hsorted : records.Pairwise (·.txId < ·.txId))
include hsorted

theorem ends_rotate (hnamed : Named record.txId) :
    Ends (Halted C shardId records) (rotate C segmentMaxBytes a record.txId) fun a' =>
      ActorOk C shardId records Named a' vs (record :: rest) ∧ a'.epoch = a.epoch ∧ ∃ seg, a'.current = some seg := by
  unfold rotate
  split
  · rename_i hcur
    have hbuf : a.buf = [] := by
      cases h.consistent with
      | empty _ _ hbuf => exact hbuf
      | active h₁ => simp [h₁] at hcur
    exact ends_createSegment h hbuf hsorted hnamed
  · rename_i seg hcur
    split
    · refine (ends_flushSync hsorted h).bind fun b ⟨hb, hbuf, hepoch⟩ => ?_
      exact (ends_createSegment hb hbuf hsorted hnamed).mono fun b' ⟨hb', he, hseg⟩ => ⟨hb', he.trans hepoch, hseg⟩
    · exact ⟨h, rfl, seg, hcur⟩

theorem ActorOk.buffer {body : Bytes} (hcur : a.current = some seg) (henc : C.encode record = some body)
    (hbody : body.length ≤ maxBodyLen) (hshard : record.shardId = shardId) :
    ActorOk C shardId records Named (CommitLog.buffer a seg (frame C a.epoch body) record.txId)
      (vs ++ [(a.epoch, record)]) rest := by
  have horder : ∀ p ∈ a.lastWritten, p < record.txId := by
    intro p hp
    rw [h.consistent.lastWritten] at hp
    obtain ⟨x, hx, rfl⟩ := Option.map_eq_some_iff.mp hp
    rw [← h.known] at hsorted
    exact (pairwise_append.mp hsorted).2.2 x.2 (mem_map_of_mem (mem_of_getLast? hx)) record (by simp)
  refine ⟨h.consistent.buffer hcur h.u64 henc hbody hshard horder, h.u64, ?_, h.acked, h.healthy, ?_, h.named⟩
  · rw [← h.known]
    simp
  · exact fun n hn r hr => h.names n hn r (mem_cons_of_mem _ hr)

theorem ends_writeRecord (hnamed : Named record.txId) (hshard : record.shardId = shardId) :
    Ends (Halted C shardId records) (writeRecord C segmentMaxBytes a record) fun a' =>
      ∃ vs', ActorOk C shardId records Named a' vs' rest := by
  unfold writeRecord
  split
  · exact h.halted
  rename_i fr hfr
  obtain ⟨body, henc, hentry⟩ := Option.bind_eq_some_iff.mp hfr
  unfold encodeEntry at hentry
  split at hentry
  case isFalse => simp at hentry
  rename_i hbody
  refine (ends_rotate h hsorted hnamed).bind fun b ⟨hb, hepoch, seg, hseg⟩ => ?_
  rw [hseg]
  -- the rotation has not changed the epoch the frame was made under
  rw [← Option.some.inj hentry, ← hepoch]
  exact ⟨_, hb.buffer hsorted hseg henc hbody hshard⟩

end

end

def cmdRecords (cmds : List Cmd) : List TxRecord :=
  cmds.filterMap fun
    | .append record => some record
    | .setEpoch _ => none

@[simp] theorem cmdRecords_append (cmds cmds' : List Cmd) :
    cmdRecords (cmds ++ cmds') = cmdRecords cmds ++ cmdRecords cmds' := filterMap_append

/-- Commands as the door lets them through: records of this shard, epochs of 64 bits. -/
def CmdOk (shardId : Nat) (Named : Nat → Prop) : Cmd → Prop
  | .append record => record.shardId = shardId ∧ Named record.txId
  | .setEpoch epoch => epoch < 2 ^ 64

theorem ends_processLoop (segmentMaxBytes : Nat) (hsorted : records.Pairwise (·.txId < ·.txId)) :
    ∀ (cmds : List Cmd) (wrote : Bool) (a : Actor) (vs : List (Nat × TxRecord)),
      ActorOk C shardId records Named a vs (cmdRecords cmds ++ pending) → (wrote = false → a.buf = []) →
      (∀ cmd ∈ cmds, CmdOk shardId Named cmd) →
      Ends (Halted C shardId records) (processLoop C segmentMaxBytes cmds wrote a) fun a' =>
        a'.buf = [] ∧ ∃ vs', ActorOk C shardId records Named a' vs' pending
  | [], false, a, vs, h, hbuf, _ => ⟨hbuf rfl, vs, h⟩
  | [], true, a, vs, h, _, _ => by
    refine (ends_flushWritten hsorted h).bind fun b ⟨hb, hbuf, _⟩ => ?_
    exact ⟨hbuf, vs, hb.congr rfl rfl rfl rfl le_rfl hb.u64 rfl⟩
  | .append record :: cmds, wrote, a, vs, h, _, hok => by
    obtain ⟨hshard, hnamed⟩ := hok (.append record) (by simp)
    refine (ends_writeRecord h hsorted hnamed hshard).bind fun b ⟨vs', hb⟩ => ?_
    exact ends_processLoop segmentMaxBytes hsorted cmds true b vs' hb (by simp) fun cmd hcmd => hok cmd (List.mem_cons_of_mem _ hcmd)
  | .setEpoch epoch :: cmds, wrote, a, vs, h, hbuf, hok => by
    have hu64 : epoch < 2 ^ 64 := hok (.setEpoch epoch) (by simp)
    have hflush : Ends (Halted C shardId records) (flushIf wrote a) fun b =>
        ActorOk C shardId records Named b vs (cmdRecords cmds ++ pending) ∧ b.buf = [] := by
      cases wrote with
      | false => exact ⟨h, hbuf rfl⟩
      | true => exact (ends_flushSync hsorted h).mono fun b ⟨hb, hbbuf, _⟩ => ⟨hb, hbbuf⟩
    refine hflush.bind fun b ⟨hb, hbbuf⟩ => ?_
    apply ends_processLoop segmentMaxBytes hsorted cmds false _ vs
    · split
      · exact hb.congr rfl rfl rfl rfl le_rfl hb.u64 rfl
      · exact hb.congr rfl rfl rfl rfl (by show b.epoch ≤ epoch; omega) hu64 rfl
    · intro _
      split <;> exact hbbuf
    · exact fun cmd hcmd => hok cmd (mem_cons_of_mem _ hcmd)

end

end CommitLog
end Fluxum
