/-
# The durable watermark

Over every interleaving of the writer and the syncer, every accepted record up
to the published watermark was written to a segment file before an fsync of
that file completed.

* `watermark_honest_iff`: this covers the records that recovery found exactly if
  they were fsynced before.
* `reopened_watermark_overstates`: a log is opened with the watermark of the
  last of them, whether or not anything was fsynced since they were written.
-/
import Fluxum.CommitLog.Durability
import Fluxum.CommitLog.Threads

namespace Fluxum
namespace CommitLog

open Bytes Outcome List Option

/-! ### What the writer thread keeps -/

/-- The records an operation is still to put into the buffer. -/
def WriterOp.records : WriterOp → List TxRecord
  | .cmds rest _ => cmdRecords rest
  | .writeRecord record => [record]
  | .buffer record _ => [record]
  | _ => []

def opsRecords (ops : List WriterOp) : List TxRecord := ops.flatMap WriterOp.records

/-- The operations come in an order in which nothing is fsynced or handed over with frames in the
buffer (`clean`), and no mark is published and no segment left before all of it is fsynced (`synced`).
Nothing comes after the end of the command loop. -/
def InStep : Bool → Bool → List WriterOp → Prop
  | _, _, [] => True
  | _, synced, .write :: ops => InStep true synced ops
  | clean, _, .fsync :: ops => clean ∧ InStep clean true ops
  | clean, _, .handoff :: ops => clean ∧ InStep false false ops
  | clean, synced, .publishDurable :: ops => synced ∧ InStep clean synced ops
  | clean, synced, .createSegment _ :: ops => synced ∧ InStep clean synced ops
  | _, _, .buffer _ frame :: ops => frame ≠ [] ∧ InStep false false ops
  | _, _, .cmds _ _ :: ops => InStep false false ops
  | _, _, .writeRecord _ :: ops => InStep false false ops
  | _, _, .close :: ops => ops = []
  | clean, synced, _ :: ops => InStep clean synced ops

/-- Whose records are still to come: those of the operations and of the queue, or after a failure none. -/
def Pending (t : Threads) (rest : List TxRecord) (ops : List WriterOp) : Prop :=
  rest = opsRecords ops ++ cmdRecords t.queue ∨ opsRecords ops = [] ∧ (t.phase ≠ .running ∨ .close ∈ ops)

/-- Operations before others, in an order that is in step with what is buffered and fsynced. -/
def Ordered (t : Threads) (done : List TxRecord) (ops : List WriterOp) : Prop :=
  ∃ clean synced, InStep clean synced ops ∧ (clean = true → t.buffered = []) ∧
    (synced = true → ∀ r ∈ done, Fsynced r t.history)

/-- The writer thread: of the accepted records, `done` went through the buffer and `rest` did not. -/
structure WriterOk (base done rest : List TxRecord) (t : Threads) : Prop where
  base : ∀ r ∈ base, Fsynced r t.history
  split : t.appended = done ++ rest
  sorted : t.appended.Pairwise (·.txId < ·.txId)
  upTo : ∀ r ∈ t.appended, r.txId ≤ t.lastAppended
  last : ∀ p ∈ t.actor.lastWritten, p ≤ t.lastAppended
  beyond : ∀ r ∈ rest, ∀ p ∈ t.actor.lastWritten, p < r.txId
  placed : ∀ r ∈ done, r ∈ t.buffered ∨ (∃ seg ∈ t.actor.current, WroteIn seg.name r t.history) ∨ Fsynced r t.history
  empty : t.actor.buf = [] → t.buffered = []
  active : t.actor.current = none → t.buffered = []
  pending : Pending t rest t.ops
  ordered : Ordered t done t.ops

variable {C : Codec} {shardId segmentMaxBytes : Nat} {base done rest : List TxRecord} {t t' : Threads}
  {op : WriterOp} {ops new : List WriterOp}

theorem Pending.replace (new : List WriterOp) (h : Pending t rest (op :: ops)) (hop : op ≠ .close) (hnew : opsRecords new = op.records) :
    Pending t rest (new ++ ops) := by
  have heq : opsRecords (new ++ ops) = opsRecords (op :: ops) := by
    simp only [opsRecords, flatMap_append, flatMap_cons] at hnew ⊢
    rw [hnew]
  refine h.imp (fun h => by rw [heq]; exact h) ?_
  rintro ⟨hnil, hend⟩
  refine ⟨heq.trans hnil, hend.imp_right fun hmem => mem_append_right _ ?_⟩
  exact (mem_cons.mp hmem).resolve_left (Ne.symm hop)

section

variable (h : WriterOk base done rest t)
include h

theorem WriterOk.written (hclean : t.buffered = []) :
    ∀ r ∈ done, (∃ seg ∈ t.actor.current, WroteIn seg.name r t.history) ∨ Fsynced r t.history := by
  intro r hr
  rcases h.placed r hr with hbuf | hplaced
  · simp [hclean] at hbuf
  · exact hplaced

theorem WriterOk.mem_done {p : Nat} (hp : p ∈ t.actor.lastWritten) {r : TxRecord}
    (hr : r ∈ t.appended) (hle : r.txId ≤ p) : r ∈ done := by
  rw [h.split] at hr
  refine (mem_append.mp hr).resolve_right fun hrest => ?_
  have := h.beyond r hrest p hp
  omega

theorem WriterOk.later (events : List DiskEvent) :
    WriterOk base done rest { t with history := t.history ++ events } :=
  { h with
    base := fun r hr => (h.base r hr).append _
    placed := fun r hr => (h.placed r hr).imp_right fun h =>
      h.imp (fun ⟨seg, hseg, hw⟩ => ⟨seg, hseg, hw.append _⟩) (·.append _)
    ordered := by
      obtain ⟨clean, synced, hin, hclean, hsynced⟩ := h.ordered
      exact ⟨clean, synced, hin, hclean, fun hs r hr => (hsynced hs r hr).append _⟩ }

theorem WriterOk.actor {a : Actor} (hlast : a.lastWritten = t.actor.lastWritten)
    (hcur : a.current = t.actor.current) (hbuf : a.buf = t.actor.buf) :
    WriterOk base done rest { t with actor := a } :=
  { h with
    last := hlast ▸ h.last
    beyond := hlast ▸ h.beyond
    placed := hcur ▸ h.placed
    empty := hbuf ▸ h.empty
    active := hcur ▸ h.active }

theorem WriterOk.withOps (hp : Pending t rest new) (ho : Ordered t done new) :
    WriterOk base done rest { t with ops := new } :=
  { h with pending := hp, ordered := ho }

theorem WriterOk.abort : WriterOk base done rest t.abort := by
  refine h.withOps ?_ ?_
  · by_cases hphase : t.phase = .stopped
    · exact .inr ⟨by simp [opsRecords, WriterOp.records, hphase], .inl (by simp [hphase])⟩
    · exact .inr ⟨by simp [opsRecords, WriterOp.records, hphase], .inr (by simp [hphase])⟩
  · refine ⟨false, false, ?_, by simp, by simp⟩
    split <;> simp [InStep]

end

theorem opsRecords_flushOps (a : Actor) : opsRecords (flushOps a) = [] := by
  unfold flushOps
  split <;> rfl

theorem opsRecords_rotateOps (segmentMaxBytes : Nat) (a : Actor) (txId : Nat) : opsRecords (rotateOps segmentMaxBytes a txId) = [] := by
  unfold rotateOps flushOps
  split
  · rfl
  · split
    · split <;> rfl
    · rfl

theorem WriterOk.pop (h : WriterOk base done rest t) (hpend : Pending t rest (op :: ops)) (hop : op ≠ .close)
    (hrec : op.records = []) (ho : Ordered t done ops) : WriterOk base done rest { t with ops } :=
  h.withOps (hpend.replace [] hop hrec.symm) ho

theorem writerOk_cmds {cmds : List Cmd} {wrote : Bool} (h : WriterOk base done rest t)
    (hops : t.ops = .cmds cmds wrote :: ops) :
    WriterOk base done rest (exec C segmentMaxBytes t ops (.cmds cmds wrote)) := by
  have hpend := hops ▸ h.pending
  obtain ⟨clean, synced, hin, -, -⟩ := hops ▸ h.ordered
  have hordered : ∀ new, InStep false false new → Ordered t done new := fun new hnew =>
    ⟨false, false, hnew, by simp, by simp⟩
  match cmds, wrote with
  | [], false => exact h.pop hpend (by simp) rfl (hordered _ hin)
  | [], true =>
    exact h.withOps (hpend.replace [.write, .handoff] (by simp) rfl) (hordered _ ⟨rfl, hin⟩)
  | .append record :: cmds, wrote =>
    refine h.withOps (hpend.replace [.writeRecord record, .cmds cmds true] (by simp) ?_) (hordered _ hin)
    simp [opsRecords, WriterOp.records, cmdRecords]
  | .setEpoch epoch :: cmds, wrote =>
    have hnew : opsRecords ((if wrote then flushOps t.actor else []) ++ [.setEpoch epoch, .cmds cmds false]) =
        WriterOp.records (.cmds (.setEpoch epoch :: cmds) wrote) := by
      have hflush := opsRecords_flushOps t.actor
      simp only [opsRecords] at hflush
      cases wrote <;> simp [opsRecords, WriterOp.records, cmdRecords, hflush]
    have := hpend.replace _ (by simp) hnew
    rw [append_assoc] at this
    refine h.withOps this (hordered _ ?_)
    cases wrote
    · exact hin
    simp only [if_true, flushOps]
    split
    · exact hin
    · exact ⟨rfl, rfl, hin⟩

variable {record : TxRecord} {history : List DiskEvent} {mark : Option Nat} {d : SegmentDir} {epoch : Nat}

theorem writerOk_writeRecord (h : WriterOk base done rest t) (hops : t.ops = .writeRecord record :: ops) :
    WriterOk base done rest (exec C segmentMaxBytes t ops (.writeRecord record)) := by
  have hpend := hops ▸ h.pending
  obtain ⟨clean, synced, hin, -, -⟩ := hops ▸ h.ordered
  simp only [exec]
  split
  · exact h.abort
  rename_i frame hframe
  have hne : frame ≠ [] := by
    obtain ⟨body, -, hentry⟩ := bind_eq_some_iff.mp hframe
    simp only [encodeEntry, ite_none_right_eq_some, some.injEq] at hentry
    rw [← hentry.2, ← length_pos_iff_ne_nil, length_frame, entryOverhead]
    omega
  have hnew : opsRecords (rotateOps segmentMaxBytes t.actor record.txId ++ [.buffer record frame]) =
      WriterOp.records (.writeRecord record) := by
    have hrot := opsRecords_rotateOps segmentMaxBytes t.actor record.txId
    simp only [opsRecords] at hrot
    simp [opsRecords, WriterOp.records, hrot]
  have := hpend.replace _ (by simp) hnew
  rw [append_assoc] at this
  refine h.withOps this ?_
  unfold rotateOps
  split
  · rename_i hcur
    refine ⟨false, true, ⟨rfl, hne, hin⟩, by simp, fun _ r hr => ?_⟩
    -- without an active file nothing was written that is not fsynced
    rcases h.written (h.active hcur) r hr with ⟨seg, hseg, -⟩ | hsynced
    · simp [hcur] at hseg
    · exact hsynced
  · rename_i seg hcur
    refine ⟨false, false, ?_, by simp, by simp⟩
    split
    · simp only [flushOps, hcur]
      exact ⟨rfl, rfl, rfl, hne, hin⟩
    · exact ⟨hne, hin⟩

theorem ends_createSegment_current (C : Codec) (a : Actor) (txId : Nat) :
    Ends (fun a' => ∃ dir io, a' = { a with dir, io }) (createSegment C a txId)
      (fun a' => ∃ dir io, a' = { a with dir, io, current := some ⟨txId, segmentHeaderLen⟩ }) := by
  unfold createSegment
  split
  · rename_i a' hio
    obtain ⟨io, rfl⟩ := nextIo_ok hio
    split <;> exact ⟨_, io, rfl⟩
  · rename_i a' hio
    obtain ⟨io, rfl⟩ := nextIo_fail hio
    exact ⟨_, io, rfl⟩
  · rename_i n a' hio
    obtain ⟨io, rfl⟩ := nextIo_fail hio
    split <;> exact ⟨_, io, rfl⟩

/-- An operation on a segment file. -/
def WriterOp.onFile : WriterOp → Bool
  | .createSegment _ | .write | .fsync => true
  | _ => false

/-- It fails, or it changes the file, what is buffered and the history. -/
inductive FileMove (ops : List WriterOp) (t : Threads) : Threads → Prop
  | fails (dir io) : FileMove ops t { t with actor := { t.actor with dir, io } }.abort
  | done (dir io written buf current buffered) {history events} (h : history = t.history ++ events) :
    FileMove ops t { t with actor := { t.actor with dir, io, written, buf, current }, buffered, history, ops }

theorem exec_onFile (hop : op.onFile = true) : FileMove ops t (exec C segmentMaxBytes t ops op) := by
  cases op with
  | createSegment txId =>
    have hframe := ends_createSegment_current C t.actor txId
    simp only [exec]
    split
    · rename_i a hres
      obtain ⟨dir, io, rfl⟩ := hframe.of_error hres
      exact .fails dir io
    · rename_i a hres
      obtain ⟨dir, io, rfl⟩ := hframe.of_ok hres
      exact .done dir io _ _ _ _ rfl
  | write =>
    have hframe := ends_flushWritten_buf (a := t.actor)
    simp only [exec, Threads.write]
    split
    · rename_i a hres
      obtain ⟨dir, io, rfl⟩ := hframe.of_error hres
      exact .fails dir io
    · rename_i a hres _
      obtain ⟨dir, io, written, buf, rfl⟩ := hframe.of_ok hres
      exact .done dir io written buf _ _ (append_nil _).symm
    · rename_i a seg hres _
      obtain ⟨dir, io, written, buf, rfl⟩ := hframe.of_ok hres
      split
      · exact .done dir io written buf _ _ (append_nil _).symm
      · exact .done dir io written buf _ _ rfl
  | fsync =>
    simp only [exec]
    split
    · rename_i n a hio
      obtain ⟨io, rfl⟩ := nextIo_fail hio
      exact .fails _ io
    · rename_i a hio
      obtain ⟨io, rfl⟩ := nextIo_ok hio
      exact .done _ io _ _ _ _ rfl
  | _ => cases hop

section

variable (h : WriterOk base done rest t)
include h

theorem writerOk_createSegment {txId : Nat} (hops : t.ops = .createSegment txId :: ops) :
    WriterOk base done rest (exec C segmentMaxBytes t ops (.createSegment txId)) := by
  have hpend := hops ▸ h.pending
  obtain ⟨clean, synced, ⟨rfl, hin⟩, hclean, hsynced⟩ := hops ▸ h.ordered
  have hframe := ends_createSegment_current C t.actor txId
  simp only [exec]
  split
  · rename_i a hres
    obtain ⟨dir, io, rfl⟩ := hframe.of_error hres
    exact WriterOk.abort (h.actor (by rfl) (by rfl) (by rfl))
  · rename_i a hres
    obtain ⟨dir, io, rfl⟩ := hframe.of_ok hres
    have hlater := h.later [.fsynced txId]
    have hsynced' : ∀ r ∈ done, Fsynced r (t.history ++ [.fsynced txId]) := fun r hr => (hsynced rfl r hr).append _
    exact
      { hlater with
        placed := fun r hr => .inr (.inr (hsynced' r hr))
        active := by simp
        pending := hpend.replace [] (by simp) rfl
        ordered := ⟨clean, true, hin, hclean, fun _ => hsynced'⟩ }

theorem writerOk_buffer {frame : Bytes} (hops : t.ops = .buffer record frame :: ops) :
    ∃ done' rest', WriterOk base done' rest' (exec C segmentMaxBytes t ops (.buffer record frame)) := by
  have hpend := hops ▸ h.pending
  obtain ⟨clean, synced, ⟨hne, hin⟩, -, -⟩ := hops ▸ h.ordered
  simp only [exec]
  split
  · exact ⟨done, rest, h.abort⟩
  rename_i seg hcur
  -- the record is the next of those still to come
  obtain ⟨rest', rfl, hrest'⟩ : ∃ rest', rest = record :: rest' ∧ rest' = opsRecords ops ++ cmdRecords t.queue := by
    rcases hpend with hrest | ⟨hnil, -⟩
    · exact ⟨_, by simpa [opsRecords, WriterOp.records] using hrest, rfl⟩
    · simp [opsRecords, WriterOp.records] at hnil
  have hsorted := h.sorted
  rw [h.split, pairwise_append, pairwise_cons] at hsorted
  refine ⟨done ++ [record], rest', ?_⟩
  exact
    { h with
      split := by simp [h.split]
      last := by
        intro p hp
        obtain rfl : record.txId = p := by simpa [buffer] using hp
        exact h.upTo record (by simp [h.split])
      beyond := by
        intro r hr p hp
        obtain rfl : record.txId = p := by simpa [buffer] using hp
        exact hsorted.2.1.1 r hr
      placed := by
        intro r hr
        rcases mem_append.mp hr with hr | hr
        · rcases h.placed r hr with hbuf | ⟨seg', hseg', hw⟩ | hs
          · exact .inl (mem_append_left _ hbuf)
          · obtain rfl : seg = seg' := by simpa [hcur] using hseg'
            exact .inr (.inl ⟨_, rfl, hw⟩)
          · exact .inr (.inr hs)
        · exact .inl (mem_append_right _ hr)
      empty := fun hnil => by simp [buffer, hne] at hnil
      active := by simp [buffer]
      pending := .inl hrest'
      ordered := ⟨false, false, hin, by simp, by simp⟩ }

theorem writerOk_write (hops : t.ops = .write :: ops) :
    WriterOk base done rest (t.write ops) := by
  have hpend := hops ▸ h.pending
  obtain ⟨clean, synced, hin, -, hsynced⟩ := hops ▸ h.ordered
  have hframe := ends_flushWritten_buf (a := t.actor)
  -- with nothing to write, nothing is buffered
  have hidle : ∀ a : Actor, a.lastWritten = t.actor.lastWritten → a.current = t.actor.current → a.buf = t.actor.buf →
      t.buffered = [] → WriterOk base done rest { t with actor := a, ops } := by
    intro a hlast hcur hbuf hnil
    have hpop := h.pop hpend (by simp) rfl ⟨true, synced, hin, fun _ => hnil, hsynced⟩
    exact hpop.actor hlast hcur hbuf
  unfold Threads.write
  split
  · rename_i a hres
    obtain ⟨dir, io, rfl⟩ := hframe.of_error hres
    exact WriterOk.abort (h.actor (by rfl) (by rfl) (by rfl))
  · rename_i a hres hcur
    have hsame : a = t.actor := by simpa [flushWritten, hcur] using hres.symm
    rw [hsame]
    exact hidle t.actor rfl rfl rfl (h.active hcur)
  · rename_i a seg hres hcur
    split
    · rename_i hbuf
      have hsame : a = t.actor := by simpa [flushWritten, hcur, hbuf] using hres.symm
      rw [hsame]
      exact hidle t.actor rfl rfl rfl (h.empty hbuf)
    · rename_i hbuf
      obtain ⟨dir, io, written, buf, ha⟩ := hframe.of_ok hres
      have hlater := h.later [.wrote seg.name t.buffered]
      exact
        { hlater with
          last := by rw [ha]; exact h.last
          beyond := by rw [ha]; exact h.beyond
          placed := by
            intro r hr
            refine .inr ?_
            rcases h.placed r hr with hmem | ⟨seg', hseg', hw⟩ | hs
            · exact .inl ⟨seg, by rw [ha]; exact hcur, t.buffered, by simp, hmem⟩
            · exact .inl ⟨seg', by rw [ha]; exact hseg', hw.append _⟩
            · exact .inr (hs.append _)
          empty := fun _ => rfl
          active := fun _ => rfl
          pending := hpend.replace [] (by simp) rfl
          ordered := ⟨true, synced, hin, fun _ => rfl, fun hs r hr => (hsynced hs r hr).append _⟩ }

/-- With nothing buffered, an fsync of the active file covers all that was written. -/
theorem WriterOk.fsynced (hclean : t.buffered = []) :
    ∀ r ∈ done, Fsynced r (t.history ++ fsyncedEvents t.actor) := by
  intro r hr
  rcases h.written hclean r hr with ⟨seg, hseg, hw⟩ | hs
  · rw [fsyncedEvents, mem_def.mp hseg]
    exact fsynced_of_wroteIn hw
  · exact hs.append _

theorem writerOk_fsync (hops : t.ops = .fsync :: ops) :
    WriterOk base done rest (exec C segmentMaxBytes t ops .fsync) := by
  have hpend := hops ▸ h.pending
  obtain ⟨clean, synced, ⟨rfl, hin⟩, hclean, -⟩ := hops ▸ h.ordered
  simp only [exec]
  split
  · rename_i n a hio
    obtain ⟨io, rfl⟩ := nextIo_fail hio
    exact WriterOk.abort (h.actor (by rfl) (by rfl) (by rfl))
  · rename_i a hio
    obtain ⟨io, rfl⟩ := nextIo_ok hio
    have hlater := h.later (fsyncedEvents t.actor)
    refine WriterOk.withOps (WriterOk.actor hlater (by rfl) (by rfl) (by rfl)) ?_ ?_
    · exact hpend.replace [] (by simp) rfl
    · exact ⟨true, true, hin, fun _ => hclean rfl, fun _ => h.fsynced (hclean rfl)⟩

/-- The writer thread's operations keep what it keeps. -/
theorem writerOk_exec (hops : t.ops = op :: ops) :
    ∃ done' rest', WriterOk base done' rest' (exec C segmentMaxBytes t ops op) := by
  have hpend := hops ▸ h.pending
  have hord := hops ▸ h.ordered
  obtain ⟨clean, synced, hin, hclean, hsynced⟩ := hord
  cases op with
  | cmds cmds wrote => exact ⟨done, rest, writerOk_cmds h hops⟩
  | writeRecord record => exact ⟨done, rest, writerOk_writeRecord h hops⟩
  | createSegment txId => exact ⟨done, rest, writerOk_createSegment h hops⟩
  | buffer record frame => exact writerOk_buffer h hops
  | write => exact ⟨done, rest, writerOk_write h hops⟩
  | fsync => exact ⟨done, rest, writerOk_fsync h hops⟩
  | markSynced | fail | shutdown =>
    have hpop := h.pop hpend (by simp) rfl ⟨clean, synced, hin, hclean, hsynced⟩
    exact ⟨done, rest, hpop.actor rfl rfl rfl⟩
  | publishDurable =>
    have hpop := h.pop hpend (by simp) rfl ⟨clean, synced, hin.2, hclean, hsynced⟩
    obtain ⟨watch, hw, -⟩ := publishDurable_eq t.actor t.actor.lastWritten
    simp only [exec, hw]
    exact ⟨done, rest, hpop.actor rfl rfl rfl⟩
  | handoff =>
    have hpop := h.pop hpend (by simp) rfl ⟨false, false, hin.2, by simp, by simp⟩
    exact ⟨done, rest, hpop.actor rfl rfl rfl⟩
  | setEpoch epoch =>
    have hpop := h.pop hpend (by simp) rfl ⟨clean, synced, hin, hclean, hsynced⟩
    simp only [exec]
    split <;> exact ⟨done, rest, hpop.actor rfl rfl rfl⟩
  | close =>
    have hnil : ops = [] := hin
    refine ⟨done, rest, { h with pending := .inr ⟨?_, .inl (by simp [exec])⟩, ordered := ?_ }⟩
    · rw [exec, hnil]
      rfl
    · exact ⟨false, false, by simp [exec, hnil, InStep], by simp, by simp⟩

end

/-! ### What is published -/

/-- Every accepted record up to the mark is in the file, if there is one, or fsynced. -/
def CoveredBy (t : Threads) (file mark : Option Nat) : Prop :=
  ∀ p ∈ mark, p ≤ t.lastAppended ∧
    ∀ r ∈ t.appended, r.txId ≤ p → (∃ name ∈ file, WroteIn name r t.history) ∨ Fsynced r t.history

/-- What the syncer is about to publish. -/
def SyncerOk (t : Threads) : SyncerAt → Prop
  | .syncing handle target => CoveredBy t (some handle) target
  | .synced target | .marked target => CoveredBy t none target
  | _ => True

/-- The marks that are published, handed over and about to be published. -/
structure MarksOk (t : Threads) : Prop where
  watch : ∀ mark, t.actor.watch = .durable mark → CoveredBy t none mark
  cursor : ∀ handle ∈ t.actor.cursor.handle, CoveredBy t (some handle) t.actor.cursor.written
  syncer : SyncerOk t t.syncer

/-- No record is accepted between two states, and the history goes on. -/
structure Later (t t' : Threads) : Prop where
  appended : t'.appended = t.appended
  lastAppended : t'.lastAppended = t.lastAppended
  history : ∃ events, t'.history = t.history ++ events

theorem Later.of_eq (ha : t'.appended = t.appended := by rfl) (hl : t'.lastAppended = t.lastAppended := by rfl)
    (hh : t'.history = t.history := by rfl) : Later t t' :=
  ⟨ha, hl, [], by rw [hh, append_nil]⟩

theorem CoveredBy.later {file : Option Nat} (h : CoveredBy t file mark) (hl : Later t t') : CoveredBy t' file mark := by
  obtain ⟨events, hh⟩ := hl.history
  intro p hp
  rw [hl.appended, hl.lastAppended, hh]
  refine ⟨(h p hp).1, fun r hr hle => ((h p hp).2 r hr hle).imp ?_ (·.append _)⟩
  exact fun ⟨name, hname, hw⟩ => ⟨name, hname, hw.append _⟩

theorem SyncerOk.later {at_ : SyncerAt} (h : SyncerOk t at_) (hl : Later t t') : SyncerOk t' at_ := by
  cases at_ with
  | syncing | synced | marked => exact CoveredBy.later h hl
  | _ => trivial

/-- A step that publishes no mark, hands nothing over and leaves the syncer where it is. -/
structure Quiet (t t' : Threads) : Prop where
  later : Later t t'
  watch : t'.actor.watch = t.actor.watch ∨ t'.actor.watch = .failed
  handle : t'.actor.cursor.handle = t.actor.cursor.handle
  written : t'.actor.cursor.written = t.actor.cursor.written
  syncer : t'.syncer = t.syncer

theorem MarksOk.quiet (h : MarksOk t) (hq : Quiet t t') : MarksOk t' where
  watch := by
    intro mark hmark
    rcases hq.watch with hw | hw
    · exact (h.watch mark (hw ▸ hmark)).later hq.later
    · simp [hw] at hmark
  cursor := by
    rw [hq.handle, hq.written]
    exact fun handle hh => (h.cursor handle hh).later hq.later
  syncer := hq.syncer ▸ h.syncer.later hq.later

theorem Quiet.of_eq (hl : Later t t') (hwatch : t'.actor.watch = t.actor.watch) (hcursor : t'.actor.cursor = t.actor.cursor)
    (hsyncer : t'.syncer = t.syncer) : Quiet t t' :=
  ⟨hl, .inl hwatch, by rw [hcursor], by rw [hcursor], hsyncer⟩

theorem FileMove.quiet (h : FileMove ops t t') : Quiet t t' := by
  cases h with
  | fails => exact .of_eq .of_eq rfl rfl rfl
  | done _ _ _ _ _ _ h => exact .of_eq ⟨rfl, rfl, _, h⟩ rfl rfl rfl

theorem quiet_exec (hpub : op ≠ .publishDurable) (hhand : op ≠ .handoff) : Quiet t (exec C segmentMaxBytes t ops op) := by
  cases op with
  | cmds cmds wrote =>
    match cmds, wrote with
    | [], false | [], true | .append _ :: _, _ | .setEpoch _ :: _, _ => exact .of_eq .of_eq rfl rfl rfl
  | writeRecord record | buffer record frame | setEpoch epoch =>
    simp only [exec]
    split <;> exact .of_eq .of_eq rfl rfl rfl
  | createSegment | write | fsync => exact FileMove.quiet (exec_onFile rfl)
  | markSynced | close | shutdown => exact ⟨.of_eq, .inl rfl, rfl, rfl, rfl⟩
  | publishDurable => exact absurd rfl hpub
  | handoff => exact absurd rfl hhand
  | fail => exact ⟨.of_eq, .inr rfl, rfl, rfl, rfl⟩

theorem MarksOk.publishDurable (h : MarksOk t) (hmark : CoveredBy t none mark) (ops : List WriterOp)
    {syncer : SyncerAt} (hsyncer : SyncerOk t syncer) :
    MarksOk { t with actor := t.actor.publishDurable mark, ops, syncer } := by
  have hl : Later t { t with actor := t.actor.publishDurable mark, ops, syncer } := .of_eq
  refine ⟨?_, ?_, hsyncer.later hl⟩
  · intro m hm
    dsimp only [Actor.publishDurable] at hm
    split at hm
    · split at hm
      · obtain rfl := DurableState.durable.inj hm
        exact hmark.later hl
      · exact (h.watch m hm).later hl
    · exact (h.watch m hm).later hl
  · obtain ⟨watch, hw, -⟩ := publishDurable_eq t.actor mark
    rw [hw]
    exact fun handle hh => (h.cursor handle hh).later .of_eq

theorem marksOk_exec (hw : WriterOk base done rest t) (h : MarksOk t) (hops : t.ops = op :: ops) :
    MarksOk (exec C segmentMaxBytes t ops op) := by
  obtain ⟨clean, synced, hin, hclean, hsynced⟩ := hops ▸ hw.ordered
  by_cases hpub : op = .publishDurable
  · subst hpub
    obtain ⟨rfl, -⟩ := hin
    refine h.publishDurable ?_ ops h.syncer
    exact fun p hp => ⟨hw.last p hp, fun r hr hle => .inr (hsynced rfl r (hw.mem_done hp hr hle))⟩
  by_cases hhand : op = .handoff
  · subst hhand
    obtain ⟨rfl, -⟩ := hin
    have hl : Later t (exec C segmentMaxBytes t ops .handoff) := .of_eq
    refine ⟨fun mark hm => (h.watch mark hm).later hl, ?_, h.syncer.later hl⟩
    intro handle hh p hp
    obtain ⟨seg, hseg, rfl⟩ := map_eq_some_iff.mp hh
    refine ⟨hw.last p hp, fun r hr hle => ?_⟩
    rcases hw.written (hclean rfl) r (hw.mem_done hp hr hle) with ⟨seg', hseg', hwrote⟩ | hs
    · cases hseg.symm.trans hseg'
      exact .inl ⟨seg.name, rfl, hwrote⟩
    · exact .inr hs
  · exact h.quiet (quiet_exec hpub hhand)

/-- What a step of the syncer does. -/
inductive SyncerMove (t : Threads) : Threads → Prop
  /-- It goes where there is nothing to publish. -/
  | moves (syncer : SyncerAt) (h : ∀ t, SyncerOk t syncer) : SyncerMove t { t with syncer }
  | takes (handle : Nat) (h : handle ∈ t.actor.cursor.handle) :
    SyncerMove t { t with syncer := .syncing handle t.actor.cursor.written }
  | fsyncs (handle : Nat) (target : Option Nat) (h : t.syncer = .syncing handle target) :
    SyncerMove t { t with history := t.history ++ [.fsynced handle], syncer := .synced target }
  | marks (target : Option Nat) (h : t.syncer = .synced target) :
    SyncerMove t { t.markSynced target with syncer := .marked target }
  | publishes (target : Option Nat) (h : t.syncer = .marked target) :
    SyncerMove t { t with actor := t.actor.publishDurable target, syncer := .waiting }
  | fails : SyncerMove t { t with actor := { t.actor with watch := .failed }, syncer := .ending }
  | ends : SyncerMove t { t with
      actor := { t.actor with cursor := { t.actor.cursor with shutdown := true } }, syncer := .gone }

theorem syncerMove_of_step {ok : Bool} (hs : syncerStep t ok = some t') : SyncerMove t t' := by
  unfold syncerStep at hs
  split at hs <;> rename_i hat
  · split at hs
    · exact some.inj hs ▸ .moves .pausing fun _ => trivial
    · split at hs
      · exact some.inj hs ▸ .moves .gone fun _ => trivial
      · simp at hs
  · split at hs
    · exact some.inj hs ▸ .moves .waiting fun _ => trivial
    · rename_i handle hhandle
      exact some.inj hs ▸ .takes handle hhandle
  · split at hs
    · exact some.inj hs ▸ .fsyncs _ _ hat
    · exact some.inj hs ▸ .moves .failing fun _ => trivial
  · exact some.inj hs ▸ .marks _ hat
  · exact some.inj hs ▸ .publishes _ hat
  · exact some.inj hs ▸ .fails
  · exact some.inj hs ▸ .ends
  · simp at hs

theorem marksOk_syncer (h : MarksOk t) (hs : SyncerMove t t') : MarksOk t' := by
  -- the channel and the cursor stay as they are
  have hkeep : ∀ {t'}, Later t t' → t'.actor.watch = t.actor.watch → t'.actor.cursor.handle = t.actor.cursor.handle →
      t'.actor.cursor.written = t.actor.cursor.written → SyncerOk t' t'.syncer → MarksOk t' := by
    intro t' hl hwatch hhandle hwritten hok
    refine ⟨fun mark hm => (h.watch mark (hwatch ▸ hm)).later hl, ?_, hok⟩
    rw [hhandle, hwritten]
    exact fun handle hh => (h.cursor handle hh).later hl
  have hsyncer := h.syncer
  cases hs with
  | moves syncer hok => exact hkeep .of_eq rfl rfl rfl (hok _)
  | takes handle hh => exact hkeep .of_eq rfl rfl rfl ((h.cursor handle hh).later .of_eq)
  | fsyncs handle target hat =>
    rw [hat] at hsyncer
    refine hkeep ⟨rfl, rfl, _, rfl⟩ rfl rfl rfl fun p hp => ⟨(hsyncer p hp).1, fun r hr hle => .inr ?_⟩
    rcases (hsyncer p hp).2 r hr hle with ⟨name, ⟨⟩, hw⟩ | hs
    · exact fsynced_of_wroteIn hw
    · exact hs.append _
  | marks target hat =>
    rw [hat] at hsyncer
    exact hkeep .of_eq rfl rfl rfl (CoveredBy.later hsyncer .of_eq)
  | publishes target hat =>
    rw [hat] at hsyncer
    exact h.publishDurable hsyncer t.ops trivial
  | fails => exact ⟨by simp, fun handle hh => (h.cursor handle hh).later .of_eq, trivial⟩
  | ends => exact hkeep .of_eq rfl rfl rfl trivial

/-! ### The steps of the log -/

/-- What both threads keep, in a log opened over the records `base`. -/
def ThreadsOk (base : List TxRecord) (t : Threads) : Prop := ∃ done rest, WriterOk base done rest t ∧ MarksOk t

section

variable (h : ThreadsOk base t)
include h

theorem threadsOk_append
    (hs : threadStep C segmentMaxBytes shardId t (.append record) = some t') : ThreadsOk base t' := by
  obtain ⟨done, rest, hw, hm⟩ := h
  obtain ⟨⟨hphase, -, -, hlt⟩, rfl⟩ := Runs.of_guard hs
  -- the new record is beyond every mark
  have hbeyond : ∀ p, p ≤ t.lastAppended → ∀ r ∈ t.appended ++ [record], r.txId ≤ p → r ∈ t.appended := by
    intro p hp r hr hle
    refine (mem_append.mp hr).resolve_right fun hnew => ?_
    rw [mem_singleton.mp hnew] at hle
    omega
  have hcov : ∀ {file mark}, CoveredBy t file mark → CoveredBy { t with
      queue := t.queue ++ [.append record], lastAppended := record.txId, appended := t.appended ++ [record] } file mark :=
    fun h p hp => ⟨((h p hp).1.trans hlt.le), fun r hr hle => (h p hp).2 r (hbeyond p (h p hp).1 r hr hle) hle⟩
  refine ⟨done, rest ++ [record], ?_, ?_⟩
  · exact
      { hw with
        split := by simp [hw.split]
        sorted := by
          rw [pairwise_append]
          refine ⟨hw.sorted, pairwise_singleton .., fun r hr s hs => ?_⟩
          rw [mem_singleton.mp hs]
          exact lt_of_le_of_lt (hw.upTo r hr) hlt
        upTo := by
          intro r hr
          rcases mem_append.mp hr with hr | hr
          · exact (hw.upTo r hr).trans hlt.le
          · rw [mem_singleton.mp hr]
        last := fun p hp => (hw.last p hp).trans hlt.le
        beyond := by
          intro r hr p hp
          rcases mem_append.mp hr with hr | hr
          · exact hw.beyond r hr p hp
          · rw [mem_singleton.mp hr]
            exact lt_of_le_of_lt (hw.last p hp) hlt
        pending := by
          refine hw.pending.imp (fun hrest => ?_) id
          rw [hrest, cmdRecords_append, append_assoc]
          rfl }
  · refine ⟨fun mark hmark => hcov (hm.watch mark hmark), fun handle hh => hcov (hm.cursor handle hh), ?_⟩
    have hsyncer := hm.syncer
    cases hat : t.syncer with
    | syncing | synced | marked =>
      rw [hat] at hsyncer
      exact hcov hsyncer
    | _ => trivial

theorem threadsOk_setEpoch
    (hs : threadStep C segmentMaxBytes shardId t (.setEpoch epoch) = some t') : ThreadsOk base t' := by
  obtain ⟨done, rest, hw, hm⟩ := h
  obtain ⟨-, rfl⟩ := Runs.of_guard hs
  refine ⟨done, rest, { hw with pending := hw.pending.imp (fun hrest => ?_) id }, ?_⟩
  · rw [hrest, cmdRecords_append, show cmdRecords [.setEpoch epoch] = [] from rfl, append_nil]
  · exact hm.quiet (.of_eq .of_eq rfl rfl rfl)

theorem threadsOk_batch {extra : Nat} {io : List Io}
    (hs : threadStep C segmentMaxBytes shardId t (.batch extra io) = some t') : ThreadsOk base t' := by
  obtain ⟨done, rest, hw, hm⟩ := h
  obtain ⟨⟨hphase, hops, -⟩, rfl⟩ := Runs.of_guard hs
  have hnil : t.ops = [] := isEmpty_iff.mp hops
  unfold takeBatch
  split
  · refine ⟨done, rest, { hw with pending := .inr ⟨by rw [hnil]; rfl, .inl (by simp)⟩ }, ?_⟩
    exact hm.quiet (.of_eq .of_eq rfl rfl rfl)
  refine ⟨done, rest, { hw with pending := .inl ?_, ordered := ?_ }, ?_⟩
  · rcases hw.pending with hrest | ⟨-, hphase' | hclose⟩
    · rw [hrest, hnil]
      simp only [opsRecords, flatMap_nil, nil_append, flatMap_cons, WriterOp.records, append_nil]
      rw [← cmdRecords_append, take_append_drop]
    · exact absurd hphase hphase'
    · simp [hnil] at hclose
  · exact ⟨false, false, trivial, by simp, by simp⟩
  · exact hm.quiet (.of_eq .of_eq rfl rfl rfl)

theorem threadsOk_exit {io : List Io}
    (hs : threadStep C segmentMaxBytes shardId t (.exit io) = some t') : ThreadsOk base t' := by
  obtain ⟨done, rest, hw, hm⟩ := h
  obtain ⟨-, rfl⟩ := Runs.of_guard hs
  refine ⟨done, rest, { hw with pending := .inr ⟨?_, .inl (by simp)⟩, ordered := ?_ }, ?_⟩
  · have hflush := opsRecords_flushOps t.actor
    simp only [opsRecords] at hflush ⊢
    simp [hflush, WriterOp.records]
  · refine ⟨false, false, ?_, by simp, by simp⟩
    simp only [flushOps]
    split <;> simp [InStep]
  · exact hm.quiet (.of_eq .of_eq rfl rfl rfl)

end

theorem writerOk_syncer (h : WriterOk base done rest t) (hs : SyncerMove t t') : WriterOk base done rest t' := by
  cases hs with
  | fsyncs => exact { h.later _ with }
  | marks => exact { h.actor rfl rfl rfl with }
  | publishes target =>
    obtain ⟨watch, hw, -⟩ := publishDurable_eq t.actor target
    rw [hw]
    exact { h with }
  | _ => exact { h with }

theorem threadsOk_step (label : ThreadStep) (h : ThreadsOk base t)
    (hs : threadStep C segmentMaxBytes shardId t label = some t') : ThreadsOk base t' := by
  cases label with
  | append record => exact threadsOk_append h hs
  | setEpoch epoch => exact threadsOk_setEpoch h hs
  | batch extra io => exact threadsOk_batch h hs
  | exit io => exact threadsOk_exit h hs
  | writer =>
    obtain ⟨done, rest, hw, hm⟩ := h
    simp only [threadStep] at hs
    split at hs
    · simp at hs
    rename_i op ops hops
    cases hs
    obtain ⟨done', rest', hw'⟩ : ∃ done' rest', WriterOk base done' rest' (exec C segmentMaxBytes t ops op) :=
      writerOk_exec hw hops
    exact ⟨done', rest', hw', marksOk_exec hw hm hops⟩
  | syncer ok =>
    obtain ⟨done, rest, hw, hm⟩ := h
    have hmove := syncerMove_of_step hs
    exact ⟨done, rest, writerOk_syncer hw hmove, marksOk_syncer hm hmove⟩

/-! ### The watermark over a run -/

/-- The channel's value `newer` may follow `older`: it does not go back, and a failure stays. -/
def Follows : DurableState → DurableState → Prop
  | .durable older, .durable newer => markLt newer older = false
  | .durable _, .failed => True
  | .failed, newer => newer = .failed

theorem markLt_trans {a b c : Option Nat} (hab : markLt b a = false) (hbc : markLt c b = false) : markLt c a = false := by
  cases a <;> cases b <;> cases c <;> simp_all [markLt]
  omega

theorem markLt_asymm {a b : Option Nat} (h : markLt a b = true) : markLt b a = false := by
  cases a <;> cases b <;> simp_all [markLt]
  omega

theorem Follows.refl (w : DurableState) : Follows w w := by
  cases w with
  | durable mark => cases mark <;> simp [Follows, markLt]
  | failed => rfl

theorem Follows.trans {a b c : DurableState} (hab : Follows a b) (hbc : Follows b c) : Follows a c := by
  cases a with
  | failed =>
    obtain rfl : b = .failed := hab
    exact hbc
  | durable older =>
    cases b with
    | failed =>
      obtain rfl : c = .failed := hbc
      trivial
    | durable mid =>
      cases c with
      | failed => trivial
      | durable newer => exact markLt_trans hab hbc

theorem Quiet.follows (h : Quiet t t') : Follows t.actor.watch t'.actor.watch := by
  rcases h.watch with hw | hw
  · rw [hw]
    exact .refl _
  · rw [hw]
    cases t.actor.watch <;> trivial

theorem follows_publishDurable (a : Actor) (mark : Option Nat) : Follows a.watch (a.publishDurable mark).watch := by
  unfold Actor.publishDurable
  split
  · rename_i current hw
    split
    · rename_i hlt
      rw [hw]
      exact markLt_asymm hlt
    · exact .refl _
  · exact .refl _

theorem follows_step {label : ThreadStep} (hs : threadStep C segmentMaxBytes shardId t label = some t') :
    Follows t.actor.watch t'.actor.watch := by
  cases label with
  | append record | setEpoch epoch | exit io =>
    obtain ⟨-, rfl⟩ := Runs.of_guard hs
    exact .refl _
  | batch extra io =>
    obtain ⟨-, rfl⟩ := Runs.of_guard hs
    unfold takeBatch
    split <;> exact .refl _
  | writer =>
    simp only [threadStep] at hs
    split at hs
    · simp at hs
    rename_i op ops hops
    cases hs
    by_cases hpub : op = .publishDurable
    · rw [hpub]
      exact follows_publishDurable ..
    by_cases hhand : op = .handoff
    · rw [hhand]
      exact .refl _
    · exact (quiet_exec hpub hhand).follows
  | syncer ok =>
    cases syncerMove_of_step hs with
    | publishes => exact follows_publishDurable ..
    | fails => cases t.actor.watch <;> trivial
    | _ => exact .refl _

/-- Every record up to the published watermark, of those found when the log was opened and those
accepted since, was written to a segment file before an fsync of that file completed. -/
def Honest (base : List TxRecord) (t : Threads) : Prop :=
  ∀ mark, t.actor.watch = .durable (some mark) →
    ∀ record ∈ base ++ t.appended, record.txId ≤ mark → Fsynced record t.history

theorem ThreadsOk.honest (h : ThreadsOk base t) : Honest base t := by
  obtain ⟨done, rest, hw, hm⟩ := h
  intro mark hmark record hr hle
  rcases mem_append.mp hr with hr | hr
  · exact hw.base record hr
  · exact (((hm.watch _ hmark) mark rfl).2 record hr hle).resolve_left (by simp)

theorem visited_le_last {r : Recovery} (h : recover C shardId d = .ok r) :
    ∀ v ∈ r.visited, ∃ p ∈ r.report.lastTxId, v.2.txId ≤ p := by
  cases recovered_of_recover h with
  | clean hclean hr | header _ hclean _ hr =>
    rw [hr]
    simpa using (hclean.increasing [] ⟨.nil, by simp⟩).2
  | @entry pre name buf us c scan fault hfiles hclean hscan hr =>
    rw [hr]
    have hpre := hclean.increasing [] ⟨.nil, by simp⟩
    cases hhead : decodeSegmentHeader C buf with
    | error reason => simp [scanSegmentBytes, hhead] at hscan
    | ok epoch =>
      simp only [scanSegmentBytes, hhead] at hscan
      split at hscan
      · obtain ⟨rfl, -⟩ := ScanOutcome.scanned.inj hscan
        simpa [startScan] using hpre.2
      obtain ⟨rfl, -⟩ := ScanOutcome.scanned.inj hscan
      have hinc := Increasing.scanFrom C shardId buf us
        (startScan c.prevTx (max epoch c.minEpoch)) (by simpa [startScan] using hpre)
      rw [scanFrom_prevTx C shardId buf c.prevTx (startScan c.prevTx (max epoch c.minEpoch)) rfl] at hinc
      exact hinc.2

/-- What a log looks like when it is opened. -/
theorem openThreads_eq_ok (h : openThreads C shardId epoch d history = .ok t) :
    ∃ r, recover C shardId d = .ok r ∧ t =
      { actor := (Log.opened r epoch).actor
        buffered := []
        history := history ++ recoverySyncs r
        ops := []
        queue := []
        lastAppended := (Log.opened r epoch).lastAppended
        phase := .running
        syncer := .waiting
        appended := [] } := by
  unfold openThreads at h
  split at h
  · simp at h
  rename_i r hr
  split at h
  · simp at h
  · exact ⟨r, hr, (Except.ok.inj h).symm⟩

theorem threadsOk_opened
    (h : openThreads C shardId epoch d history = .ok t) (hbase : ∀ r ∈ base, Fsynced r t.history) : ThreadsOk base t := by
  obtain ⟨r, -, rfl⟩ := openThreads_eq_ok h
  have hlast : ∀ p ∈ r.report.lastTxId, p ≤ r.report.lastTxId.getD 0 := by
    intro p hp
    rw [mem_def.mp hp]
    rfl
  refine ⟨[], [], ⟨hbase, rfl, .nil, by simp, hlast, by simp, by simp, fun _ => rfl, fun _ => rfl, .inl rfl, ?_⟩, ?_⟩
  · exact ⟨false, false, trivial, by simp, by simp⟩
  · refine ⟨fun mark hm p hp => ⟨?_, by simp⟩, fun handle _ p hp => ⟨hlast p hp, by simp⟩, trivial⟩
    obtain rfl : r.report.lastTxId = mark := DurableState.durable.inj hm
    exact hlast p hp

/-- **The durable watermark.** Over every interleaving of the two threads it never overstates, never
goes back and stays failed, exactly if every record found when the log was opened had been fsynced. -/
theorem watermark_honest_iff {epoch : Nat} {d : SegmentDir} {history : List DiskEvent} {t₀ : Threads}
    (hopen : openThreads C shardId epoch d history = .ok t₀) :
    (∀ steps t, Runs.run (threadStep C segmentMaxBytes shardId) t₀ steps = some t →
      Honest (recordsOf C shardId d) t ∧
      ∀ more t', Runs.run (threadStep C segmentMaxBytes shardId) t more = some t' →
        Follows t.actor.watch t'.actor.watch) ↔
    ∀ record ∈ recordsOf C shardId d, Fsynced record t₀.history := by
  constructor
  · intro h record hr
    obtain ⟨r, hrec, ht⟩ := openThreads_eq_ok hopen
    rw [recordsOf, replay_of_recover hrec] at hr
    obtain ⟨v, hv, rfl⟩ := mem_map.mp hr
    obtain ⟨p, hp, hle⟩ := visited_le_last hrec v hv
    have hwatch : t₀.actor.watch = .durable (some p) := by
      rw [ht, ← mem_def.mp hp]
      rfl
    refine (h [] t₀ rfl).1 p hwatch v.2 (mem_append_left _ ?_) hle
    rw [recordsOf, replay_of_recover hrec]
    exact mem_map_of_mem hv
  · intro hbase steps t hrun
    refine ⟨?_, fun more t' hmore => ?_⟩
    · exact (Runs.run_invariant (fun _ l _ hI hs => threadsOk_step l hI hs) (threadsOk_opened hopen hbase) hrun).honest
    · exact Runs.run_invariant (I := fun t' => Follows t.actor.watch t'.actor.watch)
        (fun _ _ _ hI hs => hI.trans (follows_step hs)) (.refl _) hmore

/-! ### A killed process -/

def emptyThreads : Threads :=
  { actor := emptyLog.actor
    buffered := []
    history := []
    ops := []
    queue := []
    lastAppended := 0
    phase := .running
    syncer := .waiting
    appended := [] }

theorem openThreads_empty : openThreads idCodec 0 0 .empty [] = .ok emptyThreads := rfl

theorem watermark_honest_iff_empty : openThreads idCodec 0 0 .empty [] = .ok emptyThreads ∧
    ((∀ steps t, Runs.run (threadStep idCodec 1024 0) emptyThreads steps = some t →
      Honest (recordsOf idCodec 0 .empty) t ∧
      ∀ more t', Runs.run (threadStep idCodec 1024 0) t more = some t' → Follows t.actor.watch t'.actor.watch) ↔
    ∀ record ∈ recordsOf idCodec 0 .empty, Fsynced record emptyThreads.history) :=
  ⟨openThreads_empty, watermark_honest_iff openThreads_empty⟩

/-- A record is appended and written, and the process is killed before the syncer has seen it. -/
def killedRun : List ThreadStep :=
  [.append (idRecord 1), .batch 0 [], .writer, .writer, .writer, .writer, .writer, .writer]

def DiskEvent.isFsync : DiskEvent → Bool
  | .fsynced _ => true
  | .wrote _ _ => false

theorem not_fsynced_of_wrote (h : history.map DiskEvent.isFsync = [true, false]) :
    ¬ Fsynced record history := by
  match history, h with
  | [.fsynced _, .wrote _ _], _ => simp [Fsynced]

/-- **The watermark overstates after a crash.** The log is opened again over the file of a killed
process; the watermark is that of a record which no fsync followed. -/
theorem reopened_watermark_overstates :
    ∃ t₁ t₂, Runs.run (threadStep idCodec 1024 0) emptyThreads killedRun = some t₁ ∧
      openThreads idCodec 0 0 t₁.actor.dir t₁.history = .ok t₂ ∧
      t₂.actor.watch = .durable (some 1) ∧
      ∃ record ∈ recordsOf idCodec 0 t₁.actor.dir, record.txId = 1 ∧ ¬ Fsynced record t₂.history := by
  obtain ⟨t₁, hrun, ⟨record, hr, htx⟩, t₂, ht₂, hwatch, hhistory⟩ :
      ∃ t₁ ∈ Runs.run (threadStep idCodec 1024 0) emptyThreads killedRun,
        (∃ record ∈ recordsOf idCodec 0 t₁.actor.dir, record.txId = 1) ∧
        ∃ t₂ ∈ (openThreads idCodec 0 0 t₁.actor.dir t₁.history).toOption,
          t₂.actor.watch = .durable (some 1) ∧ t₂.history.map DiskEvent.isFsync = [true, false] := by
    decide +kernel
  exact ⟨t₁, t₂, hrun, toOption_eq_some_iff.mp ht₂, hwatch, record, hr, htx, not_fsynced_of_wrote hhistory⟩

end CommitLog
end Fluxum
