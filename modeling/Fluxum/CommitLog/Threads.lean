/-
# The writer and the syncer

The two threads of `commitlog/writer.rs`, one shared operation at a time. The
writer thread's work on a batch is a stack of operations, each of which writes
or fsyncs one file, or reads or changes once what it shares with the syncer;
between any two of them the syncer may take a step. A history records what was
written to which segment file and which fsyncs completed.
-/
import Fluxum.CommitLog.WriterInvariant

namespace Fluxum
namespace CommitLog

open Bytes

/-! ### The disk -/

/-- What happens to the segment files: frames of records are written to one, an fsync of one completes. -/
inductive DiskEvent where
  | wrote (name : Nat) (records : List TxRecord)
  | fsynced (name : Nat)

def WroteIn (name : Nat) (record : TxRecord) (history : List DiskEvent) : Prop :=
  ∃ records, .wrote name records ∈ history ∧ record ∈ records

/-- The record was written to a segment file before an fsync of that file completed. The history has
the oldest event first. -/
def Fsynced (record : TxRecord) : List DiskEvent → Prop
  | [] => False
  | .wrote name records :: later => record ∈ records ∧ .fsynced name ∈ later ∨ Fsynced record later
  | .fsynced _ :: later => Fsynced record later

variable {history : List DiskEvent} {record : TxRecord}

theorem WroteIn.append {name : Nat} (h : WroteIn name record history)
    (events : List DiskEvent) : WroteIn name record (history ++ events) := by
  obtain ⟨records, hmem, hr⟩ := h
  exact ⟨records, List.mem_append_left _ hmem, hr⟩

theorem Fsynced.append (h : Fsynced record history)
    (events : List DiskEvent) : Fsynced record (history ++ events) := by
  induction history with
  | nil => exact h.elim
  | cons event later ih =>
    cases event with
    | wrote name records => exact h.imp (fun h => ⟨h.1, List.mem_append_left _ h.2⟩) ih
    | fsynced name => exact ih h

theorem fsynced_of_wroteIn {name : Nat} (h : WroteIn name record history) :
    Fsynced record (history ++ [.fsynced name]) := by
  obtain ⟨records, hmem, hr⟩ := h
  induction history with
  | nil => simp at hmem
  | cons event later ih =>
    rcases List.mem_cons.mp hmem with rfl | hlater
    · exact .inl ⟨hr, by simp⟩
    · cases event with
      | wrote name' records' => exact .inr (ih hlater)
      | fsynced name' => exact ih hlater

/-! ### The writer thread -/

/-- What the writer thread has to do next. -/
inductive WriterOp where
  /-- The rest of a batch; `wrote` says that frames are buffered. -/
  | cmds (rest : List Cmd) (wrote : Bool)
  | writeRecord (record : TxRecord)
  | createSegment (txId : Nat)
  | buffer (record : TxRecord) (frame : Bytes)
  | write
  | fsync
  | markSynced
  | publishDurable
  /-- Hand the batch to the syncer. -/
  | handoff
  | setEpoch (epoch : Nat)
  | fail
  | close
  /-- Tell the syncer to end. -/
  | shutdown

/-- The syncer thread: before its wait, in the pause after it, with an fsync under way, with one
completed, with the cursor raised, with one failed, with the failure published, or gone. -/
inductive SyncerAt where
  | waiting
  | pausing
  | syncing (handle : Nat) (target : Option Nat)
  | synced (target : Option Nat)
  | marked (target : Option Nat)
  | failing
  | ending
  | gone

/-- The two threads and the queue. -/
structure Threads where
  actor : Actor
  /-- The records whose frames are in the write buffer. -/
  buffered : List TxRecord
  history : List DiskEvent
  /-- What the writer thread has to do before it goes on with its loop. -/
  ops : List WriterOp
  queue : List Cmd
  lastAppended : Nat
  /-- `stopped` says that the last flush has begun. -/
  phase : Phase
  syncer : SyncerAt
  /-- Every record accepted by `append`, in order. -/
  appended : List TxRecord

/-- `flush_sync`. -/
def flushOps (a : Actor) : List WriterOp :=
  match a.current with
  | none => []
  | some _ => [.write, .fsync, .markSynced, .publishDurable]

/-- The rotation of `write_record`, if there is no active segment or it is full. -/
def rotateOps (segmentMaxBytes : Nat) (a : Actor) (txId : Nat) : List WriterOp :=
  match a.current with
  | none => [.createSegment txId]
  | some seg => if segmentMaxBytes ≤ seg.len then flushOps a ++ [.createSegment txId] else []

/-- The active segment is fsynced. -/
def fsyncedEvents (a : Actor) : List DiskEvent := (a.current.map fun seg => DiskEvent.fsynced seg.name).toList

namespace Threads

/-- An operation failed: the failure is published, and the thread leaves its loop, or ends. -/
def abort (t : Threads) : Threads :=
  { t with ops := [.fail, if t.phase = .stopped then .shutdown else .close] }

def markSynced (t : Threads) (mark : Option Nat) : Threads :=
  let synced := if markLt t.actor.cursor.synced mark then mark else t.actor.cursor.synced
  { t with actor := { t.actor with cursor := { t.actor.cursor with synced } } }

/-- `write_all` of the buffer, if there is something in it. -/
def write (t : Threads) (rest : List WriterOp) : Threads :=
  match flushWritten t.actor, t.actor.current with
  | .error a, _ => { t with actor := a }.abort
  | .ok a, none => { t with actor := a, ops := rest }
  | .ok a, some seg =>
    if t.actor.buf = [] then { t with actor := a, ops := rest }
    else { t with
      actor := a
      buffered := []
      history := t.history ++ [.wrote seg.name t.buffered]
      ops := rest }

end Threads

section

variable (C : Codec) (segmentMaxBytes : Nat)

/-- The writer thread's operation `op`, before the operations `rest`. -/
def exec (t : Threads) (rest : List WriterOp) : WriterOp → Threads
  | .cmds [] false => { t with ops := rest }
  | .cmds [] true => { t with ops := .write :: .handoff :: rest }
  | .cmds (.append record :: cmds) _ => { t with ops := .writeRecord record :: .cmds cmds true :: rest }
  | .cmds (.setEpoch epoch :: cmds) wrote =>
    { t with ops := (if wrote then flushOps t.actor else []) ++ .setEpoch epoch :: .cmds cmds false :: rest }
  | .writeRecord record =>
    match (C.encode record).bind (encodeEntry C t.actor.epoch) with
    | none => t.abort
    | some frame => { t with ops := rotateOps segmentMaxBytes t.actor record.txId ++ .buffer record frame :: rest }
  | .createSegment txId =>
    match createSegment C t.actor txId with
    | .error a => { t with actor := a }.abort
    -- the header is fsynced
    | .ok a => { t with actor := a, history := t.history ++ [.fsynced txId], ops := rest }
  | .buffer record frame =>
    match t.actor.current with
    | none => t.abort
    | some seg => { t with
        actor := buffer t.actor seg frame record.txId
        buffered := t.buffered ++ [record]
        ops := rest }
  | .write => t.write rest
  | .fsync =>
    match t.actor.nextIo with
    | (.fail _, a) => { t with actor := a }.abort
    | (.ok, a) => { t with actor := a, history := t.history ++ fsyncedEvents a, ops := rest }
  | .markSynced => { t.markSynced t.actor.lastWritten with ops := rest }
  | .publishDurable => { t with actor := t.actor.publishDurable t.actor.lastWritten, ops := rest }
  | .handoff => { t with
      actor := { t.actor with cursor := { t.actor.cursor with
        handle := t.actor.current.map (·.name)
        written := t.actor.lastWritten } }
      ops := rest }
  | .setEpoch epoch => { t with
      actor :=
        if epoch < t.actor.epoch then { t.actor with acks := (epoch, false) :: t.actor.acks }
        else { t.actor with epoch, acks := (epoch, true) :: t.actor.acks }
      ops := rest }
  | .fail => { t with actor := { t.actor.publish .failed with watch := .failed }, ops := rest }
  | .close => { t with phase := .closing, queue := [], ops := rest }
  | .shutdown => { t with
      actor := { t.actor with cursor := { t.actor.cursor with shutdown := true } }
      ops := rest }

/-! ### The syncer thread -/

/-- The next step of the syncer thread; `ok` is the outcome of its fsync. -/
def syncerStep (t : Threads) (ok : Bool) : Option Threads :=
  match t.syncer with
  | .waiting =>
    if markLt t.actor.cursor.synced t.actor.cursor.written ∧ t.actor.cursor.handle.isSome then
      some { t with syncer := .pausing }
    else if t.actor.cursor.shutdown then some { t with syncer := .gone }
    else none
  | .pausing =>
    -- the pause gave the lock back, so the cursor is read again
    match t.actor.cursor.handle with
    | none => some { t with syncer := .waiting }
    | some handle => some { t with syncer := .syncing handle t.actor.cursor.written }
  | .syncing handle target =>
    if ok then some { t with history := t.history ++ [.fsynced handle], syncer := .synced target }
    else some { t with syncer := .failing }
  | .synced target => some { t.markSynced target with syncer := .marked target }
  | .marked target => some { t with actor := t.actor.publishDurable target, syncer := .waiting }
  | .failing => some { t with actor := { t.actor with watch := .failed }, syncer := .ending }
  | .ending => some { t with
      actor := { t.actor with cursor := { t.actor.cursor with shutdown := true } }
      syncer := .gone }
  | .gone => none

/-! ### The log -/

inductive ThreadStep where
  | append (record : TxRecord)
  | setEpoch (epoch : Nat)
  /-- The writer thread takes one command and up to `extra` more; `io` lists the outcomes of the file
  operations the batch makes. -/
  | batch (extra : Nat) (io : List Io)
  /-- The writer thread begins its last flush. -/
  | exit (io : List Io)
  /-- Its next operation. -/
  | writer
  | syncer (ok : Bool)

/-- The head of the writer's command loop: a dead syncer ends it. -/
def takeBatch (t : Threads) (extra : Nat) (io : List Io) : Threads :=
  if t.actor.watch = .failed then { t with phase := .closing, queue := [] }
  else { t with
    actor := { t.actor with io }
    ops := [.cmds (t.queue.take (extra + 1)) false]
    queue := t.queue.drop (extra + 1) }

def threadStep (shardId : Nat) (t : Threads) : ThreadStep → Option Threads
  | .append record =>
    if t.phase = .running ∧ t.actor.watch ≠ .failed ∧ record.shardId = shardId ∧ t.lastAppended < record.txId then
      some { t with
        queue := t.queue ++ [.append record]
        lastAppended := record.txId
        appended := t.appended ++ [record] }
    else none
  | .setEpoch epoch =>
    if t.phase = .running ∧ t.actor.watch ≠ .failed then some { t with queue := t.queue ++ [.setEpoch epoch] } else none
  | .batch extra io =>
    if t.phase = .running ∧ t.ops.isEmpty ∧ !t.queue.isEmpty then some (takeBatch t extra io) else none
  | .exit io =>
    if t.ops.isEmpty ∧ (t.phase = .closing ∨ t.phase = .running ∧ t.queue.isEmpty) then
      some { t with
        actor := { t.actor with io }
        ops := flushOps t.actor ++ [.shutdown]
        phase := .stopped }
    else none
  | .writer =>
    match t.ops with
    | [] => none
    | op :: rest => some (exec C segmentMaxBytes t rest op)
  | .syncer ok => syncerStep t ok

end

/-- The fsync of the truncated file, when recovery cut the tail. -/
def recoverySyncs (r : Recovery) : List DiskEvent :=
  match r.report.quarantine with
  | some ⟨name, _, _, .entry _⟩ => [.fsynced name]
  | _ => []

/-- `CommitLog::open` over files to which `history` happened. -/
def openThreads (C : Codec) (shardId epoch : Nat) (d : SegmentDir) (history : List DiskEvent) :
    Except OpenError Threads :=
  match recover C shardId d with
  | .error e => .error (.corrupt e)
  | .ok r =>
    if epoch < r.report.epoch then .error (.epoch epoch r.report.epoch)
    else .ok
      { actor := (Log.opened r epoch).actor
        buffered := []
        history := history ++ recoverySyncs r
        ops := []
        queue := []
        lastAppended := (Log.opened r epoch).lastAppended
        phase := .running
        syncer := .waiting
        appended := [] }

theorem ends_flushWritten_buf {a : Actor} :
    Outcome.Ends (fun a' => ∃ dir io, a' = { a with dir, io }) (flushWritten a)
      (fun a' => ∃ dir io written buf, a' = { a with dir, io, written, buf }) := by
  unfold flushWritten
  split
  · exact ⟨_, _, _, _, rfl⟩
  split
  · exact ⟨_, _, _, _, rfl⟩
  split
  · rename_i a' hio
    obtain ⟨io, rfl⟩ := nextIo_ok hio
    exact ⟨_, _, _, _, rfl⟩
  · rename_i n a' hio
    obtain ⟨io, rfl⟩ := nextIo_fail hio
    exact ⟨_, _, rfl⟩

end CommitLog
end Fluxum
