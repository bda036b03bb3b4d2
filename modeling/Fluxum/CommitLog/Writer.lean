/-
# The log writer

The flush actor of `commitlog/writer.rs`: the writer thread drains the
command queue in batches, buffers frames, writes them to the active segment
and publishes the `written` watermark; the syncer thread fsyncs behind it and
publishes the durable one. Every write, fsync and file creation can fail, a
write after any prefix of its bytes.
-/
import Fluxum.Lib.Runs
import Fluxum.CommitLog.Recover

namespace Fluxum
namespace CommitLog

open Bytes

/-- The outcome of a file operation. A failed write has put that many bytes in the file; a failed
creation has left no file, or a file with one byte less than that of its header. -/
inductive Io where
  | ok
  | fail (bytes : Nat)
deriving DecidableEq, Repr

/-- The value of a watermark channel. -/
inductive DurableState where
  | durable (tx : Option Nat)
  | failed
deriving DecidableEq, Repr

/-- The open segment, with its length including the buffered bytes. -/
structure SegmentFile where
  name : Nat
  len : Nat
deriving DecidableEq, Repr

inductive Cmd where
  | append (record : TxRecord)
  | setEpoch (epoch : Nat)

/-- What the writer tells the syncer: the active segment, what is written, and what is fsynced. -/
structure SyncCursor where
  handle : Option Nat
  written : Option Nat
  synced : Option Nat
  shutdown : Bool
deriving DecidableEq, Repr

/-- A value sent on the `written` channel, with the segment files at that moment. -/
structure Published where
  state : DurableState
  dir : SegmentDir

/-- The writer thread's state and what it shares with the syncer. -/
structure Actor where
  dir : SegmentDir
  /-- The outcomes of the file operations to come; those not listed succeed. -/
  io : List Io
  epoch : Nat
  current : Option SegmentFile
  buf : Bytes
  lastWritten : Option Nat
  /-- Everything published on the `written` channel, the latest first. -/
  written : List Published
  /-- The durable watermark channel. -/
  watch : DurableState
  cursor : SyncCursor
  /-- The answers to `set_epoch`, the latest first. -/
  acks : List (Nat × Bool)

/-- `a < b` on watermarks: no transaction is below every transaction. -/
def markLt : Option Nat → Option Nat → Bool
  | none, some _ => true
  | some a, some b => decide (a < b)
  | _, none => false

namespace Actor

def nextIo (a : Actor) : Io × Actor :=
  match a.io with
  | [] => (.ok, a)
  | i :: io => (i, { a with io })

def publish (a : Actor) (state : DurableState) : Actor :=
  { a with written := ⟨state, a.dir⟩ :: a.written }

/-- Advance the durable watermark; it never regresses, and a failure sticks. -/
def publishDurable (a : Actor) (mark : Option Nat) : Actor :=
  match a.watch with
  | .durable current => if markLt current mark then { a with watch := .durable mark } else a
  | .failed => a

end Actor

/-- Write the buffered frames and publish the `written` watermark. The error carries the state the
failure leaves. -/
def flushWritten (a : Actor) : Except Actor Actor :=
  match a.current with
  | none => .ok a
  | some seg =>
    if a.buf = [] then .ok a
    else
      match a.nextIo with
      | (.ok, a) =>
        .ok ({ a with dir := a.dir.append seg.name a.buf, buf := [] }.publish (.durable a.lastWritten))
      | (.fail n, a) => .error { a with dir := a.dir.append seg.name (a.buf.take n) }

/-- Write and fsync inline. -/
def flushSync (a : Actor) : Except Actor Actor := do
  let a ← flushWritten a
  match a.current with
  | none => .ok a
  | some _ =>
    match a.nextIo with
    | (.fail _, a) => .error a
    | (.ok, a) =>
      let synced := if markLt a.cursor.synced a.lastWritten then a.lastWritten else a.cursor.synced
      .ok ({ a with cursor := { a.cursor with synced } }.publishDurable a.lastWritten)

def flushIf (wrote : Bool) (a : Actor) : Except Actor Actor := if wrote then flushSync a else .ok a

section

variable (C : Codec) (segmentMaxBytes : Nat)

/-- Create the segment file named after `txId` and make its header durable. -/
def createSegment (a : Actor) (txId : Nat) : Except Actor Actor :=
  match a.nextIo with
  | (.ok, a) =>
    match a.dir.create txId (encodeSegmentHeader C a.epoch) with
    | some dir => .ok { a with dir, current := some ⟨txId, segmentHeaderLen⟩ }
    | none => .error a
  | (.fail 0, a) => .error a
  | (.fail (n + 1), a) =>
    match a.dir.create txId ((encodeSegmentHeader C a.epoch).take n) with
    | some dir => .error { a with dir }
    | none => .error a

/-- Seal the active segment and start a new one, if there is none or it is full. -/
def rotate (a : Actor) (txId : Nat) : Except Actor Actor :=
  match a.current with
  | none => createSegment C a txId
  | some seg =>
    if segmentMaxBytes ≤ seg.len then do
      let a ← flushSync a
      createSegment C a txId
    else .ok a

def buffer (a : Actor) (seg : SegmentFile) (frame : Bytes) (txId : Nat) : Actor :=
  { a with
    buf := a.buf ++ frame
    current := some { seg with len := seg.len + frame.length }
    lastWritten := some txId }

def writeRecord (a : Actor) (record : TxRecord) : Except Actor Actor :=
  match (C.encode record).bind (encodeEntry C a.epoch) with
  | none => .error a
  | some frame => do
    let a ← rotate C segmentMaxBytes a record.txId
    match a.current with
    | none => .error a
    | some seg => .ok (buffer a seg frame record.txId)

/-- `process` over the rest of a batch; `wrote` says that frames are buffered. -/
def processLoop : List Cmd → Bool → Actor → Except Actor Actor
  | [], false, a => .ok a
  | [], true, a => do
    let a ← flushWritten a
    -- hand the batch to the syncer
    .ok { a with cursor := { a.cursor with handle := a.current.map (·.name), written := a.lastWritten } }
  | .append record :: cmds, _, a => do
    let a ← writeRecord C segmentMaxBytes a record
    processLoop cmds true a
  | .setEpoch epoch :: cmds, wrote, a => do
    let a ← flushIf wrote a
    processLoop cmds false
      (if epoch < a.epoch then { a with acks := (epoch, false) :: a.acks }
       else { a with epoch, acks := (epoch, true) :: a.acks })

/-! ### The log -/

inductive Phase where
  /-- The writer thread is in its command loop. -/
  | running
  /-- It has left the loop and is about to flush for the last time. -/
  | closing
  | stopped
deriving DecidableEq, Repr

/-- The syncer thread: waiting, with an fsync of a segment for a target under way, or gone. -/
inductive Syncer where
  | idle
  | syncing (handle : Nat) (target : Option Nat)
  | gone
deriving DecidableEq, Repr

structure Log where
  actor : Actor
  queue : List Cmd
  lastAppended : Nat
  phase : Phase
  syncer : Syncer
  /-- Every record accepted by `append`, in order. -/
  appended : List TxRecord

inductive OpenError where
  | corrupt (error : NonTailCorruption)
  | epoch (epoch recovered : Nat)

/-- The log with its writer resumed where recovery left off. -/
def Log.opened (r : Recovery) (epoch : Nat) : Log :=
  let last := r.report.lastTxId
  { actor :=
      { dir := r.dir
        io := []
        epoch := epoch
        current := r.tail.map fun t => ⟨t.1, t.2⟩
        buf := []
        lastWritten := last
        written := [⟨.durable last, r.dir⟩]
        watch := .durable last
        cursor := ⟨r.tail.map Prod.fst, last, last, false⟩
        acks := [] }
    queue := []
    lastAppended := last.getD 0
    phase := .running
    syncer := .idle
    appended := [] }

/-- `CommitLog::open`. -/
def openLog (shardId epoch : Nat) (d : SegmentDir) : Except OpenError Log :=
  match recover C shardId d with
  | .error e => .error (.corrupt e)
  | .ok r => if epoch < r.report.epoch then .error (.epoch epoch r.report.epoch) else .ok (Log.opened r epoch)

/-- A step of the log. A batch takes one command and up to `extra` more; `io` lists the outcomes of
the file operations it makes. -/
inductive Step where
  | append (record : TxRecord)
  | setEpoch (epoch : Nat)
  | batch (extra : Nat) (io : List Io)
  /-- The last flush of the writer thread, once the queue is closed and drained or the loop was left. -/
  | exit (io : List Io)
  | syncStart
  | syncEnd (ok : Bool)

/-- One round of the writer's command loop. A dead syncer ends the loop; so does a failed batch,
after publishing the failure on both channels. -/
def batchStep (s : Log) (cmds rest : List Cmd) (io : List Io) : Log :=
  if s.actor.watch = .failed then { s with phase := .closing, queue := [] }
  else
    match processLoop C segmentMaxBytes cmds false { s.actor with io } with
    | .ok a => { s with actor := a, queue := rest }
    | .error a => { s with actor := { a.publish .failed with watch := .failed }, phase := .closing, queue := [] }

/-- The writer thread after its command loop. -/
def exitStep (s : Log) (io : List Io) : Log :=
  let actor :=
    match flushSync { s.actor with io } with
    | .ok a => a
    | .error a => { a.publish .failed with watch := .failed }
  { s with
    actor := { actor with cursor := { actor.cursor with shutdown := true } }
    phase := .stopped }

/-- The syncer takes the active segment and what is written, if that is ahead of what is fsynced. -/
def syncStart (s : Log) : Option Log :=
  match s.syncer, s.actor.cursor.handle with
  | .idle, some handle =>
    if markLt s.actor.cursor.synced s.actor.cursor.written then
      some { s with syncer := .syncing handle s.actor.cursor.written }
    else none
  | _, _ => none

/-- The syncer's fsync returns. -/
def syncEnd (s : Log) (ok : Bool) : Option Log :=
  match s.syncer with
  | .syncing _ target =>
    let cursor := s.actor.cursor
    if ok then
      let synced := if markLt cursor.synced target then target else cursor.synced
      some { s with
        syncer := .idle
        actor := { s.actor with cursor := { cursor with synced } }.publishDurable target }
    else some { s with
      syncer := .gone
      actor := { s.actor with watch := .failed, cursor := { cursor with shutdown := true } } }
  | _ => none

/-- One step of the log of shard `shardId`; `none` if it is not enabled, or refused at the door. -/
def step (shardId : Nat) (s : Log) : Step → Option Log
  | .append record =>
    if s.phase = .running ∧ s.actor.watch ≠ .failed ∧ record.shardId = shardId ∧ s.lastAppended < record.txId then
      some { s with
        queue := s.queue ++ [.append record]
        lastAppended := record.txId
        appended := s.appended ++ [record] }
    else none
  | .setEpoch epoch =>
    if s.phase = .running ∧ s.actor.watch ≠ .failed ∧ epoch < 2 ^ 64 then
      some { s with queue := s.queue ++ [.setEpoch epoch] }
    else none
  | .batch extra io =>
    if s.phase = .running ∧ s.queue ≠ [] then
      some (batchStep C segmentMaxBytes s (s.queue.take (extra + 1)) (s.queue.drop (extra + 1)) io)
    else none
  | .exit io =>
    if s.phase = .closing ∨ s.phase = .running ∧ s.queue = [] then some (exitStep s io) else none
  | .syncStart => syncStart s
  | .syncEnd ok => syncEnd s ok

end

end CommitLog
end Fluxum
