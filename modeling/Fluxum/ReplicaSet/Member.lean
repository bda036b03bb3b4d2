/-
# One member of a replica set

What one server of a replica set does (`election.rs`, `replication.rs`):
stand for election and vote, stream the log as primary, follow another
member's log as replica, hold commits back until a quorum has them, and
step down when a higher epoch shows up.

On disk a member has its epoch, its ballot, and its log. A log is the list
of every record the store holds, oldest first, so record `k` has transaction
id `k + 1`; the oldest `first` of them are not in the log's segments, being
pruned or brought by a checkpoint. The rest of the state is the process's
own and goes with it.
-/
import Fluxum.CommitLog.Record
import Fluxum.ReplicaSet.Election

namespace Fluxum.ReplicaSet

/-! ### State -/

/-- A record in a log, under the epoch of its envelope. -/
structure Entry where
  epoch : Nat
  record : TxRecord
deriving Repr

/-- A replication session, as the primary sees it. -/
structure ReplicaSession where
  conn : Nat
  durable : Nat
  lastSent : Nat
deriving DecidableEq, Repr

/-- Where a replica's session is: the hello is out, or the stream has been read up to a
transaction. -/
inductive Phase where
  | waiting
  | streaming (received : Nat)
deriving DecidableEq, Repr

/-- A replication session, as the replica sees it. -/
structure Following where
  conn : Nat
  primary : Nat
  /-- The epoch loaded when the session began. -/
  epoch : Nat
  phase : Phase
deriving DecidableEq, Repr

/-- `run_candidacy` between its vote requests and its verdict. -/
structure Candidacy where
  request : VoteRequest
  /-- The peers that have not answered. -/
  pending : List Nat
  tally : Nat
  highestSeen : Nat
deriving DecidableEq, Repr

/-- Where the election loop is. -/
inductive Task where
  | parked
  | following (session : Option Following)
  /-- `next_epoch` has been read, the own ballot is still to be cast. -/
  | proposed (epoch : Nat)
  | asking (candidacy : Candidacy)
deriving DecidableEq, Repr

/-- The running process. -/
structure Proc where
  /-- The cached ballot. -/
  ballot : Option Ballot
  isPrimary : Bool
  roleEpoch : Nat
  /-- The epoch the log writes envelopes under. -/
  logEpoch : Nat
  /-- The epoch of the primary service. -/
  primaryEpoch : Nat
  fenced : Bool
  sessions : Nat → Option ReplicaSession
  /-- Transactions held at the visibility barrier. -/
  held : List Nat
  task : Task

structure Member where
  epochFile : Nat
  voteFile : Option Ballot
  history : List Entry
  first : Nat
  /-- How many sessions the member has opened as a replica. -/
  conns : Nat
  /-- The process, when it is up. -/
  proc : Option Proc

/-- The resolved semi-synchronous options. -/
structure SemiSync where
  quorumTotal : Nat
  degrade : Bool
deriving DecidableEq, Repr

structure Config where
  members : Nat
  /-- Which members are configured with the primary role. -/
  bootPrimary : Nat → Bool
  /-- The semi-synchronous mode, if configured. -/
  semiSync : Option SemiSync

def Config.peers (cfg : Config) (me : Nat) : List Nat :=
  (List.range cfg.members).filter (· ≠ me)

/-- The quorum barrier is armed on a configured primary only. -/
def Config.armed (cfg : Config) (me : Nat) : Option SemiSync :=
  if cfg.bootPrimary me then cfg.semiSync else none

namespace Member

/-- `durable_tx_id` of the log, 0 for none. -/
def headTx (m : Member) : Nat := if m.first < m.history.length then m.history.length else 0

def firstAvailable (m : Member) : Option Nat :=
  if m.first < m.history.length then some (m.first + 1) else none

/-- What the log's head stands for: nothing as long as no record is in the log. -/
def log (m : Member) : List Entry := if m.first < m.history.length then m.history else []

/-- The record of a transaction, if the log still has it. -/
def record (m : Member) (txId : Nat) : Option Entry :=
  if txId ≤ m.first then none else m.history[txId - 1]?

def withProc (m : Member) (p : Proc) : Member := { m with proc := some p }

end Member

/-! ### Messages and observations -/

inductive Msg where
  | voteRequest (req : VoteRequest)
  | voteResponse (req : VoteRequest) (response : VoteResponse)
  | replicaHello (conn epoch lastApplied : Nat)
  /-- With the checkpoint of a full sync, as the records it covers. -/
  | primaryHello (conn epoch fromTx : Nat) (checkpoint : Option (List Entry))
  | replFence (conn epoch : Nat)
  | replHeartbeat (conn epoch : Nat)
  | replBatch (conn epoch start : Nat) (frames : List Entry)
  | replAck (epoch durable : Nat)

structure Packet where
  src : Nat
  dst : Nat
  msg : Msg

inductive BarrierResult where
  | ok
  | fenced
  | quorumLost
deriving DecidableEq, Repr

/-- A transaction at the visibility barrier: the member's role, the epoch it writes under, and the
record. -/
structure BarrierCall where
  isPrimary : Bool
  epoch : Nat
  txId : Nat
  record : Option Entry

/-- What is seen of a member: the ballots it casts and its promotions, each with its log at that
time, the commits, the accepted sessions and the outcomes of the barrier. -/
inductive Obs where
  | voted (req : VoteRequest) (logEpoch : Nat) (log : List Entry)
  | promoted (epoch : Nat) (log : List Entry)
  | committed (epoch : Nat) (history : List Entry)
  | accepted (replica lastApplied : Nat) (full : Bool)
  | barrier (call : BarrierCall) (result : BarrierResult)

/-- A member's reaction: its new state, what it sends and what is seen of it. -/
structure Reaction where
  member : Member
  out : List Packet := []
  obs : List Obs := []

/-! ### Elections -/

/-- The epoch a fresh candidacy would propose, a `u64`. -/
def nextEpoch (m : Member) (p : Proc) : Nat := (max m.epochFile (ballotEpoch p.ballot) + 1) % 2 ^ 64

theorem lt_nextEpoch {m : Member} {p : Proc} (h : max m.epochFile (ballotEpoch p.ballot) + 1 < 2 ^ 64) :
    m.epochFile < nextEpoch m p := by
  rw [nextEpoch, Nat.mod_eq_of_lt h]
  omega

def castBallot (m : Member) (p : Proc) (b : Ballot) : Member :=
  { m with voteFile := some b, proc := some { p with ballot := some b } }

/-- The request of a candidacy in `epoch`, for the log as it is. -/
def voteRequest (me : Nat) (m : Member) (p : Proc) (epoch : Nat) : VoteRequest :=
  ⟨me, epoch, p.logEpoch, m.headTx⟩

/-- The own ballot is cast and every peer is asked. -/
def standing (cfg : Config) (me : Nat) (m : Member) (p : Proc) (epoch : Nat) : Reaction :=
  let req := voteRequest me m p epoch
  { member := castBallot m { p with task := .asking ⟨req, cfg.peers me, 1, epoch⟩ } ⟨epoch, me⟩
    out := (cfg.peers me).map fun peer => ⟨me, peer, .voteRequest req⟩
    obs := [.voted req p.logEpoch m.log] }

/-- Back to following, without a session. -/
def endSession (m : Member) (p : Proc) : Reaction :=
  { member := m.withProc { p with task := .following none } }

/-- `self_ballot` and the vote requests: no candidacy without a persisted ballot. -/
def selfBallot (cfg : Config) (me : Nat) (m : Member) (p : Proc) (persisted : Bool) :
    Option Reaction :=
  match p.task with
  | .proposed epoch => some (if persisted then standing cfg me m p epoch else endSession m p)
  | _ => none

/-- An unfenced primary hears itself; a replica hears its primary while the contact is fresh. -/
def hearsAPrimary (p : Proc) (contact : Bool) : Bool := if p.isPrimary then !p.fenced else contact

/-- Answer a vote request; a granted ballot is persisted first. -/
def answer (me : Nat) (m : Member) (p : Proc) (req : VoteRequest) (contact persisted : Bool) :
    Reaction :=
  let reply (epoch : Nat) (granted : Bool) : List Packet :=
    [⟨me, req.memberName, .voteResponse req ⟨epoch, granted⟩⟩]
  match decideVote m.epochFile p.ballot (p.logEpoch, m.headTx) (hearsAPrimary p contact) req with
  | some grant =>
    if persisted then
      { member := castBallot m p grant
        out := reply m.epochFile true
        obs := [.voted req p.logEpoch m.log] }
    else { member := m, out := reply m.epochFile false }
  | none => { member := m, out := reply (max m.epochFile (ballotEpoch p.ballot)) false }

/-- A candidate counts the answer of a peer, each peer once. -/
def Candidacy.count (c : Candidacy) (peer : Nat) (response : VoteResponse) : Candidacy :=
  { c with
    pending := c.pending.erase peer
    tally := if response.granted then c.tally + 1 else c.tally
    highestSeen := max c.highestSeen response.epoch }

def receiveVote (m : Member) (p : Proc) (peer : Nat) (req : VoteRequest) (response : VoteResponse) :
    Option Reaction :=
  match p.task with
  | .asking c =>
    if c.request = req ∧ peer ∈ c.pending then
      some { member := m.withProc { p with task := .asking (c.count peer response) } }
    else none
  | _ => none

/-- Publish a role. -/
def Proc.setRole (p : Proc) (primary : Bool) (epoch : Nat) : Proc :=
  { p with isPrimary := primary, roleEpoch := max p.roleEpoch epoch }

def Proc.adoptEpoch (p : Proc) (epoch : Nat) : Proc :=
  { p with primaryEpoch := max p.primaryEpoch epoch }

/-- Promotion: the epoch is persisted, the writer writes under it, the role is published. -/
def promotion (m : Member) (p : Proc) (epoch : Nat) : Reaction :=
  let p := { p with logEpoch := epoch }
  { member := ({ m with epochFile := epoch } : Member).withProc
      { (p.adoptEpoch epoch).setRole true epoch with task := .parked }
    obs := [.promoted epoch m.log] }

/-- The verdict of `run_candidacy`: lost to a higher epoch, lost for want of votes, or promoted.
`persisted` and `raised` say whether the epoch could be persisted and the writer took it. -/
def conclude (cfg : Config) (m : Member) (p : Proc) (persisted raised : Bool) : Option Reaction :=
  match p.task with
  | .asking c =>
    let epoch := c.request.epoch
    some (
      if c.highestSeen > epoch then endSession { m with epochFile := c.highestSeen } p
      else if c.tally < majority cfg.members then endSession m p
      else if !persisted then endSession m p
      -- The writer refuses an epoch below its own; the file is already written.
      else if !raised || epoch < p.logEpoch then endSession { m with epochFile := epoch } p
      else promotion m p epoch)
  | _ => none

/-- A parked primary that finds itself fenced steps down, under the epoch it was fenced to. -/
def demote (m : Member) (p : Proc) : Option Reaction :=
  if p.task = .parked ∧ p.fenced then
    some (endSession { m with epochFile := p.primaryEpoch } (p.setRole false p.primaryEpoch))
  else none

/-! ### The primary's side -/

/-- A higher epoch has been seen. -/
def Proc.fence (p : Proc) (theirs : Nat) : Proc :=
  { p.adoptEpoch theirs with fenced := true }

def Proc.setSession (p : Proc) (replica : Nat) (s : Option ReplicaSession) : Proc :=
  { p with sessions := Function.update p.sessions replica s }

def syncFull (m : Member) (lastApplied : Nat) : Bool :=
  match m.firstAvailable with
  | some first => lastApplied = 0 || lastApplied + 1 < first
  | none => lastApplied = 0 && m.headTx > 0

/-- Register a session and greet the replica; the stream starts after the checkpoint, or after what
the replica has. -/
def openSession (me : Nat) (m : Member) (p : Proc) (replica conn lastApplied : Nat)
    (checkpoint : Option Nat) : Reaction :=
  let fromTx := checkpoint.getD lastApplied
  { member := m.withProc (p.setSession replica (some ⟨conn, lastApplied, fromTx⟩))
    out := [⟨me, replica, .primaryHello conn p.primaryEpoch fromTx
      (checkpoint.map fun c => m.history.take c)⟩]
    obs := [.accepted replica lastApplied (syncFull m lastApplied)] }

/-- Accept a replica's hello, or refuse it, or find oneself fenced by it. `packed` is how many
transactions the newest checkpoint covers, if there is one. -/
def accept (me : Nat) (m : Member) (p : Proc) (replica conn epoch lastApplied : Nat)
    (packed : Option Nat) : Option Reaction :=
  let checkpoint := if syncFull m lastApplied then packed else none
  if !p.isPrimary then some { member := m }
  else if epoch > p.primaryEpoch then
    some {
      member := m.withProc (p.fence epoch)
      out := [⟨me, replica, .replFence conn epoch⟩] }
  else if lastApplied > m.headTx then some { member := m }
  -- A checkpoint covers no more than has been committed.
  else if checkpoint.any (· > m.history.length) then none
  else some (openSession me m p replica conn lastApplied checkpoint)

def stream (me : Nat) (m : Member) (p : Proc) (replica count : Nat) : Option Reaction :=
  (p.sessions replica).bind fun s =>
    let frames := (m.history.drop s.lastSent).take count
    if m.first ≤ s.lastSent ∧ s.lastSent < m.headTx ∧ 0 < count then
      some {
        member := m.withProc
          (p.setSession replica (some { s with lastSent := s.lastSent + frames.length }))
        out := [⟨me, replica, .replBatch s.conn p.primaryEpoch s.lastSent frames⟩] }
    else none

def heartbeat (me : Nat) (m : Member) (p : Proc) (replica : Nat) : Option Reaction :=
  (p.sessions replica).map fun s =>
    { member := m, out := [⟨me, replica, .replHeartbeat s.conn p.primaryEpoch⟩] }

/-- Record an acknowledgment; one of a higher epoch fences. -/
def Proc.ack (p : Proc) (replica epoch durable : Nat) : Proc :=
  let p := if epoch > p.primaryEpoch then p.fence epoch else p
  match p.sessions replica with
  | some s => p.setSession replica (some { s with durable := max s.durable durable })
  | none => p

def Proc.durableCount (p : Proc) (members txId : Nat) : Nat :=
  ((List.range members).filter fun r => (p.sessions r).any (·.durable ≥ txId)).length

def barrierCall (m : Member) (p : Proc) (txId : Nat) : BarrierCall :=
  ⟨p.isPrimary, p.logEpoch, txId, m.record txId⟩

/-- The barrier answers: the transaction is no longer held. -/
def release (m : Member) (p : Proc) (txId : Nat) (result : BarrierResult) : Reaction :=
  { member := m.withProc { p with held := p.held.erase txId }
    obs := [.barrier (barrierCall m p txId) result] }

/-- `visibility_barrier` is called: it answers at once or holds the transaction. -/
def visibilityBarrier (cfg : Config) (me : Nat) (m : Member) (p : Proc) (txId : Nat) :
    Option Reaction :=
  if txId = 0 ∨ m.history.length < txId then none
  else if p.fenced then some { member := m, obs := [.barrier (barrierCall m p txId) .fenced] }
  else
    match cfg.armed me with
    | none => some { member := m, obs := [.barrier (barrierCall m p txId) .ok] }
    | some semi =>
      if semi.quorumTotal - 1 = 0 then
        some { member := m, obs := [.barrier (barrierCall m p txId) .ok] }
      else some { member := m.withProc { p with held := txId :: p.held } }

/-- One turn of the barrier's loop for a held transaction. -/
def barrierTurn (cfg : Config) (me : Nat) (m : Member) (p : Proc) (txId : Nat) : Option Reaction :=
  (cfg.armed me).bind fun semi =>
    if txId ∉ p.held then none
    else if semi.quorumTotal - 1 ≤ p.durableCount cfg.members txId then some (release m p txId .ok)
    else if p.fenced then some (release m p txId .fenced)
    else none

/-- The deadline of a held transaction passes. -/
def barrierTimeout (cfg : Config) (me : Nat) (m : Member) (p : Proc) (txId : Nat) :
    Option Reaction :=
  (cfg.armed me).bind fun semi =>
    if txId ∉ p.held then none
    else some (release m p txId (if semi.degrade then .ok else .quorumLost))

/-- A local commit; the log takes it under its epoch. Only a primary admits writes. -/
def commitLocal (m : Member) (p : Proc) (record : TxRecord) : Option Reaction :=
  if p.isPrimary ∧ record.txId = m.history.length + 1 then
    let history := m.history ++ [⟨p.logEpoch, record⟩]
    some {
      member := { m with history := history }
      obs := [.committed p.logEpoch history] }
  else none

/-! ### The replica's side -/

/-- Open a session: load the epoch and say hello. -/
def connect (cfg : Config) (me : Nat) (m : Member) (p : Proc) (primary : Nat) : Option Reaction :=
  if p.task = .following none ∧ primary ∈ cfg.peers me then
    let conn := m.conns + 1
    let session := ⟨conn, primary, m.epochFile, .waiting⟩
    some {
      member := ({ m with conns := conn } : Member).withProc { p with task := .following (some session) }
      out := [⟨me, primary, .replicaHello conn m.epochFile m.headTx⟩] }
  else none

/-- The session a message of a connection belongs to. -/
def Proc.session (p : Proc) (primary conn : Nat) : Option Following :=
  match p.task with
  | .following (some s) => if s.primary = primary ∧ s.conn = conn then some s else none
  | _ => none

def Proc.setPhase (p : Proc) (s : Following) (phase : Phase) : Proc :=
  { p with task := .following (some { s with phase := phase }) }

/-- `PrimaryHello`, and the checkpoint of a full sync, which only an empty store takes. -/
def receivePrimaryHello (m : Member) (p : Proc) (s : Following) (epoch fromTx : Nat)
    (checkpoint : Option (List Entry)) : Option Reaction :=
  if s.phase ≠ .waiting then none
  else
    let m := { m with epochFile := if epoch > s.epoch then epoch else m.epochFile }
    match checkpoint with
    | none => some { member := m.withProc (p.setPhase s (.streaming fromTx)) }
    | some records =>
      if m.history.isEmpty then
        some {
          member := ({ m with history := records, first := records.length } : Member).withProc
            (p.setPhase s (.streaming fromTx)) }
      else some (endSession m p)

/-- One frame of a batch: raise the log's epoch to the envelope's, then apply and append the
record. -/
def applyFrame (m : Member) (p : Proc) (frame : Entry) : Member × Proc × Bool :=
  let m := { m with epochFile := if frame.epoch > p.logEpoch then frame.epoch else m.epochFile }
  let p := { p with logEpoch := max p.logEpoch frame.epoch }
  if frame.record.txId = m.history.length + 1 then
    ({ m with history := m.history ++ [⟨p.logEpoch, frame.record⟩] }, p, true)
  else (m, p, false)

/-- The frames of a batch, up to the first that does not apply. -/
def applyFrames (m : Member) (p : Proc) : List Entry → Member × Proc × Bool
  | [] => (m, p, true)
  | frame :: frames =>
    match applyFrame m p frame with
    | (m, p, true) => applyFrames m p frames
    | (m, p, false) => (m, p, false)

/-- A batch: refused under an epoch older than the persisted one. -/
def receiveBatch (m : Member) (p : Proc) (s : Following) (epoch start : Nat) (frames : List Entry) :
    Option Reaction :=
  if s.phase ≠ .streaming start then none
  else if epoch < m.epochFile then some (endSession m p)
  else
    match applyFrames m p frames with
    | (m, p, true) =>
      some { member := m.withProc (p.setPhase s (.streaming (start + frames.length))) }
    | (m, p, false) => some (endSession m p)

def receiveHeartbeat (m : Member) (s : Following) (epoch : Nat) : Option Reaction :=
  if s.phase = .waiting then none
  else some { member := { m with epochFile := max m.epochFile epoch } }

def receiveFence (m : Member) (p : Proc) (s : Following) (epoch : Nat) : Option Reaction :=
  if s.phase ≠ .waiting then none
  else some (endSession { m with epochFile := epoch } p)

/-- The acknowledgment tick of a session whose stream has begun. -/
def ackTick (me : Nat) (m : Member) (p : Proc) : Option Reaction :=
  match p.task with
  | .following (some s) =>
    if s.phase = .waiting then none
    else some { member := m, out := [⟨me, s.primary, .replAck m.epochFile m.headTx⟩] }
  | _ => none

/-! ### The member -/

/-- The process a boot starts: everything under the persisted epoch, in the configured role. -/
def boot (cfg : Config) (me : Nat) (m : Member) : Proc where
  ballot := m.voteFile
  isPrimary := cfg.bootPrimary me
  roleEpoch := m.epochFile
  logEpoch := m.epochFile
  primaryEpoch := m.epochFile
  fenced := false
  sessions := fun _ => none
  held := []
  task := if cfg.bootPrimary me then .parked else .following none

/-- What a member does of its own accord, with the choices its surroundings make for it. -/
inductive Action where
  | nextEpoch
  | selfBallot (persisted : Bool)
  | conclude (persisted raised : Bool)
  | demote
  | connect (primary : Nat)
  | endSession
  | ackTick
  | commit (record : TxRecord)
  | stream (replica count : Nat)
  | heartbeat (replica : Nat)
  | dropSession (replica : Nat)
  | barrier (txId : Nat)
  | barrierTurn (txId : Nat)
  | barrierTimeout (txId : Nat)
  /-- Compaction drops the segments before a transaction; the last one stays. -/
  | prune (first : Nat)
  | crash

def actUp (cfg : Config) (me : Nat) (m : Member) (p : Proc) : Action → Option Reaction
  | .nextEpoch =>
    match p.task with
    | .following _ => some { member := m.withProc { p with task := .proposed (nextEpoch m p) } }
    | _ => none
  | .selfBallot persisted => selfBallot cfg me m p persisted
  | .conclude persisted raised => conclude cfg m p persisted raised
  | .demote => demote m p
  | .connect primary => connect cfg me m p primary
  | .endSession =>
    match p.task with
    | .following _ => some (endSession m p)
    | _ => none
  | .ackTick => ackTick me m p
  | .commit record => commitLocal m p record
  | .stream replica count => stream me m p replica count
  | .heartbeat replica => heartbeat me m p replica
  | .dropSession replica => some { member := m.withProc (p.setSession replica none) }
  | .barrier txId => visibilityBarrier cfg me m p txId
  | .barrierTurn txId => barrierTurn cfg me m p txId
  | .barrierTimeout txId => barrierTimeout cfg me m p txId
  | .prune first =>
    if m.first ≤ first ∧ first < m.history.length then some { member := { m with first := first } }
    else none
  | .crash => some { member := { m with proc := none } }

/-- The surroundings' choices at the delivery of a message. -/
structure Choice where
  /-- The replica has heard its primary within the election timeout. -/
  contact : Bool
  /-- The ballot could be persisted. -/
  persisted : Bool
  /-- How many transactions the newest checkpoint covers. -/
  packed : Option Nat

def receive (me : Nat) (m : Member) (p : Proc) (src : Nat) (choice : Choice) : Msg → Option Reaction
  | .voteRequest req => some (answer me m p req choice.contact choice.persisted)
  | .voteResponse req response => receiveVote m p src req response
  | .replicaHello conn epoch lastApplied => accept me m p src conn epoch lastApplied choice.packed
  | .primaryHello conn epoch fromTx checkpoint =>
    (p.session src conn).bind fun s => receivePrimaryHello m p s epoch fromTx checkpoint
  | .replFence conn epoch => (p.session src conn).bind fun s => receiveFence m p s epoch
  | .replHeartbeat conn epoch => (p.session src conn).bind fun s => receiveHeartbeat m s epoch
  | .replBatch conn epoch start frames =>
    (p.session src conn).bind fun s => receiveBatch m p s epoch start frames
  | .replAck epoch durable => some { member := m.withProc (p.ack src epoch durable) }

end Fluxum.ReplicaSet
