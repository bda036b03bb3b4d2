/-
# What a member can do

The reactions of a member, one by one, each with what must hold for it: the
branches of `actUp` and `receive` as the constructors of two relations, from
which everything else about a step follows.
-/
import Fluxum.ReplicaSet.Member

namespace Fluxum.ReplicaSet

open List Function Option

/-! ### What each function leaves alone -/

section

variable (m : Member)
include m

@[simp] theorem withProc_proc (p : Proc) : (m.withProc p).proc = some p := rfl

@[simp] theorem withProc_voteFile (p : Proc) : (m.withProc p).voteFile = m.voteFile := rfl

@[simp] theorem withProc_history (p : Proc) : (m.withProc p).history = m.history := rfl

@[simp] theorem withProc_first (p : Proc) : (m.withProc p).first = m.first := rfl

@[simp] theorem withProc_epochFile (p : Proc) : (m.withProc p).epochFile = m.epochFile := rfl

@[simp] theorem withProc_conns (p : Proc) : (m.withProc p).conns = m.conns := rfl

theorem applyFrame_frame (p : Proc) (frame : Entry) : ∃ ef h le ok,
    applyFrame m p frame = ({ m with epochFile := ef, history := h }, { p with logEpoch := le }, ok) := by
  simp only [applyFrame]
  by_cases hnext : frame.record.txId = m.history.length + 1
  · rw [if_pos hnext]
    exact ⟨_, _, _, _, rfl⟩
  · rw [if_neg hnext]
    exact ⟨_, m.history, _, _, rfl⟩

end

theorem applyFrames_frame (frames : List Entry) : ∀ (m : Member) (p : Proc), ∃ ef h le ok,
    applyFrames m p frames = ({ m with epochFile := ef, history := h }, { p with logEpoch := le }, ok) := by
  induction frames with
  | nil => exact fun m p => ⟨_, _, _, _, rfl⟩
  | cons frame frames ih =>
    intro m p
    obtain ⟨ef, h, le, ok, hf⟩ := applyFrame_frame m p frame
    cases ok with
    | false => exact ⟨ef, h, le, false, by rw [applyFrames, hf]⟩
    | true =>
      obtain ⟨ef', h', le', ok', hfs⟩ := ih { m with epochFile := ef, history := h } { p with logEpoch := le }
      exact ⟨ef', h', le', ok', by rw [applyFrames, hf]; exact hfs⟩

/-- An acknowledgment fences, or raises what a session holds durably. -/
theorem ack_frame (p : Proc) (src epoch durable : Nat) : ∃ pe fenced ss,
    p.ack src epoch durable = { p with primaryEpoch := pe, fenced := fenced, sessions := ss } ∧
      p.primaryEpoch ≤ pe ∧ (epoch ≤ p.primaryEpoch → pe = p.primaryEpoch ∧ fenced = p.fenced) ∧
      ∀ r s', ss r = some s' → ∃ s, p.sessions r = some s ∧ s'.conn = s.conn ∧
        (s'.durable = s.durable ∨ (r = src ∧ s'.durable = durable)) := by
  have hfence : ∃ pe fenced, (if epoch > p.primaryEpoch then p.fence epoch else p) =
      { p with primaryEpoch := pe, fenced := fenced } ∧ p.primaryEpoch ≤ pe ∧
        (epoch ≤ p.primaryEpoch → pe = p.primaryEpoch ∧ fenced = p.fenced) := by
    by_cases hepoch : epoch > p.primaryEpoch
    · exact ⟨max p.primaryEpoch epoch, true, if_pos hepoch, Nat.le_max_left _ _, fun h => by omega⟩
    · exact ⟨_, _, if_neg hepoch, Nat.le_refl _, fun _ => ⟨rfl, rfl⟩⟩
  obtain ⟨pe, fenced, hfence, hle, hsame⟩ := hfence
  unfold Proc.ack
  simp only [hfence]
  cases hsrc : p.sessions src with
  | none => exact ⟨pe, fenced, p.sessions, rfl, hle, hsame, fun r s' hs' => ⟨s', hs', rfl, .inl rfl⟩⟩
  | some s =>
    refine ⟨pe, fenced, _, rfl, hle, hsame, fun r s' hs' => ?_⟩
    by_cases hr : r = src
    · subst hr
      simp only [update_self, some.injEq] at hs'
      subst hs'
      refine ⟨s, hsrc, rfl, ?_⟩
      simp only [true_and]
      omega
    · simp only [update_of_ne hr] at hs'
      exact ⟨s', hs', rfl, .inl rfl⟩

/-- Every way a running process acts, with what must hold for it. -/
inductive Acts (cfg : Config) (me : Nat) (m : Member) (p : Proc) : Action → Reaction → Prop where
  | nextEpoch {f} : p.task = .following f →
      Acts cfg me m p .nextEpoch { member := m.withProc { p with task := .proposed (nextEpoch m p) } }
  | stand {epoch} : p.task = .proposed epoch →
      Acts cfg me m p (.selfBallot true) (standing cfg me m p epoch)
  | cannotStand {epoch} : p.task = .proposed epoch →
      Acts cfg me m p (.selfBallot false) (endSession m p)
  | lose {c ef b b'} : p.task = .asking c → ef = m.epochFile ∨ c.request.epoch ≤ ef →
      Acts cfg me m p (.conclude b b') (endSession { m with epochFile := ef } p)
  | win {c b b'} : p.task = .asking c → majority cfg.members ≤ c.tally →
      p.logEpoch ≤ c.request.epoch → Acts cfg me m p (.conclude b b') (promotion m p c.request.epoch)
  | demote : p.task = .parked → p.fenced = true →
      Acts cfg me m p .demote
        (endSession { m with epochFile := p.primaryEpoch } (p.setRole false p.primaryEpoch))
  | connect {primary} : p.task = .following none → primary ∈ cfg.peers me →
      Acts cfg me m p (.connect primary) {
        member := ({ m with conns := m.conns + 1 } : Member).withProc
          { p with task := .following (some ⟨m.conns + 1, primary, m.epochFile, .waiting⟩) }
        out := [⟨me, primary, .replicaHello (m.conns + 1) m.epochFile m.headTx⟩] }
  | endSession {f} : p.task = .following f → Acts cfg me m p .endSession (endSession m p)
  | ackTick {f : Following} : p.task = .following (some f) → f.phase ≠ .waiting →
      Acts cfg me m p .ackTick
        { member := m, out := [⟨me, f.primary, .replAck m.epochFile m.headTx⟩] }
  | commit {record : TxRecord} : p.isPrimary = true → record.txId = m.history.length + 1 →
      Acts cfg me m p (.commit record) {
        member := { m with history := m.history ++ [⟨p.logEpoch, record⟩] }
        obs := [.committed p.logEpoch (m.history ++ [⟨p.logEpoch, record⟩])] }
  | stream {replica count s} : p.sessions replica = some s → s.lastSent < m.headTx → 0 < count →
      Acts cfg me m p (.stream replica count) {
        member := m.withProc (p.setSession replica (some { s with
          lastSent := s.lastSent + ((m.history.drop s.lastSent).take count).length }))
        out := [⟨me, replica, .replBatch s.conn p.primaryEpoch s.lastSent
          ((m.history.drop s.lastSent).take count)⟩] }
  | heartbeat {replica s} : p.sessions replica = some s →
      Acts cfg me m p (.heartbeat replica)
        { member := m, out := [⟨me, replica, .replHeartbeat s.conn p.primaryEpoch⟩] }
  | dropSession {replica} :
      Acts cfg me m p (.dropSession replica) { member := m.withProc (p.setSession replica none) }
  | barrierFenced {txId} : p.fenced = true →
      Acts cfg me m p (.barrier txId)
        { member := m, obs := [.barrier (barrierCall m p txId) .fenced] }
  | barrierOk {txId} : p.fenced = false → (∀ semi, cfg.armed me = some semi → semi.quorumTotal ≤ 1) →
      Acts cfg me m p (.barrier txId) { member := m, obs := [.barrier (barrierCall m p txId) .ok] }
  | barrierHold {txId semi} : p.fenced = false → cfg.armed me = some semi →
      Acts cfg me m p (.barrier txId) { member := m.withProc { p with held := txId :: p.held } }
  | turnOk {txId semi} : cfg.armed me = some semi →
      semi.quorumTotal - 1 ≤ p.durableCount cfg.members txId →
      Acts cfg me m p (.barrierTurn txId) (release m p txId .ok)
  | turnFenced {txId} : p.fenced = true →
      Acts cfg me m p (.barrierTurn txId) (release m p txId .fenced)
  | timeout {txId semi} : cfg.armed me = some semi →
      Acts cfg me m p (.barrierTimeout txId)
        (release m p txId (if semi.degrade then .ok else .quorumLost))
  | prune {first} : m.first ≤ first → first < m.history.length →
      Acts cfg me m p (.prune first) { member := { m with first := first } }
  | crash : Acts cfg me m p .crash { member := { m with proc := none } }

variable {r : Reaction} {m : Member} {p : Proc} {me : Nat} {cfg : Config} {f : Following}

theorem conclude_acts {b b' : Bool}
    (h : conclude cfg m p b b' = some r) : Acts cfg me m p (.conclude b b') r := by
  unfold conclude at h
  split at h
  · next c hc =>
    cases h
    split_ifs with hseen htally hpersisted hraised
    · exact .lose hc (.inr (Nat.le_of_lt hseen))
    · exact .lose hc (.inl rfl)
    · exact .lose hc (.inl rfl)
    · exact .lose hc (.inr (Nat.le_refl _))
    · simp only [Bool.or_eq_true, decide_eq_true_eq, not_or] at hraised
      exact .win hc (by omega) (by omega)
  · cases h

theorem barrier_acts {txId : Nat}
    (h : visibilityBarrier cfg me m p txId = some r) : Acts cfg me m p (.barrier txId) r := by
  unfold visibilityBarrier at h
  split_ifs at h with hrange hfenced
  · cases h
    exact .barrierFenced hfenced
  have hfenced : p.fenced = false := by simpa using hfenced
  split at h
  · next harmed =>
    cases h
    exact .barrierOk hfenced fun semi hsemi => by simp [harmed] at hsemi
  · next semi harmed =>
    split_ifs at h with hquorum <;> cases h
    · refine .barrierOk hfenced fun semi' hsemi => ?_
      cases harmed.symm.trans hsemi
      omega
    · exact .barrierHold hfenced harmed

theorem actUp_acts {a : Action} (h : actUp cfg me m p a = some r) :
    Acts cfg me m p a r := by
  cases a with
  | nextEpoch =>
    simp only [actUp] at h
    split at h <;> cases h
    exact .nextEpoch ‹_›
  | selfBallot persisted =>
    simp only [actUp, selfBallot] at h
    split at h <;> cases h
    cases persisted with
    | true => exact .stand ‹_›
    | false => exact .cannotStand ‹_›
  | conclude b b' => exact conclude_acts h
  | demote =>
    simp only [actUp, ReplicaSet.demote] at h
    split_ifs at h with hfenced
    cases h
    exact .demote hfenced.1 hfenced.2
  | connect primary =>
    simp only [actUp, ReplicaSet.connect] at h
    split_ifs at h with hpeer
    cases h
    exact .connect hpeer.1 hpeer.2
  | endSession =>
    simp only [actUp] at h
    split at h <;> cases h
    exact .endSession ‹_›
  | ackTick =>
    simp only [actUp, ReplicaSet.ackTick] at h
    split at h <;> [split_ifs at h with hphase; skip] <;> cases h
    exact .ackTick ‹_› hphase
  | commit record =>
    simp only [actUp, commitLocal] at h
    split_ifs at h with hrecord
    cases h
    exact .commit hrecord.1 hrecord.2
  | stream replica count =>
    simp only [actUp, ReplicaSet.stream, bind_eq_some_iff] at h
    obtain ⟨s, hs, h⟩ := h
    split_ifs at h with hsent
    cases h
    exact .stream hs hsent.2.1 hsent.2.2
  | heartbeat replica =>
    simp only [actUp, ReplicaSet.heartbeat, map_eq_some_iff] at h
    obtain ⟨s, hs, rfl⟩ := h
    exact .heartbeat hs
  | dropSession replica =>
    cases h
    exact .dropSession
  | barrier txId => exact barrier_acts h
  | barrierTurn txId =>
    simp only [actUp, barrierTurn, bind_eq_some_iff] at h
    obtain ⟨semi, hsemi, h⟩ := h
    split_ifs at h with hheld hquorum hfenced <;> cases h
    · exact .turnOk hsemi hquorum
    · exact .turnFenced hfenced
  | barrierTimeout txId =>
    simp only [actUp, barrierTimeout, bind_eq_some_iff] at h
    obtain ⟨semi, hsemi, h⟩ := h
    by_cases hheld : txId ∉ p.held
    · simp [hheld] at h
    · rw [if_neg hheld] at h
      cases h
      exact .timeout hsemi
  | prune first =>
    simp only [actUp] at h
    split_ifs at h with hfirst
    cases h
    exact .prune hfirst.1 hfirst.2
  | crash =>
    cases h
    exact .crash

/-- Every way a running process takes a message, with what must hold for it. -/
inductive Receives (me : Nat) (m : Member) (p : Proc) (src : Nat) : Msg → Reaction → Prop where
  | grant {req : VoteRequest} {contact} :
      decideVote m.epochFile p.ballot (p.logEpoch, m.headTx) (hearsAPrimary p contact) req =
        some ⟨req.epoch, req.memberName⟩ →
      Receives me m p src (.voteRequest req) {
        member := castBallot m p ⟨req.epoch, req.memberName⟩
        out := [⟨me, req.memberName, .voteResponse req ⟨m.epochFile, true⟩⟩]
        obs := [.voted req p.logEpoch m.log] }
  | deny {req : VoteRequest} {epoch} :
      Receives me m p src (.voteRequest req)
        { member := m, out := [⟨me, req.memberName, .voteResponse req ⟨epoch, false⟩⟩] }
  | count {c req response} : p.task = .asking c → c.request = req → src ∈ c.pending →
      Receives me m p src (.voteResponse req response)
        { member := m.withProc { p with task := .asking (c.count src response) } }
  | refuse {conn epoch lastApplied} : p.isPrimary = false ∨ epoch ≤ p.primaryEpoch →
      Receives me m p src (.replicaHello conn epoch lastApplied) { member := m }
  | fencedByHello {conn epoch lastApplied} : p.isPrimary = true → p.primaryEpoch < epoch →
      Receives me m p src (.replicaHello conn epoch lastApplied) {
        member := m.withProc (p.fence epoch)
        out := [⟨me, src, .replFence conn epoch⟩] }
  | accept {conn epoch lastApplied checkpoint} : p.isPrimary = true → epoch ≤ p.primaryEpoch →
      lastApplied ≤ m.headTx →
      (∀ c ∈ checkpoint, c ≤ m.history.length ∧ syncFull m lastApplied = true) →
      Receives me m p src (.replicaHello conn epoch lastApplied)
        (openSession me m p src conn lastApplied checkpoint)
  | established {conn epoch fromTx f} : p.session src conn = some f → f.phase = .waiting →
      Receives me m p src (.primaryHello conn epoch fromTx none) {
        member := ({ m with epochFile := if epoch > f.epoch then epoch else m.epochFile } : Member).withProc
          (p.setPhase f (.streaming fromTx)) }
  | installed {conn epoch fromTx records f} : p.session src conn = some f → f.phase = .waiting →
      m.history = [] →
      Receives me m p src (.primaryHello conn epoch fromTx (some records)) {
        member := ({ m with
            epochFile := if epoch > f.epoch then epoch else m.epochFile
            history := records
            first := records.length } : Member).withProc (p.setPhase f (.streaming fromTx)) }
  | cannotInstall {conn epoch fromTx records f} : p.session src conn = some f → f.phase = .waiting →
      Receives me m p src (.primaryHello conn epoch fromTx (some records))
        (endSession { m with epochFile := if epoch > f.epoch then epoch else m.epochFile } p)
  | fence {conn epoch f} : p.session src conn = some f → f.phase = .waiting →
      Receives me m p src (.replFence conn epoch) (endSession { m with epochFile := epoch } p)
  | heartbeat {conn epoch f} : p.session src conn = some f → f.phase ≠ .waiting →
      Receives me m p src (.replHeartbeat conn epoch)
        { member := { m with epochFile := max m.epochFile epoch } }
  | staleBatch {conn epoch start frames f} : p.session src conn = some f → epoch < m.epochFile →
      Receives me m p src (.replBatch conn epoch start frames) (endSession m p)
  | batch {conn epoch start frames f m' p'} : p.session src conn = some f →
      f.phase = .streaming start → m.epochFile ≤ epoch → applyFrames m p frames = (m', p', true) →
      Receives me m p src (.replBatch conn epoch start frames)
        { member := m'.withProc (p'.setPhase f (.streaming (start + frames.length))) }
  | batchFails {conn epoch start frames f m' p'} : p.session src conn = some f →
      f.phase = .streaming start → m.epochFile ≤ epoch → applyFrames m p frames = (m', p', false) →
      Receives me m p src (.replBatch conn epoch start frames) (endSession m' p')
  | ack {epoch durable} :
      Receives me m p src (.replAck epoch durable) { member := m.withProc (p.ack src epoch durable) }

theorem accept_receives {src conn epoch lastApplied : Nat} {packed : Option Nat}
    (h : accept me m p src conn epoch lastApplied packed = some r) :
    Receives me m p src (.replicaHello conn epoch lastApplied) r := by
  unfold accept at h
  extract_lets checkpoint at h
  split_ifs at h with hrole hepoch hfuture hpacked
  · cases h
    exact .refuse (.inl (by simpa using hrole))
  · cases h
    exact .fencedByHello (by simpa using hrole) hepoch
  · cases h
    exact .refuse (.inr (by omega))
  cases h
  refine .accept (by simpa using hrole) (by omega) (by omega) fun c hc => ⟨?_, ?_⟩
  · simp only [mem_def.mp hc, any_some, decide_eq_true_eq] at hpacked
    omega
  · by_contra hfull
    simp [checkpoint, hfull] at hc

theorem receiveBatch_receives {src conn epoch start : Nat} {frames : List Entry}
    (hf : p.session src conn = some f) (h : receiveBatch m p f epoch start frames = some r) :
    Receives me m p src (.replBatch conn epoch start frames) r := by
  unfold receiveBatch at h
  split_ifs at h with hphase hepoch
  · cases h
    exact .staleBatch hf hepoch
  have hphase : f.phase = .streaming start := by simpa using hphase
  split at h <;> cases h
  · exact .batch hf hphase (by omega) ‹_›
  · exact .batchFails hf hphase (by omega) ‹_›

theorem receivePrimaryHello_receives {src conn epoch fromTx : Nat}
    {checkpoint : Option (List Entry)} (hf : p.session src conn = some f)
    (h : receivePrimaryHello m p f epoch fromTx checkpoint = some r) :
    Receives me m p src (.primaryHello conn epoch fromTx checkpoint) r := by
  unfold receivePrimaryHello at h
  by_cases hphase : f.phase = .waiting
  · rw [if_neg (by simpa using hphase)] at h
    cases checkpoint with
    | none =>
      cases h
      exact .established hf hphase
    | some records =>
      by_cases hempty : m.history = []
      · simp only [hempty, List.isEmpty_nil, if_true] at h
        cases h
        exact .installed hf hphase hempty
      · simp only [List.isEmpty_iff, hempty, if_false] at h
        cases h
        exact .cannotInstall hf hphase
  · rw [if_pos (by simpa using hphase)] at h
    cases h

theorem receive_receives {src : Nat} {choice : Choice} {msg : Msg}
    (h : receive me m p src choice msg = some r) : Receives me m p src msg r := by
  cases msg with
  | voteRequest req =>
    cases h
    unfold answer
    split
    · next grant hgrant =>
      obtain ⟨rfl, -⟩ := decideVote_eq_some hgrant
      split_ifs
      · exact .grant hgrant
      · exact .deny
    · exact .deny
  | voteResponse req response =>
    simp only [receive, receiveVote] at h
    split at h <;> [split_ifs at h with hc; skip] <;> cases h
    exact .count ‹_› hc.1 hc.2
  | replicaHello conn epoch lastApplied => exact accept_receives h
  | primaryHello conn epoch fromTx checkpoint =>
    obtain ⟨f, hf, h⟩ := bind_eq_some_iff.mp h
    exact receivePrimaryHello_receives hf h
  | replFence conn epoch =>
    obtain ⟨f, hf, h⟩ := bind_eq_some_iff.mp h
    simp only [receiveFence] at h
    split_ifs at h with hphase
    cases h
    exact .fence hf (by simpa using hphase)
  | replHeartbeat conn epoch =>
    obtain ⟨f, hf, h⟩ := bind_eq_some_iff.mp h
    simp only [receiveHeartbeat] at h
    split_ifs at h with hphase
    cases h
    exact .heartbeat hf hphase
  | replBatch conn epoch start frames =>
    obtain ⟨f, hf, h⟩ := bind_eq_some_iff.mp h
    exact receiveBatch_receives hf h
  | replAck epoch durable =>
    cases h
    exact .ack

theorem session_eq_some {src conn : Nat} (h : p.session src conn = some f) :
    p.task = .following (some f) ∧ f.primary = src ∧ f.conn = conn := by
  unfold Proc.session at h
  split at h
  · next g hg =>
    split_ifs at h with hsrc
    cases h
    exact ⟨hg, hsrc.1, hsrc.2⟩
  · cases h

/-! ### Messages and their sender's log -/

/-- What the messages of a reaction say about the log of the member that sends them: a hello tells
its head, and checkpoints and frames are parts of it. -/
structure Sends (me : Nat) (m : Member) (r : Reaction) : Prop where
  src : ∀ pkt ∈ r.out, pkt.src = me
  hello : ∀ pkt ∈ r.out, ∀ conn epoch n, pkt.msg = .replicaHello conn epoch n → n = m.headTx
  checkpoint : ∀ pkt ∈ r.out, ∀ conn epoch n records, pkt.msg = .primaryHello conn epoch n (some records) →
    records = m.history.take n ∧ n ≤ m.history.length
  batch : ∀ pkt ∈ r.out, ∀ conn epoch start frames, pkt.msg = .replBatch conn epoch start frames →
    frames ≠ [] ∧ frames <+: m.history.drop start

theorem sends_nothing (h : r.out = []) : Sends me m r := by
  constructor <;> simp [h]

theorem Acts.sends {a : Action} (h : Acts cfg me m p a r) :
    Sends me m r := by
  cases h with
  | stand _ => constructor <;> simp +contextual [standing]
  | connect _ _ => constructor <;> simp +contextual
  | ackTick | heartbeat => constructor <;> simp
  | stream _ hsent hcount =>
    refine ⟨by simp, by simp, by simp, fun pkt hpkt conn epoch start frames hmsg => ?_⟩
    obtain rfl := mem_singleton.mp hpkt
    obtain ⟨-, -, rfl, rfl⟩ := Msg.replBatch.inj hmsg
    refine ⟨fun hnil => ?_, take_prefix _ _⟩
    have hlen := congrArg length hnil
    simp only [Member.headTx] at hsent
    simp only [length_take, length_drop, length_nil] at hlen
    split_ifs at hsent <;> omega
  | _ => exact sends_nothing rfl

theorem Receives.sends {src : Nat} {msg : Msg} (h : Receives me m p src msg r) :
    Sends me m r := by
  cases h with
  | grant | deny | fencedByHello => constructor <;> simp
  | @accept conn epoch lastApplied checkpoint _ _ _ hpacked =>
    refine ⟨by simp [openSession], by simp [openSession], fun pkt hpkt conn epoch n records hmsg => ?_,
      by simp [openSession]⟩
    obtain rfl := mem_singleton.mp hpkt
    obtain ⟨-, -, rfl, hrecords⟩ := Msg.primaryHello.inj hmsg
    obtain ⟨c, rfl, rfl⟩ := map_eq_some_iff.mp hrecords
    exact ⟨rfl, (hpacked c rfl).1⟩
  | _ => exact sends_nothing rfl

end Fluxum.ReplicaSet
