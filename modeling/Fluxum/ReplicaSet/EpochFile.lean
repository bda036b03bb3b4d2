/-
# The epoch file

A member persists its epoch before it acts under it. Of the places that write
the file a heartbeat compares with what is stored, and a candidacy and a
demotion write at least that, by the order of the election loop. But a
`PrimaryHello` is compared with the epoch its session began with, a frame with
the epoch of the log, and a fence with nothing, and the stored epoch may have
moved on from these.

* `epoch_file_never_back`: the file never goes back in a run that meets
  `EpochsAhead`.
* `older_envelope_lowers_epoch`: a batch that lowers it.
-/
import Fluxum.ReplicaSet.System

namespace Fluxum.ReplicaSet

open Option

/-- What happens to one member. -/
inductive Local where
  | act (a : Action)
  | restart
  | deliver (src : Nat) (choice : Choice) (msg : Msg)

def Proc.inPhase (p : Proc) (phase : Phase) : Proc :=
  match p.task with
  | .following (some s) => p.setPhase s phase
  | _ => p

/-- `replica_session` keeps no phase: it takes every message whenever it comes. -/
def Proc.expecting (p : Proc) : Msg → Proc
  | .primaryHello .. | .replFence .. => p.inPhase .waiting
  | .replHeartbeat .. => p.inPhase (.streaming 0)
  | .replBatch _ _ start _ => p.inPhase (.streaming start)
  | _ => p

def localStep (cfg : Config) (me : Nat) (m : Member) : Local → Option Member
  | .act a => m.proc.bind fun p => (actUp cfg me m p a).map (·.member)
  | .restart => if m.proc.isNone then some (restart cfg me m).member else none
  | .deliver src choice msg =>
    m.proc.bind fun p => (receive me m (p.expecting msg) src choice msg).map (·.member)

/-- A candidacy finds an epoch to propose. A hello that the session takes as news, a fence, and the
first frame of a batch that raises the log's epoch are not behind the stored epoch; a batch that is
refused as stale may hold what it likes. -/
def EpochsAhead (m : Member) : Local → Prop
  | .act .nextEpoch => ∀ p ∈ m.proc, max m.epochFile (ballotEpoch p.ballot) + 1 < 2 ^ 64
  | .deliver _ _ (.primaryHello _ epoch _ _) =>
    ∀ p ∈ m.proc, ∀ s, p.task = .following (some s) → s.epoch < epoch → m.epochFile ≤ epoch
  | .deliver _ _ (.replFence _ epoch) => m.epochFile ≤ epoch
  | .deliver _ _ (.replBatch _ epoch _ frames) => m.epochFile ≤ epoch →
    ∀ p ∈ m.proc, ∀ frame ∈ frames.find? (p.logEpoch < ·.epoch), m.epochFile ≤ frame.epoch
  | _ => True

/-! ### What the election loop will write -/

/-- The epoch the task at hand comes to write: a candidate's own, a parked primary's when it steps down. -/
def Proc.willWrite (p : Proc) : Option Nat :=
  match p.task with
  | .parked => some p.primaryEpoch
  | .following _ => none
  | .proposed epoch => some epoch
  | .asking c => some c.request.epoch

def EpochInv (m : Member) : Prop := ∀ p ∈ m.proc, ∀ epoch ∈ p.willWrite, m.epochFile ≤ epoch

/-- The stored epoch has not gone back, and will not. -/
structure Ahead (m m' : Member) : Prop where
  file : m.epochFile ≤ m'.epochFile
  inv : EpochInv m'

variable {cfg : Config} {me : Nat} {m m' : Member} {p p' : Proc} {r : Reaction}

theorem Ahead.of_proc (hp : m'.proc = some p) (hfile : m.epochFile ≤ m'.epochFile)
    (h : ∀ epoch ∈ p.willWrite, m'.epochFile ≤ epoch) : Ahead m m' := by
  refine ⟨hfile, fun q hq => ?_⟩
  cases hp.symm.trans hq
  exact h

theorem Ahead.of_following {f : Option Following} (hp : m'.proc = some p) (htask : p.task = .following f)
    (hfile : m.epochFile ≤ m'.epochFile) : Ahead m m' :=
  .of_proc hp hfile (by simp [Proc.willWrite, htask])

theorem Ahead.of_task (hinv : EpochInv m) (hp : m.proc = some p) (hp' : m'.proc = some p')
    (hfile : m'.epochFile = m.epochFile) (htask : p'.task = p.task) (hepoch : p.primaryEpoch ≤ p'.primaryEpoch) :
    Ahead m m' := by
  refine .of_proc hp' hfile.ge fun epoch hwill => ?_
  have hle := hinv p hp
  rw [hfile]
  simp only [Proc.willWrite, htask] at hle hwill
  cases ht : p.task with
  | parked =>
    simp only [ht, mem_some_iff, forall_eq'] at hle hwill
    omega
  | following | proposed | asking => exact hle epoch (by simpa only [ht] using hwill)

theorem Acts.ahead {a : Action} (h : Acts cfg me m p a r) (hp : m.proc = some p) (hinv : EpochInv m)
    (hahead : EpochsAhead m (.act a)) : Ahead m r.member := by
  have hwill := hinv p hp
  simp only [Proc.willWrite] at hwill
  cases h with
  | nextEpoch _ =>
    refine .of_proc rfl le_rfl fun epoch hepoch => ?_
    cases hepoch
    exact (lt_nextEpoch (hahead p hp)).le
  | stand htask =>
    refine .of_proc rfl le_rfl fun epoch hepoch => ?_
    simp only [htask, mem_some_iff, forall_eq'] at hwill
    simp only [Proc.willWrite, voteRequest, mem_some_iff] at hepoch
    exact hepoch ▸ hwill
  | cannotStand _ | connect _ _ | endSession _ => exact .of_following rfl rfl le_rfl
  | lose htask hef =>
    simp only [htask, mem_some_iff, forall_eq'] at hwill
    refine .of_following rfl rfl ?_
    rcases hef with rfl | hef
    · exact le_rfl
    · exact hwill.trans hef
  | win htask _ _ =>
    simp only [htask, mem_some_iff, forall_eq'] at hwill
    refine .of_proc rfl hwill fun epoch hepoch => ?_
    simp only [Proc.willWrite, Proc.setRole, Proc.adoptEpoch, mem_some_iff] at hepoch
    exact hepoch ▸ le_max_right _ _
  | demote htask _ =>
    simp only [htask, mem_some_iff, forall_eq'] at hwill
    exact .of_following rfl rfl hwill
  | ackTick _ _ | heartbeat _ | barrierFenced _ | barrierOk _ _ | commit _ _ | prune _ _ =>
    exact .of_task hinv hp hp rfl rfl le_rfl
  | stream _ _ _ | dropSession | barrierHold _ _ | turnOk _ _ | turnFenced _ | timeout _ =>
    exact .of_task hinv hp rfl rfl rfl le_rfl
  | crash => exact ⟨le_rfl, nofun⟩

/-! ### Messages -/

theorem applyFrame_epochs (m : Member) (p : Proc) (frame : Entry) :
    (applyFrame m p frame).1.epochFile = (if p.logEpoch < frame.epoch then frame.epoch else m.epochFile) ∧
      (applyFrame m p frame).2.1.logEpoch = max p.logEpoch frame.epoch := by
  by_cases hnext : frame.record.txId = m.history.length + 1 <;> simp [applyFrame, hnext]

/-- Once a frame has raised the epoch of the log, the file is that epoch and goes on with it. -/
theorem applyFrames_epochFile : ∀ {frames : List Entry} {m m' : Member} {p p' : Proc} {ok : Bool},
    m.epochFile ≤ p.logEpoch ∨ (∀ frame ∈ frames.find? (p.logEpoch < ·.epoch), m.epochFile ≤ frame.epoch) →
    applyFrames m p frames = (m', p', ok) → m.epochFile ≤ m'.epochFile
  | [], m, m', p, p', ok, _, h => by
    cases h
    exact le_rfl
  | frame :: frames, m, m', p, p', ok, hahead, h => by
    obtain ⟨hfile₁, hlog₁⟩ := applyFrame_epochs m p frame
    rcases hf : applyFrame m p frame with ⟨m₁, p₁, ok₁⟩
    simp only [hf] at hfile₁ hlog₁
    have hfile : m.epochFile ≤ m₁.epochFile ∧ (m₁.epochFile ≤ p₁.logEpoch ∨
        ∀ frame' ∈ frames.find? (p₁.logEpoch < ·.epoch), m₁.epochFile ≤ frame'.epoch) := by
      by_cases hraise : p.logEpoch < frame.epoch
      · simp only [List.find?_cons, hraise, decide_true, mem_some_iff, forall_eq'] at hahead
        rw [if_pos hraise] at hfile₁
        omega
      · simp only [List.find?_cons, hraise, decide_false] at hahead
        rw [if_neg hraise] at hfile₁
        rw [hfile₁, hlog₁, max_eq_left (not_lt.mp hraise)]
        exact ⟨le_rfl, hahead⟩
    simp only [applyFrames, hf] at h
    cases ok₁ with
    | true => exact hfile.1.trans (applyFrames_epochFile hfile.2 h)
    | false =>
      cases h
      exact hfile.1

theorem inPhase_logEpoch (p : Proc) (phase : Phase) : (p.inPhase phase).logEpoch = p.logEpoch := by
  unfold Proc.inPhase
  split <;> rfl

theorem session_inPhase {phase : Phase} {src conn : Nat} {f : Following}
    (h : (p.inPhase phase).session src conn = some f) : ∃ s, p.task = .following (some s) ∧ s.epoch = f.epoch := by
  unfold Proc.inPhase at h
  split at h
  · next s hs =>
    simp only [Proc.session, Proc.setPhase, ite_none_right_eq_some, some.injEq] at h
    exact ⟨s, hs, h.2 ▸ rfl⟩
  · simp [Proc.session, *] at h

theorem Receives.ahead {src : Nat} {choice : Choice} {msg : Msg} (h : Receives me m (p.expecting msg) src msg r)
    (hp : m.proc = some p) (hinv : EpochInv m) (hahead : EpochsAhead m (.deliver src choice msg)) :
    Ahead m r.member := by
  cases h with
  | deny | refuse _ => exact .of_task hinv hp hp rfl rfl le_rfl
  | grant _ | accept _ _ _ _ => exact .of_task hinv hp rfl rfl rfl le_rfl
  | fencedByHello _ _ => exact .of_task hinv hp rfl rfl rfl (le_max_left _ _)
  | @ack epoch durable =>
    obtain ⟨pe, fenced, ss, heq, hle, -⟩ := ack_frame p src epoch durable
    exact .of_task hinv hp (congrArg some heq) rfl rfl hle
  | count htask _ _ =>
    have hwill := hinv p hp
    simp only [Proc.willWrite, show p.task = _ from htask] at hwill
    exact .of_proc rfl le_rfl hwill
  | established hf _ | installed hf _ _ | cannotInstall hf _ =>
    obtain ⟨s, hs, hepoch⟩ := session_inPhase hf
    have := hahead p hp s hs
    refine .of_following rfl rfl ?_
    simp only [withProc_epochFile, ReplicaSet.endSession]
    split_ifs <;> omega
  | fence _ _ => exact .of_following rfl rfl hahead
  | heartbeat hf _ =>
    obtain ⟨s, hs, -⟩ := session_inPhase hf
    exact .of_following hp hs (le_max_left _ _)
  | staleBatch _ _ => exact .of_following rfl rfl le_rfl
  | @batch _ _ start _ _ _ _ _ _ hepoch happly | @batchFails _ _ start _ _ _ _ _ _ hepoch happly =>
    have hraise := hahead hepoch p hp
    rw [← inPhase_logEpoch p (.streaming start)] at hraise
    have hfile := applyFrames_epochFile (.inr hraise) happly
    exact .of_following rfl rfl hfile

/-! ### Runs -/

/-- **Step lemma.** -/
theorem localStep_ahead {l : Local} (hinv : EpochInv m) (hahead : EpochsAhead m l)
    (h : localStep cfg me m l = some m') : Ahead m m' := by
  cases l with
  | act a =>
    obtain ⟨p, hp, h⟩ := bind_eq_some_iff.mp h
    obtain ⟨r, hr, rfl⟩ := map_eq_some_iff.mp h
    exact (actUp_acts hr).ahead hp hinv hahead
  | restart =>
    obtain ⟨-, rfl⟩ := Runs.of_guard h
    refine .of_proc rfl le_rfl fun epoch hepoch => ?_
    simp only [Proc.willWrite, boot] at hepoch
    split_ifs at hepoch
    · exact (some.inj hepoch).le
    · simp at hepoch
  | deliver src choice msg =>
    obtain ⟨p, hp, h⟩ := bind_eq_some_iff.mp h
    obtain ⟨r, hr, rfl⟩ := map_eq_some_iff.mp h
    exact (receive_receives hr).ahead hp hinv hahead

theorem epochInv_fresh (cfg : Config) (me : Nat) : EpochInv (Member.fresh cfg me) :=
  (localStep_ahead (m := ⟨1, none, [], 0, 0, none⟩) (l := .restart) nofun trivial rfl).inv

/-- **The stored epoch never decreases** as long as no message brings an older one where the source
does not compare with it, and no candidacy runs past the last epoch. -/
theorem epoch_file_never_back (cfg : Config) (me : Nat) (before after : List Local)
    (hbefore : Runs.Meets (localStep cfg me) EpochsAhead (Member.fresh cfg me) before)
    (hm : Runs.run (localStep cfg me) (Member.fresh cfg me) before = some m)
    (hafter : Runs.Meets (localStep cfg me) EpochsAhead m after)
    (hm' : Runs.run (localStep cfg me) m after = some m') : m.epochFile ≤ m'.epochFile := by
  have hinv : EpochInv m := Runs.run_invariant_of_meets
    (fun _ _ _ h hahead hstep => (localStep_ahead h hahead hstep).inv) (epochInv_fresh cfg me) hbefore hm
  suffices h : m.epochFile ≤ m'.epochFile ∧ EpochInv m' from h.1
  refine Runs.run_invariant_of_meets (I := fun s => m.epochFile ≤ s.epochFile ∧ EpochInv s) ?_ ⟨le_rfl, hinv⟩ hafter hm'
  intro s l s' hs hahead hstep
  have hstep := localStep_ahead hs.2 hahead hstep
  exact ⟨hs.1.trans hstep.file, hstep.inv⟩

def followers : Config := ⟨3, fun _ => false, none⟩

/-- What member 0 sends to member 1. -/
def fromPrimary (msg : Msg) : Local := .deliver 0 ⟨true, true, none⟩ msg

/-- Member 1 follows member 0, which is in epoch 5. -/
def joinsEpochFive : List Local := [.act (.connect 0), fromPrimary (.primaryHello 1 5 0 none)]

def beats : List Local := [fromPrimary (.replHeartbeat 1 7)]

theorem epoch_file_never_back_beats :
    ∃ m ∈ Runs.run (localStep followers 1) (Member.fresh followers 1) joinsEpochFive,
      ∃ m' ∈ Runs.run (localStep followers 1) m beats, m.epochFile ≤ m'.epochFile := by
  obtain ⟨m, hm, m', hm', -⟩ : ∃ m ∈ Runs.run (localStep followers 1) (Member.fresh followers 1) joinsEpochFive,
      ∃ m' ∈ Runs.run (localStep followers 1) m beats, True := by
    decide +kernel
  refine ⟨m, hm, m', hm', epoch_file_never_back followers 1 joinsEpochFive beats
    ⟨trivial, fun s hs => ⟨?_, fun _ _ => trivial⟩⟩ hm ⟨trivial, fun _ _ => trivial⟩ hm'⟩
  cases hs
  exact fun _ _ _ _ _ => by decide

/-- The epoch of the log is still 1 when a batch under the stored epoch 5 brings a frame of epoch 3. -/
theorem older_envelope_lowers_epoch :
    ∃ m ∈ Runs.run (localStep followers 1) (Member.fresh followers 1) joinsEpochFive,
      ∃ m' ∈ localStep followers 1 m (fromPrimary (.replBatch 1 5 0 [⟨3, ⟨1, 0, 0, [], [], [], ""⟩⟩])),
        m'.epochFile < m.epochFile := by
  decide +kernel

end Fluxum.ReplicaSet
