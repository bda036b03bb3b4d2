/-
# Sessions

What a replication session does to a replica's log when nothing goes wrong:
the replica said hello with its records, the primary had the same ones, and
from there on the replica's records are a beginning of the primary's, under
the same epochs.

* `Careful`: what has to go right in a step. Each clause is about one kind of
  step and excludes one thing that the code lets happen.
* `SessionsOk.react`: the invariant of the members, their mail and their
  sessions, kept by every reaction that `KeepsSessions`.
-/
import Fluxum.ReplicaSet.LogMatching

namespace Fluxum.ReplicaSet

open List

/-- The epoch a member writes under, or will when it is up again. -/
def Member.acting (m : Member) : Nat := m.proc.elim m.epochFile (·.logEpoch)

/-- What has to go right in a step. -/
structure Careful (cfg : Config) (s : System) (l : Label) : Prop where
  /-- A candidate's last ballot is of an earlier epoch than the one it stands in. -/
  vote : keepsVote s l = true
  /-- A candidacy finds an epoch to propose. -/
  epochs : ∀ p, l.event = .act .nextEpoch → (s.member l.who).proc = some p →
    max (s.member l.who).epochFile (ballotEpoch p.ballot) + 1 < 2 ^ 64
  /-- A replica is accepted only if its record of the number it says hello with is of the epoch of the
  primary's, and not after a vote in an epoch above the primary's. -/
  accept : ∀ k choice pkt conn epoch n p, l.event = .deliver k choice → s.net[k]? = some pkt →
    pkt.msg = .replicaHello conn epoch n → (s.member l.who).proc = some p → p.isPrimary = true →
    epoch ≤ p.primaryEpoch → n ≤ (s.member l.who).headTx →
    (∀ last x y, n = last + 1 → (s.member pkt.src).history[last]? = some x →
      (s.member l.who).history[last]? = some y → x.epoch = y.epoch) ∧
      ballotEpoch (s.member pkt.src).voteFile ≤ p.logEpoch
  /-- Frames that continue the replica's log are of its epoch or a later one, and come before any vote
  in an epoch above the sender's. The first of frames that do not continue it, which end the session,
  does not raise the log's epoch. -/
  batch : ∀ k choice pkt conn epoch start frames p, l.event = .deliver k choice → s.net[k]? = some pkt →
    pkt.msg = .replBatch conn epoch start frames → (s.member l.who).proc = some p →
    (s.member l.who).epochFile ≤ epoch →
    (start = (s.member l.who).history.length →
      (∀ f ∈ frames, p.logEpoch ≤ f.epoch) ∧ ballotEpoch p.ballot ≤ (s.member pkt.src).acting) ∧
    (start ≠ (s.member l.who).history.length → ∀ f ∈ frames.head?, f.epoch ≤ p.logEpoch)
  /-- A primary's barrier is armed, and asked for a record of the primary's own epoch, above which it
  has not voted. -/
  barrier : ∀ txId p, l.event = .act (.barrier txId) ∨ l.event = .act (.barrierTurn txId) →
    (s.member l.who).proc = some p → p.isPrimary = true →
    (cfg.armed l.who).isSome ∧ (∃ x, (s.member l.who).record txId = some x ∧ x.epoch = p.logEpoch) ∧
      ballotEpoch p.ballot ≤ p.logEpoch
  /-- A process goes down while its epoch file and its log agree. -/
  crash : ∀ p, l.event = .act .crash → (s.member l.who).proc = some p →
    (s.member l.who).epochFile = p.logEpoch
  /-- A configured primary comes up in the first epoch or in one it was promoted in. -/
  restart : l.event = .restart → cfg.bootPrimary l.who = true →
    (s.member l.who).epochFile = 1 ∨ s.hasPromoted l.who (s.member l.who).epochFile = true

/-! ### One member -/

/-- A history with consecutive numbers and epochs that do not fall. -/
structure HistoryOk (history : List Entry) : Prop where
  numbered : Numbered (history.map (·.record))
  sorted : history.Pairwise (fun x y => x.epoch ≤ y.epoch)

/-- The process fits what is on disk. -/
structure ProcOk (m : Member) (p : Proc) : Prop where
  file : p.logEpoch ≤ m.epochFile
  parked : p.isPrimary = true ↔ p.task = .parked
  primary : p.isPrimary = true → p.logEpoch ≤ p.primaryEpoch ∧ ∀ x ∈ m.history, x.epoch ≤ p.logEpoch
  proposed : ∀ e, p.task = .proposed e → p.logEpoch < e ∧ ∀ x ∈ m.history, x.epoch < e
  asking : ∀ c, p.task = .asking c → c.request.lastLogEpoch = p.logEpoch ∧
    p.logEpoch < c.request.epoch ∧ ∀ x ∈ m.history, x.epoch < c.request.epoch
  session : ∀ f, p.task = .following (some f) →
    f.conn = m.conns ∧ (f.phase = .waiting → f.epoch = m.epochFile)

/-- A member in order: the log is under its epoch, and the epoch file is not behind anything. -/
structure MemberOk (m : Member) : Prop where
  history : HistoryOk m.history
  first : m.first ≤ m.history.length
  bound : ∀ x ∈ m.history, x.epoch ≤ m.epochFile
  epochs : ∀ x ∈ m.log, x.epoch ≤ m.acting
  pos : 1 ≤ m.acting
  proc : ∀ p ∈ m.proc, ProcOk m p

/-! ### Frames that continue a log -/

variable {m : Member}

theorem HistoryOk.txId {history : List Entry} (h : HistoryOk history) {k : Nat} {x : Entry} (hx : history[k]? = some x) :
    x.record.txId = k + 1 :=
  h.numbered k _ (by simp [hx])

theorem applyFrame_of_next {log : List Entry} (hlog : HistoryOk log) {p : Proc} {f : Entry}
    (hm : m.history <+: log) (hf : log[m.history.length]? = some f) (hle : p.logEpoch ≤ f.epoch) :
    ∃ ef, applyFrame m p f =
        ({ m with epochFile := ef, history := m.history ++ [f] }, { p with logEpoch := f.epoch }, true) ∧
      (p.logEpoch ≤ m.epochFile → f.epoch ≤ ef) ∧ m.history ++ [f] <+: log := by
  have htx : f.record.txId = m.history.length + 1 := hlog.txId hf
  have hmax : max p.logEpoch f.epoch = f.epoch := by omega
  refine ⟨if f.epoch > p.logEpoch then f.epoch else m.epochFile, ?_, fun hfile => ?_,
    Comparable.append_getElem_le hm hf⟩
  · simp only [applyFrame, if_pos htx, hmax]
  · split_ifs <;> omega

theorem getElem?_of_drop {log frames : List Entry} {f : Entry} {n : Nat} (h : f :: frames <+: log.drop n) :
    log[n]? = some f := by
  obtain ⟨rest, hrest⟩ := h
  have := congrArg (·[0]?) hrest
  simpa [getElem?_drop] using this.symm

/-- A batch that does not continue the replica's log fails at its first frame. -/
theorem applyFrames_of_gap {log frames : List Entry} (hlog : HistoryOk log) {p : Proc} {start : Nat}
    (hne : frames ≠ []) (hframes : frames <+: log.drop start) (hstart : start ≠ m.history.length)
    (hlow : ∀ f ∈ frames.head?, f.epoch ≤ p.logEpoch) : applyFrames m p frames = (m, p, false) := by
  obtain ⟨f, frames, rfl⟩ := exists_cons_of_ne_nil hne
  have htx : f.record.txId ≠ m.history.length + 1 := by
    rw [hlog.txId (getElem?_of_drop hframes)]
    omega
  have hle : f.epoch ≤ p.logEpoch := hlow f rfl
  simp only [applyFrames, applyFrame, if_neg htx, if_neg hle.not_gt, Nat.max_eq_left hle]

/-- A batch that continues the replica's log is applied whole. -/
theorem applyFrames_of_le {log : List Entry} (hlog : HistoryOk log) (frames : List Entry) :
    ∀ (m : Member) (p : Proc), m.history <+: log → frames <+: log.drop m.history.length →
      (∀ f ∈ frames, p.logEpoch ≤ f.epoch) → p.logEpoch ≤ m.epochFile →
      ∃ ef le, applyFrames m p frames =
          ({ m with epochFile := ef, history := m.history ++ frames }, { p with logEpoch := le }, true) ∧
        le ≤ ef ∧ p.logEpoch ≤ le ∧ m.history ++ frames <+: log ∧
        (frames = [] ∧ le = p.logEpoch ∨ ∃ f, frames.getLast? = some f ∧ le = f.epoch) := by
  induction frames with
  | nil =>
    intro m p hm _ _ hfile
    exact ⟨m.epochFile, p.logEpoch, by simp [applyFrames], hfile, Nat.le_refl _, by simpa using hm,
      .inl ⟨rfl, rfl⟩⟩
  | cons f frames ih =>
    intro m p hm hframes hepochs hfile
    have hf := getElem?_of_drop hframes
    obtain ⟨rest, hrest⟩ := hframes
    obtain ⟨ef, hframe, hef, hle⟩ := applyFrame_of_next hlog hm hf (hepochs f (by simp))
    have hrest' : frames <+: log.drop (m.history ++ [f]).length := by
      have h := congrArg tail hrest
      refine ⟨rest, ?_⟩
      simpa using h
    have hepochs' : ∀ g ∈ frames, f.epoch ≤ g.epoch := by
      have hsorted := hlog.sorted.sublist (drop_sublist m.history.length log)
      rw [← hrest, cons_append, pairwise_cons] at hsorted
      exact fun g hg => hsorted.1 g (mem_append_left _ hg)
    obtain ⟨ef', le, happly, hfile', hge, hpre, hlast⟩ := ih
      { m with epochFile := ef, history := m.history ++ [f] } { p with logEpoch := f.epoch } hle hrest'
      hepochs' (hef hfile)
    refine ⟨ef', le, by simp only [applyFrames, hframe]; simpa using happly, hfile', ?_, by simpa using hpre, ?_⟩
    · exact (hepochs f (by simp)).trans hge
    right
    rcases hlast with ⟨rfl, hle'⟩ | ⟨g, hg, hle'⟩
    · exact ⟨f, rfl, hle'⟩
    · exact ⟨g, by simp [getLast?_cons, hg], hle'⟩

/-! ### What keeps a member in order -/

variable {f : Following} {a : Action} {pkt : Packet}

section Local

variable {cfg : Config} {i : Nat} {m m' : Member} {p p' : Proc} {r : Reaction}

theorem acting_of_some (hp : m.proc = some p) : m.acting = p.logEpoch := by simp [Member.acting, hp]

theorem MemberOk.of_same (hm : MemberOk m) (hhistory : m'.history = m.history) (hfirst : m'.first = m.first)
    (hacting : m'.acting = m.acting) (hbound : ∀ x ∈ m.history, x.epoch ≤ m'.epochFile)
    (hproc : ∀ p' ∈ m'.proc, ProcOk m' p') : MemberOk m' := by
  have hlog : m'.log = m.log := by simp only [Member.log, hhistory, hfirst]
  exact ⟨hhistory ▸ hm.history, by rw [hfirst, hhistory]; exact hm.first, hhistory ▸ hbound, by rw [hlog, hacting]; exact hm.epochs,
    by rw [hacting]; exact hm.pos, hproc⟩

theorem MemberOk.withProc (hm : MemberOk m) (hp : m.proc = some p) (hepoch : p'.logEpoch = p.logEpoch)
    (hproc : ProcOk m p') : MemberOk (m.withProc p') := by
  refine hm.of_same rfl rfl ?_ hm.bound fun q hq => ?_
  · rw [acting_of_some hp, ← hepoch]
    rfl
  · cases hq
    exact ⟨hproc.file, hproc.parked, hproc.primary, hproc.proposed, hproc.asking, hproc.session⟩

theorem ProcOk.of_same (h : ProcOk m p) (htask : p'.task = p.task) (hrole : p'.isPrimary = p.isPrimary)
    (hlog : p'.logEpoch = p.logEpoch) (hepoch : p.primaryEpoch ≤ p'.primaryEpoch) : ProcOk m p' where
  file := by rw [hlog]; exact h.file
  parked := by rw [hrole, htask]; exact h.parked
  primary := fun hprimary => by
    rw [hrole] at hprimary
    rw [hlog]
    exact ⟨(h.primary hprimary).1.trans hepoch, (h.primary hprimary).2⟩
  proposed := by rw [htask, hlog]; exact h.proposed
  asking := by rw [htask, hlog]; exact h.asking
  session := by rw [htask]; exact h.session

theorem ProcOk.not_primary (h : ProcOk m p) (htask : p.task ≠ .parked) : p.isPrimary = false := by
  by_contra hprimary
  exact htask (h.parked.mp (by simpa using hprimary))

theorem MemberOk.endSession (hm : MemberOk m) (hp : m.proc = some p) {ef : Nat}
    (hepoch : p'.logEpoch = p.logEpoch) (hprimary : p'.isPrimary = false) (hef : p.logEpoch ≤ ef)
    (hbound : ∀ x ∈ m.history, x.epoch ≤ ef) :
    MemberOk (endSession { m with epochFile := ef } p').member := by
  refine hm.of_same rfl rfl ?_ hbound fun q hq => ?_
  · rw [acting_of_some hp, ← hepoch]
    rfl
  · cases hq
    exact ⟨by simpa [ReplicaSet.endSession, hepoch] using hef, by simp [hprimary], by simp [hprimary],
      by simp, by simp, by simp⟩

theorem log_subset (m : Member) : ∀ x ∈ m.log, x ∈ m.history := by
  intro x hx
  simp only [Member.log] at hx
  split_ifs at hx
  · exact hx
  · exact absurd hx not_mem_nil

theorem HistoryOk.append {history : List Entry} (h : HistoryOk history) {x : Entry}
    (htx : x.record.txId = history.length + 1) (hepoch : ∀ y ∈ history, y.epoch ≤ x.epoch) :
    HistoryOk (history ++ [x]) := by
  refine ⟨?_, ?_⟩
  · rw [map_append]
    exact h.numbered.append (by simpa using htx)
  · rw [pairwise_append]
    exact ⟨h.sorted, pairwise_singleton _ _, fun y hy z hz => by
      rw [mem_singleton.mp hz]; exact hepoch y hy⟩

theorem HistoryOk.of_le {history log : List Entry} (h : HistoryOk log) (hle : history <+: log) :
    HistoryOk history :=
  ⟨h.numbered.of_le (hle.map _), h.sorted.sublist hle.sublist⟩

theorem Acts.memberOk (h : Acts cfg i m p a r) (hm : MemberOk m) (hp : m.proc = some p)
    (hcrash : a = .crash → m.epochFile = p.logEpoch)
    (hepochs : a = .nextEpoch → max m.epochFile (ballotEpoch p.ballot) + 1 < 2 ^ 64) : MemberOk r.member := by
  have hproc := hm.proc p hp
  cases h with
  | nextEpoch htask =>
    have hrole := hproc.not_primary (by simp [htask])
    refine hm.withProc hp rfl ⟨hproc.file, by simp [hrole], by simp [hrole], fun e he => ?_, by simp, by simp⟩
    obtain rfl := Task.proposed.inj he
    have hnext := lt_nextEpoch (hepochs rfl)
    exact ⟨hproc.file.trans_lt hnext, fun x hx => (hm.bound x hx).trans_lt hnext⟩
  | stand htask =>
    have hrole := hproc.not_primary (by simp [htask])
    refine hm.of_same rfl rfl (acting_of_some hp).symm hm.bound fun q hq => ?_
    cases hq
    refine ⟨hproc.file, by simp [hrole], by simp [hrole], by simp, fun c hc => ?_, by simp⟩
    obtain rfl := Task.asking.inj hc
    exact ⟨rfl, hproc.proposed _ htask⟩
  | cannotStand htask | endSession htask => exact hm.endSession hp rfl (hproc.not_primary (by simp [htask])) hproc.file hm.bound
  | lose htask hef =>
    have hask := hproc.asking _ htask
    rcases hef with rfl | hef
    · exact hm.endSession hp rfl (hproc.not_primary (by simp [htask])) hproc.file hm.bound
    · exact hm.endSession hp rfl (hproc.not_primary (by simp [htask])) (hask.2.1.trans_le hef).le
        fun x hx => ((hask.2.2 x hx).trans_le hef).le
  | win htask _ hle =>
    have hask := hproc.asking _ htask
    refine ⟨hm.history, hm.first, fun x hx => (hask.2.2 x hx).le, fun x hx => ?_, ?_, fun q hq => ?_⟩
    · exact (hask.2.2 x (log_subset m x hx)).le
    · exact hm.pos.trans ((acting_of_some hp).trans_le hle)
    · cases hq
      exact ⟨Nat.le_refl _, by simp [Proc.setRole],
        fun _ => ⟨Nat.le_max_right _ _, fun x hx => (hask.2.2 x hx).le⟩, by simp, by simp, by simp⟩
  | demote htask _ =>
    obtain ⟨hle, hbound⟩ := hproc.primary (hproc.parked.mpr htask)
    exact hm.endSession hp rfl rfl hle fun x hx => (hbound x hx).trans hle
  | connect htask _ =>
    have hrole := hproc.not_primary (by simp [htask])
    refine hm.of_same rfl rfl (acting_of_some hp).symm hm.bound fun q hq => ?_
    cases hq
    refine ⟨hproc.file, by simp [hrole], by simp [hrole], by simp, by simp, fun f hf => ?_⟩
    cases hf
    exact ⟨rfl, fun _ => rfl⟩
  | ackTick | heartbeat | barrierFenced | barrierOk => exact hm
  | @commit record hprimary htx =>
    obtain ⟨hpe, hle⟩ := hproc.primary hprimary
    have hall : ∀ x ∈ m.history ++ [⟨p.logEpoch, record⟩], x.epoch ≤ p.logEpoch := by
      intro x hx
      rcases mem_append.mp hx with hx | hx
      · exact hle x hx
      · rw [mem_singleton.mp hx]
    have hparked := hproc.parked.mp hprimary
    refine ⟨hm.history.append htx hle, hm.first.trans (by simp), fun x hx => (hall x hx).trans hproc.file,
      fun x hx => ?_, hm.pos, fun q hq => ?_⟩
    · exact (hall x (log_subset _ x hx)).trans_eq (acting_of_some hp).symm
    · cases hp.symm.trans hq
      exact ⟨hproc.file, hproc.parked, fun _ => ⟨hpe, hall⟩, by simp [hparked], by simp [hparked],
        by simp [hparked]⟩
  | stream | dropSession | barrierHold | turnOk | turnFenced | timeout =>
    exact hm.withProc hp rfl (hproc.of_same rfl rfl rfl (Nat.le_refl _))
  | @prune first hfirst hlt =>
    have hlog : Member.log { m with first := first } = m.log := by
      simp only [Member.log]
      rw [if_pos hlt, if_pos (by omega)]
    refine ⟨hm.history, hlt.le, hm.bound, fun x hx => hm.epochs x (hlog ▸ hx), hm.pos, fun q hq => ?_⟩
    have hq := hm.proc q hq
    exact ⟨hq.file, hq.parked, hq.primary, hq.proposed, hq.asking, hq.session⟩
  | crash =>
    refine hm.of_same rfl rfl ?_ hm.bound (by simp)
    rw [acting_of_some hp, ← hcrash rfl]
    rfl

theorem MemberOk.restart (hm : MemberOk m) (hp : m.proc = none) : MemberOk (restart cfg i m).member := by
  have hacting : m.acting = m.epochFile := by simp [Member.acting, hp]
  refine hm.of_same rfl rfl hacting.symm hm.bound fun q hq => ?_
  cases hq
  refine ⟨Nat.le_refl _, ?_, fun _ => ⟨Nat.le_refl _, hm.bound⟩, ?_, ?_, ?_⟩ <;>
    simp only [boot] <;> cases cfg.bootPrimary i <;> simp

theorem ProcOk.streaming (h : ProcOk m p) (hf : p.task = .following (some f)) {m' : Member} (hconns : m'.conns = m.conns)
    {le : Nat} (hle : le ≤ m'.epochFile) (received : Nat) :
    ProcOk m' (Proc.setPhase { p with logEpoch := le } f (.streaming received)) := by
  have hrole := h.not_primary (by simp [hf])
  refine ⟨hle, by simp [Proc.setPhase, hrole], by simp [Proc.setPhase, hrole], by simp [Proc.setPhase], by simp [Proc.setPhase],
    fun g hg => ?_⟩
  cases hg
  exact ⟨(h.session f hf).1.trans hconns.symm, by simp⟩

theorem MemberOk.batch (hm : MemberOk m) (hp : m.proc = some p) {log frames : List Entry}
    {ef le received : Nat} (hlog : HistoryOk log) (hle : m.history ++ frames <+: log) (hef : le ≤ ef)
    (hlast : ∀ x ∈ m.history ++ frames, x.epoch ≤ le) (hge : p.logEpoch ≤ le)
    (hf : p.task = .following (some f)) :
    MemberOk (Member.withProc { m with epochFile := ef, history := m.history ++ frames }
      (Proc.setPhase { p with logEpoch := le } f (.streaming received))) := by
  refine ⟨hlog.of_le hle, hm.first.trans (by simp), fun x hx => (hlast x hx).trans hef,
    fun x hx => hlast x (log_subset _ x hx), ?_, fun q hq => ?_⟩
  · exact hm.pos.trans ((acting_of_some hp).trans_le hge)
  · cases hq
    exact (hm.proc p hp).streaming hf (by rfl) hef received

theorem MemberOk.established (hm : MemberOk m) (hp : m.proc = some p) {ef received : Nat}
    (hf : p.task = .following (some f)) (hef : m.epochFile ≤ ef) :
    MemberOk (Member.withProc { m with epochFile := ef } (p.setPhase f (.streaming received))) := by
  have hproc := hm.proc p hp
  refine hm.of_same rfl rfl (acting_of_some hp).symm (fun x hx => (hm.bound x hx).trans hef) fun q hq => ?_
  cases hq
  exact hproc.streaming hf (by rfl) (hproc.file.trans hef) received

theorem MemberOk.installed (hm : MemberOk m) (hp : m.proc = some p) {ef received : Nat}
    {records : List Entry} (hf : p.task = .following (some f)) (hef : m.epochFile ≤ ef)
    (hrecords : HistoryOk records) (hbound : ∀ x ∈ records, x.epoch ≤ ef) :
    MemberOk (Member.withProc { m with epochFile := ef, history := records, first := records.length }
      (p.setPhase f (.streaming received))) := by
  have hproc := hm.proc p hp
  have hpos : 1 ≤ p.logEpoch := acting_of_some hp ▸ hm.pos
  refine ⟨hrecords, Nat.le_refl _, hbound, fun x hx => ?_, hpos, fun q hq => ?_⟩
  · simp [Member.log] at hx
  · cases hq
    exact hproc.streaming hf (by rfl) (hproc.file.trans hef) received

end Local

/-! ### The invariant -/

/-- The member is a replica in the session `f`. -/
def Member.InSession (m : Member) (f : Following) : Prop :=
  ∃ p, m.proc = some p ∧ p.task = .following (some f)

/-- The session waits for the answer to a hello. -/
def Member.Waits (m : Member) (conn : Nat) (f : Following) : Prop := m.InSession f ∧ f.conn = conn ∧ f.phase = .waiting

/-- What a message says is so: to a session that still waits for it, and of its sender's log. -/
def MailOk (s : System) (src dst : Nat) : Msg → Prop
  | .replicaHello conn epoch n => conn ≤ (s.member src).conns ∧ n ≤ (s.member src).history.length ∧
    ∀ f, (s.member src).Waits conn f → f.epoch = epoch ∧ n = (s.member src).headTx
  | .replFence conn epoch => conn ≤ (s.member dst).conns ∧ ∀ f, (s.member dst).Waits conn f → f.epoch = epoch
  | .primaryHello conn _ n none => conn ≤ (s.member dst).conns ∧ ∀ f, (s.member dst).Waits conn f →
    n = (s.member dst).headTx ∧ (n = (s.member dst).history.length → (s.member dst).history <+: (s.member src).history)
  | .primaryHello _ epoch n (some records) => records = (s.member src).history.take n ∧
    n ≤ (s.member src).history.length ∧ ∀ x ∈ records, x.epoch ≤ epoch
  | .replBatch _ _ start frames => frames ≠ [] ∧ frames <+: (s.member src).history.drop start
  | _ => True

/-- Every member and every message is in order, and a replica whose stream has been read up to its
last record has the primary's records. -/
structure SessionsOk (s : System) : Prop where
  member : ∀ i, MemberOk (s.member i)
  mail : ∀ pkt ∈ s.net, MailOk s pkt.src pkt.dst pkt.msg
  stream : ∀ i f received, (s.member i).InSession f → f.phase = .streaming received →
    (received = (s.member i).history.length → (s.member i).history <+: (s.member f.primary).history) ∧
      (received ≠ (s.member i).history.length → (s.member i).headTx = 0)

/-- What a reaction has to do with the sessions: a waiting session is as it was or new, and a
streaming one has the primary's records. -/
structure KeepsSessions (s : System) (i : Nat) (r : Reaction) : Prop where
  member : MemberOk r.member
  grow : (s.member i).history <+: r.member.history
  conns : (s.member i).conns ≤ r.member.conns
  waits : ∀ f, r.member.InSession f → f.phase = .waiting →
    ((s.member i).InSession f ∧ r.member.history = (s.member i).history ∧
      r.member.headTx = (s.member i).headTx) ∨ (s.member i).conns < f.conn
  streams : ∀ f received, r.member.InSession f → f.phase = .streaming received →
    (received = r.member.history.length → r.member.history <+: (s.member f.primary).history) ∧
      (received ≠ r.member.history.length → r.member.headTx = 0)

section Steps

variable {cfg : Config} {s : System} {i : Nat} {net : List Packet} {p : Proc} {r : Reaction}

theorem KeepsSessions.member_le (h : KeepsSessions s i r) (j : Nat) :
    (s.member j).history <+: ((s.react i net r).member j).history := by
  rcases s.react_member i net r j with ⟨rfl, hm⟩ | ⟨-, hm⟩ <;> rw [hm]
  · exact h.grow

variable {conn src : Nat} {msg : Msg}

theorem KeepsSessions.waiting (h : KeepsSessions s i r) {j : Nat} (hconn : conn ≤ (s.member j).conns)
    (hf : ((s.react i net r).member j).Waits conn f) :
    (s.member j).Waits conn f ∧ ((s.react i net r).member j).history = (s.member j).history ∧
      ((s.react i net r).member j).headTx = (s.member j).headTx := by
  obtain ⟨hf, hfc, hwait⟩ := hf
  rcases s.react_member i net r j with ⟨rfl, hm⟩ | ⟨-, hm⟩ <;> rw [hm] at hf ⊢
  · obtain ⟨hf, hsame⟩ := (h.waits f hf hwait).resolve_right (by omega)
    exact ⟨⟨hf, hfc, hwait⟩, hsame⟩
  · exact ⟨⟨hf, hfc, hwait⟩, rfl, rfl⟩

theorem KeepsSessions.conns_le (h : KeepsSessions s i r) (j : Nat) :
    (s.member j).conns ≤ ((s.react i net r).member j).conns := by
  rcases s.react_member i net r j with ⟨rfl, hm⟩ | ⟨-, hm⟩ <;> rw [hm]
  · exact h.conns

theorem MailOk.react {dst : Nat} (hmail : MailOk s src dst msg) (h : KeepsSessions s i r) :
    MailOk (s.react i net r) src dst msg := by
  cases msg with
  | replicaHello conn epoch n =>
    obtain ⟨hconn, hn, hold⟩ := hmail
    refine ⟨hconn.trans (h.conns_le _), hn.trans (h.member_le _).length_le, fun f hf => ?_⟩
    obtain ⟨hf, -, hhead⟩ := h.waiting hconn hf
    rw [hhead]
    exact hold f hf
  | replFence conn epoch => exact ⟨hmail.1.trans (h.conns_le _), fun f hf => hmail.2 f (h.waiting hmail.1 hf).1⟩
  | primaryHello conn epoch n checkpoint =>
    cases checkpoint with
    | none =>
      refine ⟨hmail.1.trans (h.conns_le _), fun f hf => ?_⟩
      obtain ⟨hf, hhistory, hhead⟩ := h.waiting hmail.1 hf
      rw [hhead, hhistory]
      obtain ⟨hn, hle⟩ := hmail.2 f hf
      exact ⟨hn, fun hlen => (hle hlen).trans (h.member_le _)⟩
    | some records =>
      obtain ⟨rfl, hn, hbound⟩ := hmail
      have hle : (s.member src).history <+: ((s.react i net r).member src).history := h.member_le _
      have hn' := hn.trans hle.length_le
      exact ⟨Comparable.take_eq (.inl hle) hn hn', hn', hbound⟩
  | replBatch _ _ start frames => exact ⟨hmail.1, hmail.2.trans ((h.member_le src).drop start)⟩
  | _ => trivial

theorem SessionsOk.react (hs : SessionsOk s) (h : KeepsSessions s i r)
    (hout : ∀ pkt ∈ r.out, MailOk (s.react i net r) pkt.src pkt.dst pkt.msg) (hnet : ∀ pkt ∈ net, pkt ∈ s.net) :
    SessionsOk (s.react i net r) := by
  refine ⟨fun j => ?_, fun pkt hpkt => ?_, fun j f received hf hphase => ?_⟩
  · rcases s.react_member i net r j with ⟨rfl, hm⟩ | ⟨-, hm⟩ <;> rw [hm]
    · exact h.member
    · exact hs.member j
  · rcases System.mem_react_net.mp hpkt with hpkt | hpkt
    · exact (hs.mail pkt (hnet pkt hpkt)).react h
    · exact hout pkt hpkt
  · have hle : (s.member f.primary).history <+: ((s.react i net r).member f.primary).history := h.member_le _
    rcases s.react_member i net r j with ⟨rfl, hm⟩ | ⟨-, hm⟩ <;> rw [hm] at hf ⊢
    · obtain ⟨hlast, hwindow⟩ := h.streams f received hf hphase
      exact ⟨fun hlen => (hlast hlen).trans hle, hwindow⟩
    · obtain ⟨hlast, hwindow⟩ := hs.stream j f received hf hphase
      exact ⟨fun hlen => (hlast hlen).trans hle, hwindow⟩

section

variable (h : Acts cfg i m p a r)
include h

/-- Of its own accord a member keeps its session as it is, ends it, or opens a new one. -/
theorem Acts.inSession (hm : MemberOk m) (hp : m.proc = some p) (hf : r.member.InSession f) :
    (m.InSession f ∧ r.member.history = m.history ∧ r.member.headTx = m.headTx) ∨
      (f.phase = .waiting ∧ f.conn = m.conns + 1 ∧ f.epoch = m.epochFile) := by
  obtain ⟨q, hq, htask⟩ := hf
  cases h with
  | connect _ _ =>
    cases hq
    cases htask
    exact .inr ⟨rfl, rfl, rfl⟩
  | commit hprimary _ =>
    cases hp.symm.trans hq
    rw [((hm.proc p hp).parked.mp hprimary)] at htask
    cases htask
  | prune hfirst hlt =>
    refine .inl ⟨⟨q, hq, htask⟩, rfl, ?_⟩
    simp only [Member.headTx]
    rw [if_pos hlt, if_pos (by omega)]
  | crash => cases hq
  | nextEpoch | stand | cannotStand | lose | win | demote | endSession => cases hq; cases htask
  | ackTick | heartbeat | barrierFenced | barrierOk => exact .inl ⟨⟨q, hq, htask⟩, rfl, rfl⟩
  | stream | dropSession | barrierHold | turnOk | turnFenced | timeout => cases hq; exact .inl ⟨⟨p, hp, htask⟩, rfl, rfl⟩

theorem Acts.grow :
    m.history <+: r.member.history ∧ m.conns ≤ r.member.conns := by
  cases h with
  | commit _ _ => exact ⟨prefix_append _ _, Nat.le_refl _⟩
  | connect _ _ => exact ⟨prefix_rfl, Nat.le_succ _⟩
  | _ => exact ⟨prefix_rfl, Nat.le_refl _⟩

/-- What a member sends of its own accord: requests for votes, the hello of a new session, the head of a
replica whose stream has begun, and what a primary streams. -/
theorem Acts.out (hpkt : pkt ∈ r.out) : match pkt.msg with
    | .replicaHello conn epoch n => pkt.dst ≠ i ∧ conn = r.member.conns ∧ n = r.member.headTx ∧
      ∀ f, r.member.InSession f → f.epoch = epoch
    | .replAck _ n => n = m.headTx ∧ ∃ f received, p.task = .following (some f) ∧ f.phase = .streaming received ∧ pkt.dst = f.primary
    | .replFence _ _ | .primaryHello _ _ _ _ => False
    | _ => True := by
  cases h with
  | stand _ =>
    obtain ⟨peer, -, rfl⟩ := mem_map.mp hpkt
    trivial
  | connect _ hpeer =>
    obtain rfl := mem_singleton.mp hpkt
    refine ⟨by simpa [Config.peers] using (mem_filter.mp hpeer).2, rfl, rfl, ?_⟩
    rintro f ⟨q, hq, htask⟩
    cases hq
    cases htask
    rfl
  | @ackTick f htask hphase =>
    obtain rfl := mem_singleton.mp hpkt
    cases hf : f.phase with
    | waiting => exact absurd hf hphase
    | streaming received => exact ⟨rfl, f, received, htask, hf, rfl⟩
  | stream | heartbeat =>
    obtain rfl := mem_singleton.mp hpkt
    trivial
  | _ => exact absurd hpkt not_mem_nil

end

section

variable (hs : SessionsOk s)
include hs

theorem SessionsOk.acts (hp : (s.member i).proc = some p)
    (hcrash : a = .crash → (s.member i).epochFile = p.logEpoch)
    (hepochs : a = .nextEpoch → max (s.member i).epochFile (ballotEpoch p.ballot) + 1 < 2 ^ 64)
    (h : Acts cfg i (s.member i) p a r) : SessionsOk (s.react i s.net r) := by
  have hm := hs.member i
  have hkeeps : KeepsSessions s i r := by
    refine ⟨h.memberOk hm hp hcrash hepochs, h.grow.1, h.grow.2, fun f hf _ => ?_, fun f received hf hphase => ?_⟩
    · rcases h.inSession hm hp hf with h | ⟨-, hconn, -⟩
      · exact .inl h
      · exact .inr (by omega)
    · rcases h.inSession hm hp hf with ⟨hf, hhistory, hhead⟩ | ⟨hwait, -, -⟩
      · rw [hhistory, hhead]
        exact hs.stream i f received hf hphase
      · rw [hwait] at hphase
        cases hphase
  refine hs.react hkeeps (fun pkt hpkt => ?_) fun _ h => h
  have hout := h.out hpkt
  rw [h.sends.src pkt hpkt]
  cases hmsg : pkt.msg with
  | replicaHello conn epoch n =>
    rw [hmsg] at hout
    obtain ⟨-, hconn, hn, hepoch⟩ := hout
    simp only [MailOk, System.react_member_self]
    exact ⟨hconn.le, hn ▸ headTx_le _, fun f hf => ⟨hepoch f hf.1, hn⟩⟩
  | replBatch conn epoch start frames =>
    obtain ⟨hne, hframes⟩ := h.sends.batch pkt hpkt conn epoch start frames hmsg
    simp only [MailOk, System.react_member_self]
    exact ⟨hne, hframes.trans (h.grow.1.drop start)⟩
  | replFence | primaryHello =>
    rw [hmsg] at hout
    exact hout.elim
  | _ => trivial

omit hs in
theorem not_inSession_boot {m : Member} {f : Following} : ¬ (m.withProc (boot cfg i m)).InSession f := by
  rintro ⟨q, hq, htask⟩
  cases hq
  simp only [boot] at htask
  split_ifs at htask
  cases htask

theorem SessionsOk.restart (hp : (s.member i).proc = none) :
    SessionsOk (s.react i s.net (restart cfg i (s.member i))) := by
  refine hs.react ⟨(hs.member i).restart hp, prefix_rfl, Nat.le_refl _, fun f hf => absurd hf not_inSession_boot,
    fun f _ hf => absurd hf not_inSession_boot⟩ (by simp [ReplicaSet.restart]) fun _ h => h

theorem KeepsSessions.of_same (hm : MemberOk r.member)
    (hhistory : r.member.history = (s.member i).history) (hfirst : r.member.first = (s.member i).first)
    (hconns : r.member.conns = (s.member i).conns)
    (hsession : ∀ f, r.member.InSession f → (s.member i).InSession f) : KeepsSessions s i r := by
  have hhead : r.member.headTx = (s.member i).headTx := by simp only [Member.headTx, hhistory, hfirst]
  refine ⟨hm, hhistory ▸ prefix_rfl, hconns.ge, fun f hf _ => .inl ⟨hsession f hf, hhistory, hhead⟩,
    fun f received hf hphase => ?_⟩
  rw [hhistory, hhead]
  exact hs.stream i f received (hsession f hf) hphase

section

variable (hp : (s.member i).proc = some p)
include hp

theorem KeepsSessions.endSession
    (hf : p.task = .following (some f)) {ef : Nat} (hef : (s.member i).epochFile ≤ ef) :
    KeepsSessions s i (endSession { s.member i with epochFile := ef } p) := by
  have hm := hs.member i
  have hproc := hm.proc p hp
  refine .of_same hs (hm.endSession hp rfl (hproc.not_primary (by simp [hf])) (hproc.file.trans hef)
    fun x hx => (hm.bound x hx).trans hef) rfl rfl rfl ?_
  rintro g ⟨q, hq, htask⟩
  cases hq
  cases htask

theorem KeepsSessions.withProc (p' : Proc)
    (htask : p'.task = p.task) (hrole : p'.isPrimary = p.isPrimary) (hlog : p'.logEpoch = p.logEpoch)
    (hepoch : p.primaryEpoch ≤ p'.primaryEpoch) {out : List Packet} {obs : List Obs} :
    KeepsSessions s i ⟨(s.member i).withProc p', out, obs⟩ := by
  have hm := hs.member i
  refine .of_same hs (hm.withProc hp hlog ((hm.proc p hp).of_same htask hrole hlog hepoch)) rfl rfl rfl ?_
  rintro g ⟨q, hq, hg⟩
  cases hq
  exact ⟨p, hp, htask ▸ hg⟩

/-- A batch from the primary of the session leaves no trace, or is applied whole to a log that it
continues. -/
theorem SessionsOk.applyFrames {start : Nat} {frames : List Entry} {m' : Member} {p' : Proc} {ok : Bool}
    (hf : p.session src conn = some f) (hphase : f.phase = .streaming start)
    (hframes : frames ≠ [] ∧ frames <+: (s.member src).history.drop start)
    (hl : (start = (s.member i).history.length → ∀ x ∈ frames, p.logEpoch ≤ x.epoch) ∧
      (start ≠ (s.member i).history.length → ∀ x ∈ frames.head?, x.epoch ≤ p.logEpoch))
    (happly : applyFrames (s.member i) p frames = (m', p', ok)) :
    (ok = false ∧ m' = s.member i ∧ p' = p) ∨ ok = true ∧ start = (s.member i).history.length ∧
    ∃ ef le x, m' = { s.member i with epochFile := ef, history := (s.member i).history ++ frames } ∧
      p' = { p with logEpoch := le } ∧ le ≤ ef ∧ p.logEpoch ≤ le ∧
      (s.member i).history ++ frames <+: (s.member src).history ∧
      frames.getLast? = some x ∧ le = x.epoch ∧ ∀ y ∈ (s.member i).history ++ frames, y.epoch ≤ le := by
  have hm := hs.member i
  obtain ⟨htask, rfl, -⟩ := session_eq_some hf
  have hlog := (hs.member f.primary).history
  by_cases hstart : start = (s.member i).history.length
  swap
  · rw [applyFrames_of_gap hlog hframes.1 hframes.2 hstart (hl.2 hstart)] at happly
    cases happly
    exact .inl ⟨rfl, rfl, rfl⟩
  have hpre := (hs.stream i f start ⟨p, hp, htask⟩ hphase).1 hstart
  obtain ⟨ef, le, heq, hef, hge, hle, hlast⟩ := applyFrames_of_le hlog frames (s.member i) p hpre
    (hstart ▸ hframes.2) (hl.1 hstart) (hm.proc p hp).file
  rcases hlast with ⟨hnil, -⟩ | ⟨x, hx, rfl⟩
  · exact absurd hnil hframes.1
  cases heq.symm.trans happly
  refine .inr ⟨rfl, hstart, ef, x.epoch, x, rfl, rfl, hef, hge, hle, hx, rfl, fun y hy => ?_⟩
  -- The epochs do not fall, and `x` is the last record.
  obtain ⟨init, rfl⟩ := getLast?_eq_some_iff.mp hx
  have hsorted := (hlog.of_le hle).sorted
  rw [← append_assoc, pairwise_append] at hsorted
  rw [← append_assoc] at hy
  rcases mem_append.mp hy with hy | hy
  · exact hsorted.2.2 y hy x (by simp)
  · rw [mem_singleton.mp hy]

end

end

theorem inSession_setPhase {f g : Following} {phase : Phase}
    (h : (m.withProc (p.setPhase f phase)).InSession g) : g = { f with phase := phase } := by
  obtain ⟨q, hq, hg⟩ := h
  cases hq
  simpa [Proc.setPhase, eq_comm] using hg

theorem KeepsSessions.streaming {n : Nat} (hm : MemberOk (m.withProc (p.setPhase f (.streaming n))))
    (hgrow : (s.member i).history <+: m.history) (hconns : (s.member i).conns ≤ m.conns)
    (hle : n = m.history.length → m.history <+: (s.member f.primary).history) (hhead : n ≠ m.history.length → m.headTx = 0) :
    KeepsSessions s i ⟨m.withProc (p.setPhase f (.streaming n)), [], []⟩ := by
  refine ⟨hm, hgrow, hconns, fun g hg hwait => ?_, fun g received hg hphase => ?_⟩
  · rw [inSession_setPhase hg] at hwait
    cases hwait
  · rw [inSession_setPhase hg] at hphase ⊢
    obtain rfl := Phase.streaming.inj hphase
    exact ⟨hle, hhead⟩

/-- After a batch the replica has the primary's records up to its end. -/
theorem KeepsSessions.batch (hs : SessionsOk s) (hp : (s.member i).proc = some p) {start ef le : Nat}
    {frames : List Entry} (hf : p.session src conn = some f) (hstart : start = (s.member i).history.length)
    (hef : le ≤ ef) (hge : p.logEpoch ≤ le) (hle : (s.member i).history ++ frames <+: (s.member src).history)
    (hlast : ∀ y ∈ (s.member i).history ++ frames, y.epoch ≤ le) : KeepsSessions s i ⟨Member.withProc
      { s.member i with epochFile := ef, history := (s.member i).history ++ frames }
      (Proc.setPhase { p with logEpoch := le } f (.streaming (start + frames.length))), [], []⟩ := by
  obtain ⟨htask, rfl, -⟩ := session_eq_some hf
  refine .streaming ((hs.member i).batch hp (hs.member f.primary).history hle hef hlast hge htask) (prefix_append _ _)
    (Nat.le_refl _) (fun _ => hle) fun hne => absurd ?_ hne
  simp [hstart]

/-- The stream begins with what the primary has, or with a log that has nothing to compare. -/
theorem KeepsSessions.established (hs : SessionsOk s) (hp : (s.member i).proc = some p) {n ef : Nat}
    (hf : p.session src conn = some f) (hef : (s.member i).epochFile ≤ ef) (hn : n = (s.member i).headTx)
    (hle : n = (s.member i).history.length → (s.member i).history <+: (s.member src).history) :
    KeepsSessions s i ⟨Member.withProc { s.member i with epochFile := ef }
      (p.setPhase f (.streaming n)), [], []⟩ := by
  obtain ⟨htask, rfl, -⟩ := session_eq_some hf
  refine .streaming ((hs.member i).established hp htask hef) prefix_rfl (Nat.le_refl _) hle fun hne => ?_
  -- The head is the last record or nothing.
  have hne : (s.member i).headTx ≠ (s.member i).history.length := hn ▸ hne
  simp only [Member.headTx] at hne ⊢
  split_ifs at hne ⊢ <;> simp_all

theorem KeepsSessions.installed (hs : SessionsOk s) (hp : (s.member i).proc = some p) {n ef : Nat}
    {records : List Entry} (hf : p.session src conn = some f) (hempty : (s.member i).history = [])
    (hef : (s.member i).epochFile ≤ ef)
    (hrecords : records = (s.member src).history.take n ∧ n ≤ (s.member src).history.length)
    (hbound : ∀ x ∈ records, x.epoch ≤ ef) : KeepsSessions s i ⟨Member.withProc
      { s.member i with epochFile := ef, history := records, first := records.length }
      (p.setPhase f (.streaming n)), [], []⟩ := by
  obtain ⟨htask, rfl, -⟩ := session_eq_some hf
  have hle : records <+: (s.member f.primary).history := hrecords.1 ▸ take_prefix _ _
  refine .streaming ((hs.member i).installed hp htask hef ((hs.member f.primary).history.of_le hle) hbound)
    (hempty ▸ nil_prefix) (Nat.le_refl _) (fun _ => hle) fun hne => absurd ?_ hne
  simp [hrecords.1, hrecords.2]

theorem mailOk_fence (hkeeps : KeepsSessions s i r) {replica epoch n : Nat}
    (hmail : MailOk s replica i (.replicaHello conn epoch n)) :
    MailOk (s.react i net r) i replica (.replFence conn epoch) :=
  ⟨hmail.1.trans (hkeeps.conns_le _), fun f hf => (hmail.2.2 f (hkeeps.waiting hmail.1 hf).1).1⟩

/-- What is so when a member accepts a replica or takes a batch: the replica has the primary's
records as far as its hello goes, and frames are as `Careful` asks. -/
def Receptive (s : System) (i : Nat) (p : Proc) (src : Nat) : Msg → Prop
  | .replicaHello _ epoch n => p.isPrimary = true → epoch ≤ p.primaryEpoch → n ≤ (s.member i).headTx →
    (s.member src).history.take n = (s.member i).history.take n
  | .replBatch _ epoch start frames => (s.member i).epochFile ≤ epoch →
    (start = (s.member i).history.length → ∀ f ∈ frames, p.logEpoch ≤ f.epoch) ∧
      (start ≠ (s.member i).history.length → ∀ f ∈ frames.head?, f.epoch ≤ p.logEpoch)
  | _ => True

theorem mailOk_welcome (hs : SessionsOk s) (hkeeps : KeepsSessions s i r) (hp : (s.member i).proc = some p)
    (hprimary : p.isPrimary = true) {replica epoch n : Nat} {checkpoint : Option Nat}
    (hmail : MailOk s replica i (.replicaHello conn epoch n))
    (hmatch : (s.member replica).history.take n = (s.member i).history.take n)
    (hpacked : ∀ c ∈ checkpoint, c ≤ (s.member i).history.length) :
    MailOk (s.react i net r) i replica (.primaryHello conn p.primaryEpoch (checkpoint.getD n)
      (checkpoint.map fun c => (s.member i).history.take c)) := by
  have hle : (s.member i).history <+: ((s.react i net r).member i).history := hkeeps.member_le _
  obtain ⟨hconn, -, hold⟩ := hmail
  cases checkpoint with
  | none =>
    refine ⟨hconn.trans (hkeeps.conns_le _), fun f hf => ?_⟩
    obtain ⟨hf, hhistory, hhead⟩ := hkeeps.waiting hconn hf
    rw [hhistory, hhead]
    refine ⟨(hold f hf).2, fun hlen => ?_⟩
    have hall : (s.member replica).history = (s.member i).history.take n := by
      rw [← hmatch]
      exact (take_of_length_le hlen.ge).symm
    exact hall ▸ ( take_prefix _ _).trans hle
  | some c =>
    have hc := hpacked c rfl
    refine ⟨Comparable.take_eq (.inl hle) hc (hc.trans hle.length_le), hc.trans hle.length_le, fun x hx => ?_⟩
    obtain ⟨hpe, hbound⟩ := ((hs.member i).proc p hp).primary hprimary
    exact (hbound x (mem_of_mem_take hx)).trans hpe

theorem SessionsOk.receives (hs : SessionsOk s) (hp : (s.member i).proc = some p)
    (hmail : MailOk s src i msg) (hnet : ∀ pkt ∈ net, pkt ∈ s.net) (hl : Receptive s i p src msg)
    (h : Receives i (s.member i) p src msg r) : SessionsOk (s.react i net r) := by
  have hm := hs.member i
  have hproc := hm.proc p hp
  cases h with
  | grant _ =>
    refine hs.react (.of_same hs (hm.of_same rfl rfl (acting_of_some hp).symm hm.bound fun q hq => ?_) rfl
      rfl rfl ?_) ?_ hnet
    · cases hq
      exact ⟨hproc.file, hproc.parked, hproc.primary, hproc.proposed, hproc.asking, hproc.session⟩
    · rintro f ⟨q, hq, htask⟩
      cases hq
      exact ⟨p, hp, htask⟩
    · intro pkt hpkt
      rw [mem_singleton.mp hpkt]
      trivial
  | deny =>
    refine hs.react (.of_same hs hm rfl rfl rfl fun f hf => hf) ?_ hnet
    intro pkt hpkt
    rw [mem_singleton.mp hpkt]
    trivial
  | count htask hreq hv =>
    have hrole := hproc.not_primary (by simp [htask])
    refine hs.react (.of_same hs (hm.withProc hp rfl ⟨hproc.file, by simp [hrole], by simp [hrole], by simp,
      fun c hc => ?_, by simp⟩) rfl rfl rfl ?_) (by simp) hnet
    · obtain rfl := Task.asking.inj hc
      have hask := hproc.asking _ htask
      exact hask
    · rintro f ⟨q, hq, hf⟩
      cases hq
      cases hf
  | refuse _ => exact hs.react (.of_same hs hm rfl rfl rfl fun f hf => hf) (by simp) hnet
  | @fencedByHello conn epoch n _ _ =>
    have hkeeps : KeepsSessions s i
        ⟨(s.member i).withProc (p.fence epoch), [⟨i, src, .replFence conn epoch⟩], []⟩ :=
      .withProc hs hp (p.fence epoch) rfl rfl rfl (Nat.le_max_left _ _)
    refine hs.react hkeeps (fun pkt hpkt => ?_) hnet
    obtain rfl := mem_singleton.mp hpkt
    exact mailOk_fence hkeeps hmail
  | @accept conn epoch n checkpoint hprimary hepoch hn hpacked =>
    have hkeeps : KeepsSessions s i (openSession i (s.member i) p src conn n checkpoint) :=
      .withProc hs hp (p.setSession src (some ⟨conn, n, checkpoint.getD n⟩)) rfl rfl rfl (Nat.le_refl _)
    refine hs.react hkeeps (fun pkt hpkt => ?_) hnet
    obtain rfl := mem_singleton.mp hpkt
    exact mailOk_welcome hs hkeeps hp hprimary hmail (hl hprimary hepoch hn) fun c hc => (hpacked c hc).1
  | established hf hwait =>
    obtain ⟨htask, -, hconn⟩ := session_eq_some hf
    obtain ⟨hfrom, hle⟩ := hmail.2 _ ⟨⟨p, hp, htask⟩, hconn, hwait⟩
    have hfile := (hproc.session _ htask).2 hwait
    refine hs.react (.established hs hp hf ?_ hfrom hle) (by simp) hnet
    split_ifs <;> omega
  | installed hf hwait hempty =>
    obtain ⟨htask, -, hconn⟩ := session_eq_some hf
    obtain ⟨hrecords, hlen, hbound⟩ := hmail
    have hfile := (hproc.session _ htask).2 hwait
    refine hs.react (.installed hs hp hf hempty ?_ ⟨hrecords, hlen⟩ fun x hx => ?_) (by simp) hnet
    · split_ifs <;> omega
    · have := hbound x hx
      split_ifs <;> omega
  | cannotInstall hf hwait =>
    obtain ⟨htask, -, -⟩ := session_eq_some hf
    have hfile := (hproc.session _ htask).2 hwait
    refine hs.react (.endSession hs hp htask ?_) (by simp [ReplicaSet.endSession]) hnet
    split_ifs <;> omega
  | fence hf hwait =>
    obtain ⟨htask, -, hconn⟩ := session_eq_some hf
    have hepoch := hmail.2 _ ⟨⟨p, hp, htask⟩, hconn, hwait⟩
    have hfile := (hproc.session _ htask).2 hwait
    exact hs.react (.endSession hs hp htask (hfile.ge.trans hepoch.le)) (by simp [ReplicaSet.endSession]) hnet
  | heartbeat hf hwait =>
    obtain ⟨htask, -, -⟩ := session_eq_some hf
    refine hs.react (.of_same hs (hm.of_same rfl rfl (by simp [Member.acting, hp])
      (fun x hx => (hm.bound x hx).trans (Nat.le_max_left _ _)) fun q hq => ?_) rfl rfl rfl fun f hf => hf)
      (by simp) hnet
    cases hp.symm.trans hq
    refine ⟨hproc.file.trans (Nat.le_max_left _ _), hproc.parked, hproc.primary, hproc.proposed, hproc.asking,
      fun g hg => ⟨(hproc.session g hg).1, fun hgw => ?_⟩⟩
    obtain rfl : _ = g := by simpa [htask] using hg
    exact absurd hgw hwait
  | staleBatch hf hepoch =>
    obtain ⟨htask, -, -⟩ := session_eq_some hf
    exact hs.react (.endSession hs hp htask (Nat.le_refl _)) (by simp [ReplicaSet.endSession]) hnet
  | batch hf hphase hepoch happly =>
    obtain ⟨⟨⟩, -⟩ | ⟨-, hstart, ef, le, x, rfl, rfl, hef, hge, hle, -, -, hlast⟩ :=
      hs.applyFrames hp hf hphase hmail (hl hepoch) happly
    exact hs.react (.batch hs hp hf hstart hef hge hle hlast) (by simp) hnet
  | batchFails hf hphase hepoch happly =>
    obtain ⟨htask, -, -⟩ := session_eq_some hf
    obtain ⟨-, rfl, rfl⟩ | ⟨⟨⟩, -⟩ := hs.applyFrames hp hf hphase hmail (hl hepoch) happly
    exact hs.react (.endSession hs hp htask (Nat.le_refl _)) (by simp [ReplicaSet.endSession]) hnet
  | ack =>
    obtain ⟨pe, fenced, ss, heq, hle, -⟩ := ack_frame p src _ _
    rw [heq]
    exact hs.react (.withProc hs hp { p with primaryEpoch := pe, fenced := fenced, sessions := ss } rfl rfl rfl hle)
      (by simp) hnet

end Steps

/-- What happens to a member keeps the sessions. -/
theorem SessionsOk.cause {cfg : Config} {s : System} {i : Nat} {event : Event} {net : List Packet} {r : Reaction}
    (hs : SessionsOk s) (hl : Careful cfg s ⟨i, event⟩)
    (hreceptive : ∀ p k choice pkt, event = .deliver k choice → (s.member i).proc = some p →
      s.net[k]? = some pkt → Receptive s i p pkt.src pkt.msg)
    (hcause : Cause cfg s i event net r) : SessionsOk (s.react i net r) := by
  have hnet := hcause.net_subset
  cases hcause with
  | restart hp => exact hs.restart hp
  | act hp hacts =>
    exact hs.acts hp (fun ha => hl.crash _ (by rw [ha]) hp) (fun ha => hl.epochs _ (by rw [ha]) hp) hacts
  | @deliver p k choice pkt _ hp hpkt hdst hreceives =>
    have hmail := hs.mail pkt (mem_of_getElem? hpkt)
    rw [hdst] at hmail
    exact hs.receives hp hmail hnet (hreceptive p k choice pkt rfl hp hpkt) hreceives

end Fluxum.ReplicaSet
