/-
# What a log stands for

Every epoch has one member that writes in it, and what that member wrote is
the trunk of the epoch: the log it was promoted with and its commits. Any
log, under the epoch it is offered in an election, is a part of that trunk
and has the promoted log in it. That is what makes comparing heads, epoch
first and number second, a comparison of logs.

* `TrunkOk.owner_unique`: an epoch has one owner.
* `TrunkOk.same_log`: a record's epoch and number tell the log up to it.
* `TrunkOk.step`: the trunks are kept by every careful step.
-/
import Fluxum.ReplicaSet.Sessions

namespace Fluxum.ReplicaSet

open List

/-- The log has in it the log its epoch began with. The first epoch began with nothing. -/
def StartsIn (s : System) (e : Nat) (log : List Entry) : Prop :=
  e ≤ 1 ∨ ∃ o start, (o, .promoted e start) ∈ s.obs ∧ start <+: log

/-- The log is a part of what was written in its epoch. -/
def OnTrunk (s : System) (e : Nat) (log : List Entry) : Prop :=
  log = [] ∨ ∃ o trunk, ((o, .promoted e trunk) ∈ s.obs ∨ (o, .committed e trunk) ∈ s.obs) ∧ log <+: trunk

/-- A log of epoch `e`. -/
structure LogOf (s : System) (e : Nat) (log : List Entry) : Prop where
  start : StartsIn s e log
  trunk : OnTrunk s e log

/-- The member that writes in an epoch: the one promoted in it, or the first primary. -/
def Owner (cfg : Config) (s : System) (o e : Nat) : Prop :=
  (∃ log, (o, .promoted e log) ∈ s.obs) ∨ (e = 1 ∧ cfg.bootPrimary o = true)

/-- A ballot, with the voter's log at that time: the candidate's head was not behind it. -/
structure VoteOk (s : System) (v : Nat) (req : VoteRequest) (le : Nat) (log : List Entry) : Prop where
  kept : log <+: (s.member v).log
  of : LogOf s le log
  epochs : ∀ x ∈ log, x.epoch ≤ le
  head : le < req.lastLogEpoch ∨ (le = req.lastLogEpoch ∧ log.length ≤ req.lastAppliedTxId)

/-- The candidate's own ballot: its request tells its own head. -/
def Stood (s : System) (i : Nat) (req : VoteRequest) (log : List Entry) : Prop :=
  (i, .voted req req.lastLogEpoch log) ∈ s.obs ∧ log.length = req.lastAppliedTxId

/-- A promotion in `e` with `log`: the candidate stood with a part of it, in an earlier epoch, and a
majority voted for the request. -/
def Promoted (cfg : Config) (s : System) (i e : Nat) (log : List Entry) : Prop :=
  ∃ req standing, req.memberName = i ∧ req.epoch = e ∧ 1 ≤ req.lastLogEpoch ∧ req.lastLogEpoch < e ∧
    Stood s i req standing ∧ standing <+: log ∧ Quorum.Majority cfg.members (Voted s · req)

structure TrunkOk (cfg : Config) (s : System) : Prop where
  votes : VotesOk cfg s
  sessions : SessionsOk s
  committed : ∀ o e trunk, (o, .committed e trunk) ∈ s.obs →
    Owner cfg s o e ∧ trunk <+: (s.member o).history
  promoted : ∀ o e log, (o, .promoted e log) ∈ s.obs →
    log <+: (s.member o).history ∧ Promoted cfg s o e log
  primary : ∀ i p, (s.member i).proc = some p → p.isPrimary = true → Owner cfg s i p.logEpoch
  log : ∀ i, LogOf s (s.member i).acting (s.member i).log
  entries : ∀ i k x, (s.member i).history[k]? = some x →
    LogOf s x.epoch ((s.member i).history.take (k + 1))
  voted : ∀ v req le log, (v, .voted req le log) ∈ s.obs → VoteOk s v req le log
  stood : ∀ i p c, (s.member i).proc = some p → p.task = .asking c → ∃ log, Stood s i c.request log

/-! ### Facts that stay -/

variable {req : VoteRequest}

section Mono

variable {cfg : Config} {s : System} {i j e : Nat} {net : List Packet} {r : Reaction} {log log' : List Entry}

theorem LogOf.react (h : LogOf s e log) : LogOf (s.react i net r) e log := by
  refine ⟨?_, ?_⟩
  · rcases h.start with h | ⟨o, start, hmem, hle⟩
    · exact .inl h
    · exact .inr ⟨o, start, System.obs_subset hmem, hle⟩
  · rcases h.trunk with h | ⟨o, trunk, hmem, hle⟩
    · exact .inl h
    · exact .inr ⟨o, trunk, hmem.imp System.obs_subset System.obs_subset, hle⟩

theorem Owner.react (h : Owner cfg s j e) : Owner cfg (s.react i net r) j e := by
  rcases h with ⟨log, hmem⟩ | h
  · exact .inl ⟨log, System.obs_subset hmem⟩
  · exact .inr h

theorem Stood.react (h : Stood s j req log) : Stood (s.react i net r) j req log :=
  ⟨System.obs_subset h.1, h.2⟩

theorem Promoted.react (h : Promoted cfg s j e log) : Promoted cfg (s.react i net r) j e log := by
  obtain ⟨req, standing, hname, hepoch, hpos, hlt, hstood, hle, hmaj⟩ := h
  exact ⟨req, standing, hname, hepoch, hpos, hlt, hstood.react, hle, hmaj.imp fun _ hv => hv.mono⟩

theorem VoteOk.react {le : Nat} (h : VoteOk s j req le log)
    (hlog : (s.member i).log <+: r.member.log) : VoteOk (s.react i net r) j req le log := by
  refine ⟨?_, h.of.react, h.epochs, h.head⟩
  rcases s.react_member i net r j with ⟨rfl, hm⟩ | ⟨-, hm⟩ <;> rw [hm]
  · exact h.kept.trans hlog
  · exact h.kept

end Mono

theorem log_mono {m m' : Member} (hhistory : m.history <+: m'.history) (hfirst : m'.first = m.first) :
    m.log <+: m'.log := by
  simp only [Member.log, hfirst]
  split_ifs with h h'
  · exact hhistory
  · exact absurd (h.trans_le hhistory.length_le) h'
  · exact nil_prefix
  · exact prefix_rfl

theorem length_log (m : Member) : m.log.length = m.headTx := by
  simp only [Member.log, Member.headTx]
  split_ifs <;> rfl

/-! ### One trunk -/

section Owners

variable {cfg : Config} {s : System} {e : Nat} (hs : TrunkOk cfg s)
  (hboot : ∀ i j, cfg.bootPrimary i = true → cfg.bootPrimary j = true → i = j)
include hs hboot

/-- An epoch has one owner, if one member is configured as primary. -/
theorem TrunkOk.owner_unique {i j : Nat} (hi : Owner cfg s i e) (hj : Owner cfg s j e) : i = j := by
  -- Nobody is promoted in the first epoch.
  have hlater : ∀ o log, (o, .promoted e log) ∈ s.obs → e ≠ 1 := by
    intro o log hmem
    obtain ⟨-, req, standing, -, rfl, hpos, hlt, -⟩ := hs.promoted o e log hmem
    omega
  rcases hi with ⟨log, hi⟩ | ⟨hone, hi⟩ <;> rcases hj with ⟨log', hj⟩ | ⟨hone', hj⟩
  · exact hs.votes.elected_unique (hs.votes.elected i e log hi) (hs.votes.elected j e log' hj)
  · exact absurd hone' (hlater i log hi)
  · exact absurd hone (hlater j log' hj)
  · exact hboot i j hi hj

/-- Two logs of one epoch are comparable. -/
theorem TrunkOk.trunk_comparable {a b : List Entry} (ha : OnTrunk s e a) (hb : OnTrunk s e b) :
    Comparable a b := by
  have howner : ∀ log, OnTrunk s e log → log ≠ [] → ∃ o, Owner cfg s o e ∧ log <+: (s.member o).history := by
    rintro log (rfl | ⟨o, trunk, hmem | hmem, hle⟩) hne
    · exact absurd rfl hne
    · exact ⟨o, .inl ⟨trunk, hmem⟩, hle.trans (hs.promoted o e trunk hmem).1⟩
    · exact ⟨o, (hs.committed o e trunk hmem).1, hle.trans (hs.committed o e trunk hmem).2⟩
  by_cases hane : a = []
  · exact .inl (hane ▸ nil_prefix)
  by_cases hbne : b = []
  · exact .inr (hbne ▸ nil_prefix)
  obtain ⟨o, ho, hle⟩ := howner a ha hane
  obtain ⟨o', ho', hle'⟩ := howner b hb hbne
  obtain rfl := hs.owner_unique hboot ho ho'
  exact prefix_or_prefix_of_prefix hle hle'

/-- Two members with records of one epoch at one position have the same log up to there. -/
theorem TrunkOk.same_log {i j k : Nat} {x y : Entry} (hx : (s.member i).history[k]? = some x)
    (hy : (s.member j).history[k]? = some y) (hepoch : x.epoch = y.epoch) :
    (s.member i).history.take (k + 1) = (s.member j).history.take (k + 1) := by
  have hcomparable := hs.trunk_comparable hboot (hs.entries i k x hx).trunk (hepoch ▸ (hs.entries j k y hy).trunk)
  have hlen {log : List Entry} {z : Entry} (hz : log[k]? = some z) : k + 1 ≤ (log.take (k + 1)).length := by
    rw [length_take, Nat.min_eq_left (List.getElem?_eq_some_iff.mp hz).1]
  simpa [take_take] using hcomparable.take_eq (hlen hx) (hlen hy)

/-- A replica whose last record is of the epoch of the primary's has the primary's records. -/
theorem Careful.receptive {i k : Nat} {event : Event} {choice : Choice} {p : Proc} {pkt : Packet}
    (h : Careful cfg s ⟨i, event⟩) (hevent : event = .deliver k choice) (hp : (s.member i).proc = some p)
    (hpkt : s.net[k]? = some pkt) : Receptive s i p pkt.src pkt.msg := by
  have hmail := hs.sessions.mail pkt (mem_of_getElem? hpkt)
  cases hmsg : pkt.msg with
  | replicaHello conn epoch n =>
    intro hprimary hepoch hn
    obtain ⟨hlast, -⟩ := h.accept k choice pkt conn epoch n p hevent hpkt hmsg hp hprimary hepoch hn
    rw [hmsg] at hmail
    cases n with
    | zero => rfl
    | succ last =>
      have hx := getElem?_eq_getElem (l := (s.member pkt.src).history) hmail.2.1
      have hy := getElem?_eq_getElem (l := (s.member i).history) (hn.trans (headTx_le _))
      exact hs.same_log hboot hx hy (hlast last _ _ rfl hx hy)
  | replBatch conn epoch start frames =>
    intro hepoch
    obtain ⟨hnext, hgap⟩ := h.batch k choice pkt conn epoch start frames p hevent hpkt hmsg hp hepoch
    exact ⟨fun hstart => (hnext hstart).1, hgap⟩
  | _ => trivial

end Owners

/-! ### Keeping the invariant -/

section Steps

variable {cfg : Config} {s : System} {i : Nat} {net : List Packet} {p : Proc} {r : Reaction} {m : Member}

/-- What a reaction has to show. -/
structure KeepsTrunk (cfg : Config) (s s' : System) (i : Nat) (r : Reaction) : Prop where
  grow : (s.member i).history <+: r.member.history
  logGrow : (s.member i).log <+: r.member.log
  log : LogOf s' r.member.acting r.member.log
  entries : ∀ k x, r.member.history[k]? = some x → LogOf s' x.epoch (r.member.history.take (k + 1))
  primary : ∀ p ∈ r.member.proc, p.isPrimary = true → Owner cfg s' i p.logEpoch
  stood : ∀ p ∈ r.member.proc, ∀ c, p.task = .asking c → ∃ log, Stood s' i c.request log
  committed : ∀ e trunk, .committed e trunk ∈ r.obs → Owner cfg s' i e ∧ trunk <+: r.member.history
  promoted : ∀ e log, .promoted e log ∈ r.obs → log <+: r.member.history ∧ Promoted cfg s' i e log
  voted : ∀ req le log, .voted req le log ∈ r.obs → VoteOk s' i req le log

theorem TrunkOk.react (hs : TrunkOk cfg s) (hvotes : VotesOk cfg (s.react i net r))
    (hsessions : SessionsOk (s.react i net r)) (h : KeepsTrunk cfg s (s.react i net r) i r) :
    TrunkOk cfg (s.react i net r) := by
  have hhistory : ∀ j, (s.member j).history <+: ((s.react i net r).member j).history := by
    intro j
    rcases s.react_member i net r j with ⟨rfl, hm⟩ | ⟨-, hm⟩ <;> rw [hm]
    · exact h.grow
  refine ⟨hvotes, hsessions, fun o e trunk hmem => ?_, fun o e log hmem => ?_, fun j q hq hprimary => ?_,
    fun j => ?_, fun j k x hx => ?_, fun v req le log hmem => ?_, fun j q c hq hc => ?_⟩
  · rcases System.mem_react_obs.mp hmem with hold | ⟨rfl, hnew⟩
    · obtain ⟨howner, hle⟩ := hs.committed o e trunk hold
      exact ⟨howner.react, hle.trans (hhistory o)⟩
    · rw [System.react_member_self]
      exact h.committed e trunk hnew
  · rcases System.mem_react_obs.mp hmem with hold | ⟨rfl, hnew⟩
    · obtain ⟨hle, hprom⟩ := hs.promoted o e log hold
      exact ⟨hle.trans (hhistory o), hprom.react⟩
    · rw [System.react_member_self]
      exact h.promoted e log hnew
  · rcases s.react_member i net r j with ⟨rfl, hm⟩ | ⟨-, hm⟩ <;> rw [hm] at hq
    · exact h.primary q hq hprimary
    · exact (hs.primary j q hq hprimary).react
  · rcases s.react_member i net r j with ⟨rfl, hm⟩ | ⟨-, hm⟩ <;> rw [hm]
    · exact h.log
    · exact (hs.log j).react
  · rcases s.react_member i net r j with ⟨rfl, hm⟩ | ⟨-, hm⟩ <;> rw [hm] at hx ⊢
    · exact h.entries k x hx
    · exact (hs.entries j k x hx).react
  · rcases System.mem_react_obs.mp hmem with hold | ⟨rfl, hnew⟩
    · exact (hs.voted v req le log hold).react h.logGrow
    · exact h.voted req le log hnew
  · rcases s.react_member i net r j with ⟨rfl, hm⟩ | ⟨-, hm⟩ <;> rw [hm] at hq
    · exact h.stood q hq c hc
    · obtain ⟨log, hlog⟩ := hs.stood j q c hq hc
      exact ⟨log, hlog.react⟩

/-- A reaction that leaves the log and its epoch alone, and is seen by nobody. -/
structure Still (m : Member) (p : Proc) (r : Reaction) : Prop where
  history : r.member.history = m.history
  log : r.member.log = m.log
  acting : r.member.acting = m.acting
  primary : ∀ p' ∈ r.member.proc, p'.isPrimary = true → p.isPrimary = true ∧ p'.logEpoch = p.logEpoch
  asking : ∀ p' ∈ r.member.proc, ∀ c, p'.task = .asking c → ∃ c', p.task = .asking c' ∧ c'.request = c.request
  committed : ∀ e trunk, .committed e trunk ∉ r.obs
  promoted : ∀ e log, .promoted e log ∉ r.obs

theorem TrunkOk.still (hs : TrunkOk cfg s) (hp : (s.member i).proc = some p)
    (hr : Still (s.member i) p r) (hvoted : ∀ req le log, .voted req le log ∈ r.obs →
      VoteOk (s.react i net r) i req le log) :
    KeepsTrunk cfg s (s.react i net r) i r := by
  refine ⟨hr.history ▸ prefix_rfl, hr.log ▸ prefix_rfl, ?_, fun k x hx => ?_, fun q hq hprimary => ?_,
    fun q hq c hc => ?_, fun e trunk h => absurd h (hr.committed e trunk),
    fun e log h => absurd h (hr.promoted e log), hvoted⟩
  · rw [hr.acting, hr.log]
    exact (hs.log i).react
  · rw [hr.history] at hx ⊢
    exact (hs.entries i k x hx).react
  · obtain ⟨hp', hepoch⟩ := hr.primary q hq hprimary
    rw [hepoch]
    exact (hs.primary i p hp hp').react
  · obtain ⟨c', hc', hreq⟩ := hr.asking q hq c hc
    obtain ⟨log, hlog⟩ := hs.stood i p c' hp hc'
    exact ⟨log, hreq ▸ hlog.react⟩

/-- The log, the role and the task are as they were. -/
theorem still_same {m' : Member} {p' : Proc} (hp : m.proc = some p) (hp' : m'.proc = some p') {out : List Packet} {obs : List Obs}
    (hcommitted : ∀ e trunk, .committed e trunk ∉ obs) (hpromoted : ∀ e log, .promoted e log ∉ obs)
    (hlog : m'.log = m.log := by rfl) (hhistory : m'.history = m.history := by rfl)
    (hrole : p'.isPrimary = p.isPrimary := by rfl) (hepoch : p'.logEpoch = p.logEpoch := by rfl)
    (htask : p'.task = p.task := by rfl) : Still m p ⟨m', out, obs⟩ where
  history := hhistory
  log := hlog
  acting := by rw [acting_of_some hp, ← hepoch]; exact acting_of_some hp'
  primary := by
    intro q hq hprimary
    cases hp'.symm.trans hq
    exact ⟨hrole ▸ hprimary, hepoch⟩
  asking := by
    intro q hq c hc
    cases hp'.symm.trans hq
    exact ⟨c, htask ▸ hc, rfl⟩
  committed := hcommitted
  promoted := hpromoted

theorem still_endSession {p' : Proc} {ef : Nat} (hp : m.proc = some p)
    (hrole : p'.isPrimary = false) (hlog : p'.logEpoch = p.logEpoch) :
    Still m p (endSession { m with epochFile := ef } p') where
  history := rfl
  log := rfl
  acting := by rw [acting_of_some hp, ← hlog]; rfl
  primary := by
    intro q hq hprimary
    cases hq
    rw [show ({ p' with task := Task.following none } : Proc).isPrimary = p'.isPrimary from rfl, hrole] at hprimary
    cases hprimary
  asking := by
    intro q hq c hc
    cases hq
    cases hc
  committed := by simp [endSession]
  promoted := by simp [endSession]

theorem log_le_history (m : Member) : m.log <+: m.history := by
  simp only [Member.log]
  split_ifs
  · exact prefix_rfl
  · exact nil_prefix

theorem StartsIn.mono {e : Nat} {log log' : List Entry} (h : StartsIn s e log) (hle : log <+: log') :
    StartsIn s e log' := by
  rcases h with h | ⟨o, start, hmem, hstart⟩
  · exact .inl h
  · exact .inr ⟨o, start, hmem, hstart.trans hle⟩

section

variable (hs : TrunkOk cfg s)
include hs

section

variable (hp : (s.member i).proc = some p)
include hp

theorem TrunkOk.voteOk (hlog : r.member.log = (s.member i).log) (hhead : p.logEpoch < req.lastLogEpoch ∨
      (p.logEpoch = req.lastLogEpoch ∧ (s.member i).headTx ≤ req.lastAppliedTxId)) :
    VoteOk (s.react i net r) i req p.logEpoch (s.member i).log := by
  refine ⟨?_, ?_, ?_, ?_⟩
  · rw [System.react_member_self, hlog]
  · rw [← acting_of_some hp]
    exact (hs.log i).react
  · rw [← acting_of_some hp]
    exact (hs.sessions.member i).epochs
  · rw [length_log]
    exact hhead

theorem KeepsTrunk.stand {e : Nat} (htask : p.task = .proposed e) :
    KeepsTrunk cfg s (s.react i net (standing cfg i (s.member i) p e)) i (standing cfg i (s.member i) p e) := by
  have hrole := ((hs.sessions.member i).proc p hp).not_primary (by simp [htask])
  refine ⟨prefix_rfl, prefix_rfl, ?_, fun k x hx => (hs.entries i k x hx).react, fun q hq hprimary => ?_,
    fun q hq c hc => ?_, by simp [standing], by simp [standing], fun req le log hmem => ?_⟩
  · have hacting : (standing cfg i (s.member i) p e).member.acting = (s.member i).acting :=
      (acting_of_some hp).symm
    rw [hacting]
    exact (hs.log i).react
  · cases hq
    simp [hrole] at hprimary
  · cases hq
    obtain rfl := Task.asking.inj hc
    exact ⟨(s.member i).log, System.mem_react_obs.mpr (.inr ⟨rfl, by simp [standing, voteRequest]⟩), length_log _⟩
  · simp only [standing, mem_singleton, Obs.voted.injEq] at hmem
    obtain ⟨rfl, rfl, rfl⟩ := hmem
    exact hs.voteOk hp rfl (.inr ⟨rfl, Nat.le_refl _⟩)

theorem KeepsTrunk.win {c : Candidacy}
    (htask : p.task = .asking c) (htally : majority cfg.members ≤ c.tally) :
    KeepsTrunk cfg s (s.react i net (promotion (s.member i) p c.request.epoch)) i
      (promotion (s.member i) p c.request.epoch) := by
  have hm := hs.sessions.member i
  have hask := (hm.proc p hp).asking c htask
  have hmem : (i, Obs.promoted c.request.epoch (s.member i).log) ∈
      (s.react i net (promotion (s.member i) p c.request.epoch)).obs :=
    System.mem_react_obs.mpr (.inr ⟨rfl, by simp [promotion]⟩)
  refine ⟨prefix_rfl, prefix_rfl, ⟨.inr ⟨i, _, hmem, prefix_rfl⟩, .inr ⟨i, _, .inl hmem, prefix_rfl⟩⟩,
    fun k x hx => (hs.entries i k x hx).react, fun q hq _ => ?_, fun q hq c' hc' => ?_, by simp [promotion],
    fun e log h => ?_, by simp [promotion]⟩
  · cases hq
    exact .inl ⟨_, hmem⟩
  · cases hq
    cases hc'
  simp only [promotion, mem_singleton, Obs.promoted.injEq] at h
  obtain ⟨rfl, rfl⟩ := h
  obtain ⟨standing, hstood⟩ := hs.stood i p c hp htask
  have hcounted := hs.votes.counted i p c hp htask
  have hpos : 1 ≤ c.request.lastLogEpoch := by
    rw [hask.1, ← acting_of_some hp]
    exact hm.pos
  refine ⟨log_le_history _, c.request, standing, hcounted.own, rfl, hpos, hask.1 ▸ hask.2.1, hstood.react,
    (hs.voted i _ _ _ hstood.1).kept, (hcounted.majority htally).imp fun _ hv => hv.mono⟩

theorem KeepsTrunk.commit (hprimary : p.isPrimary = true) {record : TxRecord} :
    let r : Reaction := ⟨{ s.member i with history := (s.member i).history ++ [⟨p.logEpoch, record⟩] }, [],
      [.committed p.logEpoch ((s.member i).history ++ [⟨p.logEpoch, record⟩])]⟩
    KeepsTrunk cfg s (s.react i net r) i r := by
  intro r
  have hgrow : (s.member i).history <+: r.member.history := prefix_append _ _
  have hlogGrow : (s.member i).log <+: r.member.log := log_mono hgrow rfl
  have hacting : r.member.acting = p.logEpoch := acting_of_some hp
  have hmem : (i, Obs.committed p.logEpoch r.member.history) ∈ (s.react i net r).obs :=
    System.mem_react_obs.mpr (.inr ⟨rfl, by simp [r]⟩)
  have hof : ∀ log, (s.member i).log <+: log → log <+: r.member.history → LogOf (s.react i net r) p.logEpoch log := by
    intro log hle htrunk
    refine ⟨?_, .inr ⟨i, _, .inr hmem, htrunk⟩⟩
    rw [← acting_of_some hp]
    exact (hs.log i).react.start.mono hle
  have howner : Owner cfg (s.react i net r) i p.logEpoch := (hs.primary i p hp hprimary).react
  refine ⟨hgrow, hlogGrow, hacting ▸ hof _ hlogGrow (log_le_history _), fun k x hx => ?_, fun q hq _ => ?_,
    fun q hq c hc => ?_, fun e trunk h => ?_, by simp [r], by simp [r]⟩
  · rcases Nat.lt_or_ge k (s.member i).history.length with hlt | hge
    · have hx' : (s.member i).history[k]? = some x := by
        rw [← hx]
        exact (getElem?_append_left hlt).symm
      have htake : r.member.history.take (k + 1) = (s.member i).history.take (k + 1) :=
        take_append_of_le_length hlt
      rw [htake]
      exact (hs.entries i k x hx').react
    · simp only [r, getElem?_append_right hge, getElem?_singleton] at hx
      split_ifs at hx with hzero
      cases hx
      have htake : r.member.history.take (k + 1) = r.member.history :=
        take_of_length_le (by simp [r]; omega)
      rw [htake]
      exact hof _ ((log_le_history _).trans hgrow) prefix_rfl
  · cases hp.symm.trans hq
    exact howner
  · cases hp.symm.trans hq
    rw [((hs.sessions.member i).proc p hp).parked.mp hprimary] at hc
    cases hc
  · simp only [r, mem_singleton, Obs.committed.injEq] at h
    obtain ⟨rfl, rfl⟩ := h
    exact ⟨howner, prefix_rfl⟩

theorem Acts.keepsTrunk {a : Action}
    (hcrash : a = .crash → (s.member i).epochFile = p.logEpoch) (h : Acts cfg i (s.member i) p a r) :
    KeepsTrunk cfg s (s.react i net r) i r := by
  have hproc := (hs.sessions.member i).proc p hp
  cases h with
  | stand htask => exact .stand hs hp htask
  | win htask htally _ => exact .win hs hp htask htally
  | commit hprimary _ => exact .commit hs hp hprimary
  | nextEpoch htask | connect htask =>
    have hrole := hproc.not_primary (by simp [htask])
    refine hs.still hp ⟨rfl, rfl, (acting_of_some hp).symm, ?_, ?_, by simp, by simp⟩ (by simp)
    · simp [hrole]
    · simp
  | cannotStand htask | lose htask =>
    exact hs.still hp (still_endSession hp (hproc.not_primary (by simp [htask])) rfl) (by simp [ReplicaSet.endSession])
  | demote _ _ => exact hs.still hp (still_endSession hp rfl rfl) (by simp [ReplicaSet.endSession])
  | endSession htask =>
    exact hs.still hp (still_endSession hp (hproc.not_primary (by simp [htask])) rfl)
      (by simp [ReplicaSet.endSession])
  | ackTick | heartbeat | barrierFenced | barrierOk => exact hs.still hp (still_same hp hp (by simp) (by simp)) (by simp)
  | stream | dropSession | barrierHold =>
    exact hs.still hp (still_same hp (by rfl) (by simp) (by simp)) (by simp)
  | turnOk | turnFenced | timeout =>
    exact hs.still hp (still_same hp (by rfl) (by simp) (by simp)) (by simp [release])
  | prune hfirst hlt =>
    refine hs.still hp (still_same hp (by exact hp) (by simp) (by simp) ?_) (by simp)
    simp only [Member.log]
    rw [if_pos hlt, if_pos (by omega)]
  | crash =>
    refine hs.still hp ⟨rfl, rfl, ?_, by simp, by simp, by simp, by simp⟩ (by simp)
    rw [acting_of_some hp, ← hcrash rfl]
    rfl

end

theorem KeepsTrunk.restart (hp : (s.member i).proc = none)
    (hboot : cfg.bootPrimary i = true → (s.member i).epochFile = 1 ∨
      s.hasPromoted i (s.member i).epochFile = true) :
    KeepsTrunk cfg s (s.react i net (restart cfg i (s.member i))) i (restart cfg i (s.member i)) := by
  have hacting : (ReplicaSet.restart cfg i (s.member i)).member.acting = (s.member i).acting := by
    simp [Member.acting, hp, ReplicaSet.restart, boot]
  refine ⟨prefix_rfl, prefix_rfl, ?_, fun k x hx => (hs.entries i k x hx).react, fun q hq hprimary => ?_,
    fun q hq c hc => ?_, by simp [ReplicaSet.restart], by simp [ReplicaSet.restart], by simp [ReplicaSet.restart]⟩
  · rw [hacting]
    exact (hs.log i).react
  · cases hq
    have hprimary : cfg.bootPrimary i = true := hprimary
    rcases hboot hprimary with hone | hpromoted
    · exact .inr ⟨hone, hprimary⟩
    · obtain ⟨log, hlog⟩ := exists_of_hasPromoted hpromoted
      exact .inl ⟨log, System.obs_subset hlog⟩
  · cases hq
    simp only [boot] at hc
    split_ifs at hc

section

variable (hp : (s.member i).proc = some p)
include hp

omit hp in
theorem TrunkOk.entries_of_le {src k : Nat} {history : List Entry} {x : Entry} (hle : history <+: (s.member src).history)
    (hx : history[k]? = some x) : LogOf (s.react i net r) x.epoch (history.take (k + 1)) := by
  have hk := (List.getElem?_eq_some_iff.mp hx).1
  have hsrc : (s.member src).history[k]? = some x := by
    obtain ⟨rest, hrest⟩ := hle
    rw [← hrest, getElem?_append_left hk, hx]
  rw [Comparable.take_eq (.inl hle) hk (hk.trans_le hle.length_le)]
  exact (hs.entries src k x hsrc).react

/-- A log whose last record is of its epoch is one of that epoch, if the sender's is. -/
theorem KeepsTrunk.batch {f : Following}
    {src ef le received : Nat} {frames : List Entry} {x : Entry} (hf : p.task = .following (some f))
    (hle : (s.member i).history ++ frames <+: (s.member src).history) (hlast : frames.getLast? = some x)
    (hx : le = x.epoch) :
    let r : Reaction := ⟨Member.withProc
      { s.member i with epochFile := ef, history := (s.member i).history ++ frames }
      (Proc.setPhase { p with logEpoch := le } f (.streaming received)), [], []⟩
    KeepsTrunk cfg s (s.react i net r) i r := by
  intro r
  have hrole := ((hs.sessions.member i).proc p hp).not_primary (by simp [hf])
  have hentries : ∀ k y, r.member.history[k]? = some y → LogOf (s.react i net r) y.epoch (r.member.history.take (k + 1)) :=
    fun k y => hs.entries_of_le hle
  obtain ⟨init, hinit⟩ := List.getLast?_eq_some_iff.mp hlast
  have hhistory : r.member.history = (s.member i).history ++ init ++ [x] := by simp [r, hinit]
  have hwhole : LogOf (s.react i net r) le r.member.history := by
    have hlen : r.member.history[r.member.history.length - 1]? = some x := by simp [hhistory]
    have h := hentries _ x hlen
    rwa [List.take_of_length_le (by omega), ← hx] at h
  have hgrow : (s.member i).history <+: r.member.history := List.prefix_append _ _
  have hlogGrow : (s.member i).log <+: r.member.log := log_mono hgrow rfl
  have hlog : r.member.log = r.member.history := by
    have hfirst := (hs.sessions.member i).first
    refine if_pos ?_
    simp only [hhistory, List.length_append, List.length_singleton]
    change (s.member i).first < _
    omega
  refine ⟨hgrow, hlogGrow, hlog ▸ hwhole, hentries, fun q hq hprimary => ?_, fun q hq c hc => ?_, by simp [r], by simp [r], by simp [r]⟩
  · cases hq
    simp [Proc.setPhase, hrole] at hprimary
  · cases hq
    cases hc

/-- A checkpoint is the beginning of the sender's records; the log stays empty. -/
theorem KeepsTrunk.installed {f : Following}
    {src n ef received : Nat} {records : List Entry} (hf : p.task = .following (some f))
    (hempty : (s.member i).history = []) (hrecords : records = (s.member src).history.take n) :
    let r : Reaction := ⟨Member.withProc
      { s.member i with epochFile := ef, history := records, first := records.length }
      (p.setPhase f (.streaming received)), [], []⟩
    KeepsTrunk cfg s (s.react i net r) i r := by
  intro r
  have hrole := ((hs.sessions.member i).proc p hp).not_primary (by simp [hf])
  have hlog : (s.member i).log = [] := by simp [Member.log, hempty]
  have hlog' : r.member.log = [] := by simp [r, Member.log]
  have hacting : r.member.acting = (s.member i).acting := (acting_of_some hp).symm
  refine ⟨hempty ▸ nil_prefix, hlog ▸ nil_prefix, ?_, fun k x => hs.entries_of_le (hrecords ▸ take_prefix _ _),
    fun q hq hprimary => ?_, fun q hq c hc => ?_, by simp [r], by simp [r], by simp [r]⟩
  · rw [hacting, hlog', ← hlog]
    exact (hs.log i).react
  · cases hq
    simp [Proc.setPhase, hrole] at hprimary
  · cases hq
    cases hc

theorem Receives.keepsTrunk {src : Nat} {msg : Msg}
    (hmail : MailOk s src i msg) (hl : Receptive s i p src msg) (h : Receives i (s.member i) p src msg r) :
    KeepsTrunk cfg s (s.react i net r) i r := by
  have hproc := (hs.sessions.member i).proc p hp
  cases h with
  | grant hdecide =>
    obtain ⟨-, -, -, -, hhead⟩ := decideVote_eq_some hdecide
    refine hs.still hp (still_same hp (by rfl) (by simp) (by simp)) fun req le log hmem => ?_
    simp only [mem_singleton, Obs.voted.injEq] at hmem
    obtain ⟨rfl, rfl, rfl⟩ := hmem
    refine hs.voteOk hp rfl ?_
    simp only [headLt, Bool.or_eq_false_iff, Bool.and_eq_false_iff, decide_eq_false_iff_not] at hhead
    omega
  | heartbeat _ _ => exact hs.still hp (still_same hp (by exact hp) (by simp) (by simp)) (by simp)
  | deny | refuse => exact hs.still hp (still_same hp hp (by simp) (by simp)) (by simp)
  | count htask hreq hv =>
    have hrole := hproc.not_primary (by simp [htask])
    refine hs.still hp ⟨rfl, rfl, (acting_of_some hp).symm, by simp [hrole], ?_, by simp, by simp⟩ (by simp)
    intro q hq c hc
    cases hq
    obtain rfl := Task.asking.inj hc
    exact ⟨_, htask, rfl⟩
  | fencedByHello _ _ =>
    exact hs.still hp (still_same hp (by rfl) (by simp) (by simp)) (by simp)
  | accept _ _ _ _ =>
    exact hs.still hp (still_same hp (by rfl) (by simp) (by simp)) (by simp [openSession])
  | established hf _ =>
    obtain ⟨htask, -, -⟩ := session_eq_some hf
    have hrole := hproc.not_primary (by simp [htask])
    refine hs.still hp ⟨rfl, rfl, (acting_of_some hp).symm, ?_, ?_, by simp, by simp⟩ (by simp)
    · simp [Proc.setPhase, hrole]
    · simp [Proc.setPhase]
  | installed hf _ hempty =>
    obtain ⟨htask, -, -⟩ := session_eq_some hf
    exact .installed hs hp htask hempty hmail.1
  | cannotInstall hf | fence hf | staleBatch hf =>
    obtain ⟨htask, -, -⟩ := session_eq_some hf
    exact hs.still hp (still_endSession hp (hproc.not_primary (by simp [htask])) rfl) (by simp [endSession])
  | batch hf hphase hepoch happly =>
    obtain ⟨htask, -, -⟩ := session_eq_some hf
    obtain ⟨⟨⟩, -⟩ | ⟨-, -, ef, le, x, rfl, rfl, -, -, hle, hlast, hx, -⟩ :=
      hs.sessions.applyFrames hp hf hphase hmail (hl hepoch) happly
    exact .batch hs hp htask hle hlast hx
  | batchFails hf hphase hepoch happly =>
    obtain ⟨htask, -, -⟩ := session_eq_some hf
    obtain ⟨-, rfl, rfl⟩ | ⟨⟨⟩, -⟩ := hs.sessions.applyFrames hp hf hphase hmail (hl hepoch) happly
    exact hs.still hp (still_endSession hp (hproc.not_primary (by simp [htask])) rfl) (by simp [endSession])
  | ack =>
    obtain ⟨pe, fenced, ss, heq, -⟩ := ack_frame p src _ _
    rw [heq]
    exact hs.still hp (still_same hp (by rfl) (by simp) (by simp)) (by simp)

end

section

variable (hboot : ∀ i j, cfg.bootPrimary i = true → cfg.bootPrimary j = true → i = j)
include hboot

theorem TrunkOk.keepsTrunk {event : Event} (hl : Careful cfg s ⟨i, event⟩)
    (hcause : Cause cfg s i event net r) : KeepsTrunk cfg s (s.react i net r) i r := by
  cases hcause with
  | restart hp => exact .restart hs hp fun hboot => hl.restart rfl hboot
  | act hp hacts => exact hacts.keepsTrunk hs hp fun ha => hl.crash _ (by rw [ha]) hp
  | @deliver p k choice pkt _ hp hpkt hdst hreceives =>
    have hmail := hs.sessions.mail pkt (mem_of_getElem? hpkt)
    rw [hdst] at hmail
    exact hreceives.keepsTrunk hs hp hmail (hl.receptive hs hboot rfl hp hpkt)

/-- **Step lemma.** -/
theorem TrunkOk.step {s' : System} {l : Label} (hl : Careful cfg s l)
    (h : step cfg s l = some s') : TrunkOk cfg s' := by
  have hvotes := hs.votes.step hl.vote h
  obtain ⟨i, event⟩ := l
  obtain ⟨net, r, -, hcause, rfl⟩ := step_cases h
  have hsessions := hs.sessions.cause hl (fun p k choice pkt => hl.receptive hs hboot) hcause
  exact hs.react hvotes hsessions (hs.keepsTrunk hboot hl hcause)

end

end

end Steps

end Fluxum.ReplicaSet
