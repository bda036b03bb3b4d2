/-
# Election safety

A member votes in two places: as a voter, under the ballot's lock, and as a
candidate, in `self_ballot`, which does not look at the ballot it replaces.
Between `next_epoch` and `self_ballot` the member may have voted for someone
else in the very epoch it is about to stand in.

* `one_primary_per_epoch`, `one_vote_per_epoch`: apart from that, one member
  casts one vote in an epoch, and an epoch has one primary.
* `two_primaries_in_epoch_two`: a member votes twice.
-/
import Fluxum.Lib.Quorum
import Fluxum.ReplicaSet.System

namespace Fluxum.ReplicaSet

open List

/-! ### Reactions that have no part in an election -/

def Msg.electoral : Msg → Bool
  | .voteRequest _ => true
  | .voteResponse _ _ => true
  | _ => false

def Obs.electoral : Obs → Bool
  | .voted _ _ _ => true
  | .promoted _ _ => true
  | _ => false

/-- The reaction casts no ballot, counts none and sends none. -/
structure Quiet (m : Member) (p : Proc) (r : Reaction) : Prop where
  voteFile : r.member.voteFile = m.voteFile
  ballot : ∀ p' ∈ r.member.proc, p'.ballot = p.ballot
  candidacy : ∀ p' ∈ r.member.proc, ∀ c, p'.task = .asking c → p.task = .asking c
  out : ∀ pkt ∈ r.out, pkt.msg.electoral = false
  obs : ∀ o ∈ r.obs, o.electoral = false

variable {cfg : Config} {me : Nat} {m : Member} {p : Proc} {r : Reaction}

theorem quiet_endSession {p' : Proc} (hballot : p'.ballot = p.ballot) {m' : Member}
    (hfile : m'.voteFile = m.voteFile) : Quiet m p (endSession m' p') where
  voteFile := hfile
  ballot := by simpa [endSession] using hballot
  candidacy := by simp [endSession]
  out := by simp [endSession]
  obs := by simp [endSession]

theorem Acts.quiet {a : Action} (h : Acts cfg me m p a r) (hp : m.proc = some p)
    (hself : ∀ b, a ≠ .selfBallot b) (hconclude : ∀ b b', a ≠ .conclude b b') : Quiet m p r := by
  cases h with
  | stand | cannotStand => exact absurd rfl (hself _)
  | lose | win => exact absurd rfl (hconclude _ _)
  | demote | endSession => exact quiet_endSession (by rfl) (by rfl)
  | turnOk | turnFenced | timeout =>
    exact ⟨rfl, by simp [release], by simp [release], by simp [release], by simp [release, Obs.electoral]⟩
  | nextEpoch | barrierHold | crash => exact ⟨rfl, by simp, by simp, by simp, by simp⟩
  | connect _ _ => exact ⟨rfl, by simp, by simp, by simp [Msg.electoral], by simp⟩
  | stream _ _ _ =>
    exact ⟨rfl, by simp [Proc.setSession], by simp [Proc.setSession], by simp [Msg.electoral], by simp⟩
  | dropSession => exact ⟨rfl, by simp [Proc.setSession], by simp [Proc.setSession], by simp, by simp⟩
  | ackTick | heartbeat => exact ⟨rfl, by simp [hp], by simp [hp], by simp [Msg.electoral], by simp⟩
  | commit | barrierFenced | barrierOk => exact ⟨rfl, by simp [hp], by simp [hp], by simp, by simp [Obs.electoral]⟩
  | prune _ _ => exact ⟨rfl, by simp [hp], by simp [hp], by simp, by simp⟩

theorem quiet_ack {src epoch durable : Nat} :
    Quiet m p { member := m.withProc (p.ack src epoch durable) } := by
  obtain ⟨pe, fenced, ss, hack, -⟩ := ack_frame p src epoch durable
  exact ⟨rfl, by simp [hack], by simp [hack], by simp, by simp⟩

theorem Receives.quiet {src : Nat} {msg : Msg} (h : Receives me m p src msg r) (hp : m.proc = some p)
    (hmsg : msg.electoral = false) : Quiet m p r := by
  cases h with
  | grant | deny | count => cases hmsg
  | refuse | heartbeat => exact ⟨rfl, by simp [hp], by simp [hp], by simp, by simp⟩
  | fencedByHello _ _ =>
    exact ⟨rfl, by simp [Proc.fence, Proc.adoptEpoch], by simp [Proc.fence, Proc.adoptEpoch],
      by simp [Msg.electoral], by simp⟩
  | accept _ _ _ _ =>
    exact ⟨rfl, by simp [openSession, Proc.setSession], by simp [openSession, Proc.setSession],
      by simp [openSession, Msg.electoral], by simp [openSession, Obs.electoral]⟩
  | established | installed => exact ⟨rfl, by simp [Proc.setPhase], by simp [Proc.setPhase], by simp, by simp⟩
  | cannotInstall | fence | staleBatch => exact quiet_endSession (by rfl) (by rfl)
  | @batch _ _ _ frames _ m' p' _ _ _ happly =>
    obtain ⟨ef, h, le, ok, heq⟩ := applyFrames_frame frames m p
    obtain ⟨rfl, rfl, -⟩ : _ = m' ∧ _ = p' ∧ _ := by simpa using heq.symm.trans happly
    exact ⟨rfl, by simp [Proc.setPhase], by simp [Proc.setPhase], by simp, by simp⟩
  | @batchFails _ _ _ frames _ m' p' _ _ _ happly =>
    obtain ⟨ef, h, le, ok, heq⟩ := applyFrames_frame frames m p
    obtain ⟨rfl, rfl, -⟩ : _ = m' ∧ _ = p' ∧ _ := by simpa using heq.symm.trans happly
    exact quiet_endSession (by rfl) (by rfl)
  | ack => exact quiet_ack

/-! ### The invariant -/

/-- The member has cast its ballot for the request. -/
def Voted (s : System) (v : Nat) (req : VoteRequest) : Prop :=
  ∃ logEpoch log, (v, .voted req logEpoch log) ∈ s.obs

/-- The tally of a candidacy counts different members that voted for it, none of which is still
asked. -/
structure Counted (cfg : Config) (s : System) (i : Nat) (c : Candidacy) : Prop where
  own : c.request.memberName = i
  self : Voted s i c.request
  pending : c.pending.Nodup ∧ ∀ v ∈ c.pending, v < cfg.members
  voters : ∃ vs : List Nat, vs.Nodup ∧ vs.length = c.tally ∧
    ∀ v ∈ vs, v < cfg.members ∧ v ∉ c.pending ∧ Voted s v c.request

/-- A promotion has a majority of votes behind it, the candidate's own among them. -/
def Elected (cfg : Config) (s : System) (i e : Nat) : Prop :=
  ∃ req : VoteRequest, req.memberName = i ∧ req.epoch = e ∧ Voted s i req ∧
    Quorum.Majority cfg.members (Voted s · req)

/-- One member, one vote in an epoch; the last ballot is on disk and cached. -/
structure VotesOk (cfg : Config) (s : System) : Prop where
  cached : ∀ i p, (s.member i).proc = some p → p.ballot = (s.member i).voteFile
  cast : ∀ v req, Voted s v req → ∃ b, (s.member v).voteFile = some b ∧
    (req.epoch < b.epoch ∨ b = ⟨req.epoch, req.memberName⟩)
  single : ∀ v req req', Voted s v req → Voted s v req' → req.epoch = req'.epoch →
    req.memberName = req'.memberName
  granted : ∀ pkt ∈ s.net, ∀ req response, pkt.msg = .voteResponse req response →
    response.granted = true → Voted s pkt.src req
  counted : ∀ i p c, (s.member i).proc = some p → p.task = .asking c → Counted cfg s i c
  elected : ∀ i e log, (i, .promoted e log) ∈ s.obs → Elected cfg s i e

section Mono

variable {s : System} {i j : Nat} {net : List Packet} {req : VoteRequest} {c : Candidacy} {e : Nat}

theorem Voted.mono (h : Voted s j req) : Voted (s.react i net r) j req := by
  obtain ⟨le, log, h⟩ := h
  exact ⟨le, log, System.obs_subset h⟩

theorem Counted.mono (h : Counted cfg s j c) : Counted cfg (s.react i net r) j c := by
  obtain ⟨vs, hnodup, hlen, hvs⟩ := h.voters
  exact ⟨h.own, h.self.mono, h.pending, vs, hnodup, hlen,
    fun v hv => ⟨(hvs v hv).1, (hvs v hv).2.1, (hvs v hv).2.2.mono⟩⟩

theorem Elected.mono (h : Elected cfg s j e) : Elected cfg (s.react i net r) j e := by
  obtain ⟨req, hreq, he, hself, hmaj⟩ := h
  exact ⟨req, hreq, he, hself.mono, hmaj.imp fun _ hv => hv.mono⟩

theorem voted_react : Voted (s.react i net r) j req ↔
    Voted s j req ∨ (j = i ∧ ∃ logEpoch log, .voted req logEpoch log ∈ r.obs) := by
  simp only [Voted, System.mem_react_obs, exists_or, exists_and_left]

end Mono

variable {i : Nat} {s : System} {c : Candidacy}

theorem Counted.count {v : Nat} {response : VoteResponse} (h : Counted cfg s i c) (hv : v ∈ c.pending)
    (hvoted : response.granted = true → Voted s v c.request) : Counted cfg s i (c.count v response) := by
  obtain ⟨vs, hnodup, hlen, hvs⟩ := h.voters
  have hsub : ∀ w ∈ c.pending.erase v, w ∈ c.pending := fun w hw => mem_of_mem_erase hw
  refine ⟨h.own, h.self, ⟨h.pending.1.erase v, fun w hw => h.pending.2 w (hsub w hw)⟩, ?_⟩
  cases hg : response.granted with
  | false =>
    refine ⟨vs, hnodup, by simp [Candidacy.count, hg, hlen], fun w hw => ⟨(hvs w hw).1, ?_, (hvs w hw).2.2⟩⟩
    exact fun hmem => (hvs w hw).2.1 (hsub w hmem)
  | true =>
    have hnew : v ∉ vs := fun hmem => (hvs v hmem).2.1 hv
    refine ⟨v :: vs, nodup_cons.mpr ⟨hnew, hnodup⟩, by simp [Candidacy.count, hg, hlen], ?_⟩
    intro w hw
    rcases mem_cons.mp hw with rfl | hw
    · exact ⟨h.pending.2 w hv, h.pending.1.not_mem_erase, hvoted hg⟩
    · exact ⟨(hvs w hw).1, fun hmem => (hvs w hw).2.1 (hsub w hmem), (hvs w hw).2.2⟩

theorem Counted.majority (h : Counted cfg s i c) (htally : majority cfg.members ≤ c.tally) :
    Quorum.Majority cfg.members (Voted s · c.request) := by
  obtain ⟨vs, hnodup, hlen, hvs⟩ := h.voters
  exact Quorum.majority_of_list hnodup (fun v hv => (hvs v hv).1) (hlen ▸ htally) fun v hv => (hvs v hv).2.2

section Steps

variable {s : System} {i : Nat} {net : List Packet}

section

variable (hs : VotesOk cfg s)
include hs

theorem VotesOk.react_of (hfile : r.member.voteFile = (s.member i).voteFile)
    (hcached : ∀ p' ∈ r.member.proc, p'.ballot = (s.member i).voteFile)
    (hcounted : ∀ p' ∈ r.member.proc, ∀ c, p'.task = .asking c → Counted cfg s i c)
    (hout : ∀ pkt ∈ r.out, ∀ req response, pkt.msg = .voteResponse req response →
      response.granted = false)
    (hvoted : ∀ req le log, .voted req le log ∉ r.obs)
    (hpromoted : ∀ e log, .promoted e log ∈ r.obs → Elected cfg s i e)
    (hnet : ∀ pkt ∈ net, pkt ∈ s.net) : VotesOk cfg (s.react i net r) := by
  have hold : ∀ v req, Voted (s.react i net r) v req → Voted s v req := by
    intro v req h
    rcases voted_react.mp h with h | ⟨-, le, log, h⟩
    · exact h
    · exact absurd h (hvoted req le log)
  refine ⟨fun j p' hp' => ?_, fun v req hv => ?_,
    fun v req req' h h' => hs.single v req req' (hold v req h) (hold v req' h'),
    fun pkt hpkt req response hmsg hg => ?_, fun j p' c hp' hc => ?_, fun j e log h => ?_⟩
  · rcases s.react_member i net r j with ⟨rfl, hm⟩ | ⟨-, hm⟩ <;> rw [hm] at hp' ⊢
    · rw [hcached p' hp', hfile]
    · exact hs.cached j p' hp'
  · obtain ⟨b, hb, hor⟩ := hs.cast v req (hold v req hv)
    refine ⟨b, ?_, hor⟩
    by_cases hv : v = i
    · subst hv
      rw [System.react_member_self, hfile, hb]
    · rw [System.react_member_ne hv, hb]
  · rcases System.mem_react_net.mp hpkt with hpkt | hpkt
    · exact (hs.granted pkt (hnet pkt hpkt) req response hmsg hg).mono
    · rw [hout pkt hpkt req response hmsg] at hg
      cases hg
  · rcases s.react_member i net r j with ⟨rfl, hm⟩ | ⟨-, hm⟩ <;> rw [hm] at hp'
    · exact (hcounted p' hp' c hc).mono
    · exact (hs.counted j p' c hp' hc).mono
  · rcases System.mem_react_obs.mp h with h | ⟨rfl, hnew⟩
    · exact (hs.elected j e log h).mono
    · exact (hpromoted e log hnew).mono

theorem VotesOk.quiet (hp : (s.member i).proc = some p)
    (hq : Quiet (s.member i) p r) (hnet : ∀ pkt ∈ net, pkt ∈ s.net) : VotesOk cfg (s.react i net r) := by
  refine hs.react_of hq.voteFile (fun p' hp' => ?_)
    (fun p' hp' c hc => hs.counted i p c hp (hq.candidacy p' hp' c hc))
    (fun pkt hpkt req response hmsg => ?_) (fun req le log h => ?_) (fun e log h => ?_) hnet
  · rw [hq.ballot p' hp', hs.cached i p hp]
  · have := hq.out pkt hpkt
    rw [hmsg] at this
    cases this
  · cases hq.obs _ h
  · cases hq.obs _ h

/-- A ballot that the last one leaves room for keeps the invariant: it is of a later epoch, or the
same vote again. -/
theorem VotesOk.castBallot {p : Proc} {p' : Proc} {req : VoteRequest} {le : Nat}
    {log : List Entry} {out : List Packet} (hp : (s.member i).proc = some p)
    (hallows : Allows p.ballot req.epoch req.memberName)
    (hnet : ∀ pkt ∈ net, pkt ∈ s.net)
    (hout : ∀ pkt ∈ out, ∀ req' response, pkt.msg = .voteResponse req' response →
      pkt.src = i ∧ req' = req)
    (htask : ∀ c, p'.task = .asking c → p.task = .asking c ∨
      (c.request = req ∧ req.memberName = i ∧ i < cfg.members ∧ c.pending = cfg.peers i ∧ c.tally = 1)) :
    VotesOk cfg (s.react i net
      { member := castBallot (s.member i) p' ⟨req.epoch, req.memberName⟩
        out := out
        obs := [.voted req le log] }) := by
  set r : Reaction :=
    { member := ReplicaSet.castBallot (s.member i) p' ⟨req.epoch, req.memberName⟩
      out := out
      obs := [.voted req le log] } with hr
  have hvoted : ∀ v req', Voted (s.react i net r) v req' → Voted s v req' ∨ (v = i ∧ req' = req) := by
    intro v req' h
    rcases voted_react.mp h with h | ⟨hv, le', log', h⟩
    · exact .inl h
    · simp only [hr, mem_singleton, Obs.voted.injEq] at h
      exact .inr ⟨hv, h.1⟩
  have hnew : Voted (s.react i net r) i req := voted_react.mpr (.inr ⟨rfl, le, log, by simp [hr]⟩)
  -- An earlier ballot of this member is of an earlier epoch, or it is this vote.
  have hold : ∀ req', Voted s i req' → req'.epoch < req.epoch ∨
      (req'.epoch = req.epoch ∧ req'.memberName = req.memberName) := by
    intro req' h
    obtain ⟨b, hb, hor⟩ := hs.cast i req' h
    rcases hallows b (by rw [hs.cached i p hp, hb]; rfl) with hlt | rfl
    · rcases hor with hor | rfl
      · exact .inl (by omega)
      · exact .inl hlt
    · rcases hor with hor | hor
      · exact .inl hor
      · exact .inr (by simpa [eq_comm] using hor)
  refine ⟨fun j q hq => ?_, fun v req' hv => ?_, fun v req₁ req₂ h₁ h₂ he => ?_,
    fun pkt hpkt req' response hmsg hg => ?_, fun j q c hq hc => ?_, fun j e log' h => ?_⟩
  · rcases s.react_member i net r j with ⟨rfl, hm⟩ | ⟨-, hm⟩ <;> rw [hm] at hq ⊢
    · cases hq
      rfl
    · exact hs.cached j q hq
  · rcases s.react_member i net r v with ⟨rfl, hm⟩ | ⟨hvi, hm⟩ <;> rw [hm]
    · refine ⟨_, rfl, ?_⟩
      rcases hvoted v req' hv with h | ⟨-, rfl⟩
      · rcases hold req' h with h | ⟨he, hn⟩
        · exact .inl h
        · exact .inr (by simp [he, hn])
      · exact .inr rfl
    · rcases hvoted v req' hv with h | ⟨h, -⟩
      · exact hs.cast v req' h
      · exact absurd h hvi
  · rcases hvoted v req₁ h₁ with ho₁ | ⟨rfl, rfl⟩ <;> rcases hvoted v req₂ h₂ with ho₂ | ⟨hv, rfl⟩
    · exact hs.single v req₁ req₂ ho₁ ho₂ he
    · rcases hold req₁ (hv ▸ ho₁) with h | h
      · omega
      · exact h.2
    · rcases hold req₂ ho₂ with h | h
      · omega
      · exact h.2.symm
    · rfl
  · rcases System.mem_react_net.mp hpkt with hpkt | hpkt
    · exact (hs.granted pkt (hnet pkt hpkt) req' response hmsg hg).mono
    · obtain ⟨hsrc, rfl⟩ := hout pkt hpkt req' response hmsg
      rw [hsrc]
      exact hnew
  · rcases s.react_member i net r j with ⟨rfl, hm⟩ | ⟨-, hm⟩ <;> rw [hm] at hq
    · cases hq
      rcases htask c hc with hc | ⟨hreq, hname, hlt, hpending, htally⟩
      · exact (hs.counted j p c hp hc).mono
      -- The fresh candidacy: one vote, the candidate's own.
      refine ⟨hreq ▸ hname, hreq ▸ hnew, ?_, [j], by simp, by simp [htally], ?_⟩
      · rw [hpending]
        exact ⟨nodup_range.filter _, fun v hv => by simp_all [Config.peers]⟩
      · intro v hv
        obtain rfl := mem_singleton.mp hv
        exact ⟨hlt, by simp [hpending, Config.peers], hreq ▸ hnew⟩
    · exact (hs.counted j q c hq hc).mono
  · rcases System.mem_react_obs.mp h with h | ⟨-, h⟩
    · exact (hs.elected j e log' h).mono
    · simp [hr] at h

theorem VotesOk.restart :
    VotesOk cfg (s.react i s.net (restart cfg i (s.member i))) := by
  refine hs.react_of rfl (fun p' hp' => ?_) (fun p' hp' c hc => ?_) (by simp [ReplicaSet.restart])
    (by simp [ReplicaSet.restart]) (by simp [ReplicaSet.restart]) fun _ h => h
  · cases hp'
    rfl
  · cases hp'
    simp only [boot] at hc
    split_ifs at hc

theorem VotesOk.count {v : Nat} {response : VoteResponse}
    (hp : (s.member i).proc = some p) (hc : p.task = .asking c) (hv : v ∈ c.pending)
    (hvoted : response.granted = true → Voted s v c.request) (hnet : ∀ pkt ∈ net, pkt ∈ s.net) :
    VotesOk cfg (s.react i net
      { member := (s.member i).withProc { p with task := .asking (c.count v response) } }) := by
  refine hs.react_of rfl (fun p' hp' => ?_) (fun p' hp' c' hc' => ?_) (by simp) (by simp) (by simp) hnet
  · cases hp'
    exact hs.cached i p hp
  · cases hp'
    obtain rfl := Task.asking.inj hc'
    exact (hs.counted i p c hp hc).count hv hvoted

theorem VotesOk.win (hp : (s.member i).proc = some p)
    (hc : p.task = .asking c) (htally : majority cfg.members ≤ c.tally)
    (hnet : ∀ pkt ∈ net, pkt ∈ s.net) :
    VotesOk cfg (s.react i net (promotion (s.member i) p c.request.epoch)) := by
  have hcounted := hs.counted i p c hp hc
  refine hs.react_of rfl (fun p' hp' => ?_) (fun p' hp' c' hc' => ?_) (by simp [promotion])
    (by simp [promotion]) (fun e log h => ?_) hnet
  · cases hp'
    exact hs.cached i p hp
  · cases hp'
    cases hc'
  · simp only [promotion, mem_singleton, Obs.promoted.injEq] at h
    exact ⟨c.request, hcounted.own, h.1.symm, hcounted.self, hcounted.majority htally⟩

end

end Steps

/-! ### Safety -/

/-- When a member votes for itself, its last ballot is of an earlier epoch. -/
def keepsVote (s : System) (l : Label) : Bool :=
  match l.event, (s.member l.who).proc with
  | .act (.selfBallot true), some p =>
    match p.task with
    | .proposed e => p.ballot.all (·.epoch < e)
    | _ => true
  | _, _ => true

theorem votesOk_init (cfg : Config) : VotesOk cfg (System.init cfg) where
  cached := by
    intro i p hp
    cases hp
    rfl
  cast := by simp [Voted, System.init]
  single := by simp [Voted, System.init]
  granted := by simp [System.init]
  counted := by
    intro i p c hp hc
    cases hp
    simp only [boot] at hc
    split_ifs at hc
  elected := by simp [System.init]

theorem VotesOk.act {a : Action} (hs : VotesOk cfg s) (hi : i < cfg.members) (hl : keepsVote s ⟨i, .act a⟩ = true)
    (hp : (s.member i).proc = some p) (h : Acts cfg i (s.member i) p a r) : VotesOk cfg (s.react i s.net r) := by
  by_cases hself : ∃ b, a = .selfBallot b
  · obtain ⟨b, rfl⟩ := hself
    cases h with
    | @stand epoch htask =>
      have hallows : Allows p.ballot (voteRequest i (s.member i) p epoch).epoch i := by
        intro b hb
        exact .inl (by simpa [keepsVote, hp, htask, Option.mem_def.mp hb, voteRequest] using hl)
      refine hs.castBallot hp hallows (fun _ h => h) (by simp) fun c hc => .inr ?_
      obtain rfl := Task.asking.inj hc
      exact ⟨rfl, rfl, hi, rfl, rfl⟩
    | cannotStand _ => exact hs.quiet hp (quiet_endSession (by rfl) (by rfl)) fun _ h => h
  · by_cases hconclude : ∃ b b', a = .conclude b b'
    · obtain ⟨b, b', rfl⟩ := hconclude
      cases h with
      | lose _ _ => exact hs.quiet hp (quiet_endSession (by rfl) (by rfl)) fun _ h => h
      | win htask htally _ => exact hs.win hp htask htally fun _ h => h
    · exact hs.quiet hp (h.quiet hp (fun b hb => hself ⟨b, hb⟩) fun b b' hb => hconclude ⟨b, b', hb⟩)
        fun _ h => h

theorem VotesOk.deliver {net : List Packet} {pkt : Packet} (hs : VotesOk cfg s) (hp : (s.member i).proc = some p)
    (hpkt : pkt ∈ s.net) (hnet : ∀ pkt ∈ net, pkt ∈ s.net) (h : Receives i (s.member i) p pkt.src pkt.msg r) :
    VotesOk cfg (s.react i net r) := by
  cases hmsg : pkt.msg with
  | voteRequest req =>
    rw [hmsg] at h
    cases h with
    | grant hdecide =>
      obtain ⟨-, -, -, hallows, -⟩ := decideVote_eq_some hdecide
      exact hs.castBallot hp hallows hnet (by simp +contextual) fun c hc => .inl hc
    | deny =>
      exact hs.react_of rfl (hs.cached i) (fun p' hp' c hc => hs.counted i p' c hp' hc)
        (by simp +contextual) (by simp) (by simp) hnet
  | voteResponse req response =>
    have hgranted := hs.granted pkt hpkt req response hmsg
    rw [hmsg] at h
    cases h with
    | count hc hreq hv =>
      subst hreq
      exact hs.count hp hc hv hgranted hnet
  | replicaHello | primaryHello | replFence | replHeartbeat | replBatch | replAck =>
    exact hs.quiet hp (h.quiet hp (by rw [hmsg]; rfl)) hnet

/-- **Step lemma.** -/
theorem VotesOk.step {s' : System} {l : Label} (hs : VotesOk cfg s) (hl : keepsVote s l = true)
    (h : step cfg s l = some s') : VotesOk cfg s' := by
  obtain ⟨i, event⟩ := l
  obtain ⟨net, r, hi, hcause, rfl⟩ := step_cases h
  have hnet := hcause.net_subset
  cases hcause with
  | restart _ => exact hs.restart
  | act hp hacts => exact hs.act hi hl hp hacts
  | deliver hp hpkt _ hreceives => exact hs.deliver hp (mem_of_getElem? hpkt) hnet hreceives

/-- The votes behind two promotions of one epoch come from two majorities, and the member in both
has voted once. -/
theorem VotesOk.elected_unique (hs : VotesOk cfg s) {j e : Nat} (hi : Elected cfg s i e) (hj : Elected cfg s j e) :
    i = j := by
  obtain ⟨req, rfl, rfl, -, hmaj⟩ := hi
  obtain ⟨req', rfl, he, -, hmaj'⟩ := hj
  obtain ⟨v, -, hv, hv'⟩ := hmaj.meet hmaj'
  exact hs.single v req req' hv hv' he.symm

/-- **Election safety.** In every run in which each candidate keeps its vote, an epoch has one
primary. -/
theorem one_primary_per_epoch (cfg : Config) {ls : List Label} {s : System}
    (hkeeps : Runs.Meets (step cfg) (fun s l => keepsVote s l = true) (System.init cfg) ls)
    (hrun : Runs.run (step cfg) (System.init cfg) ls = some s) {i j e : Nat} {log log' : List Entry}
    (hi : (i, .promoted e log) ∈ s.obs) (hj : (j, .promoted e log') ∈ s.obs) : i = j := by
  have hs : VotesOk cfg s :=
    Runs.run_invariant_of_meets (fun _ _ _ hs hl h => hs.step hl h) (votesOk_init cfg) hkeeps hrun
  exact hs.elected_unique (hs.elected i e log hi) (hs.elected j e log' hj)

/-! ### Two primaries -/

/-- Whether the member has been promoted in the epoch. -/
def System.hasPromoted (s : System) (i e : Nat) : Bool :=
  s.obs.any fun
    | (j, .promoted e' _) => i = j && e = e'
    | _ => false

theorem exists_of_hasPromoted {e : Nat} (h : s.hasPromoted i e = true) : ∃ log, (i, .promoted e log) ∈ s.obs := by
  obtain ⟨⟨j, o⟩, hmem, ho⟩ := any_eq_true.mp h
  cases o with
  | promoted e' log =>
    obtain ⟨rfl, rfl⟩ : i = j ∧ e = e' := by simpa using ho
    exact ⟨log, hmem⟩
  | _ => cases ho

/-- Three members, all configured as replicas, without semi-synchronous commits. -/
def threeReplicas : Config := ⟨3, fun _ => false, none⟩

/-- A message arrives at a member that hears no primary and can persist its ballot. -/
def arrives (k : Nat) : Event := .deliver k ⟨false, true, none⟩

/-- Member 1 stands in epoch 2, member 0 votes for it, and it wins. -/
def electOne : List Label :=
  [⟨1, .act .nextEpoch⟩, ⟨1, .act (.selfBallot true)⟩, ⟨0, arrives 0⟩, ⟨1, arrives 1⟩,
    ⟨1, .act (.conclude true true)⟩]

/-- Member 0 has read the epoch to stand in before it votes for member 1 in that epoch; then it
votes for itself and wins with the vote of member 2. -/
def electBoth : List Label :=
  ⟨0, .act .nextEpoch⟩ :: electOne ++
    [⟨0, .act (.selfBallot true)⟩, ⟨2, arrives 2⟩, ⟨0, arrives 2⟩, ⟨0, .act (.conclude true true)⟩]

/-- Both are primaries of epoch 2. -/
theorem two_primaries_in_epoch_two : ∃ s log log',
    Runs.run (step threeReplicas) (System.init threeReplicas) electBoth = some s ∧
      (0, .promoted 2 log) ∈ s.obs ∧ (1, .promoted 2 log') ∈ s.obs := by
  obtain ⟨s, hs, h0, h1⟩ : ∃ s ∈ Runs.run (step threeReplicas) (System.init threeReplicas) electBoth,
      s.hasPromoted 0 2 ∧ s.hasPromoted 1 2 := by
    decide +kernel
  obtain ⟨log, h0⟩ := exists_of_hasPromoted h0
  obtain ⟨log', h1⟩ := exists_of_hasPromoted h1
  exact ⟨s, log, log', hs, h0, h1⟩

/-- Without the vote in between, member 1 is the one primary of epoch 2. -/
theorem one_primary_per_epoch_electOne : ∃ s log,
    Runs.run (step threeReplicas) (System.init threeReplicas) electOne = some s ∧
      (1, .promoted 2 log) ∈ s.obs ∧ ∀ j log', (j, .promoted 2 log') ∈ s.obs → j = 1 := by
  have hkeeps : Runs.Meets (step threeReplicas) (fun s l => keepsVote s l = true)
      (System.init threeReplicas) electOne := by
    decide +kernel
  obtain ⟨s, hs, h1⟩ : ∃ s ∈ Runs.run (step threeReplicas) (System.init threeReplicas) electOne, s.hasPromoted 1 2 := by
    decide +kernel
  obtain ⟨log, h1⟩ := exists_of_hasPromoted h1
  exact ⟨s, log, hs, h1, fun j log' hj => one_primary_per_epoch threeReplicas hkeeps hs hj h1⟩

end Fluxum.ReplicaSet
