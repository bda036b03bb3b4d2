/-
# Log matching

A primary accepts a replica by numbers: the replica's epoch is not above its
own and the replica's last transaction is not beyond its last. Which records
those numbers stand for nobody compares. An old primary whose last commits
reached nobody comes back with them, and if the new primary has committed as
many transactions since, it is accepted and streamed to from there.

* `records_only_added`: in every run a member's records are numbered without a
  gap, and none is ever changed or taken back.
* `partial_sync_matches`: who is accepted has the primary's records, in runs in
  which the members that are up stay together.
* `diverged_replica_accepted`: an old primary that is accepted with its own.
* `records_never_diverge`: where a primary never commits while anybody has a
  record that it lacks, the records of any two members agree.
-/
import Fluxum.Lib.Comparable
import Fluxum.ReplicaSet.Fencing

namespace Fluxum.ReplicaSet

open List

/-- The transactions a member's store holds, oldest first. -/
def Member.records (m : Member) : List TxRecord := m.history.map (·.record)

theorem headTx_le (m : Member) : m.headTx ≤ m.history.length := by
  simp only [Member.headTx]
  split_ifs <;> omega

@[simp] theorem length_records (m : Member) : m.records.length = m.history.length := length_map _

/-- Record `k` has transaction id `k + 1`. -/
def Numbered (records : List TxRecord) : Prop := ∀ k t, records[k]? = some t → t.txId = k + 1

theorem Numbered.of_le {records log : List TxRecord} (h : Numbered log) (hle : records <+: log) : Numbered records := by
  intro k t hk
  obtain ⟨rest, rfl⟩ := hle
  exact h k t (by rw [List.getElem?_append_left (List.getElem?_eq_some_iff.mp hk).1, hk])

theorem Numbered.append {records : List TxRecord} (h : Numbered records) {t : TxRecord}
    (htx : t.txId = records.length + 1) : Numbered (records ++ [t]) := by
  intro k u hk
  rcases Nat.lt_or_ge k records.length with hlt | hge
  · rw [getElem?_append_left hlt] at hk
    exact h k u hk
  rw [getElem?_append_right hge, getElem?_singleton] at hk
  split_ifs at hk with hzero
  cases hk
  omega

/-! ### Frames of a batch -/

theorem applyFrame_records (m : Member) (p : Proc) (f : Entry) :
    ((applyFrame m p f).2.2 = false ∧ (applyFrame m p f).1.records = m.records) ∨
      ((applyFrame m p f).2.2 = true ∧ f.record.txId = m.records.length + 1 ∧
        (applyFrame m p f).1.records = m.records ++ [f.record]) := by
  by_cases hnext : f.record.txId = m.history.length + 1
  · exact .inr (by simp [applyFrame, hnext, Member.records])
  · exact .inl (by simp [applyFrame, hnext, Member.records])

/-- What holds of the records and is kept by the next one holds after a batch. -/
theorem applyFrames_invariant {I : List TxRecord → Prop} (frames : List Entry) :
    ∀ (m : Member) (p : Proc), (∀ f ∈ frames, ∀ records, I records → f.record.txId = records.length + 1 →
      I (records ++ [f.record])) → I m.records → I (applyFrames m p frames).1.records := by
  induction frames with
  | nil => exact fun m p _ hI => hI
  | cons f frames ih =>
    intro m p hkeep hI
    rcases hf : applyFrame m p f with ⟨m', p', ok⟩
    rcases applyFrame_records m p f with ⟨hok, hrec⟩ | ⟨hok, htx, hrec⟩ <;> simp only [hf] at hok hrec <;> subst hok <;>
      simp only [applyFrames, hf]
    · exact hrec ▸ hI
    · refine ih m' p' (fun g hg => hkeep g (mem_cons_of_mem _ hg)) ?_
      exact hrec ▸ hkeep f (by simp) _ hI htx

theorem applyFrames_numbered (frames : List Entry) {m : Member} (p : Proc) (hm : Numbered m.records) :
    m.records <+: (applyFrames m p frames).1.records ∧ Numbered (applyFrames m p frames).1.records :=
  applyFrames_invariant (I := fun records => m.records <+: records ∧ Numbered records) frames m p
    (fun _ _ _ hI htx => ⟨hI.1.trans (prefix_append _ _), hI.2.append htx⟩) ⟨prefix_rfl, hm⟩

variable {log : List TxRecord}

/-- A record of a log goes on with a beginning of the log that it is next to. -/
theorem Numbered.append_le (hlog : Numbered log) {records : List TxRecord} {t : TxRecord} (ht : t ∈ log)
    (htx : t.txId = records.length + 1) (hcomp : Comparable records log) : records ++ [t] <+: log := by
  obtain ⟨k, hk⟩ := mem_iff_getElem?.mp ht
  obtain rfl : k = records.length := by
    have := hlog k t hk
    omega
  have hlt := (List.getElem?_eq_some_iff.mp hk).1
  exact Comparable.append_getElem_le (hcomp.le_of_length hlt.le) hk

/-- The records of a member after a batch of frames from a log they agree with: no frame applied,
or they are a beginning of that log. -/
theorem applyFrames_le (hlog : Numbered log) (frames : List Entry) (m : Member) (p : Proc)
    (hframes : ∀ f ∈ frames, f.record ∈ log) (hcomp : Comparable m.records log) :
    ((applyFrames m p frames).1.records = m.records ∨ (applyFrames m p frames).1.records <+: log) ∧
      ((applyFrames m p frames).2.2 = true → frames ≠ [] → (applyFrames m p frames).1.records <+: log) := by
  refine ⟨applyFrames_invariant (I := fun records => records = m.records ∨ records <+: log) frames m p
    (fun f hf records hI htx => .inr ?_) (.inl rfl), ?_⟩
  · refine hlog.append_le (hframes f hf) htx ?_
    rcases hI with rfl | hle
    · exact hcomp
    · exact .inl hle
  · intro hok hne
    obtain ⟨f, frames, rfl⟩ := exists_cons_of_ne_nil hne
    -- The first frame applied, and the others go on from there.
    rcases hf : applyFrame m p f with ⟨m', p', ok⟩
    rcases applyFrame_records m p f with ⟨hok', -⟩ | ⟨hok', htx, hrec⟩ <;> simp only [hf] at hok' <;> subst hok' <;>
      simp only [applyFrames, hf] at hok ⊢
    · cases hok
    rw [hf] at hrec
    refine applyFrames_invariant (I := (· <+: log)) frames m' p' (fun g hg records hI htx' => ?_) ?_
    · exact hlog.append_le (hframes g (mem_cons_of_mem _ hg)) htx' (.inl hI)
    · exact hrec ▸ hlog.append_le (hframes f (by simp)) htx hcomp

/-! ### Records are only added -/

variable {cfg : Config} {i : Nat} {m : Member} {p : Proc} {r : Reaction} {s : System} {net : List Packet}
variable {s' : System} {full : Bool}

/-- What a message says of its sender's records is so. -/
def Msg.TellsOf (records : List TxRecord) : Msg → Prop
  | .replicaHello _ _ n => n ≤ records.length
  | .primaryHello _ _ _ (some checkpoint) => checkpoint.map (·.record) <+: records
  | .replBatch _ _ _ frames => ∀ f ∈ frames, f.record ∈ records
  | _ => True

theorem Msg.TellsOf.mono {log' : List TxRecord} : ∀ {msg : Msg}, msg.TellsOf log → log <+: log' → msg.TellsOf log'
  | .replicaHello _ _ _, h, hle => Nat.le_trans h hle.length_le
  | .primaryHello _ _ _ (some _), h, hle => IsPrefix.trans h hle
  | .primaryHello _ _ _ none, _, _ => trivial
  | .replBatch _ _ _ _, h, hle => fun f hf => hle.subset (h f hf)
  | .voteRequest _, _, _ | .voteResponse _ _, _, _ | .replFence _ _, _, _ | .replHeartbeat _ _, _, _ | .replAck _ _, _, _ => trivial

theorem Sends.tellsOf (h : Sends i m r) {pkt : Packet} (hpkt : pkt ∈ r.out) : pkt.msg.TellsOf m.records := by
  cases hmsg : pkt.msg with
  | replicaHello conn epoch n =>
    obtain rfl := h.hello pkt hpkt conn epoch n hmsg
    exact (headTx_le m).trans_eq (length_records m).symm
  | primaryHello conn epoch n checkpoint =>
    cases checkpoint with
    | none => trivial
    | some records =>
      obtain ⟨rfl, -⟩ := h.checkpoint pkt hpkt conn epoch n records hmsg
      exact ( take_prefix _ _).map _
  | replBatch conn epoch start frames =>
    have hsub := (h.batch pkt hpkt conn epoch start frames hmsg).2.subset
    exact fun f hf => mem_map_of_mem (mem_of_mem_drop (hsub hf))
  | _ => trivial

/-- The records of every member are numbered without a gap, and what is on its way tells of them. -/
structure RecordsOk (s : System) : Prop where
  numbered : ∀ i, Numbered (s.member i).records
  mail : ∀ pkt ∈ s.net, pkt.msg.TellsOf (s.member pkt.src).records

theorem Acts.records {a : Action} (h : Acts cfg i m p a r) :
    (∃ record, a = .commit record ∧ record.txId = m.records.length + 1 ∧
      r.member.records = m.records ++ [record]) ∨ r.member.records = m.records := by
  cases h with
  | @commit record _ htx =>
    exact .inl ⟨record, rfl, by simpa using htx, by simp [Member.records]⟩
  | _ => exact .inr rfl

theorem Receives.numbered {src : Nat} {msg : Msg} (h : Receives i m p src msg r) (hm : Numbered m.records)
    (hlog : Numbered log) (hmsg : msg.TellsOf log) : m.records <+: r.member.records ∧ Numbered r.member.records := by
  cases h with
  | installed _ _ hempty => exact ⟨by simp [Member.records, hempty], hlog.of_le hmsg⟩
  | @batch _ _ _ frames _ _ _ _ _ _ happly | @batchFails _ _ _ frames _ _ _ _ _ _ happly =>
    have hframes := applyFrames_numbered frames p hm
    rw [happly] at hframes
    exact hframes
  | _ => exact ⟨prefix_rfl, hm⟩

theorem Cause.sends {event : Event} (h : Cause cfg s i event net r) : Sends i (s.member i) r := by
  cases h with
  | restart _ => exact sends_nothing rfl
  | act _ hacts => exact hacts.sends
  | deliver _ _ _ hreceives => exact hreceives.sends

theorem RecordsOk.cause {event : Event} (hs : RecordsOk s) (h : Cause cfg s i event net r) :
    (s.member i).records <+: r.member.records ∧ Numbered r.member.records := by
  have hm := hs.numbered i
  cases h with
  | restart _ => exact ⟨prefix_rfl, hm⟩
  | act hp hacts =>
    rcases hacts.records with ⟨record, -, htx, hrecords⟩ | hrecords <;> rw [hrecords]
    · exact ⟨prefix_append _ _, hm.append htx⟩
    · exact ⟨prefix_rfl, hm⟩
  | deliver hp hpkt _ hreceives => exact hreceives.numbered hm (hs.numbered _) (hs.mail _ (mem_of_getElem? hpkt))

theorem records_le_react (net : List Packet) (hgrow : (s.member i).records <+: r.member.records) (j : Nat) :
    (s.member j).records <+: ((s.react i net r).member j).records := by
  rcases s.react_member i net r j with ⟨rfl, hm⟩ | ⟨-, hm⟩ <;> rw [hm]
  · exact hgrow

/-- **Step lemma.** -/
theorem RecordsOk.step {l : Label} (hs : RecordsOk s) (h : step cfg s l = some s') :
    RecordsOk s' ∧ ∀ i, (s.member i).records <+: (s'.member i).records := by
  obtain ⟨net, r, -, hcause, rfl⟩ := step_cases h
  obtain ⟨hgrow, hnum⟩ := hs.cause hcause
  have hle := records_le_react net hgrow
  refine ⟨⟨fun j => ?_, fun pkt hpkt => .mono ?_ (hle pkt.src)⟩, hle⟩
  · rcases s.react_member l.who net r j with ⟨rfl, hm⟩ | ⟨-, hm⟩ <;> rw [hm]
    · exact hnum
    · exact hs.numbered j
  · rcases System.mem_react_net.mp hpkt with hpkt | hpkt
    · exact hs.mail pkt (hcause.net_subset pkt hpkt)
    · rw [hcause.sends.src pkt hpkt]
      exact hcause.sends.tellsOf hpkt

theorem recordsOk_init (cfg : Config) : RecordsOk (System.init cfg) where
  numbered := by
    intro i k t hk
    cases hk
  mail := by simp [System.init]

/-- Whether a member counts: one that is up does, one that is down if `down` says so. -/
def Member.counts (m : Member) (down : Bool) : Bool := down || m.proc.isSome

/-- The records of the member agree with those of every member that counts. -/
def Agrees (down : Bool) (s : System) (i : Nat) : Prop :=
  ∀ j, (s.member j).counts down = true → Comparable (s.member i).records (s.member j).records

variable {down : Bool}

/-- The records of any two members that count agree as far as both go. -/
structure LogsOk (down : Bool) (s : System) : Prop where
  records : RecordsOk s
  agree : ∀ i, (s.member i).counts down = true → Agrees down s i

theorem LogsOk.react (hs : LogsOk down s) (hrecords : RecordsOk (s.react i net r))
    (hcomp : ∀ j ≠ i, (s.member j).counts down = true → Comparable r.member.records (s.member j).records) :
    LogsOk down (s.react i net r) := by
  refine ⟨hrecords, fun j hj k hk => ?_⟩
  rcases s.react_member i net r j with ⟨-, hmj⟩ | ⟨hne, hmj⟩ <;>
    rcases s.react_member i net r k with ⟨-, hmk⟩ | ⟨hne', hmk⟩ <;> rw [hmj] at hj ⊢ <;> rw [hmk] at hk ⊢
  · exact .inl prefix_rfl
  · exact hcomp k hne' hk
  · exact (hcomp j hne hj).symm
  · exact hs.agree j hj k hk

/-! ### Steps -/

theorem Receives.records {src : Nat} {msg : Msg} (h : Receives i m p src msg r)
    (hlog : Numbered log) (hmsg : msg.TellsOf log) (hcomp : msg.electoral = false → Comparable m.records log) :
    r.member.records = m.records ∨ msg.electoral = false ∧ r.member.records <+: log := by
  cases h with
  | installed _ _ hempty => exact .inr ⟨rfl, hmsg⟩
  | @batch _ _ _ frames _ _ _ _ _ _ happly | @batchFails _ _ _ frames _ _ _ _ _ _ happly =>
    have hor := (applyFrames_le hlog frames m p hmsg (hcomp rfl)).1
    rw [happly] at hor
    exact hor.imp_right (⟨rfl, ·⟩)
  | _ => exact .inl rfl

/-- The members that count stay together: a primary commits while none of them has a record that it
lacks, and a member that does not count comes back, or is heard of, only while its records agree with
theirs. -/
structure StayTogether (down : Bool) (s : System) (l : Label) : Prop where
  commit : ∀ record, l.event = .act (.commit record) → ∀ j, (s.member j).counts down = true →
    (s.member j).records <+: (s.member l.who).records
  back : l.event = .restart → (s.member l.who).counts down = false → Agrees down s l.who
  mail : ∀ k choice pkt, l.event = .deliver k choice → s.net[k]? = some pkt → pkt.msg.electoral = false →
    (s.member pkt.src).counts down = false → Agrees down s pkt.src

theorem logsOk_init (cfg : Config) : LogsOk down (System.init cfg) where
  records := recordsOk_init cfg
  agree _ _ _ _ := .inl prefix_rfl

theorem LogsOk.agrees (hs : LogsOk down s) (h : (s.member i).counts down = false → Agrees down s i) :
    Agrees down s i := by
  cases hi : (s.member i).counts down with
  | true => exact hs.agree i hi
  | false => exact h hi

theorem counts_of_some (hp : m.proc = some p) : m.counts down = true := by simp [Member.counts, hp]

/-- **Step lemma.** -/
theorem LogsOk.step {l : Label} (hs : LogsOk down s) (hl : StayTogether down s l)
    (h : step cfg s l = some s') : LogsOk down s' := by
  have hrecords := (hs.records.step h).1
  obtain ⟨i, event⟩ := l
  obtain ⟨net, r, -, hcause, rfl⟩ := step_cases h
  refine hs.react hrecords fun j _ hj => ?_
  cases hcause with
  | restart _ => exact hs.agrees (hl.back rfl) j hj
  | act hp hacts =>
    rcases hacts.records with ⟨record, rfl, htx, hrecords⟩ | hrecords <;> rw [hrecords]
    · exact .inr ((hl.commit record rfl j hj).trans (prefix_append _ _))
    · exact hs.agree i (counts_of_some hp) j hj
  | @deliver p k choice pkt _ hp hpkt _ hreceives =>
    have hi : (s.member i).counts down = true := counts_of_some hp
    have hsrc := fun hmsg => hs.agrees (hl.mail k choice pkt rfl hpkt hmsg)
    rcases hreceives.records (hs.records.numbered pkt.src) (hs.records.mail pkt (mem_of_getElem? hpkt))
      (fun hmsg => (hsrc hmsg i hi).symm) with hsame | ⟨hmsg, hle⟩
    · rw [hsame]
      exact hs.agree i hi j hj
    · exact (hsrc hmsg j hj).of_le hle

/-! ### Matching -/

/-- The replica's session with the primary, up to where its stream has been read. -/
def Member.streamsFrom (m : Member) (primary received : Nat) : Prop :=
  ∃ p f, m.proc = some p ∧ p.task = .following (some f) ∧ f.primary = primary ∧
    f.phase = .streaming received

theorem Acts.accepted_notMem {a : Action} (h : Acts cfg i m p a r) {replica n : Nat} :
    .accepted replica n full ∉ r.obs := by
  cases h with
  | stand _ => simp [standing]
  | win _ _ _ => simp [promotion]
  | commit | barrierFenced | barrierOk => simp
  | turnOk | turnFenced | timeout => simp [release]
  | _ => exact not_mem_nil

theorem Receives.accepted {src : Nat} {msg : Msg} (h : Receives i m p src msg r) {replica n : Nat}
    (hmem : .accepted replica n full ∈ r.obs) :
    replica = src ∧ n ≤ m.headTx ∧ ∃ conn epoch, msg = .replicaHello conn epoch n := by
  cases h with
  | grant _ => simp at hmem
  | accept _ _ hn _ =>
    simp only [openSession, mem_singleton, Obs.accepted.injEq] at hmem
    obtain ⟨rfl, rfl, -⟩ := hmem
    exact ⟨rfl, hn, _, _, rfl⟩
  | _ => exact absurd hmem not_mem_nil

/-- A session is accepted only of a replica that has the primary's records, as far as its hello
goes. -/
theorem LogsOk.accepted {l : Label} (hs : LogsOk down s) (hl : StayTogether down s l)
    (hstep : ReplicaSet.step cfg s l = some s')
    {primary replica n : Nat} (hobs : (primary, .accepted replica n full) ∈ s.newObs s') :
    n ≤ (s.member replica).records.length ∧
      (s.member replica).records.take n = (s.member primary).records.take n := by
  obtain ⟨i, event⟩ := l
  obtain ⟨net, r, -, hcause, rfl⟩ := step_cases hstep
  rw [System.newObs_react] at hobs
  obtain ⟨o, ho, heq⟩ := mem_map.mp hobs
  cases heq
  cases hcause with
  | restart _ => exact absurd ho not_mem_nil
  | act _ hacts => exact absurd ho hacts.accepted_notMem
  | @deliver p k choice pkt _ hp hpkt _ hreceives =>
    obtain ⟨rfl, hn, conn, epoch, hmsg⟩ := hreceives.accepted ho
    have hreplica := hs.records.mail pkt (mem_of_getElem? hpkt)
    rw [hmsg] at hreplica
    have hagree := hs.agrees (hl.mail k choice pkt rfl hpkt (by rw [hmsg]; rfl)) i (counts_of_some hp)
    exact ⟨hreplica, hagree.take_eq hreplica (hn.trans (by simpa using headTx_le _))⟩

/-- After a batch that applied, the replica's records are a beginning of the primary's. -/
theorem LogsOk.batch_applied {k conn epoch start : Nat} {choice : Choice} {pkt : Packet}
    {frames : List Entry} (hs : LogsOk down s) (hl : StayTogether down s ⟨pkt.dst, .deliver k choice⟩)
    (hstep : ReplicaSet.step cfg s ⟨pkt.dst, .deliver k choice⟩ = some s')
    (hpkt : s.net[k]? = some pkt) (hmsg : pkt.msg = .replBatch conn epoch start frames) (hne : frames ≠ [])
    (hstreams : (s'.member pkt.dst).streamsFrom pkt.src (start + frames.length)) :
    (s'.member pkt.dst).records <+: (s'.member pkt.src).records := by
  have hagree := hs.agrees (hl.mail k choice pkt rfl hpkt (by rw [hmsg]; rfl)) pkt.dst
  have htells := hs.records.mail pkt (mem_of_getElem? hpkt)
  rw [hmsg] at htells
  obtain ⟨net, r, -, hcause, rfl⟩ := step_cases hstep
  by_cases hsrc : pkt.src = pkt.dst
  · rw [hsrc]
  rw [System.react_member_ne hsrc]
  simp only [System.react_member_self] at hstreams ⊢
  cases hcause with
  | @deliver p _ _ pkt' _ hp hpkt' _ hreceives =>
    cases hpkt.symm.trans hpkt'
    rw [hmsg] at hreceives
    obtain ⟨q, f, hq, htask, -, -⟩ := hstreams
    cases hreceives with
    | staleBatch | batchFails =>
      cases hq
      cases htask
    | batch _ _ _ happly =>
      have hall := (applyFrames_le (hs.records.numbered pkt.src) frames (s.member pkt.dst) p htells
        (hagree (counts_of_some hp)).symm).2
      rw [happly] at hall
      exact hall rfl hne

/-- **Log matching.** In every run in which the members that are up stay together: a replica that is
accepted for a partial sync after transaction `n` has the primary's records up to `n`, and a replica
that has applied a batch has a beginning of the primary's records. -/
theorem partial_sync_matches (cfg : Config) {ls : List Label} {s s' : System} {l : Label}
    (htogether : Runs.Meets (step cfg) (StayTogether false) (System.init cfg) ls)
    (hrun : Runs.run (step cfg) (System.init cfg) ls = some s)
    (hl : StayTogether false s l) (hstep : step cfg s l = some s') :
    (∀ primary replica n, (primary, .accepted replica n false) ∈ s.newObs s' →
      n ≤ (s.member replica).records.length ∧
        (s.member replica).records.take n = (s.member primary).records.take n) ∧
    (∀ k choice pkt conn epoch start frames, l = ⟨pkt.dst, .deliver k choice⟩ → s.net[k]? = some pkt →
      pkt.msg = .replBatch conn epoch start frames → frames ≠ [] →
      (s'.member pkt.dst).streamsFrom pkt.src (start + frames.length) →
      (s'.member pkt.dst).records <+: (s'.member pkt.src).records) := by
  have hs : LogsOk false s :=
    Runs.run_invariant_of_meets (fun _ _ _ hs hl h => hs.step hl h) (logsOk_init cfg) htogether hrun
  refine ⟨fun primary replica n hobs => hs.accepted hl hstep hobs, ?_⟩
  rintro k choice pkt conn epoch start frames rfl hpkt hmsg hne hstreams
  exact hs.batch_applied hl hstep hpkt hmsg hne hstreams

/-! ### A diverged log is accepted -/

/-- Whether a partial sync has been accepted between two states. -/
def System.acceptedPartial (s s' : System) (primary replica n : Nat) : Bool :=
  (s.newObs s').any fun
    | (j, .accepted r k false) => primary = j && replica = r && n = k
    | _ => false

theorem mem_of_acceptedPartial {s s' : System} {primary replica n : Nat}
    (h : s.acceptedPartial s' primary replica n = true) :
    (primary, .accepted replica n false) ∈ s.newObs s' := by
  obtain ⟨⟨j, o⟩, hmem, ho⟩ := any_eq_true.mp h
  cases o with
  | accepted r k full =>
    cases full with
    | true => cases ho
    | false =>
      obtain ⟨⟨rfl, rfl⟩, rfl⟩ : (primary = j ∧ replica = r) ∧ n = k := by simpa using ho
      exact hmem
  | _ => cases ho

/-- A transaction with a timestamp to tell it by. -/
def recordAt (txId : Nat) (timestamp : Int) : TxRecord := ⟨txId, timestamp, 0, [], [], [], "set"⟩

/-- Member 0 commits a transaction that reaches nobody. Member 1 wins epoch 2 and commits its own
first transaction. Member 2 brings the new epoch to member 0, which steps down and turns to
member 1. -/
def divergedRejoins : List Label :=
  [⟨0, .act (.commit (recordAt 1 10))⟩,
    ⟨1, .act .nextEpoch⟩, ⟨1, .act (.selfBallot true)⟩, ⟨2, arrives 1⟩, ⟨1, arrives 1⟩,
    ⟨1, .act (.conclude true true)⟩, ⟨1, .act (.commit (recordAt 1 20))⟩,
    ⟨2, .act (.connect 1)⟩, ⟨1, arrives 1⟩, ⟨2, arrives 1⟩, ⟨2, .act .endSession⟩,
    ⟨2, .act (.connect 0)⟩, ⟨0, arrives 1⟩, ⟨0, .act .demote⟩, ⟨0, .act (.connect 1)⟩]

/-- Member 1 accepts member 0 for a partial sync after transaction 1, and transaction 1 of the one
is not that of the other. -/
theorem diverged_replica_accepted : ∃ s s',
    Runs.run (step threeMembers) (System.init threeMembers) divergedRejoins = some s ∧
      step threeMembers s ⟨1, arrives 2⟩ = some s' ∧ (1, .accepted 0 1 false) ∈ s.newObs s' ∧
      ((s.member 0).records.take 1).map (·.timestamp) = [10] ∧
      ((s.member 1).records.take 1).map (·.timestamp) = [20] := by
  obtain ⟨s, hs, s', hs', hacc, hstamps⟩ : ∃ s ∈ Runs.run (step threeMembers) (System.init threeMembers) divergedRejoins,
      ∃ s' ∈ step threeMembers s ⟨1, arrives 2⟩, s.acceptedPartial s' 1 0 1 ∧
        ((s.member 0).records.take 1).map (·.timestamp) = [10] ∧
        ((s.member 1).records.take 1).map (·.timestamp) = [20] := by
    decide +kernel
  exact ⟨s, s', hs, hs', mem_of_acceptedPartial hacc, hstamps⟩

/-- Member 0 commits a transaction that reaches nobody and goes down for good. Member 1 wins epoch 2,
commits its own first transaction and streams it to member 2, whose session ends and begins again. -/
def failsOver : List Label :=
  [⟨0, .act (.commit (recordAt 1 10))⟩, ⟨0, .act .crash⟩,
    ⟨1, .act .nextEpoch⟩, ⟨1, .act (.selfBallot true)⟩, ⟨2, arrives 1⟩, ⟨1, arrives 1⟩,
    ⟨1, .act (.conclude true true)⟩, ⟨1, .act (.commit (recordAt 1 20))⟩,
    ⟨2, .act (.connect 1)⟩, ⟨1, arrives 1⟩, ⟨2, arrives 1⟩, ⟨1, .act (.stream 2 1)⟩, ⟨2, arrives 1⟩,
    ⟨2, .act .endSession⟩, ⟨2, .act (.connect 1)⟩]

/-- Only members have records. -/
def NobodyElse (cfg : Config) (s : System) : Prop := ∀ j, cfg.members ≤ j → (s.member j).records = []

theorem NobodyElse.step {l : Label} (hs : NobodyElse cfg s) (h : step cfg s l = some s') : NobodyElse cfg s' := by
  obtain ⟨net, r, hi, -, rfl⟩ := step_cases h
  intro j hj
  rw [System.react_member_ne (by omega)]
  exact hs j hj

/-- Enough for `StayTogether`, to be evaluated: commits find the members that are up without records,
nobody comes back, and only members that are up are heard of. -/
def checksTogether (cfg : Config) (s : System) (l : Label) : Bool :=
  match l.event with
  | .act (.commit _) => (List.range cfg.members).all fun j =>
    (s.member j).proc.isNone || (s.member j).records.isEmpty
  | .restart => false
  | .deliver k _ => s.net[k]?.all fun pkt => (s.member pkt.src).proc.isSome
  | _ => true

theorem stayTogether_of_checks {l : Label} (hs : NobodyElse cfg s) (h : checksTogether cfg s l = true) : StayTogether false s l := by
  obtain ⟨i, event⟩ := l
  refine ⟨?_, ?_, ?_⟩
  · rintro record rfl j hj
    rcases Nat.lt_or_ge j cfg.members with hlt | hge
    · have hup : ((s.member j).proc.isNone || (s.member j).records.isEmpty) = true :=
        all_eq_true.mp h j (mem_range.mpr hlt)
      have hempty : (s.member j).records = [] := by
        obtain ⟨p, hp⟩ := Option.isSome_iff_exists.mp hj
        simpa [hp] using hup
      exact hempty ▸ nil_prefix
    · exact hs j hge ▸ nil_prefix
  · rintro rfl
    cases h
  · rintro k choice pkt rfl hpkt - hdown
    simp_all [checksTogether, Member.counts]

theorem stayTogether_failsOver :
    Runs.Meets (step threeMembers) (StayTogether false) (System.init threeMembers) failsOver := by
  exact Runs.Meets.imp_of_invariant (C := fun s l => checksTogether threeMembers s l = true) (I := NobodyElse threeMembers)
    (fun _ _ _ hs h => hs.step h) (fun s l hs => stayTogether_of_checks hs) (fun j _ => rfl) (by decide +kernel)

/-- Accepted again, member 2 has the record of member 1. -/
theorem partial_sync_matches_failsOver : ∃ s s',
    Runs.run (step threeMembers) (System.init threeMembers) failsOver = some s ∧
      step threeMembers s ⟨1, arrives 1⟩ = some s' ∧ (1, .accepted 2 1 false) ∈ s.newObs s' ∧
      1 ≤ (s.member 2).records.length ∧
      (s.member 2).records.take 1 = (s.member 1).records.take 1 := by
  obtain ⟨s, hs, s', hs', hacc, hchecks⟩ : ∃ s ∈ Runs.run (step threeMembers) (System.init threeMembers) failsOver,
      ∃ s' ∈ step threeMembers s ⟨1, arrives 1⟩, s.acceptedPartial s' 1 2 1 ∧
        checksTogether threeMembers s ⟨1, arrives 1⟩ = true := by
    decide +kernel
  have hmem := mem_of_acceptedPartial hacc
  have hout : NobodyElse threeMembers s := Runs.run_invariant (fun _ _ _ hs h => hs.step h) (fun j _ => rfl) hs
  exact ⟨s, s', hs, hs', hmem, (partial_sync_matches threeMembers stayTogether_failsOver hs
    (stayTogether_of_checks hout hchecks) hs').1 1 2 1 hmem⟩

/-! ### Nobody behind -/

/-- A primary commits while no member has a record that it lacks. -/
def CommitsAhead (s : System) (l : Label) : Prop :=
  ∀ record, l.event = .act (.commit record) → ∀ j, (s.member j).records <+: (s.member l.who).records

theorem CommitsAhead.stayTogether {l : Label} (h : CommitsAhead s l) : StayTogether true s l where
  commit := fun record hl j _ => h record hl j
  back := by simp [Member.counts]
  mail := by simp [Member.counts]

/-- **No divergence.** Of any two members' records the one is a beginning of the other. -/
theorem records_never_diverge (cfg : Config) {ls : List Label} {s : System}
    (hahead : Runs.Meets (step cfg) CommitsAhead (System.init cfg) ls)
    (hrun : Runs.run (step cfg) (System.init cfg) ls = some s) (i j : Nat) :
    (s.member i).records <+: (s.member j).records ∨ (s.member j).records <+: (s.member i).records := by
  have hs : LogsOk true s := Runs.run_invariant_of_meets (fun _ _ _ hs hl h => hs.step hl h) (logsOk_init cfg)
    (hahead.imp fun _ _ => CommitsAhead.stayTogether) hrun
  exact hs.agree i rfl j rfl

/-- Member 0 commits a transaction and streams it to member 1, whose session ends and begins
again. -/
def replicaReturns : List Label :=
  [⟨0, .act (.commit (recordAt 1 10))⟩, ⟨1, .act (.connect 0)⟩, ⟨0, arrives 0⟩, ⟨1, arrives 0⟩,
    ⟨0, .act (.stream 1 1)⟩, ⟨1, arrives 0⟩, ⟨1, .act .endSession⟩, ⟨1, .act (.connect 0)⟩]

theorem records_never_diverge_replicaReturns : ∃ s,
    Runs.run (step threeMembers) (System.init threeMembers) replicaReturns = some s ∧
      (s.member 0).records.length = 1 ∧ (s.member 1).records.length = 1 ∧
      ((s.member 0).records <+: (s.member 1).records ∨ (s.member 1).records <+: (s.member 0).records) := by
  obtain ⟨s, hs, h0, h1⟩ : ∃ s ∈ Runs.run (step threeMembers) (System.init threeMembers) replicaReturns,
      (s.member 0).records.length = 1 ∧ (s.member 1).records.length = 1 := by
    decide +kernel
  -- The first step is the only commit.
  have hno : ∀ l ∈ replicaReturns.tail, ∀ record, l.event ≠ .act (.commit record) := by
    simp [replicaReturns, arrives]
  have hahead : Runs.Meets (step threeMembers) CommitsAhead (System.init threeMembers) replicaReturns :=
    ⟨fun _ _ j => nil_prefix, fun s _ =>
      (Runs.meets_of_forall hno).imp fun s l h record hl => absurd hl (h record)⟩
  exact ⟨s, hs, h0, h1, records_never_diverge threeMembers hahead hs 0 1⟩

end Fluxum.ReplicaSet
