/-
# Acknowledged transactions survive in the log

* `written_survives`: over a whole run of the log, every record up to a
  published watermark is read back from disk, and no watermark follows a
  failure, unless the last flush writes frames of a failed batch.
* `exit_flush_acknowledges_lost_record`: a batch that fails leaves its frames in
  the buffer, and the last flush of the writer thread writes them once more. If
  that flush succeeds, the watermark moves again, over frames that may stand
  behind half-written ones.
-/
import Fluxum.CommitLog.WriterInvariant

namespace Fluxum
namespace CommitLog

open Bytes List

variable {C : Codec} {shardId segmentMaxBytes : Nat} {d : SegmentDir} {a : Actor} {epoch : Nat} {r : Recovery}

/-! ### The log after opening -/

/-- Replay finds the entries that recovery visited. -/
theorem replay_of_recover (h : recover C shardId d = .ok r) : (replay C shardId d).1 = r.visited := by
  cases recovered_of_recover h with
  | clean hclean hr => rw [hr, replay_of_clean hclean]
  | header hfiles hclean hhead hr =>
    rw [hr, replay, hfiles, replayLoop_append hclean]
    simp [replayLoop, scanSegmentBytes, hhead]
  | entry hfiles hclean hscan hr =>
    rw [hr, replay, hfiles, replayLoop_append hclean]
    simp [replayLoop, hscan]

/-- Transaction ids increase, up to `prevTx`. -/
def Increasing (prevTx : Option Nat) (vs : List (Nat × TxRecord)) : Prop :=
  vs.Pairwise (·.2.txId < ·.2.txId) ∧ ∀ v ∈ vs, ∃ p ∈ prevTx, v.2.txId ≤ p

theorem Increasing.scanFrom (C : Codec) (shardId : Nat) (buf : Bytes) (us : List (Nat × TxRecord)) (s : SegmentScan) :
    Increasing s.prevTx (us ++ s.visited) →
      Increasing (scanFrom C shardId buf s).1.prevTx (us ++ (scanFrom C shardId buf s).1.visited) := by
  induction s using scan_induction C shardId buf with
  | stop s r h =>
    rw [scanFrom_stop h]
    exact id
  | step s s' h ih =>
    rintro ⟨hlt, hle⟩
    rw [scanFrom_step h]
    obtain ⟨epoch, body, e, record, -, -, -, -, horder, rfl⟩ := scanStep_ok h
    have hbefore : ∀ v ∈ us ++ s.visited, v.2.txId < record.txId := by
      intro v hv
      obtain ⟨p, hp, hvp⟩ := hle v hv
      exact lt_of_le_of_lt hvp (horder p hp)
    apply ih
    rw [← append_assoc]
    refine ⟨?_, ?_⟩
    · rw [pairwise_append]
      exact ⟨hlt, pairwise_singleton .., by simpa using hbefore⟩
    intro v hv
    refine ⟨record.txId, rfl, ?_⟩
    rcases mem_append.mp hv with hv | hv
    · exact (hbefore v hv).le
    · rw [mem_singleton.mp hv]

theorem CleanSegs.increasing {c c' : Carry} {xs : List (Nat × Bytes)} {us : List (Nat × TxRecord)}
    (h : CleanSegs C shardId c xs us c') (ws : List (Nat × TxRecord)) (hws : Increasing c.prevTx ws) : Increasing c'.prevTx (ws ++ us) := by
  induction h generalizing ws with
  | nil => simpa using hws
  | @cons c name buf rest scan visited c' hscan _ ih =>
    rw [← append_assoc]
    apply ih
    obtain ⟨epoch, -, -, hgo⟩ := header_of_scanned hscan
    have hinc := Increasing.scanFrom C shardId buf ws
      (startScan c.prevTx epoch) (by simpa [startScan] using hws)
    have hprev := scanFrom_prevTx C shardId buf c.prevTx
      (startScan c.prevTx epoch) rfl
    rw [hgo] at hinc hprev
    rw [← hprev]
    exact hinc

theorem openLog_eq_ok {s : Log} :
    openLog C shardId epoch d = .ok s ↔
      ∃ r, recover C shardId d = .ok r ∧ r.report.epoch ≤ epoch ∧ Log.opened r epoch = s := by
  unfold openLog
  split
  · simp [*]
  · split
    · simp [*]
    · simp [*, Nat.le_of_not_lt]

theorem consistent_opened (h : recover C shardId d = .ok r)
    (htail : TailEpochOk C shardId d) (hepoch : r.report.epoch ≤ epoch) :
    Consistent C shardId (Log.opened r epoch).actor r.visited := by
  obtain ⟨c, hclean, ht, hlast, hmin⟩ := clean_of_recover h htail
  rcases eq_nil_or_concat' r.dir.files with hnil | ⟨pre, ⟨name, buf⟩, hfiles⟩
  · rw [hnil] at hclean ht
    generalize r.visited = us at hclean
    cases hclean
    exact .empty (by simp [Log.opened, ht, tailOf]) hnil rfl hlast
  · rw [hfiles] at hclean ht
    obtain ⟨us, c', headerEpoch, scan, hpre, hhead, hle, hgo, hus, rfl⟩ := hclean.last
    have hprev := scanFrom_prevTx C shardId buf c'.prevTx
      (startScan c'.prevTx headerEpoch) rfl
    rw [hgo] at hprev
    rw [hus]
    have hcur : (Log.opened r epoch).actor.current = some ⟨name, buf.length⟩ := by simp [Log.opened, ht, tailOf]
    exact .active hcur hfiles hpre hhead hle hgo (by simpa [Log.opened] using hgo) (by simp [Log.opened])
      (hlast.trans hprev.symm) (le_of_eq_of_le hmin.symm hepoch)

/-! ### The invariant -/

/-- On the `written` channel, nothing but failures follows a failure. The latest value stands first. -/
def NothingAfterFailure (written : List Published) : Prop :=
  written.Pairwise fun newer older => older.state = .failed → newer.state = .failed

theorem NothingAfterFailure.failed {written : List Published} (h : NothingAfterFailure written) (dir : SegmentDir) :
    NothingAfterFailure (⟨.failed, dir⟩ :: written) :=
  pairwise_cons.mpr ⟨fun _ _ _ => rfl, h⟩

theorem Healthy.nothingAfterFailure (h : Healthy a) : NothingAfterFailure a.written :=
  Pairwise.imp_of_mem (R := fun _ _ => True) (fun _ hb _ hfail => absurd hfail (h _ hb)) (by simp [pairwise_iff_getElem])

/-- If frames are buffered, the active file is the last one. -/
def ActiveLast (a : Actor) : Prop :=
  a.buf ≠ [] → ∃ seg pre bytes, a.current = some seg ∧ a.dir.files = pre ++ [(seg.name, bytes)]

/-- The name of a file: one of `names`, or a transaction that was appended. -/
def Named (names : List Nat) (s : Log) (n : Nat) : Prop := n ∈ names ∨ n ≤ s.lastAppended

/-- What the writer thread keeps in each of its phases. -/
def PhaseOk (C : Codec) (shardId : Nat) (names : List Nat) (records : List TxRecord) (s : Log) : Prop :=
  match s.phase with
  | .running => s.actor.buf = [] ∧
      ∃ vs, ActorOk C shardId records (Named names s) s.actor vs (cmdRecords s.queue)
  | .closing => s.actor.watch = .failed ∧ (Healthy s.actor → s.actor.buf = []) ∧ ActiveLast s.actor
  | .stopped => s.actor.watch = .failed ∨
      s.actor.buf = [] ∧ ∃ vs, ActorOk C shardId records (Named names s) s.actor vs []

/-- The invariant of a log opened over the files `names` and the records `base`. -/
structure LogInv (C : Codec) (shardId : Nat) (names : List Nat) (base : List TxRecord) (s : Log) : Prop where
  sorted : (base ++ s.appended).Pairwise (·.txId < ·.txId)
  upTo : ∀ r ∈ base ++ s.appended, r.txId ≤ s.lastAppended
  cmds : ∀ cmd ∈ s.queue, CmdOk shardId (Named names s) cmd
  acked : Acked C shardId (base ++ s.appended) s.actor
  order : NothingAfterFailure s.actor.written
  phase : PhaseOk C shardId names (base ++ s.appended) s

/-- The records on disk when the log is opened are acknowledged. -/
theorem logInv_opened (h : recover C shardId d = .ok r)
    (htail : TailEpochOk C shardId d) (hepoch : r.report.epoch ≤ epoch) (hu64 : epoch < 2 ^ 64) :
    LogInv C shardId r.dir.names (r.visited.map Prod.snd) (Log.opened r epoch) := by
  obtain ⟨c, hclean, -, hlast, -⟩ := clean_of_recover h htail
  obtain ⟨hlt, hle⟩ := hclean.increasing [] ⟨.nil, by simp⟩
  have hcons := consistent_opened h htail hepoch
  have hread : recordsOf C shardId r.dir = r.visited.map Prod.snd := by
    rw [recordsOf, replay_of_clean hclean]
  have hacked : Acked C shardId (r.visited.map Prod.snd ++ []) (Log.opened r epoch).actor := by
    intro p hp t ht
    obtain rfl := mem_singleton.mp hp
    have hlastId := hcons.lastWritten
    rw [show (Log.opened r epoch).actor.lastWritten = some t from DurableState.durable.inj ht] at hlastId
    obtain ⟨x, hx, htx⟩ := Option.map_eq_some_iff.mp hlastId.symm
    refine ⟨⟨x.2, ?_, htx⟩, fun q hq _ => ?_⟩
    · rw [append_nil]
      exact mem_map_of_mem (mem_of_getLast? hx)
    · rw [append_nil, ← hread] at hq
      exact ⟨hq, hq⟩
  have hhealthy : Healthy (Log.opened r epoch).actor := by simp [Healthy, Log.opened]
  refine ⟨?_, ?_, by simp [Log.opened], hacked, hhealthy.nothingAfterFailure, rfl, r.visited, ?_⟩
  · simpa [Log.opened, pairwise_map] using hlt
  · intro q hq
    simp only [Log.opened, append_nil, mem_map] at hq
    obtain ⟨v, hv, rfl⟩ := hq
    obtain ⟨p, hp, hvp⟩ := hle v hv
    simpa [Log.opened, hlast, Option.mem_def.mp hp] using hvp
  · exact ⟨hcons, hu64, rfl, hacked, hhealthy, by simp [Log.opened, cmdRecords],
      fun n hn => .inl hn⟩

/-! ### The steps of the log -/

variable {names : List Nat} {base : List TxRecord} {s s' : Log} {io : List Io} {record : TxRecord}

theorem Acked.extend {records : List TxRecord} (h : Acked C shardId records a)
    (hnew : ∀ r ∈ records, r.txId < record.txId) : Acked C shardId (records ++ [record]) a := by
  intro p hp t ht
  obtain ⟨⟨m, hm, rfl⟩, hread⟩ := h p hp t ht
  refine ⟨⟨m, mem_append_left _ hm, rfl⟩, fun r hr hle => ?_⟩
  rcases mem_append.mp hr with hr | hr
  · exact hread r hr hle
  · obtain rfl := mem_singleton.mp hr
    exact absurd hle (not_le.mpr (hnew m hm))

theorem ActorOk.extend {records pending : List TxRecord} {N N' : Nat → Prop} {vs : List (Nat × TxRecord)}
    (h : ActorOk C shardId records N a vs pending) (hnew : ∀ r ∈ records, r.txId < record.txId)
    (hbefore : ∀ n, N n → n ≤ record.txId) (hmono : ∀ n, N n → N' n) :
    ActorOk C shardId (records ++ [record]) N' a vs (pending ++ [record]) where
  consistent := h.consistent
  u64 := h.u64
  known := by rw [← append_assoc, h.known]
  acked := h.acked.extend hnew
  healthy := h.healthy
  names := by
    intro n hn r hr
    rcases mem_append.mp hr with hr | hr
    · exact h.names n hn r hr
    · obtain rfl := mem_singleton.mp hr
      exact hbefore n (h.named n hn)
  named := fun n hn => hmono n (h.named n hn)

theorem CmdOk.mono {N N' : Nat → Prop} {cmd : Cmd} (h : CmdOk shardId N cmd) (hmono : ∀ n, N n → N' n) :
    CmdOk shardId N' cmd := by
  cases cmd with
  | append record => exact ⟨h.1, hmono _ h.2⟩
  | setEpoch epoch => exact h

/-- No file is named after a later transaction than a record that is appended. -/
def NamesBefore (names : List Nat) : Step → Prop
  | .append record => ∀ n ∈ names, n ≤ record.txId
  | _ => True

instance (names : List Nat) (label : Step) : Decidable (NamesBefore names label) := by
  unfold NamesBefore
  split <;> infer_instance

theorem logInv_append (h : LogInv C shardId names base s) (hnames : NamesBefore names (.append record))
    (hs : step C segmentMaxBytes shardId s (.append record) = some s') : LogInv C shardId names base s' := by
  obtain ⟨⟨hphase, -, hshard, hlt⟩, rfl⟩ := Runs.of_guard hs
  have hnew : ∀ r ∈ base ++ s.appended, r.txId < record.txId := fun r hr => lt_of_le_of_lt (h.upTo r hr) hlt
  have hmono : ∀ n, Named names s n → n ∈ names ∨ n ≤ record.txId := fun n hn => hn.imp_right fun hle => hle.trans hlt.le
  have hp := h.phase
  simp only [PhaseOk, hphase] at hp
  obtain ⟨hbuf, vs, hok⟩ := hp
  constructor
  · rw [← append_assoc, pairwise_append]
    exact ⟨h.sorted, pairwise_singleton .., by simpa using hnew⟩
  · intro r hr
    rw [← append_assoc] at hr
    rcases mem_append.mp hr with hr | hr
    · exact (hnew r hr).le
    · rw [mem_singleton.mp hr]
  · intro cmd hcmd
    rcases mem_append.mp hcmd with hcmd | hcmd
    · exact (h.cmds cmd hcmd).mono hmono
    · rw [mem_singleton.mp hcmd]
      exact ⟨hshard, .inr le_rfl⟩
  · rw [← append_assoc]
    exact h.acked.extend hnew
  · exact h.order
  · simp only [PhaseOk, hphase]
    refine ⟨hbuf, vs, ?_⟩
    rw [← append_assoc, cmdRecords_append]
    exact hok.extend hnew (fun n hn => hn.elim (hnames n) fun hle => hle.trans hlt.le) hmono

theorem logInv_setEpoch (h : LogInv C shardId names base s)
    (hs : step C segmentMaxBytes shardId s (.setEpoch epoch) = some s') : LogInv C shardId names base s' := by
  obtain ⟨⟨hphase, -, hu64⟩, rfl⟩ := Runs.of_guard hs
  have hp := h.phase
  simp only [PhaseOk, hphase] at hp
  obtain ⟨hbuf, vs, hok⟩ := hp
  refine ⟨h.sorted, h.upTo, ?_, h.acked, h.order, ?_⟩
  · intro cmd hcmd
    rcases mem_append.mp hcmd with hcmd | hcmd
    · exact h.cmds cmd hcmd
    · rw [mem_singleton.mp hcmd]
      exact hu64
  · simp only [PhaseOk, hphase]
    refine ⟨hbuf, vs, ?_⟩
    rw [cmdRecords_append, show cmdRecords [.setEpoch epoch] = [] from rfl, append_nil]
    exact hok

theorem Acked.publish_failed {records : List TxRecord} (h : Acked C shardId records a) :
    Acked C shardId records (a.publish .failed) := by
  intro p hp t ht
  rcases mem_cons.mp hp with rfl | hp
  · simp at ht
  · exact h p hp t ht

theorem logInv_batch {extra : Nat} (h : LogInv C shardId names base s)
    (hs : step C segmentMaxBytes shardId s (.batch extra io) = some s') : LogInv C shardId names base s' := by
  obtain ⟨⟨hphase, -⟩, rfl⟩ := Runs.of_guard hs
  have hp := h.phase
  simp only [PhaseOk, hphase] at hp
  obtain ⟨hbuf, vs, hok⟩ := hp
  unfold batchStep
  split
  · rename_i hwatch
    refine ⟨h.sorted, h.upTo, by simp, h.acked, h.order, hwatch, fun _ => hbuf, fun hne => absurd hbuf hne⟩
  have hcmds : ∀ cmd ∈ s.queue.take (extra + 1), CmdOk shardId (Named names s) cmd :=
    fun cmd hcmd => h.cmds cmd (mem_of_mem_take hcmd)
  have hstart : ActorOk C shardId (base ++ s.appended) (Named names s) { s.actor with io } vs
      (cmdRecords (s.queue.take (extra + 1)) ++ cmdRecords (s.queue.drop (extra + 1))) := by
    rw [← cmdRecords_append, take_append_drop]
    exact hok.congr rfl rfl rfl rfl le_rfl hok.u64 rfl
  have hends := ends_processLoop segmentMaxBytes h.sorted _ false _ vs hstart (fun _ => hbuf) hcmds
  split
  · rename_i a hres
    obtain ⟨hbuf', vs', hok'⟩ := hends.of_ok hres
    refine ⟨h.sorted, h.upTo, fun cmd hcmd => h.cmds cmd (mem_of_mem_drop hcmd), hok'.acked,
      hok'.healthy.nothingAfterFailure, ?_⟩
    simp only [PhaseOk, hphase]
    exact ⟨hbuf', vs', hok'⟩
  · rename_i a hres
    have hhalt := hends.of_error hres
    refine ⟨h.sorted, h.upTo, by simp, hhalt.acked.publish_failed, hhalt.healthy.nothingAfterFailure.failed _,
      rfl, ?_, hhalt.active⟩
    -- a failure has just been published
    exact fun hhealthy => absurd rfl (hhealthy ⟨.failed, a.dir⟩ (mem_cons_self ..))

theorem flushSync_of_nil (hbuf : a.buf = []) : ∃ a', (flushSync a = .ok a' ∨ flushSync a = .error a') ∧
    a'.dir = a.dir ∧ a'.written = a.written ∧ (a.watch = .failed → a'.watch = .failed) := by
  have hw : flushWritten a = .ok a := by
    unfold flushWritten
    split
    · rfl
    · rw [if_pos hbuf]
  unfold flushSync
  rw [hw]
  dsimp only [bind, Except.bind]
  split
  · exact ⟨a, .inl rfl, rfl, rfl, id⟩
  split
  · rename_i n a' hio
    obtain ⟨io, rfl⟩ := nextIo_fail hio
    exact ⟨_, .inr rfl, rfl, rfl, id⟩
  · rename_i a' hio
    obtain ⟨io, rfl⟩ := nextIo_ok hio
    exact ⟨_, .inl rfl, by simp, by simp, fun h => publishDurable_failed _ h⟩

/-- Once a failure has been published with frames still buffered, the write of the last flush fails. -/
def ExitFlushFails (s : Log) : Step → Prop
  | .exit io => (∃ p ∈ s.actor.written, p.state = .failed) → s.actor.buf ≠ [] → ∃ i ∈ io.head?, i ≠ .ok
  | _ => True

instance (s : Log) (label : Step) : Decidable (ExitFlushFails s label) := by
  unfold ExitFlushFails
  split <;> infer_instance

/-- A step of the syncer leaves the queue and the files as they are. -/
theorem step_sync {label : Step} (hlabel : label = .syncStart ∨ ∃ ok, label = .syncEnd ok)
    (hs : step C segmentMaxBytes shardId s label = some s') : ∃ syncer cursor watch,
      s' = { s with syncer, actor := { s.actor with cursor, watch } } ∧ (s.actor.watch = .failed → watch = .failed) := by
  rcases hlabel with rfl | ⟨ok, rfl⟩
  · simp only [step, syncStart] at hs
    split at hs
    · obtain ⟨-, rfl⟩ := Runs.of_guard hs
      exact ⟨_, _, _, rfl, id⟩
    · simp at hs
  · simp only [step, syncEnd] at hs
    split at hs
    · split at hs <;> cases hs
      · obtain ⟨watch, hpub, hfailed⟩ := publishDurable_eq (Actor.mk ..) _
        rw [hpub]
        exact ⟨_, _, watch, rfl, hfailed⟩
      · exact ⟨_, _, _, rfl, fun _ => rfl⟩
    · simp at hs

section

variable (h : LogInv C shardId names base s)
include h

/-- The writer thread leaves a log that still has everything acknowledged. -/
theorem exit_running (hphase : s.phase = .running) (hqueue : s.queue = []) :
    LogInv C shardId names base (exitStep s io) := by
  have hp := h.phase
  simp only [PhaseOk, hphase] at hp
  obtain ⟨hbuf, vs, hok⟩ := hp
  rw [hqueue] at hok
  have hstart : ActorOk C shardId (base ++ s.appended) (Named names s) { s.actor with io } vs [] :=
    hok.congr rfl rfl rfl rfl le_rfl hok.u64 rfl
  have hends := ends_flushSync h.sorted hstart
  unfold exitStep
  cases hres : flushSync { s.actor with io } with
  | ok a =>
    obtain ⟨hok', hbuf', -⟩ := hends.of_ok hres
    have hfin : ActorOk C shardId (base ++ s.appended) (Named names s)
        { a with cursor := { a.cursor with shutdown := true } } vs [] :=
      hok'.congr rfl rfl rfl rfl le_rfl hok'.u64 rfl
    exact ⟨h.sorted, h.upTo, h.cmds, hfin.acked, hfin.healthy.nothingAfterFailure, .inr ⟨hbuf', vs, hfin⟩⟩
  | error a =>
    have hhalt := hends.of_error hres
    exact ⟨h.sorted, h.upTo, h.cmds, hhalt.acked.publish_failed, hhalt.healthy.nothingAfterFailure.failed _, .inl rfl⟩

theorem exit_closing (hphase : s.phase = .closing)
    (hfail : ExitFlushFails s (.exit io)) : LogInv C shardId names base (exitStep s io) := by
  have hp := h.phase
  simp only [PhaseOk, hphase] at hp
  obtain ⟨hwatch, hbuf, hactive⟩ := hp
  unfold exitStep
  by_cases hnil : s.actor.buf = []
  · obtain ⟨a, hres, hdir, hwritten, hw⟩ := flushSync_of_nil (a := { s.actor with io }) hnil
    have hacked : Acked C shardId (base ++ s.appended) a :=
      h.acked.grow hwritten (by rw [hdir])
    have horder : NothingAfterFailure a.written := by
      rw [hwritten]
      exact h.order
    rcases hres with hres | hres <;> rw [hres]
    · exact ⟨h.sorted, h.upTo, h.cmds, hacked, horder, .inl (hw hwatch)⟩
    · exact ⟨h.sorted, h.upTo, h.cmds, hacked.publish_failed, horder.failed _, .inl rfl⟩
  · -- a failed batch left frames behind; the flush of them fails
    have hpub : ∃ p ∈ s.actor.written, p.state = .failed := by
      by_contra hno
      push Not at hno
      exact hnil (hbuf hno)
    obtain ⟨i, hi, hne⟩ := hfail hpub hnil
    obtain ⟨seg, pre, bytes, hcur, hfiles⟩ := hactive hnil
    obtain ⟨n, rest, rfl⟩ : ∃ n rest, io = .fail n :: rest := by
      cases io with
      | nil => simp at hi
      | cons j rest =>
        obtain rfl : j = i := by simpa using hi
        cases j with
        | ok => exact absurd rfl hne
        | fail n => exact ⟨n, rest, rfl⟩
    have hres : flushSync { s.actor with io := .fail n :: rest } =
        .error { s.actor with io := rest, dir := s.actor.dir.append seg.name (s.actor.buf.take n) } := by
      simp [flushSync, flushWritten, hcur, hnil, Actor.nextIo, bind, Except.bind]
    rw [hres]
    have hacked : Acked C shardId (base ++ s.appended)
        { s.actor with io := rest, dir := s.actor.dir.append seg.name (s.actor.buf.take n) } :=
      h.acked.grow rfl (replay_prefix_append hfiles _)
    exact ⟨h.sorted, h.upTo, h.cmds, hacked.publish_failed, h.order.failed _, .inl rfl⟩

theorem logInv_exit (hfail : ExitFlushFails s (.exit io))
    (hs : step C segmentMaxBytes shardId s (.exit io) = some s') : LogInv C shardId names base s' := by
  obtain ⟨hphase | ⟨hphase, hqueue⟩, rfl⟩ := Runs.of_guard hs
  · exact exit_closing h hphase hfail
  · exact exit_running h hphase hqueue

/-- The syncer changes nothing but the durable watermark and its cursor, and a failure sticks. -/
theorem LogInv.sync (syncer : Syncer) (cursor : SyncCursor) {watch : DurableState}
    (hwatch : s.actor.watch = .failed → watch = .failed) :
    LogInv C shardId names base { s with syncer, actor := { s.actor with cursor, watch } } := by
  refine ⟨h.sorted, h.upTo, h.cmds, h.acked, h.order, ?_⟩
  have hp := h.phase
  unfold PhaseOk at hp ⊢
  dsimp only
  split at hp
  · obtain ⟨hbuf, vs, hok⟩ := hp
    exact ⟨hbuf, vs, hok.congr rfl rfl rfl rfl le_rfl hok.u64 rfl⟩
  · obtain ⟨hw, hbuf, hactive⟩ := hp
    exact ⟨hwatch hw, hbuf, hactive⟩
  · rcases hp with hw | ⟨hbuf, vs, hok⟩
    · exact .inl (hwatch hw)
    · exact .inr ⟨hbuf, vs, hok.congr rfl rfl rfl rfl le_rfl hok.u64 rfl⟩

end

/-- Every step keeps the invariant, the last flush after a failure only if it fails. -/
theorem logInv_step (label : Step) (h : LogInv C shardId names base s) (hnames : NamesBefore names label)
    (hfail : ExitFlushFails s label)
    (hs : step C segmentMaxBytes shardId s label = some s') : LogInv C shardId names base s' := by
  cases label with
  | append record => exact logInv_append h hnames hs
  | setEpoch epoch => exact logInv_setEpoch h hs
  | batch extra io => exact logInv_batch h hs
  | exit io => exact logInv_exit h hfail hs
  | syncStart | syncEnd =>
    obtain ⟨syncer, cursor, watch, rfl, hwatch⟩ := step_sync (by simp) hs
    exact h.sync syncer cursor hwatch

/-! ### Whole runs -/

/-- **Acknowledged transactions survive.** In every run of an opened log in which the last flush does
not succeed after a failure, every record up to a published watermark is read back, from the files of
that moment and from those of now, and nothing but failures follows a failure. -/
theorem written_survives {epoch : Nat} {d : SegmentDir} {s₀ : Log} (hopen : openLog C shardId epoch d = .ok s₀)
    (hu64 : epoch < 2 ^ 64) (htail : TailEpochOk C shardId d)
    {steps : List Step} (hnames : ∀ label ∈ steps, NamesBefore s₀.actor.dir.names label)
    (hmeets : Runs.Meets (step C segmentMaxBytes shardId) ExitFlushFails s₀ steps)
    (hrun : Runs.run (step C segmentMaxBytes shardId) s₀ steps = some s) :
    Acked C shardId (recordsOf C shardId d ++ s.appended) s.actor ∧ NothingAfterFailure s.actor.written := by
  obtain ⟨r, hrec, hepoch, rfl⟩ := openLog_eq_ok.mp hopen
  have hinv : LogInv C shardId r.dir.names (recordsOf C shardId d) s := by
    refine Runs.run_invariant_of_meets (fun _ l _ hI hl hs => logInv_step l hI hl.1 hl.2 hs) ?_
      ((Runs.meets_of_forall hnames).and hmeets) hrun
    rw [recordsOf, replay_of_recover hrec]
    exact logInv_opened hrec htail hepoch hu64
  exact ⟨hinv.acked, hinv.order⟩

/-! ### A log of transaction ids -/

/-- CRC-32C, bit by bit. -/
def castagnoli (bytes : Bytes) : UInt32 :=
  let shift (crc : UInt32) : UInt32 := if crc &&& 1 = 1 then (crc >>> 1) ^^^ 0x82F63B78 else crc >>> 1
  ~~~ bytes.foldl (fun crc byte => Nat.repeat shift 8 (crc ^^^ byte.toUInt32)) 0xFFFFFFFF

/-- A record with nothing but a transaction id. -/
def idRecord (txId : Nat) : TxRecord := ⟨txId, 0, 0, [], [], [], ""⟩

/-- A codec for such records: a body is the id in eight bytes. -/
def idCodec : Codec where
  crc32c := castagnoli
  encode r :=
    if r.txId < 2 ^ 64 ∧ r.timestamp = 0 ∧ r.shardId = 0 ∧ r.mutations.isEmpty ∧ r.autoInc.isEmpty ∧ r.caller.isEmpty ∧
      r.reducerName = "" then some (leBytes 8 r.txId) else none
  decode body := some (idRecord (ofLE body))
  decode_encode := by
    rintro ⟨txId, timestamp, shardId, mutations, autoInc, caller, reducerName⟩ body h
    simp only [Option.ite_none_right_eq_some, Option.some.injEq, List.isEmpty_iff] at h
    obtain ⟨⟨htx, rfl, rfl, rfl, rfl, rfl, rfl⟩, rfl⟩ := h
    rw [ofLE_leBytes (by simpa using htx)]
    rfl

def emptyLog : Log := Log.opened ⟨⟨none, 0, 0, none⟩, none, .empty, []⟩ 0

theorem openLog_empty : openLog idCodec 0 0 .empty = .ok emptyLog := rfl

/-- A batch fails after three bytes of its frame, and so does the last flush. -/
def failingRun : List Step :=
  [.append (idRecord 1), .batch 0 [], .append (idRecord 2), .batch 0 [.fail 3], .exit [.fail 1]]

theorem written_survives_failingRun :
    ∃ s, Runs.run (step idCodec 1024 0) emptyLog failingRun = some s ∧
      s.actor.written.map (·.state) = [.failed, .failed, .durable (some 1), .durable none] ∧
      Acked idCodec 0 (recordsOf idCodec 0 .empty ++ s.appended) s.actor ∧ NothingAfterFailure s.actor.written := by
  obtain ⟨s, hrun, hstates⟩ : ∃ s ∈ Runs.run (step idCodec 1024 0) emptyLog failingRun,
      s.actor.written.map (·.state) = [.failed, .failed, .durable (some 1), .durable none] := by
    decide +kernel
  refine ⟨s, hrun, hstates, ?_⟩
  exact written_survives openLog_empty (by decide) (by decide) (by decide) (by decide +kernel) hrun

/-- The batch fails after three bytes of its frame, and the last flush writes the frame behind them. -/
def lostRecordRun : List Step := [.append (idRecord 1), .batch 0 [.ok, .fail 3], .exit []]

/-- **A lost record is acknowledged.** The failure is published, then the watermark moves to record 1,
and replay does not find it. -/
theorem exit_flush_acknowledges_lost_record :
    openLog idCodec 0 0 .empty = .ok emptyLog ∧
    ∃ s, Runs.run (step idCodec 1024 0) emptyLog lostRecordRun = some s ∧
      s.appended.map (·.txId) = [1] ∧
      s.actor.written.map (·.state) = [.durable (some 1), .failed, .durable none] ∧
      (recordsOf idCodec 0 s.actor.dir).map (·.txId) = [] := by
  refine ⟨openLog_empty, ?_⟩
  decide +kernel

end CommitLog
end Fluxum
