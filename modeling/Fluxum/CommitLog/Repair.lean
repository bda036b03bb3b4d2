/-
# Opening a damaged log repairs it

* `repaired_iff_tailEpochOk`: after recovery and a run of the log that ends
  without an error, the log reopens without a quarantine and holds what was
  recovered, then what was appended, exactly if the last segment's header is
  not of an older epoch than the segments before it.
* `older_tail_header_loses_appended`: such a segment is cut back to nothing, the
  writer resumes in it as if its header were there, and the file never gets a
  header again.
-/
import Fluxum.CommitLog.Durability

namespace Fluxum
namespace CommitLog

open Bytes Outcome List Option Except

variable {C : Codec} {shardId segmentMaxBytes : Nat} {s s' : Log} {names : List Nat} {base : List TxRecord}
variable {d : SegmentDir} {a a' : Actor} {name : Nat}

/-- The log, opened by the recovery `r` and run to the state `s`, is sound: it reopens without a
quarantine, replay yields what was recovered and then what was appended, and every segment file has a
header. -/
structure Repaired (C : Codec) (shardId : Nat) (r : Recovery) (s : Log) : Prop where
  reopens : ∃ r', recover C shardId s.actor.dir = .ok r' ∧ r'.report.quarantine = none ∧
    r'.report.epoch ≤ s.actor.epoch
  replays : ∃ vs, replay C shardId s.actor.dir = (vs, none) ∧
    vs.map Prod.snd = r.visited.map Prod.snd ++ s.appended
  headers : ∀ file ∈ s.actor.dir.files, ∃ epoch, decodeSegmentHeader C file.2 = .ok epoch

/-! ### A failure sticks -/

theorem flushWritten_watch (h : flushWritten a = .ok a') : a'.watch = a.watch := by
  unfold flushWritten at h
  split at h
  · rw [ok.inj h]
  split at h
  · rw [ok.inj h]
  split at h
  · rename_i b hio
    obtain ⟨io, rfl⟩ := nextIo_ok hio
    rw [← ok.inj h]
    rfl
  · simp at h

theorem flushSync_failed (h : flushSync a = .ok a') (hw : a.watch = .failed) : a'.watch = .failed := by
  unfold flushSync at h
  cases hres : flushWritten a with
  | error b => simp [hres, bind, Except.bind] at h
  | ok b =>
    have hb := flushWritten_watch hres
    simp only [hres, bind, Except.bind] at h
    split at h
    · rw [← Except.ok.inj h, hb, hw]
    split at h
    · simp at h
    rename_i b' hio
    obtain ⟨io, rfl⟩ := nextIo_ok hio
    rw [← Except.ok.inj h]
    exact publishDurable_failed _ (hb.trans hw)

theorem watch_failed_step (label : Step) (hs : step C segmentMaxBytes shardId s label = some s')
    (hw : s.actor.watch = .failed) : s'.actor.watch = .failed := by
  cases label with
  | append record | setEpoch epoch =>
    simp only [step, ite_none_right_eq_some, some.injEq] at hs
    exact hs.2 ▸ hw
  | batch extra io =>
    simp only [step, ite_none_right_eq_some, some.injEq, batchStep, if_pos hw] at hs
    exact hs.2 ▸ hw
  | exit io =>
    obtain ⟨-, rfl⟩ := Runs.of_guard hs
    unfold exitStep
    cases hres : flushSync { s.actor with io } with
    | ok a =>
      have : a.watch = .failed := flushSync_failed hres hw
      exact this
    | error a => rfl
  | syncStart | syncEnd =>
    obtain ⟨syncer, cursor, watch, rfl, hwatch⟩ := step_sync (by simp) hs
    exact hwatch hw

theorem LogInv.exitFlushFails (h : LogInv C shardId names base s) (hw : s.actor.watch ≠ .failed) (label : Step)
    (hs : step C segmentMaxBytes shardId s label = some s') : ExitFlushFails s label := by
  cases label with
  | exit io =>
    intro ⟨p, hp, hfail⟩
    simp only [step, ite_none_right_eq_some, some.injEq] at hs
    have hphase := h.phase
    rcases hs.1 with hclosing | ⟨hrunning, -⟩
    · simp only [PhaseOk, hclosing] at hphase
      exact absurd hphase.1 hw
    · simp only [PhaseOk, hrunning] at hphase
      obtain ⟨-, vs, hok⟩ := hphase
      exact absurd hfail (hok.healthy p hp)
  | _ => trivial

/-- A run that ends without a failure has kept the invariant. -/
theorem logInv_run {steps : List Step} (h : LogInv C shardId names base s)
    (hnames : ∀ label ∈ steps, NamesBefore names label)
    (hrun : Runs.run (step C segmentMaxBytes shardId) s steps = some s') (hw : s'.actor.watch ≠ .failed) :
    LogInv C shardId names base s' := by
  have := Runs.run_invariant_of_meets (I := fun s => s.actor.watch = .failed ∨ LogInv C shardId names base s) ?_ (.inr h)
    (Runs.meets_of_forall hnames) hrun
  · exact this.resolve_left hw
  rintro s l s' hI hl hs
  by_cases hw : s.actor.watch = .failed
  · exact .inl (watch_failed_step l hs hw)
  · have hinv := hI.resolve_left hw
    exact .inr (logInv_step l hinv hl (hinv.exitFlushFails hw l hs) hs)

/-! ### Reopening a clean log -/

theorem recover_of_clean {us : List (Nat × TxRecord)} {c : Carry}
    (h : CleanSegs C shardId .init d.files us c) :
    recover C shardId d = .ok ⟨⟨c.prevTx, c.minEpoch, d.files.length, none⟩, tailOf none d.files, d, us⟩ := by
  have := recoverLoop_append h ⟨⟨none, 0, d.files.length, none⟩, none, d, []⟩ rfl rfl []
  rw [append_nil] at this
  rw [recover, this, recoverLoop, nil_append]

theorem CleanSegs.headers {c c' : Carry} {xs : List (Nat × Bytes)} {us : List (Nat × TxRecord)}
    (h : CleanSegs C shardId c xs us c') : ∀ x ∈ xs, ∃ epoch, decodeSegmentHeader C x.2 = .ok epoch := by
  induction h with
  | nil => simp
  | cons hscan _ ih =>
    intro x hx
    rcases mem_cons.mp hx with rfl | hx
    · obtain ⟨epoch, hhead, -⟩ := header_of_scanned hscan
      exact ⟨epoch, hhead⟩
    · exact ih x hx

theorem LogInv.repaired {r : Recovery} (h : LogInv C shardId names (r.visited.map Prod.snd) s) (hstop : s.phase = .stopped)
    (hw : s.actor.watch ≠ .failed) : Repaired C shardId r s := by
  have hphase := h.phase
  simp only [PhaseOk, hstop] at hphase
  obtain ⟨hbuf, vs, hok⟩ := hphase.resolve_left hw
  obtain ⟨c, hclean, -, hepoch⟩ := hok.consistent.cleanSegs hbuf
  refine ⟨⟨_, recover_of_clean hclean, rfl, hepoch⟩, ⟨vs, replay_of_clean hclean, ?_⟩, hclean.headers⟩
  rw [← hok.known, append_nil]

/-! ### A file without a header -/

/-- The bytes are none, or start with the length prefix of a frame. -/
def StartsWithFrame (x : Bytes) : Prop := x = [] ∨ ∃ len rest, len ≤ maxBodyLen ∧ x = leBytes 4 len ++ rest

theorem StartsWithFrame.append {x : Bytes} (h : StartsWithFrame x) (epoch : Nat) {body : Bytes}
    (hbody : body.length ≤ maxBodyLen) : StartsWithFrame (x ++ frame C epoch body) := by
  rcases h with rfl | ⟨len, rest, hlen, rfl⟩
  · exact .inr ⟨body.length, _, hbody, by simp [frame, frameBody]; rfl⟩
  · exact .inr ⟨len, rest ++ frame C epoch body, hlen, append_assoc ..⟩

theorem magic_of_decodeSegmentHeader {buf : Bytes} {epoch : Nat} (h : decodeSegmentHeader C buf = .ok epoch) :
    buf.take 8 = segmentMagic := by
  unfold decodeSegmentHeader at h
  split at h
  · simp at h
  split at h
  · simp at h
  split at h
  · simp at h
  · rename_i hmagic
    simpa using hmagic

/-- The length prefix of a frame is never the start of a header. -/
theorem StartsWithFrame.no_header {x more : Bytes} (h : StartsWithFrame (x ++ more)) (epoch : Nat) :
    decodeSegmentHeader C x ≠ .ok epoch := by
  intro hhead
  have hlen := length_of_decodeSegmentHeader C hhead
  have hmagic : (x ++ more).take 4 = segmentMagic.take 4 := by
    rw [← magic_of_decodeSegmentHeader hhead, take_take,
      take_append_of_le_length (by simp [segmentHeaderLen] at hlen; omega)]
    rfl
  rcases h with hnil | ⟨len, rest, hle, heq⟩
  · rw [hnil] at hmagic
    exact absurd hmagic (by decide)
  rw [heq, take_left' (length_leBytes ..)] at hmagic
  have hval : len = ofLE (segmentMagic.take 4) := by
    rw [← hmagic, ofLE_leBytes (lt_of_le_of_lt hle (by decide))]
  rw [hval] at hle
  exact absurd hle (by decide)

/-- The segment file `name` holds frames only, counting the buffer if it is the active one. -/
def Headless (name : Nat) (a : Actor) : Prop :=
  ∃ x, (name, x) ∈ a.dir.files ∧ StartsWithFrame (x ++ if a.current.map (·.name) = some name then a.buf else [])

theorem Headless.congr (h : Headless name a) (hdir : a'.dir = a.dir)
    (hcur : a'.current = a.current) (hbuf : a'.buf = a.buf) : Headless name a' := by
  unfold Headless
  rw [hdir, hcur, hbuf]
  exact h

theorem SegmentDir.mem_append {name n : Nat} {x : Bytes} (h : (n, x) ∈ d.files) (bytes : Bytes) :
    (n, if n = name then x ++ bytes else x) ∈ (d.append name bytes).files := by
  refine mem_map.mpr ⟨(n, x), h, ?_⟩
  split <;> rfl

theorem SegmentDir.mem_create {d d' : SegmentDir} {bytes : Bytes} (h : d.create name bytes = some d') :
    name ∉ d.names ∧ ∀ x ∈ d.files, x ∈ d'.files := by
  unfold SegmentDir.create at h
  split at h
  · simp at h
  rename_i hnew
  refine ⟨hnew, fun x hx => ?_⟩
  rw [← some.inj h]
  have hne : x.1 ≠ name := fun heq => hnew (heq ▸ mem_map_of_mem hx)
  rcases lt_or_gt_of_ne hne with hlt | hgt
  · exact mem_append_left _ (mem_filter.mpr ⟨hx, by simpa using hlt⟩)
  · exact mem_append_right _ (mem_cons_of_mem _ (mem_filter.mpr ⟨hx, by simpa using hgt⟩))

section

variable {name : Nat} {a : Actor}

section

variable (h : Headless name a)
include h

theorem headless_flushWritten :
    Ends (fun _ => True) (flushWritten a) fun a' => Headless name a' ∧ (a'.current = none ∨ a'.buf = []) := by
  unfold flushWritten
  split
  · rename_i hcur
    exact ⟨h, .inl hcur⟩
  rename_i seg hcur
  split
  · rename_i hbuf
    exact ⟨h, .inr hbuf⟩
  split
  · rename_i b hio
    obtain ⟨io, rfl⟩ := nextIo_ok hio
    refine ⟨?_, .inr rfl⟩
    obtain ⟨x, hx, hframe⟩ := h
    refine ⟨_, SegmentDir.mem_append hx a.buf, ?_⟩
    by_cases hname : name = seg.name <;> simp_all [Actor.publish, eq_comm]
  · trivial

theorem headless_flushSync :
    Ends (fun _ => True) (flushSync a) fun a' => Headless name a' ∧ (a'.current = none ∨ a'.buf = []) := by
  refine (headless_flushWritten h).bind fun b ⟨hb, hbuf⟩ => ?_
  split
  · exact ⟨hb, hbuf⟩
  split
  · trivial
  · rename_i b' hio
    obtain ⟨io, rfl⟩ := nextIo_ok hio
    exact ⟨hb.congr (by simp) (by simp) (by simp), by simpa using hbuf⟩

theorem headless_createSegment (hbuf : a.current = none ∨ a.buf = []) (txId : Nat) :
    Ends (fun _ => True) (createSegment C a txId) (Headless name) := by
  unfold createSegment
  split
  · rename_i b hio
    obtain ⟨io, rfl⟩ := nextIo_ok hio
    split
    · rename_i dir hdir
      obtain ⟨hnew, hmem⟩ := SegmentDir.mem_create hdir
      obtain ⟨x, hx, hframe⟩ := h
      have hne : txId ≠ name := fun heq => hnew (heq ▸ mem_map_of_mem hx)
      refine ⟨x, hmem _ hx, ?_⟩
      rcases hbuf with hbuf | hbuf <;> simp_all
    · trivial
  · trivial
  · split <;> trivial

theorem headless_rotate (txId : Nat) :
    Ends (fun _ => True) (rotate C segmentMaxBytes a txId) (Headless name) := by
  unfold rotate
  split
  · rename_i hcur
    exact headless_createSegment h (.inl hcur) txId
  · split
    · exact (headless_flushSync h).bind fun b ⟨hb, hbuf⟩ => headless_createSegment hb hbuf txId
    · exact h

theorem headless_writeRecord (record : TxRecord) :
    Ends (fun _ => True) (writeRecord C segmentMaxBytes a record) (Headless name) := by
  unfold writeRecord
  split
  · trivial
  rename_i fr hfr
  obtain ⟨body, -, hentry⟩ := bind_eq_some_iff.mp hfr
  unfold encodeEntry at hentry
  split at hentry
  case isFalse => simp at hentry
  rename_i hbody
  refine (headless_rotate h record.txId).bind fun b ⟨x, hx, hframe⟩ => ?_
  split
  · trivial
  rename_i seg hseg
  refine ⟨x, hx, ?_⟩
  rw [hseg] at hframe
  by_cases hname : seg.name = name
  · have := hframe.append (C := C) a.epoch hbody
    simpa [buffer, hname, ← some.inj hentry] using this
  · simpa [buffer, hname] using hframe

end

theorem headless_processLoop (C : Codec) (segmentMaxBytes : Nat) : ∀ (cmds : List Cmd) (wrote : Bool) (a : Actor), Headless name a →
    Ends (fun _ => True) (processLoop C segmentMaxBytes cmds wrote a) (Headless name)
  | [], false, _, h => h
  | [], true, a, h => (headless_flushWritten h).bind fun b ⟨hb, _⟩ => hb.congr rfl rfl rfl
  | .append record :: cmds, _, a, h =>
    (headless_writeRecord h record).bind fun b hb => headless_processLoop C segmentMaxBytes cmds true b hb
  | .setEpoch epoch :: cmds, wrote, a, h => by
    have hflush : Ends (fun _ => True) (flushIf wrote a) (Headless name) := by
      cases wrote with
      | false => exact h
      | true => exact (headless_flushSync h).mono fun _ hb => hb.1
    refine hflush.bind fun b hb => ?_
    apply headless_processLoop C segmentMaxBytes cmds false
    split <;> exact hb.congr rfl rfl rfl

end

/-- A file without a header stays without one, until a failure. -/
theorem headless_step (label : Step) (h : Headless name s.actor) (hw : s.actor.watch ≠ .failed)
    (hs : step C segmentMaxBytes shardId s label = some s') : s'.actor.watch = .failed ∨ Headless name s'.actor := by
  cases label with
  | append record | setEpoch epoch =>
    simp only [step, ite_none_right_eq_some, some.injEq] at hs
    exact .inr (hs.2 ▸ h)
  | batch extra io =>
    simp only [step, ite_none_right_eq_some, some.injEq, batchStep, if_neg hw] at hs
    obtain ⟨-, rfl⟩ := hs
    have hends := headless_processLoop C segmentMaxBytes (s.queue.take (extra + 1)) false
      { s.actor with io } (h.congr rfl rfl rfl)
    split
    · rename_i a hres
      exact .inr (hends.of_ok hres)
    · exact .inl rfl
  | exit io =>
    obtain ⟨-, rfl⟩ := Runs.of_guard hs
    have hends := headless_flushSync (a := { s.actor with io }) (h.congr rfl rfl rfl)
    unfold exitStep
    cases hres : flushSync { s.actor with io } with
    | ok a => exact .inr ((hends.of_ok hres).1.congr rfl rfl rfl)
    | error a => exact .inl rfl
  | syncStart | syncEnd =>
    obtain ⟨syncer, cursor, watch, rfl, -⟩ := step_sync (by simp) hs
    exact .inr (h.congr rfl rfl rfl)

/-! ### Whole runs -/

/-- After a last segment was cut back to nothing, a run that ends without a failure leaves it without a
header. -/
theorem headless_run {r : Recovery} {epoch : Nat} {steps : List Step}
    (hrec : recover C shardId d = .ok r) (htail : ¬ TailEpochOk C shardId d)
    (hrun : Runs.run (step C segmentMaxBytes shardId) (Log.opened r epoch) steps = some s)
    (hw : s.actor.watch ≠ .failed) : ∃ name, Headless name s.actor := by
  obtain ⟨pre, name, us, c, hfiles, ht, -, -⟩ := cut_of_recover hrec htail
  have hstart : Headless name (Log.opened r epoch).actor := by
    refine ⟨[], ?_, .inl (by simp [Log.opened, ht])⟩
    change (name, []) ∈ r.dir.files
    simp [hfiles]
  have := Runs.run_invariant (I := fun s => s.actor.watch = .failed ∨ Headless name s.actor) ?_ (.inr hstart) hrun
  · exact ⟨name, this.resolve_left hw⟩
  rintro s l s' hI hs
  by_cases hw : s.actor.watch = .failed
  · exact .inl (watch_failed_step l hs hw)
  · exact headless_step l (hI.resolve_left hw) hw hs

/-- **Opening is a repair, exactly if the last segment is not of an older epoch.** The log was opened by
recovery, ran, and stopped without an error. -/
theorem repaired_iff_tailEpochOk {d : SegmentDir} {r : Recovery} {epoch : Nat} {steps : List Step}
    (hrec : recover C shardId d = .ok r) (hepoch : r.report.epoch ≤ epoch) (hu64 : epoch < 2 ^ 64)
    (hnames : ∀ label ∈ steps, NamesBefore r.dir.names label)
    (hrun : Runs.run (step C segmentMaxBytes shardId) (Log.opened r epoch) steps = some s)
    (hstop : s.phase = .stopped) (hw : s.actor.watch ≠ .failed) :
    Repaired C shardId r s ↔ TailEpochOk C shardId d := by
  constructor
  · intro hrep
    by_contra htail
    obtain ⟨name, x, hx, hframe⟩ := headless_run hrec htail hrun hw
    obtain ⟨e, hhead⟩ := hrep.headers _ hx
    exact hframe.no_header e hhead
  · intro htail
    exact (logInv_run (logInv_opened hrec htail hepoch hu64) hnames hrun hw).repaired hstop hw

/-- A segment with record 1 and three bytes of a frame that was never finished. -/
def tornDir : SegmentDir where
  files := [(1, encodeSegmentHeader idCodec 0 ++ frame idCodec 0 (leBytes 8 1) ++ [8, 0, 0])]
  sorted := by simp

/-- Append record 2, write it, shut down. -/
def appendTwo : List Step := [.append (idRecord 2), .batch 0 [], .exit []]

theorem repaired_tornDir :
    ∃ r s, recover idCodec 0 tornDir = .ok r ∧
      r.report.quarantine = some ⟨1, 48, 3, .entry (.torn (.envelope 3))⟩ ∧
      Runs.run (step idCodec 1024 0) (Log.opened r 7) appendTwo = some s ∧ Repaired idCodec 0 r s := by
  obtain ⟨r, hr, hq, hepoch, hnames, s, hrun, hphase, hwatch⟩ : ∃ r ∈ (recover idCodec 0 tornDir).toOption,
      r.report.quarantine = some ⟨1, 48, 3, .entry (.torn (.envelope 3))⟩ ∧ r.report.epoch ≤ 7 ∧
      (∀ label ∈ appendTwo, NamesBefore r.dir.names label) ∧
      ∃ s ∈ Runs.run (step idCodec 1024 0) (Log.opened r 7) appendTwo, s.phase = .stopped ∧ s.actor.watch ≠ .failed := by
    decide +kernel
  have hrec := toOption_eq_some_iff.mp hr
  exact ⟨r, s, hrec, hq, hrun,
    (repaired_iff_tailEpochOk hrec hepoch (by decide) hnames hrun hphase hwatch).mpr (by decide +kernel)⟩

/-- Record 1 under epoch 5, then a segment whose header is of epoch 3. -/
def olderTailDir : SegmentDir where
  files := [(1, encodeSegmentHeader idCodec 5 ++ frame idCodec 5 (leBytes 8 1)), (2, encodeSegmentHeader idCodec 3)]
  sorted := by simp

/-- **A log that is not repaired.** Record 2 is appended and acknowledged as durable; the next open
quarantines the segment it is in, and replay stops at record 1. -/
theorem older_tail_header_loses_appended :
    ∃ r s r', recover idCodec 0 olderTailDir = .ok r ∧ r.report.epoch = 5 ∧
      Runs.run (step idCodec 1024 0) (Log.opened r 5) appendTwo = some s ∧
      s.appended.map (·.txId) = [2] ∧ s.actor.watch = .durable (some 2) ∧
      recover idCodec 0 s.actor.dir = .ok r' ∧
      r'.report.quarantine = some ⟨2, 0, 24, .header .badMagic⟩ ∧
      (recordsOf idCodec 0 s.actor.dir).map (·.txId) = [1] := by
  obtain ⟨r, hrec, hepoch, s, hrun, happ, hwatch, r', hrec', hq⟩ : ∃ r ∈ (recover idCodec 0 olderTailDir).toOption,
      r.report.epoch = 5 ∧ ∃ s ∈ Runs.run (step idCodec 1024 0) (Log.opened r 5) appendTwo,
        s.appended.map (·.txId) = [2] ∧ s.actor.watch = .durable (some 2) ∧
          ∃ r' ∈ (recover idCodec 0 s.actor.dir).toOption,
            r'.report.quarantine = some ⟨2, 0, 24, .header .badMagic⟩ ∧
            (recordsOf idCodec 0 s.actor.dir).map (·.txId) = [1] := by
    decide +kernel
  exact ⟨r, s, r', toOption_eq_some_iff.mp hrec, hepoch, hrun, happ, hwatch,
    toOption_eq_some_iff.mp hrec', hq⟩

end CommitLog
end Fluxum
