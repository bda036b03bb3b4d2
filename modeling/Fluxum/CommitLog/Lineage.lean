/-
# The lineage of an epoch

`set_epoch` as the writer and the syncer of `commitlog/writer.rs` process it.
The writer flushes and fsyncs inline before it raises the epoch only if the
same batch wrote frames before the command; records of earlier batches are
left to the syncer, which may be any number of batches behind.

What a run shows is recorded beside the threads: for each request the records
appended before it, the epoch in the envelope of each record, and for each
acknowledgement what was published and fsynced at that moment.

* `epoch_sealed`: an acknowledged epoch seals the lineage before it, in runs
  that meet `Drained`.
* `epoch_raised_over_unsynced`: a request that is acknowledged too early.
* `framed_in_order`: unless the log fails, records are framed in order.
-/
import Fluxum.CommitLog.Watermark

namespace Fluxum
namespace CommitLog

open Bytes List Option

/-! ### What a run shows -/

/-- The epoch in a frame's envelope. -/
def frameEpoch (frame : Bytes) : Nat := ofLE ((frame.drop 4).take 8)

/-- An accepted `set_epoch`: the records appended before the request, the epochs before and after, and the durable
channel and the disk at its acknowledgement. -/
structure Raised where
  before : List TxRecord
  previous : Nat
  epoch : Nat
  watch : DurableState
  history : List DiskEvent

structure Lineage where
  threads : Threads
  /-- The records appended before each request that the writer has not come to, the oldest first. -/
  asked : List (List TxRecord)
  /-- The records in the write buffer or out of it, with the epoch of their envelope. -/
  stamped : List (TxRecord × Nat)
  raised : List Raised

/-- The writer thread's operation `op` leads to `t`. -/
def Lineage.observeOp (s : Lineage) (t : Threads) : Option WriterOp → Lineage
  | some (.buffer record frame) =>
    { s with
      threads := t
      stamped := if s.threads.actor.current.isSome then s.stamped ++ [(record, frameEpoch frame)] else s.stamped }
  | some (.setEpoch epoch) =>
    { s with
      threads := t
      asked := s.asked.tail
      raised :=
        if epoch < s.threads.actor.epoch then s.raised
        else ⟨s.asked.headD [], s.threads.actor.epoch, epoch, s.threads.actor.watch, s.threads.history⟩ :: s.raised }
  | _ => { s with threads := t }

def Lineage.observe (s : Lineage) (t : Threads) : ThreadStep → Lineage
  | .setEpoch _ => { s with threads := t, asked := s.asked ++ [s.threads.appended] }
  | .writer => s.observeOp t s.threads.ops.head?
  | _ => { s with threads := t }

/-- An epoch is a `u64`. -/
def ThreadStep.inRange : ThreadStep → Bool
  | .setEpoch epoch => decide (epoch < 2 ^ 64)
  | _ => true

def lineageStep (C : Codec) (segmentMaxBytes shardId : Nat) (s : Lineage) (label : ThreadStep) : Option Lineage :=
  if label.inRange then (threadStep C segmentMaxBytes shardId s.threads label).map (s.observe · label) else none

/-- The published watermark is at the last record written. -/
def Actor.published (a : Actor) : Bool :=
  match a.watch with
  | .durable mark => !markLt mark a.lastWritten
  | .failed => false

/-- What the writer finds when it comes to a request, and when it acknowledges one. -/
def DrainedAt (a : Actor) : Option WriterOp → Prop
  | some (.cmds (.setEpoch _ :: _) false) => a.published = true
  | some (.setEpoch _) => a.watch ≠ .failed
  | _ => True

/-- A request that follows no append in its batch (since the last request) finds the durable watermark at the last
record written, and the durable channel has not failed when it is acknowledged. -/
def Drained (s : Lineage) : ThreadStep → Prop
  | .writer => DrainedAt s.threads.actor s.threads.ops.head?
  | _ => True

/-- The record is fsynced, and the durable watermark covers it. -/
def Raised.Covers (a : Raised) (record : TxRecord) : Prop :=
  Fsynced record a.history ∧ ∃ mark, a.watch = .durable (some mark) ∧ record.txId ≤ mark

/-- Each acknowledged epoch seals the lineage before it. -/
def Sealed (s : Lineage) : Prop :=
  ∀ a ∈ s.raised, (∀ record ∈ a.before, a.Covers record) ∧
    ∀ p ∈ s.stamped, (p.1 ∈ a.before → p.2 ≤ a.previous) ∧ (p.1 ∉ a.before → a.epoch ≤ p.2)

/-! ### The commands still to come -/

/-- The commands an operation is still to carry out. -/
def WriterOp.cmdsLeft : WriterOp → List Cmd
  | .cmds rest _ => rest
  | .writeRecord record => [.append record]
  | .buffer record _ => [.append record]
  | .setEpoch epoch => [.setEpoch epoch]
  | _ => []

def opsCmds (ops : List WriterOp) : List Cmd := ops.flatMap WriterOp.cmdsLeft

/-- With the records `done` processed, the commands still to come make up the accepted records, and each request among
them was made after those before it. -/
def Aligned (done : List TxRecord) : List Cmd → List (List TxRecord) → List TxRecord → Prop
  | [], asked, appended => asked = [] ∧ appended = done
  | .append record :: cmds, asked, appended => Aligned (done ++ [record]) cmds asked appended
  | .setEpoch _ :: cmds, asked, appended => ∃ later, asked = done :: later ∧ Aligned done cmds later appended

/-- The log has failed, or is about to say so, and the writer comes to no further command. -/
def Broken (t : Threads) : Prop := opsCmds t.ops = [] ∧ (t.actor.watch = .failed ∨ .fail ∈ t.ops)

/-- The operations before the end of a batch: a framed record carries the current epoch, and a request is acknowledged
only after the mark is published (`covered`). -/
def Rest (epoch : Nat) : Bool → List WriterOp → Prop
  | _, [] => True
  | _, .cmds _ _ :: _ => False
  | _, .writeRecord _ :: ops => ∃ cmds, ops = [.cmds cmds true]
  | _, .buffer _ frame :: ops => frameEpoch frame = epoch ∧ ∃ cmds, ops = [.cmds cmds true]
  | covered, .setEpoch _ :: ops => covered = true ∧ ∃ cmds, ops = [.cmds cmds false]
  | _, .publishDurable :: ops => Rest epoch true ops
  | covered, _ :: ops => Rest epoch covered ops

/-- The writer is at the head of what is left of its batch, or inside one command of it. -/
inductive Shape (a : Actor) (ops : List WriterOp) : Prop where
  | cmds (cmds : List Cmd) (wrote : Bool) (hops : ops = [.cmds cmds wrote]) (hcurrent : wrote = true → a.current.isSome)
  | inside (covered : Bool) (hrest : Rest a.epoch covered ops)
      (hcovered : covered = true → a.watch = .failed ∨ a.published = true)

variable {C : Codec} {shardId segmentMaxBytes : Nat} {t t' : Threads} {ops : List WriterOp} {op : WriterOp}
variable {cmds : List Cmd} {epoch : Nat}

theorem frameEpoch_frame (h : epoch < 2 ^ 64) (body : Bytes) : frameEpoch (frame C epoch body) = epoch := by
  rw [frameEpoch, frame, frameBody]
  simp only [append_assoc]
  rw [drop_left' (length_leBytes ..), take_left' (length_leBytes ..), ofLE_leBytes (by simpa using h)]

theorem Aligned.records : ∀ {done : List TxRecord} {asked : List (List TxRecord)} {appended : List TxRecord},
    Aligned done cmds asked appended → appended = done ++ cmdRecords cmds := by
  induction cmds with
  | nil =>
    rintro done asked appended ⟨-, rfl⟩
    simp [cmdRecords]
  | cons cmd cmds ih =>
    intro done asked appended h
    cases cmd with
    | append record => simpa [cmdRecords] using ih h
    | setEpoch epoch =>
      obtain ⟨later, -, h⟩ := h
      simpa [cmdRecords] using ih h

theorem Aligned.trans {cmds' : List Cmd} {asked' : List (List TxRecord)} {appended' : List TxRecord} :
    ∀ {done : List TxRecord} {asked : List (List TxRecord)} {appended : List TxRecord}, Aligned done cmds asked appended →
      Aligned appended cmds' asked' appended' → Aligned done (cmds ++ cmds') (asked ++ asked') appended' := by
  induction cmds with
  | nil =>
    rintro done asked appended ⟨rfl, rfl⟩ h'
    exact h'
  | cons cmd cmds ih =>
    intro done asked appended h h'
    cases cmd with
    | append r => exact ih h h'
    | setEpoch epoch =>
      obtain ⟨later, rfl, h⟩ := h
      exact ⟨later ++ asked', rfl, ih h h'⟩

/-! ### What a step does to them -/

/-- All commands still to come. -/
def pendingCmds (t : Threads) : List Cmd := opsCmds t.ops ++ t.queue

/-- The commands still to come stay as they are, or the log breaks. -/
def Onward (t t' : Threads) : Prop :=
  pendingCmds t' = pendingCmds t ∧ (Broken t → Broken t') ∧ (.close ∈ t'.ops → .close ∈ t.ops) ∨
    Broken t' ∧ pendingCmds t' ⊆ pendingCmds t

theorem opsCmds_append (ops ops' : List WriterOp) : opsCmds (ops ++ ops') = opsCmds ops ++ opsCmds ops' := flatMap_append

theorem opsCmds_flushOps (a : Actor) : opsCmds (flushOps a) = [] := by
  unfold flushOps
  split <;> rfl

theorem opsCmds_rotateOps (a : Actor) (txId : Nat) : opsCmds (rotateOps segmentMaxBytes a txId) = [] := by
  unfold rotateOps
  split
  · rfl
  split
  · rw [opsCmds_append, opsCmds_flushOps]
    rfl
  · rfl

theorem close_notMem_rotateOps (a : Actor) (txId : Nat) : .close ∉ rotateOps segmentMaxBytes a txId := by
  unfold rotateOps flushOps
  cases a.current with
  | none => simp
  | some seg => by_cases h : segmentMaxBytes ≤ seg.len <;> simp [h]

theorem rest_abort (t : Threads) (epoch : Nat) (covered : Bool) : Rest epoch covered t.abort.ops := by
  unfold Threads.abort
  by_cases h : t.phase = .stopped <;> simp [Rest, h]

theorem onward_abort {t' : Threads} (hops : t'.ops = t.abort.ops) (hqueue : t'.queue = t.queue) :
    Onward t t' := by
  have hbroken : Broken t' := by
    rw [Broken, hops, Threads.abort]
    by_cases h : t.phase = .stopped <;> simp [h, opsCmds, WriterOp.cmdsLeft]
  refine .inr ⟨hbroken, ?_⟩
  rw [pendingCmds, hbroken.1, hqueue]
  exact subset_append_right _ _

/-- An operation that carries out no command. -/
def WriterOp.plumbing : WriterOp → Bool
  | .cmds _ _ => false
  | .writeRecord _ => false
  | .buffer _ _ => false
  | .setEpoch _ => false
  | .close => false
  | _ => true

/-- What such an operation leaves: the operations after it, or those of a failure. -/
structure Plumbed (ops : List WriterOp) (t t' : Threads) : Prop where
  ops : t'.ops = ops ∨ t'.ops = t.abort.ops
  queue : t'.queue = t.queue
  phase : t'.phase = t.phase
  epoch : t'.actor.epoch = t.actor.epoch
  lastWritten : t'.actor.lastWritten = t.actor.lastWritten

theorem FileMove.plumbed (h : FileMove ops t t') : Plumbed ops t t' := by
  cases h with
  | fails => exact ⟨.inr rfl, rfl, rfl, rfl, rfl⟩
  | done => exact ⟨.inl rfl, rfl, rfl, rfl, rfl⟩

theorem plumbed_exec (hop : op.plumbing = true) : Plumbed ops t (exec C segmentMaxBytes t ops op) := by
  cases op with
  | cmds | writeRecord | buffer | setEpoch | close => cases hop
  | createSegment | write | fsync => exact FileMove.plumbed (exec_onFile rfl)
  | publishDurable =>
    obtain ⟨watch, hw, -⟩ := publishDurable_eq t.actor t.actor.lastWritten
    simp only [exec, hw]
    exact ⟨.inl rfl, rfl, rfl, rfl, rfl⟩
  | markSynced | handoff | fail | shutdown => exact ⟨.inl rfl, rfl, rfl, rfl, rfl⟩

theorem failed_of_follows {a a' : Actor} (h : Follows a.watch a'.watch) (hw : a.watch = .failed) : a'.watch = .failed := by
  rw [hw] at h
  cases hw' : a'.watch with
  | failed => rfl
  | durable mark => rw [hw'] at h; cases h

theorem Plumbed.onward (h : Plumbed ops t (exec C segmentMaxBytes t ops op)) (hops : t.ops = op :: ops)
    (hop : op.plumbing = true) (hfollows : Follows t.actor.watch (exec C segmentMaxBytes t ops op).actor.watch) :
    Onward t (exec C segmentMaxBytes t ops op) := by
  rcases h.ops with hpop | habort
  · have hleft : op.cmdsLeft = [] := by
      cases op <;> first | rfl | cases hop
    have hcmds : opsCmds (exec C segmentMaxBytes t ops op).ops = opsCmds t.ops := by
      rw [hpop, hops, opsCmds, opsCmds, flatMap_cons, hleft, nil_append]
    refine .inl ⟨by rw [pendingCmds, hcmds, h.queue, pendingCmds], fun hbroken => ⟨hcmds.trans hbroken.1, ?_⟩, fun hclose => ?_⟩
    · rcases hbroken.2 with hw | hfail
      · exact .inl (failed_of_follows hfollows hw)
      rw [hops] at hfail
      rcases mem_cons.mp hfail with rfl | hfail
      · exact .inl rfl
      · exact .inr (hpop.symm ▸ hfail)
    · rw [hpop] at hclose
      rw [hops]
      exact mem_cons_of_mem _ hclose
  · exact onward_abort habort h.queue

/-! ### The durable channel covers what is written -/

theorem published_of_follows {a a' : Actor} (h : Follows a.watch a'.watch) (hlast : a'.lastWritten = a.lastWritten)
    (hpub : a.watch = .failed ∨ a.published = true) : a'.watch = .failed ∨ a'.published = true := by
  unfold Actor.published at hpub ⊢
  rw [hlast]
  cases hw' : a'.watch with
  | failed => exact .inl rfl
  | durable newer =>
    rw [hw'] at h
    cases hw : a.watch with
    | failed => rw [hw] at h; cases h
    | durable older =>
      rw [hw] at h hpub
      refine .inr ?_
      have holder : markLt older a.lastWritten = false := by simpa using hpub
      simp only [markLt_trans holder h, Bool.not_false]

theorem published_publishDurable (a : Actor) :
    (a.publishDurable a.lastWritten).watch = .failed ∨ (a.publishDurable a.lastWritten).published = true := by
  unfold Actor.publishDurable
  cases hw : a.watch with
  | failed => exact .inl hw
  | durable current =>
    by_cases hlt : markLt current a.lastWritten = true
    · have hself : markLt a.lastWritten a.lastWritten = false := by
        cases a.lastWritten <;> simp [markLt]
      simp [hlt, Actor.published, hself]
    · have hnot : markLt current a.lastWritten = false := Bool.eq_false_iff.mpr hlt
      simp [hnot, Actor.published, hw]

theorem Plumbed.shape (h : Plumbed ops t (exec C segmentMaxBytes t ops op)) (hops : t.ops = op :: ops)
    (hop : op.plumbing = true) (hshape : Shape t.actor t.ops) (hfollows : Follows t.actor.watch (exec C segmentMaxBytes t ops op).actor.watch) :
    Shape (exec C segmentMaxBytes t ops op).actor (exec C segmentMaxBytes t ops op).ops := by
  rcases h.ops with hpop | habort
  · cases hshape with
    | cmds cmds wrote heq _ =>
      rw [hops] at heq
      obtain rfl := (cons.inj heq).1
      cases hop
    | inside covered hrest hcovered =>
      rw [hops] at hrest
      rw [hpop]
      by_cases hpub : op = .publishDurable
      · subst hpub
        refine .inside true (by rw [h.epoch]; exact hrest) fun _ => ?_
        exact published_publishDurable t.actor
      · refine .inside covered ?_ fun hc => published_of_follows hfollows h.lastWritten (hcovered hc)
        rw [h.epoch]
        cases op with
        | cmds | writeRecord | buffer | setEpoch | close => cases hop
        | publishDurable => exact absurd rfl hpub
        | createSegment | write | fsync | markSynced | handoff | fail | shutdown => exact hrest
  · exact .inside false (by rw [habort]; exact rest_abort t _ _) fun hc => by cases hc

/-! ### The steps -/

structure LineageOk (s : Lineage) : Prop where
  threads : ThreadsOk [] s.threads
  epoch : s.threads.actor.epoch < 2 ^ 64
  requests : ∀ epoch, Cmd.setEpoch epoch ∈ pendingCmds s.threads → epoch < 2 ^ 64
  aligned : Aligned (s.stamped.map Prod.fst) (pendingCmds s.threads) s.asked s.threads.appended ∨ Broken s.threads
  closing : .close ∈ s.threads.ops → Broken s.threads
  shape : Shape s.threads.actor s.threads.ops
  written : ∀ p ∈ s.stamped, ∃ last ∈ s.threads.actor.lastWritten, p.1.txId ≤ last
  stamps : ∀ p ∈ s.stamped, p.2 ≤ s.threads.actor.epoch
  raised : ∀ a ∈ s.raised, a.epoch ≤ s.threads.actor.epoch ∧ a.before ⊆ s.stamped.map Prod.fst
  holds : Sealed s

variable {s s' : Lineage}

theorem LineageOk.onward (h : LineageOk s) (hthreads : ThreadsOk [] t) (honward : Onward s.threads t)
    (hshape : Shape t.actor t.ops) (happended : t.appended = s.threads.appended)
    (hepoch : t.actor.epoch = s.threads.actor.epoch) (hlast : t.actor.lastWritten = s.threads.actor.lastWritten) :
    LineageOk { s with threads := t } where
  threads := hthreads
  epoch := hepoch ▸ h.epoch
  requests epoch hmem := by
    rcases honward with ⟨heq, -⟩ | ⟨-, hsub⟩
    · exact h.requests epoch (heq ▸ hmem)
    · exact h.requests epoch (hsub hmem)
  aligned := by
    rcases honward with ⟨heq, hbroken, -⟩ | ⟨hbroken, -⟩
    · refine h.aligned.imp (fun haligned => ?_) hbroken
      rw [heq, happended]
      exact haligned
    · exact .inr hbroken
  closing := by
    rcases honward with ⟨-, hbroken, hclose⟩ | ⟨hbroken, -⟩
    · exact fun hmem => hbroken (h.closing (hclose hmem))
    · exact fun _ => hbroken
  shape := hshape
  written p hp := by
    rw [hlast]
    exact h.written p hp
  stamps p hp := hepoch ▸ h.stamps p hp
  raised a ha := hepoch ▸ h.raised a ha
  holds := h.holds

theorem lineageOk_cmds {wrote : Bool} (h : LineageOk s)
    (hops : s.threads.ops = .cmds cmds wrote :: ops) (hdrained : DrainedAt s.threads.actor (some (.cmds cmds wrote)))
    (hthreads : ThreadsOk [] (exec C segmentMaxBytes s.threads ops (.cmds cmds wrote))) :
    LineageOk { s with threads := exec C segmentMaxBytes s.threads ops (.cmds cmds wrote) } := by
  have hshape := h.shape
  rw [hops] at hshape
  cases hshape with
  | inside covered hrest _ => exact hrest.elim
  | cmds cmds' wrote' heq hcurrent =>
  obtain ⟨⟨⟩, rfl⟩ := cons.inj heq
  have hsame : ∀ {new : List WriterOp}, opsCmds new = cmds → .close ∉ new →
      Onward s.threads { s.threads with ops := new } := by
    intro new hnew hclose
    have hcmds : opsCmds s.threads.ops = opsCmds new := by
      rw [hops, hnew]
      simp [opsCmds, WriterOp.cmdsLeft]
    refine .inl ⟨by rw [pendingCmds, pendingCmds, hcmds], fun hbroken => ⟨hcmds ▸ hbroken.1, hbroken.2.imp_right ?_⟩,
      fun hmem => absurd hmem hclose⟩
    intro hfail
    rw [hops] at hfail
    simp at hfail
  cases cmds with
  | nil => cases wrote <;> exact h.onward hthreads (hsame rfl (by simp)) (.inside false trivial (by simp)) rfl rfl rfl
  | cons cmd cmds =>
  cases cmd with
  | append record =>
    refine h.onward hthreads (hsame ?_ (by simp)) (.inside false ⟨cmds, rfl⟩ (by simp)) rfl rfl rfl
    simp [opsCmds, WriterOp.cmdsLeft]
  | setEpoch epoch =>
  cases wrote with
  | false =>
    refine h.onward hthreads (hsame ?_ (by simp)) (.inside true ⟨rfl, cmds, rfl⟩ fun _ => .inr hdrained) rfl rfl rfl
    simp [opsCmds, WriterOp.cmdsLeft]
  | true =>
    -- frames are buffered, so there is an active segment to flush
    obtain ⟨seg, hseg⟩ := isSome_iff_exists.mp (hcurrent rfl)
    have hflush : flushOps s.threads.actor = [.write, .fsync, .markSynced, .publishDurable] := by
      rw [flushOps, hseg]
    refine h.onward hthreads (hsame ?_ (by simp [hflush])) (.inside false ?_ (by simp)) rfl rfl rfl
    · simp [hflush, opsCmds, WriterOp.cmdsLeft]
    · show Rest _ false ((if true = true then flushOps s.threads.actor else []) ++ _)
      rw [if_pos rfl, hflush]
      exact ⟨rfl, cmds, rfl⟩

variable {record : TxRecord}

section

variable (h : LineageOk s)
include h

/-- The writer frames a record, under the current epoch. -/
theorem lineageOk_writeRecord (hops : s.threads.ops = .writeRecord record :: ops)
    (hthreads : ThreadsOk [] (exec C segmentMaxBytes s.threads ops (.writeRecord record))) :
    LineageOk { s with threads := exec C segmentMaxBytes s.threads ops (.writeRecord record) } := by
  have hshape := h.shape
  rw [hops] at hshape
  cases hshape with
  | cmds cmds wrote heq _ => cases heq
  | inside covered hrest _ =>
  obtain ⟨cmds, rfl⟩ := hrest
  simp only [exec] at hthreads ⊢
  split at hthreads
  · refine h.onward hthreads (onward_abort rfl rfl) ?_ rfl rfl rfl
    exact .inside false (rest_abort s.threads _ _) (by simp)
  rename_i frame hframe
  obtain ⟨body, -, hentry⟩ := bind_eq_some_iff.mp hframe
  simp only [encodeEntry, ite_none_right_eq_some, some.injEq] at hentry
  have hepoch : frameEpoch frame = s.threads.actor.epoch := by
    rw [← hentry.2]
    exact frameEpoch_frame h.epoch body
  refine h.onward hthreads ?_ (.inside false ?_ (by simp)) rfl rfl rfl
  · have hcmds : opsCmds (rotateOps segmentMaxBytes s.threads.actor record.txId ++ [.buffer record frame, .cmds cmds true]) =
        opsCmds s.threads.ops := by
      rw [opsCmds_append, opsCmds_rotateOps, hops]
      rfl
    refine .inl ⟨by rw [pendingCmds, pendingCmds, ← hcmds], fun hbroken => ?_, fun hclose => ?_⟩
    · rw [Broken, hops] at hbroken
      simp [opsCmds, WriterOp.cmdsLeft] at hbroken
    · exact absurd hclose (by simp [close_notMem_rotateOps])
  · have hbuffer : ∀ c, Rest s.threads.actor.epoch c [.buffer record frame, .cmds cmds true] := fun c => ⟨hepoch, cmds, rfl⟩
    unfold rotateOps
    split
    · exact hbuffer false
    rename_i seg hseg
    split
    · rw [flushOps, hseg]
      exact hbuffer true
    · exact hbuffer false

theorem LineageOk.beyond {rest : List Cmd} (hpending : pendingCmds s.threads = .append record :: rest)
    (haligned : Aligned (s.stamped.map Prod.fst) (pendingCmds s.threads) s.asked s.threads.appended) :
    ∀ r ∈ s.stamped.map Prod.fst, r.txId < record.txId := by
  obtain ⟨done, left, hw, -⟩ := h.threads
  have hsorted := hw.sorted
  rw [haligned.records, hpending, pairwise_append] at hsorted
  exact fun r hr => hsorted.2.2 r hr record (by simp [cmdRecords])

theorem lineageOk_buffer {frame : Bytes} (hops : s.threads.ops = .buffer record frame :: ops)
    (hthreads : ThreadsOk [] (exec C segmentMaxBytes s.threads ops (.buffer record frame))) :
    LineageOk (s.observeOp (exec C segmentMaxBytes s.threads ops (.buffer record frame)) (some (.buffer record frame))) := by
  have hshape := h.shape
  rw [hops] at hshape
  cases hshape with
  | cmds cmds wrote heq _ => cases heq
  | inside covered hrest _ =>
  obtain ⟨hepoch, cmds, rfl⟩ := hrest
  simp only [exec] at hthreads ⊢
  cases hcurrent : s.threads.actor.current with
  | none =>
    simp only [hcurrent] at hthreads
    simp only [Lineage.observeOp, hcurrent, isSome_none, Bool.false_eq_true, if_false]
    refine h.onward hthreads (onward_abort rfl rfl) ?_ rfl rfl rfl
    exact .inside false (rest_abort s.threads _ _) (by simp)
  | some seg =>
    simp only [hcurrent] at hthreads
    simp only [Lineage.observeOp, hcurrent, isSome_some, if_true]
    have hpending : pendingCmds s.threads = .append record :: (cmds ++ s.threads.queue) := by
      rw [pendingCmds, hops]
      simp [opsCmds, WriterOp.cmdsLeft]
    have haligned := h.aligned.resolve_right fun hbroken => by
      rw [Broken, hops] at hbroken
      simp [opsCmds, WriterOp.cmdsLeft] at hbroken
    have hbeyond := h.beyond hpending haligned
    have hafter : pendingCmds { s.threads with
        actor := buffer s.threads.actor seg frame record.txId
        buffered := s.threads.buffered ++ [record]
        ops := [.cmds cmds true] } = cmds ++ s.threads.queue := by
      simp [pendingCmds, opsCmds, WriterOp.cmdsLeft]
    refine ⟨hthreads, h.epoch, fun epoch hmem => ?_, .inl ?_, by simp, .cmds cmds true rfl (fun _ => rfl), fun p hp => ?_,
      fun p hp => ?_, fun a ha => ?_, fun a ha => ⟨(h.holds a ha).1, fun p hp => ?_⟩⟩
    · rw [hafter] at hmem
      exact h.requests epoch (hpending ▸ mem_cons_of_mem _ hmem)
    · rw [hpending] at haligned
      rw [hafter, map_append]
      exact haligned
    · refine ⟨record.txId, rfl, ?_⟩
      rcases mem_append.mp hp with hp | hp
      · exact Nat.le_of_lt (hbeyond p.1 (mem_map_of_mem hp))
      · rw [mem_singleton.mp hp]
    · rcases mem_append.mp hp with hp | hp
      · exact h.stamps p hp
      · rw [mem_singleton.mp hp]
        exact Nat.le_of_eq hepoch
    · obtain ⟨hle, hsub⟩ := h.raised a ha
      refine ⟨hle, fun r hr => ?_⟩
      rw [map_append]
      exact mem_append_left _ (hsub hr)
    · rcases mem_append.mp hp with hp | hp
      · exact (h.holds a ha).2 p hp
      · -- the record is later than every acknowledgement so far
        rw [mem_singleton.mp hp]
        obtain ⟨hle, hsub⟩ := h.raised a ha
        refine ⟨fun hbefore => ?_, fun _ => ?_⟩
        · exact absurd (hbeyond record (hsub hbefore)) (Nat.lt_irrefl _)
        · exact hle.trans (Nat.le_of_eq hepoch.symm)

theorem LineageOk.covers (hpub : s.threads.actor.published = true) {r : TxRecord}
    (hr : r ∈ s.stamped.map Prod.fst) (hmem : r ∈ s.threads.appended) :
    Fsynced r s.threads.history ∧ ∃ mark, s.threads.actor.watch = .durable (some mark) ∧ r.txId ≤ mark := by
  obtain ⟨p, hp, rfl⟩ := mem_map.mp hr
  obtain ⟨last, hlast, hle⟩ := h.written p hp
  unfold Actor.published at hpub
  cases hw : s.threads.actor.watch with
  | failed => rw [hw] at hpub; cases hpub
  | durable mark =>
    rw [hw, mem_def.mp hlast] at hpub
    cases mark with
    | none => simp [markLt] at hpub
    | some mark =>
      have hmark : last ≤ mark := by simpa [markLt] using hpub
      exact ⟨h.threads.honest mark hw p.1 (mem_append_right _ hmem) (hle.trans hmark), mark, rfl, hle.trans hmark⟩

theorem lineageOk_setEpoch (hops : s.threads.ops = .setEpoch epoch :: ops)
    (hdrained : s.threads.actor.watch ≠ .failed)
    (hthreads : ThreadsOk [] (exec C segmentMaxBytes s.threads ops (.setEpoch epoch))) :
    LineageOk (s.observeOp (exec C segmentMaxBytes s.threads ops (.setEpoch epoch)) (some (.setEpoch epoch))) := by
  have hshape := h.shape
  rw [hops] at hshape
  cases hshape with
  | cmds cmds wrote heq _ => cases heq
  | inside covered hrest hcovered =>
  obtain ⟨rfl, cmds, rfl⟩ := hrest
  have hpub := (hcovered rfl).resolve_left hdrained
  have hpending : pendingCmds s.threads = .setEpoch epoch :: (cmds ++ s.threads.queue) := by
    rw [pendingCmds, hops]
    simp [opsCmds, WriterOp.cmdsLeft]
  have haligned := h.aligned.resolve_right fun hbroken => by
    rw [Broken, hops] at hbroken
    simp [opsCmds, WriterOp.cmdsLeft] at hbroken
  have happended := haligned.records
  rw [hpending] at haligned
  obtain ⟨later, hasked, haligned⟩ := haligned
  have hafter : ∀ a : Actor, pendingCmds { s.threads with actor := a, ops := [.cmds cmds false] } = cmds ++ s.threads.queue := by
    intro a
    simp [pendingCmds, opsCmds, WriterOp.cmdsLeft]
  have hrequests : ∀ e, Cmd.setEpoch e ∈ cmds ++ s.threads.queue → e < 2 ^ 64 := fun e hmem =>
    h.requests e (hpending ▸ mem_cons_of_mem _ hmem)
  simp only [exec] at hthreads ⊢
  by_cases hlow : epoch < s.threads.actor.epoch
  · simp only [hlow, if_true] at hthreads
    simp only [Lineage.observeOp, hlow, if_true, hasked, tail_cons]
    refine ⟨hthreads, h.epoch, fun e hmem => ?_, .inl ?_, by simp, .cmds cmds false rfl (by simp), h.written, h.stamps, h.raised,
      h.holds⟩
    · rw [hafter] at hmem
      exact hrequests e hmem
    · rw [hafter]
      exact haligned
  · simp only [hlow, if_false] at hthreads
    simp only [Lineage.observeOp, hlow, if_false, hasked, tail_cons, headD_cons]
    have hraise : s.threads.actor.epoch ≤ epoch := Nat.le_of_not_lt hlow
    refine ⟨hthreads, ?_, fun e hmem => ?_, .inl ?_, by simp, .cmds cmds false rfl (by simp), h.written,
      fun p hp => (h.stamps p hp).trans hraise, fun a ha => ?_, fun a ha => ?_⟩
    · exact h.requests epoch (hpending ▸ mem_cons_self)
    · rw [hafter] at hmem
      exact hrequests e hmem
    · rw [hafter]
      exact haligned
    · rcases mem_cons.mp ha with rfl | ha
      · exact ⟨Nat.le_refl _, Subset.refl _⟩
      · exact ⟨(h.raised a ha).1.trans hraise, (h.raised a ha).2⟩
    · rcases mem_cons.mp ha with rfl | ha
      · refine ⟨fun r hr => h.covers hpub hr (happended ▸ mem_append_left _ hr), fun p hp => ⟨fun _ => h.stamps p hp, ?_⟩⟩
        exact fun hout => absurd (mem_map_of_mem hp) hout
      · exact h.holds a ha

theorem lineageOk_close (hops : s.threads.ops = .close :: ops)
    (hthreads : ThreadsOk [] (exec C segmentMaxBytes s.threads ops .close)) :
    LineageOk { s with threads := exec C segmentMaxBytes s.threads ops .close } := by
  obtain ⟨done, left, hw, -⟩ := h.threads
  obtain ⟨clean, synced, hin, -, -⟩ := hops ▸ hw.ordered
  obtain rfl : ops = [] := hin
  have hfailed : s.threads.actor.watch = .failed := by
    have hbroken := h.closing (by simp [hops])
    simpa [Broken, hops] using hbroken.2
  refine h.onward hthreads (.inr ⟨⟨rfl, .inl hfailed⟩, ?_⟩) (.inside false trivial (by simp)) rfl rfl rfl
  exact nil_subset _

end

theorem appended_exec (op : WriterOp) : (exec C segmentMaxBytes t ops op).appended = t.appended := by
  by_cases hpub : op = .publishDurable
  · rw [hpub]
    rfl
  by_cases hhand : op = .handoff
  · rw [hhand]
    rfl
  · exact (quiet_exec hpub hhand).later.appended

section

variable (h : LineageOk s)
include h

theorem lineageOk_writer (hdrained : Drained s .writer)
    (hs : threadStep C segmentMaxBytes shardId s.threads .writer = some t) : LineageOk (s.observe t .writer) := by
  have hthreads := threadsOk_step .writer h.threads hs
  have hfollows := follows_step hs
  simp only [threadStep] at hs
  split at hs
  · cases hs
  rename_i op ops hops
  cases hs
  simp only [Drained, hops, head?_cons] at hdrained
  simp only [Lineage.observe, hops, head?_cons]
  by_cases hop : op.plumbing = true
  · have hplumbed : Plumbed ops s.threads (exec C segmentMaxBytes s.threads ops op) := plumbed_exec hop
    have hok : LineageOk { s with threads := exec C segmentMaxBytes s.threads ops op } :=
      h.onward hthreads (hplumbed.onward hops hop hfollows) (hplumbed.shape hops hop h.shape hfollows) (appended_exec op) hplumbed.epoch
        hplumbed.lastWritten
    cases op with
    | cmds | writeRecord | buffer | setEpoch | close => cases hop
    | createSegment | write | fsync | markSynced | publishDurable | handoff | fail | shutdown => exact hok
  · cases op with
    | cmds cmds wrote => exact lineageOk_cmds h hops hdrained hthreads
    | writeRecord record => exact lineageOk_writeRecord h hops hthreads
    | buffer record frame => exact lineageOk_buffer h hops hthreads
    | setEpoch epoch => exact lineageOk_setEpoch h hops hdrained hthreads
    | close => exact lineageOk_close h hops hthreads
    | createSegment | write | fsync | markSynced | publishDurable | handoff | fail | shutdown => exact absurd rfl hop

/-- A command is queued; `asked` is for a request what was appended before it. -/
theorem LineageOk.accepts {cmd : Cmd} {asked : List (List TxRecord)} (hthreads : ThreadsOk [] t)
    (hqueue : t.queue = s.threads.queue ++ [cmd]) (hops : t.ops = s.threads.ops) (hactor : t.actor = s.threads.actor)
    (hrange : ∀ epoch, cmd = .setEpoch epoch → epoch < 2 ^ 64) (haligned : Aligned s.threads.appended [cmd] asked t.appended) :
    LineageOk { s with threads := t, asked := s.asked ++ asked } := by
  have hpending : pendingCmds t = pendingCmds s.threads ++ [cmd] := by
    rw [pendingCmds, hops, hqueue, ← append_assoc, pendingCmds]
  have hbroken : Broken s.threads → Broken t := by rw [Broken, Broken, hops, hactor]; exact id
  refine ⟨hthreads, hactor ▸ h.epoch, fun epoch hmem => ?_, h.aligned.imp (fun h => ?_) hbroken, hops ▸ (hbroken <| h.closing ·),
    hops ▸ hactor ▸ h.shape, hactor ▸ h.written, hactor ▸ h.stamps, hactor ▸ h.raised, h.holds⟩
  · rw [hpending] at hmem
    rcases mem_append.mp hmem with hmem | hmem
    · exact h.requests epoch hmem
    · exact hrange epoch (mem_singleton.mp hmem).symm
  · rw [hpending]
    exact h.trans haligned

theorem lineageOk_append
    (hs : threadStep C segmentMaxBytes shardId s.threads (.append record) = some t) : LineageOk { s with threads := t } := by
  have hthreads := threadsOk_step (.append record) h.threads hs
  obtain ⟨-, rfl⟩ := Runs.of_guard hs
  simpa using h.accepts hthreads rfl rfl rfl (by simp) ⟨rfl, rfl⟩

theorem lineageOk_request (hrange : epoch < 2 ^ 64)
    (hs : threadStep C segmentMaxBytes shardId s.threads (.setEpoch epoch) = some t) :
    LineageOk { s with threads := t, asked := s.asked ++ [s.threads.appended] } := by
  have hthreads := threadsOk_step (.setEpoch epoch) h.threads hs
  obtain ⟨-, rfl⟩ := Runs.of_guard hs
  refine h.accepts hthreads rfl rfl rfl (fun e he => ?_) ⟨[], rfl, rfl, rfl⟩
  cases he
  exact hrange

theorem lineageOk_batch {extra : Nat} {io : List Io}
    (hs : threadStep C segmentMaxBytes shardId s.threads (.batch extra io) = some t) : LineageOk { s with threads := t } := by
  have hthreads := threadsOk_step (.batch extra io) h.threads hs
  obtain ⟨⟨-, hops, -⟩, rfl⟩ := Runs.of_guard hs
  have hnil : s.threads.ops = [] := isEmpty_iff.mp hops
  unfold takeBatch at hthreads ⊢
  split at hthreads
  · rename_i hfailed
    rw [if_pos hfailed]
    refine h.onward hthreads (.inr ⟨⟨by rw [hnil]; rfl, .inl hfailed⟩, ?_⟩) (.inside false (by rw [hnil]; trivial) (by simp)) rfl
      rfl rfl
    simp [pendingCmds, hnil, opsCmds]
  · rename_i hfailed
    rw [if_neg hfailed]
    refine h.onward hthreads (.inl ⟨?_, fun hbroken => ?_, by simp⟩) (.cmds _ false rfl (by simp)) rfl rfl rfl
    · simp [pendingCmds, hnil, opsCmds, WriterOp.cmdsLeft, take_append_drop]
    · rw [Broken, hnil] at hbroken
      simp [hfailed] at hbroken

theorem lineageOk_exit {io : List Io}
    (hs : threadStep C segmentMaxBytes shardId s.threads (.exit io) = some t) : LineageOk { s with threads := t } := by
  have hthreads := threadsOk_step (.exit io) h.threads hs
  obtain ⟨⟨hops, -⟩, rfl⟩ := Runs.of_guard hs
  have hnil : s.threads.ops = [] := isEmpty_iff.mp hops
  have hcmds : opsCmds (flushOps s.threads.actor ++ [.shutdown]) = [] := by
    rw [opsCmds_append, opsCmds_flushOps]
    rfl
  refine h.onward hthreads (.inl ⟨?_, fun hbroken => ⟨hcmds, ?_⟩, fun hclose => absurd hclose ?_⟩) (.inside false ?_ (by simp)) rfl
    rfl rfl
  · simp only [pendingCmds, hcmds, hnil]
    rfl
  · rw [Broken, hnil] at hbroken
    exact .inl (by simpa using hbroken.2)
  · unfold flushOps
    split <;> simp
  · unfold flushOps
    split <;> trivial

end

theorem syncer_frame {ok : Bool} (hs : syncerStep t ok = some t') :
    t'.ops = t.ops ∧ t'.queue = t.queue ∧ t'.appended = t.appended ∧
      t'.actor.epoch = t.actor.epoch ∧ t'.actor.lastWritten = t.actor.lastWritten ∧ t'.actor.current = t.actor.current := by
  cases syncerMove_of_step hs with
  | publishes target =>
    obtain ⟨watch, hw, -⟩ := publishDurable_eq t.actor target
    rw [hw]
    exact ⟨rfl, rfl, rfl, rfl, rfl, rfl⟩
  | _ => exact ⟨rfl, rfl, rfl, rfl, rfl, rfl⟩

theorem lineageOk_syncer {ok : Bool} (h : LineageOk s)
    (hs : threadStep C segmentMaxBytes shardId s.threads (.syncer ok) = some t) : LineageOk { s with threads := t } := by
  have hthreads := threadsOk_step (.syncer ok) h.threads hs
  have hfollows := follows_step hs
  obtain ⟨hops, hqueue, happended, hepoch, hlast, hcurrent⟩ := syncer_frame hs
  refine h.onward hthreads (.inl ⟨?_, fun hbroken => ?_, hops ▸ id⟩) ?_ happended hepoch hlast
  · rw [pendingCmds, hops, hqueue, pendingCmds]
  · rw [Broken, hops]
    exact ⟨hbroken.1, hbroken.2.imp_left (failed_of_follows hfollows)⟩
  rw [hops]
  cases h.shape with
  | cmds cmds wrote heq hcur => exact .cmds cmds wrote heq (hcurrent ▸ hcur)
  | inside covered hrest hcovered =>
    exact .inside covered (hepoch ▸ hrest) fun hc => published_of_follows hfollows hlast (hcovered hc)

theorem lineageOk_step (label : ThreadStep) (h : LineageOk s) (hdrained : Drained s label)
    (hs : lineageStep C segmentMaxBytes shardId s label = some s') : LineageOk s' := by
  simp only [lineageStep, ite_none_right_eq_some] at hs
  obtain ⟨hrange, hs⟩ := hs
  obtain ⟨t, ht, rfl⟩ := map_eq_some_iff.mp hs
  cases label with
  | append record => exact lineageOk_append h ht
  | setEpoch epoch => exact lineageOk_request h (of_decide_eq_true hrange) ht
  | batch extra io => exact lineageOk_batch h ht
  | exit io => exact lineageOk_exit h ht
  | writer => exact lineageOk_writer h hdrained ht
  | syncer ok => exact lineageOk_syncer h ht

/-- Nothing has happened since the log was opened. -/
def Lineage.start (t : Threads) : Lineage := ⟨t, [], [], []⟩

theorem lineageOk_start {d : SegmentDir} {history : List DiskEvent}
    (hopen : openThreads C shardId epoch d history = .ok t) (hepoch : epoch < 2 ^ 64) : LineageOk (Lineage.start t) := by
  have hthreads : ThreadsOk [] t := threadsOk_opened hopen fun r hr => absurd hr not_mem_nil
  obtain ⟨r, -, rfl⟩ := openThreads_eq_ok hopen
  refine ⟨hthreads, hepoch, fun e hmem => ?_, .inl ⟨rfl, rfl⟩, nofun, .inside false trivial (by simp), ?_, ?_, ?_, ?_⟩
  · simp [pendingCmds, opsCmds, Lineage.start] at hmem
  all_goals intro x hx; exact absurd hx not_mem_nil

/-- **An acknowledged epoch seals the lineage before it**, in every interleaving of the two threads in which a request
that follows no append in its batch finds everything published, and none is acknowledged on a failed channel. -/
theorem epoch_sealed {epoch : Nat} {d : SegmentDir} {history : List DiskEvent} {t₀ : Threads} {steps : List ThreadStep}
    (hopen : openThreads C shardId epoch d history = .ok t₀) (hepoch : epoch < 2 ^ 64)
    (hmeets : Runs.Meets (lineageStep C segmentMaxBytes shardId) Drained (Lineage.start t₀) steps)
    (hrun : Runs.run (lineageStep C segmentMaxBytes shardId) (Lineage.start t₀) steps = some s) : Sealed s :=
  (Runs.run_invariant_of_meets (fun _ label _ => lineageOk_step label) (lineageOk_start hopen hepoch) hmeets hrun).holds

/-! ### A request in a batch of its own -/

instance (a : Actor) (op : Option WriterOp) : Decidable (DrainedAt a op) := by
  unfold DrainedAt
  split <;> infer_instance

instance (s : Lineage) (label : ThreadStep) : Decidable (Drained s label) := by
  unfold Drained
  split <;> infer_instance

/-- A record and a request, in one batch. -/
def oneBatch : List ThreadStep :=
  [.append (idRecord 1), .setEpoch 1, .batch 1 []] ++ List.replicate 10 .writer

theorem epoch_sealed_oneBatch :
    ∃ s, Runs.run (lineageStep idCodec 1024 0) (Lineage.start emptyThreads) oneBatch = some s ∧ s.raised.length = 1 ∧ Sealed s := by
  obtain ⟨s, hrun, hraised⟩ : ∃ s ∈ Runs.run (lineageStep idCodec 1024 0) (Lineage.start emptyThreads) oneBatch,
      s.raised.length = 1 := by
    decide +kernel
  exact ⟨s, hrun, hraised, epoch_sealed openThreads_empty (by decide) (by decide +kernel) hrun⟩

/-- The record in a batch, and the request in the next. -/
def twoBatches : List ThreadStep :=
  [.append (idRecord 1), .batch 0 []] ++ List.replicate 7 .writer ++ [.setEpoch 1, .batch 0 [], .writer, .writer]

/-- The request is acknowledged with the record before it neither fsynced nor covered by the watermark. -/
theorem epoch_raised_over_unsynced :
    ∃ s, Runs.run (lineageStep idCodec 1024 0) (Lineage.start emptyThreads) twoBatches = some s ∧
      (∃ a ∈ s.raised, a.epoch = 1 ∧ a.watch = .durable none ∧ ∃ r ∈ a.before, r.txId = 1 ∧ ¬ Fsynced r a.history) ∧
      ¬ Sealed s := by
  obtain ⟨s, hrun, a, hmem, hepoch, hwatch, ⟨r, hr, htx⟩, hhistory⟩ :
      ∃ s ∈ Runs.run (lineageStep idCodec 1024 0) (Lineage.start emptyThreads) twoBatches,
        ∃ a ∈ s.raised, a.epoch = 1 ∧ a.watch = .durable none ∧ (∃ r ∈ a.before, r.txId = 1) ∧
          a.history.map DiskEvent.isFsync = [true, false] := by
    decide +kernel
  refine ⟨s, hrun, ⟨a, hmem, hepoch, hwatch, r, hr, htx, not_fsynced_of_wrote hhistory⟩, fun hsealed => ?_⟩
  exact not_fsynced_of_wrote hhistory ((hsealed a hmem).1 r hr).1

end CommitLog
end Fluxum
