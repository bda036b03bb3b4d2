/-
# Reads as of an earlier transaction

`MemStore::snapshot_as_of` next to the commits of a store. A commit swaps the
live pointer to the state it publishes and then pushes that state to the
history, two steps that a reader can come between. A read takes the history
lock, compares its point with the entries and answers from the history; for a
point at or past the newest entry it answers from the live pointer, which it
loads after the comparison. No commit can push to the history while the lock
is held, but it can publish.

* `asOf_truthful`: an answer is the state that the transaction published, in
  runs whose loads are `Settled`.
* `asOf_answers_next_commit`: an answer that is the state of the next one.
-/
import Fluxum.Lib.Runs
import Fluxum.Store.TemporalWindow

namespace Fluxum

open List Option Prod

/-! ### The read -/

inductive AsOfPoint where
  | tx (n : Nat)
  | timestamp (micros : Int)
deriving DecidableEq

inductive AsOfError where
  /-- No commits are retained yet. -/
  | noneRetained
  /-- The point is older than the window, whose oldest entry is this one. -/
  | olderThanWindow (point : AsOfPoint) (txId : Nat) (atMicros : Int)
  /-- The point precedes every retained commit. -/
  | precedesAll

/-- The commit is at or before the point. -/
def AsOfPoint.covers : AsOfPoint → RetainedCommit → Bool
  | .tx n, e => decide (e.txId ≤ n)
  | .timestamp micros, e => decide (e.atMicros ≤ micros)

/-- What a read makes of the history. -/
inductive Lookup where
  /-- The live snapshot answers. -/
  | live
  | found (state : CommittedState)
  | error (e : AsOfError)

def lookup (point : AsOfPoint) : List RetainedCommit → Lookup
  | [] => .error .noneRetained
  | oldest :: rest =>
    if point.covers (rest.getLastD oldest) then .live
    else if point.covers oldest then
      ((oldest :: rest).reverse.find? point.covers).elim (.error .precedesAll) fun e => .found e.state
    else .error (.olderThanWindow point oldest.txId oldest.atMicros)

/-! ### The store -/

/-- What a transaction published. -/
abbrev Publication := Nat × CommittedState

/-- A call of `snapshot_as_of`, with what had been published when it began. -/
structure AsOfCall where
  point : AsOfPoint
  before : List Publication

structure Temporal where
  /-- The live pointer. -/
  live : CommittedState
  nextTxId : Nat
  /-- The commit that has published and not yet pushed to the history. -/
  unretained : Option Nat
  history : List RetainedCommit
  /-- The read that holds the history lock and is to load the live pointer. -/
  reading : Option AsOfCall
  /-- What was published, newest first. -/
  log : List Publication
  /-- The calls that returned a state. -/
  answers : List (AsOfCall × CommittedState)

/-- A store with a committed state and no history, as at assembly or after recovery. -/
def Temporal.start (live : CommittedState) (nextTxId : Nat) : Temporal := ⟨live, nextTxId, none, [], none, [], []⟩

inductive TemporalStep where
  /-- First step of a commit, which holds the writer lock until its second. -/
  | publish (state : CommittedState)
  /-- Second step; `exceeds` is what the byte bound reads meanwhile. -/
  | retain (atMicros : Int) (exceeds : List RetainedCommit → Bool)
  /-- A call takes the history lock and looks the point up. -/
  | ask (point : AsOfPoint)
  /-- The call that holds the lock loads the live pointer. -/
  | load

def temporalStep (o : WindowOptions) (s : Temporal) : TemporalStep → Option Temporal
  | .publish state =>
    if s.unretained.isSome then none
    else some { s with
      live := state
      nextTxId := s.nextTxId + 1
      unretained := some s.nextTxId
      log := (s.nextTxId, state) :: s.log }
  | .retain atMicros exceeds =>
    if s.reading.isSome then none
    else s.unretained.map fun txId =>
      { s with unretained := none, history := (retainWith o exceeds s.history ⟨txId, atMicros, s.live⟩).2 }
  | .ask point =>
    if s.reading.isSome then none
    else
      match lookup point s.history with
      | .live => some { s with reading := some ⟨point, s.log⟩ }
      | .found state => some { s with answers := (⟨point, s.log⟩, state) :: s.answers }
      | .error _ => some s
  | .load => s.reading.map fun call => { s with reading := none, answers := (call, s.live) :: s.answers }

/-- Every answer as of a transaction that had published before the call is the state it published. -/
def Truthful (s : Temporal) : Prop :=
  ∀ a ∈ s.answers, ∀ n state, a.1.point = .tx n → (n, state) ∈ a.1.before → a.2 = state

/-- The live pointer is not loaded for the newest entry of the history while a later commit is half done. -/
def Settled (s : Temporal) : TemporalStep → Prop
  | .load => ∀ call ∈ s.reading, ∀ newest ∈ s.history.getLast?, call.point = .tx newest.txId → s.unretained = none
  | _ => True

instance (s : Temporal) : ∀ label, Decidable (Settled s label)
  | .load =>
    inferInstanceAs (Decidable (∀ call ∈ s.reading, ∀ newest ∈ s.history.getLast?, call.point = .tx newest.txId →
      s.unretained = none))
  | .publish _ => .isTrue trivial
  | .retain _ _ => .isTrue trivial
  | .ask _ => .isTrue trivial

/-! ### The history is the end of the log -/

/-- The entry's transaction and state. -/
def RetainedCommit.publication (e : RetainedCommit) : Publication := (e.txId, e.state)

/-- What was published by the commits that have pushed. -/
def Temporal.retainedLog (s : Temporal) : List Publication := if s.unretained.isSome then s.log.tail else s.log

/-- Newest first, each transaction after those before it. -/
def Descending (log : List Publication) : Prop := log.Pairwise fun p q => q.1 < p.1

structure TemporalOk (o : WindowOptions) (s : Temporal) : Prop where
  descending : Descending s.log
  issued : ∀ p ∈ s.log, p.1 < s.nextTxId
  live : ∀ p ∈ s.log.head?, p.2 = s.live
  unretained : ∀ txId ∈ s.unretained, s.log.head? = some (txId, s.live)
  history : s.history.map RetainedCommit.publication <:+ s.retainedLog.reverse
  bounded : s.history.length ≤ o.temporalWindow
  reading : ∀ call ∈ s.reading, call.before <:+ s.log ∧ ∃ newest ∈ s.history.getLast?, call.point.covers newest = true
  truthful : Truthful s

section History

variable {o : WindowOptions} {s : Temporal}

theorem temporalOk_start (o : WindowOptions) (live : CommittedState) (nextTxId : Nat) :
    TemporalOk o (Temporal.start live nextTxId) where
  descending := Pairwise.nil
  issued := fun p hp => absurd hp not_mem_nil
  live := fun p hp => absurd hp (by simp [Temporal.start])
  unretained := fun txId htx => absurd htx (by simp [Temporal.start])
  history := nil_suffix
  bounded := Nat.zero_le _
  reading := fun call hcall => absurd hcall (by simp [Temporal.start])
  truthful := fun a ha => absurd ha not_mem_nil

/-- A commit that is half done is the newest of the log. -/
theorem TemporalOk.log_eq (h : TemporalOk o s) {txId : Nat} (htx : s.unretained = some txId) :
    s.log = (txId, s.live) :: s.retainedLog := by
  have hhead := h.unretained txId htx
  rw [Temporal.retainedLog, htx]
  cases hlog : s.log with
  | nil => rw [hlog] at hhead; cases hhead
  | cons p log =>
    rw [hlog] at hhead
    cases hhead
    rfl

theorem Temporal.retainedLog_suffix (s : Temporal) : s.retainedLog <:+ s.log := by
  unfold Temporal.retainedLog
  split
  · exact tail_suffix _
  · exact suffix_refl _

theorem TemporalOk.newest (h : TemporalOk o s) {newest : RetainedCommit} (hn : newest ∈ s.history.getLast?) :
    s.retainedLog.head? = some newest.publication := by
  obtain ⟨pre, hpre⟩ := h.history
  have hlast : (s.history.map RetainedCommit.publication).getLast? = some newest.publication := by
    rw [getLast?_map, hn]
    rfl
  rw [← getLast?_reverse, ← hpre, getLast?_append, hlast]
  rfl

end History

/-! ### What the history answers -/

section Lookup

variable {o : WindowOptions} {s : Temporal} {point : AsOfPoint}

theorem getLast?_cons_eq (oldest : RetainedCommit) (rest : List RetainedCommit) :
    (oldest :: rest).getLast? = some (rest.getLastD oldest) := by
  rw [getLast?_cons, getLastD_eq_getLast?]

theorem lookup_live {history : List RetainedCommit} (h : lookup point history = .live) :
    ∃ newest ∈ history.getLast?, point.covers newest = true := by
  cases history with
  | nil => cases h
  | cons oldest rest =>
    refine ⟨rest.getLastD oldest, getLast?_cons_eq oldest rest, ?_⟩
    by_contra hnot
    rw [lookup, if_neg hnot] at h
    split at h
    · cases hfind : (oldest :: rest).reverse.find? point.covers <;> rw [hfind] at h <;> cases h
    · cases h

variable {state : CommittedState}

theorem lookup_found {history : List RetainedCommit} (h : lookup point history = .found state) :
    ∃ oldest rest e, history = oldest :: rest ∧ point.covers (rest.getLastD oldest) = false ∧
      point.covers oldest = true ∧ history.reverse.find? point.covers = some e ∧ e.state = state := by
  cases history with
  | nil => cases h
  | cons oldest rest =>
    rw [lookup] at h
    split at h
    · cases h
    rename_i hnewest
    split at h
    · rename_i holdest
      cases hfind : (oldest :: rest).reverse.find? point.covers with
      | none => rw [hfind] at h; cases h
      | some e =>
        rw [hfind] at h
        obtain rfl := Lookup.found.inj h
        exact ⟨oldest, rest, e, rfl, Bool.eq_false_iff.mpr hnewest, holdest, rfl, rfl⟩
    · cases h

theorem TemporalOk.history_descending (h : TemporalOk o s) : s.history.reverse.Pairwise fun e e' => e'.txId < e.txId := by
  have hprefix : s.history.reverse.map RetainedCommit.publication <+: s.retainedLog := by
    rw [map_reverse, ← reverse_suffix, reverse_reverse]
    exact h.history
  have hsub := hprefix.sublist.trans s.retainedLog_suffix.sublist
  exact pairwise_map.mp (h.descending.sublist hsub)

/-- What a transaction before the newest entry published is in the history, if the oldest entry is not past it. -/
theorem TemporalOk.mem_history (h : TemporalOk o s) {n : Nat} (hmem : (n, state) ∈ s.log)
    {oldest newest : RetainedCommit} (holdest : oldest ∈ s.history.head?) (hnewest : newest ∈ s.history.getLast?)
    (hle : oldest.txId ≤ n) (hlt : n < newest.txId) : ∃ e ∈ s.history, e.publication = (n, state) := by
  have hhead := h.newest hnewest
  have hretained : (n, state) ∈ s.retainedLog := by
    cases hun : s.unretained with
    | none =>
      rw [Temporal.retainedLog, hun]
      exact hmem
    | some txId =>
      -- the commit that is half done comes after the newest entry
      have hlog := h.log_eq hun
      have hdesc := h.descending
      rw [hlog] at hmem hdesc
      refine (mem_cons.mp hmem).resolve_left fun heq => ?_
      have hafter := (pairwise_cons.mp hdesc).1 newest.publication (mem_of_mem_head? hhead)
      have heqTx : n = txId := (mk.inj heq).1
      simp only [RetainedCommit.publication] at hafter
      omega
  obtain ⟨pre, hpre⟩ := h.history
  have hascending : (pre ++ s.history.map RetainedCommit.publication).Pairwise fun p q => p.1 < q.1 := by
    rw [hpre, pairwise_reverse]
    exact h.descending.sublist s.retainedLog_suffix.sublist
  rw [← mem_reverse, ← hpre, mem_append] at hretained
  rcases hretained with hmem' | hmem'
  · have hbefore := (pairwise_append.mp hascending).2.2 _ hmem' oldest.publication
      (mem_map_of_mem (mem_of_mem_head? holdest))
    simp only [RetainedCommit.publication] at hbefore
    omega
  · exact mem_map.mp hmem'

/-- **The history answers with the state of the transaction.** -/
theorem TemporalOk.found_truthful (h : TemporalOk o s) {n : Nat} {state' : CommittedState}
    (hfound : lookup (.tx n) s.history = .found state) (hmem : (n, state') ∈ s.log) : state = state' := by
  obtain ⟨oldest, rest, e, hhistory, hnewest, holdest, hfind, rfl⟩ := lookup_found hfound
  have hlast : rest.getLastD oldest ∈ s.history.getLast? := by
    rw [hhistory]
    exact getLast?_cons_eq oldest rest
  have hlt : n < (rest.getLastD oldest).txId := Nat.lt_of_not_le (of_decide_eq_false hnewest)
  obtain ⟨e', he', hpub⟩ := h.mem_history hmem (by rw [hhistory]; rfl) hlast (of_decide_eq_true holdest) hlt
  cases hpub
  -- the entry found is the last one not past the transaction, so it is the transaction's own
  obtain ⟨hcovers, newer, older, hsplit, hskipped⟩ := find?_eq_some_iff_append.mp hfind
  have hdesc := h.history_descending
  have hin := mem_reverse.mpr he'
  rw [hsplit] at hdesc hin
  rcases mem_append.mp hin with hskip | hin
  · have := hskipped e' hskip
    simp [AsOfPoint.covers] at this
  rcases mem_cons.mp hin with rfl | holder
  · rfl
  · have hbelow := (pairwise_cons.mp (pairwise_append.mp hdesc).2.1).1 e' holder
    exact absurd (of_decide_eq_true hcovers) (Nat.not_le.mpr hbelow)

/-- **The live pointer answers with the state of the transaction**, unless a later commit is half done. -/
theorem TemporalOk.live_truthful (h : TemporalOk o s) {n : Nat} {newest : RetainedCommit}
    (hnewest : newest ∈ s.history.getLast?) (hcovers : newest.txId ≤ n)
    (hsettled : n = newest.txId → s.unretained = none) (hmem : (n, state) ∈ s.log) : s.live = state := by
  have hhead := h.newest hnewest
  cases hun : s.unretained with
  | none =>
    have hretained : s.retainedLog = s.log := by
      rw [Temporal.retainedLog, hun]
      rfl
    rw [hretained] at hhead
    have hlive := h.live _ hhead
    obtain ⟨tail, htail⟩ := head?_eq_some_iff.mp hhead
    have hdesc := h.descending
    rw [htail] at hmem hdesc
    rcases mem_cons.mp hmem with heq | hlater
    · rw [← hlive, ← heq]
    · have := (pairwise_cons.mp hdesc).1 _ hlater
      simp only [RetainedCommit.publication] at this
      omega
  | some txId =>
    have hlog := h.log_eq hun
    have hdesc := h.descending
    rw [hlog] at hmem hdesc
    rcases mem_cons.mp hmem with heq | hearlier
    · exact (mk.inj heq).2.symm
    -- no transaction lies between the newest entry and the commit that is half done
    obtain ⟨tail, htail⟩ := head?_eq_some_iff.mp hhead
    have hretained := (pairwise_cons.mp hdesc).2
    rw [htail] at hearlier hretained
    have hn : n = newest.txId := by
      rcases mem_cons.mp hearlier with heq | hlater
      · exact (mk.inj heq).1
      · have := (pairwise_cons.mp hretained).1 _ hlater
        simp only [RetainedCommit.publication] at this
        omega
    rw [hsettled hn] at hun
    cases hun

end Lookup

/-! ### The steps -/

section Steps

variable {o : WindowOptions} {s s' : Temporal}

theorem temporalOk_publish {state : CommittedState} (h : TemporalOk o s)
    (hs : temporalStep o s (.publish state) = some s') : TemporalOk o s' := by
  rw [temporalStep] at hs
  split at hs
  · cases hs
  rename_i hun
  cases hs
  have hretained : s.retainedLog = s.log := if_neg hun
  refine ⟨pairwise_cons.mpr ⟨fun q hq => h.issued q hq, h.descending⟩, ?_, ?_, ?_, ?_, h.bounded, ?_, h.truthful⟩
  · intro p hp
    rcases mem_cons.mp hp with rfl | hp
    · exact Nat.lt_succ_self _
    · exact Nat.lt_succ_of_lt (h.issued p hp)
  · intro p hp
    cases hp
    rfl
  · intro txId htx
    cases htx
    rfl
  · rw [← hretained]
    exact h.history
  · intro call hcall
    obtain ⟨hbefore, hnewest⟩ := h.reading call hcall
    exact ⟨hbefore.trans (suffix_cons _ _), hnewest⟩

theorem temporalOk_retain {atMicros : Int} {exceeds : List RetainedCommit → Bool} (h : TemporalOk o s)
    (hs : temporalStep o s (.retain atMicros exceeds) = some s') : TemporalOk o s' := by
  rw [temporalStep] at hs
  split at hs
  · cases hs
  rename_i hidle
  obtain ⟨txId, htx, rfl⟩ := map_eq_some_iff.mp hs
  refine ⟨h.descending, h.issued, h.live, fun _ hnone => absurd hnone (by simp), ?_, length_retainWith_le h.bounded, ?_,
    h.truthful⟩
  · have hkept : (retainWith o exceeds s.history ⟨txId, atMicros, s.live⟩).2 <:+ s.history ++ [⟨txId, atMicros, s.live⟩] :=
      ⟨_, retainWith_append h.bounded⟩
    have hpushed : (s.history ++ [RetainedCommit.mk txId atMicros s.live]).map RetainedCommit.publication <:+ s.log.reverse := by
      obtain ⟨pre, hpre⟩ := h.history
      refine ⟨pre, ?_⟩
      rw [h.log_eq htx, reverse_cons, ← hpre, map_append, append_assoc]
      rfl
    exact (hkept.map RetainedCommit.publication).trans hpushed
  · intro call hcall
    exact absurd (isSome_iff_exists.mpr ⟨call, hcall⟩) hidle

theorem temporalOk_ask {point : AsOfPoint} (h : TemporalOk o s) (hs : temporalStep o s (.ask point) = some s') :
    TemporalOk o s' := by
  rw [temporalStep] at hs
  split at hs
  · cases hs
  cases hlook : lookup point s.history with
  | live =>
    rw [hlook] at hs
    cases hs
    refine { h with reading := ?_, truthful := h.truthful, history := h.history }
    intro call hcall
    cases hcall
    exact ⟨suffix_refl _, lookup_live hlook⟩
  | found state =>
    rw [hlook] at hs
    cases hs
    refine { h with truthful := ?_, history := h.history }
    intro a ha n published hpoint hbefore
    rcases mem_cons.mp ha with rfl | ha
    · have hpoint : point = .tx n := hpoint
      rw [hpoint] at hlook
      exact h.found_truthful hlook hbefore
    · exact h.truthful a ha n published hpoint hbefore
  | error e =>
    rw [hlook] at hs
    cases hs
    exact h

theorem temporalOk_load (h : TemporalOk o s) (hsettled : Settled s .load) (hs : temporalStep o s .load = some s') :
    TemporalOk o s' := by
  obtain ⟨call, hcall, rfl⟩ := map_eq_some_iff.mp hs
  refine { h with truthful := ?_, history := h.history, reading := fun _ hnone => absurd hnone (by simp) }
  intro a ha n published hpoint hbefore
  rcases mem_cons.mp ha with rfl | ha
  · obtain ⟨hsuffix, newest, hnewest, hcovers⟩ := h.reading call hcall
    have hpoint : call.point = .tx n := hpoint
    rw [hpoint] at hcovers
    refine h.live_truthful hnewest (of_decide_eq_true hcovers) (fun hn => ?_) (hsuffix.subset hbefore)
    exact hsettled call hcall newest hnewest (hpoint.trans (congrArg AsOfPoint.tx hn))
  · exact h.truthful a ha n published hpoint hbefore

theorem temporalOk_step (label : TemporalStep) (h : TemporalOk o s) (hsettled : Settled s label)
    (hs : temporalStep o s label = some s') : TemporalOk o s' := by
  cases label with
  | publish state => exact temporalOk_publish h hs
  | retain atMicros exceeds => exact temporalOk_retain h hs
  | ask point => exact temporalOk_ask h hs
  | load => exact temporalOk_load h hsettled hs

/-- **An answer as of a transaction is the state it published**, in every interleaving of commits and reads in which
the live pointer is not loaded for the newest entry while a later commit is half done. -/
theorem asOf_truthful {live : CommittedState} {nextTxId : Nat} {labels : List TemporalStep}
    (hmeets : Runs.Meets (temporalStep o) Settled (Temporal.start live nextTxId) labels)
    (hrun : Runs.run (temporalStep o) (Temporal.start live nextTxId) labels = some s) : Truthful s :=
  (Runs.run_invariant_of_meets (fun _ l _ => temporalOk_step l) (temporalOk_start o live nextTxId) hmeets hrun).truthful

end Steps

/-! ### A read between the two steps of a commit -/

/-- A state with no tables. -/
def emptyState (version : Nat) : CommittedState := ⟨∅, version⟩

/-- Room for eight commits, and for any number of bytes. -/
def eightCommits : WindowOptions := ⟨8, 2 ^ 64 - 1, 4096⟩

/-- A read as of transaction 2 comes between the two steps of it, and one as of transaction 1 after them. -/
def settledReads : List TemporalStep :=
  [.publish (emptyState 1), .retain 0 fun _ => false, .publish (emptyState 2), .ask (.tx 2), .load,
    .retain 1 fun _ => false, .ask (.tx 1)]

theorem asOf_truthful_settledReads :
    ∃ s, Runs.run (temporalStep eightCommits) (Temporal.start (emptyState 0) 1) settledReads = some s ∧
      s.answers.map (·.2.version) = [1, 2] ∧ Truthful s := by
  obtain ⟨s, hrun, hanswers⟩ : ∃ s ∈ Runs.run (temporalStep eightCommits) (Temporal.start (emptyState 0) 1) settledReads,
      s.answers.map (·.2.version) = [1, 2] := by
    decide +kernel
  exact ⟨s, hrun, hanswers, asOf_truthful (by decide +kernel) hrun⟩

/-- Transaction 1 commits; the read as of it comes between the two steps of transaction 2. -/
def unsettledReads : List TemporalStep :=
  [.publish (emptyState 1), .retain 0 fun _ => false, .publish (emptyState 2), .ask (.tx 1), .load]

theorem asOf_answers_next_commit :
    ∃ s, Runs.run (temporalStep eightCommits) (Temporal.start (emptyState 0) 1) unsettledReads = some s ∧
      (∃ a ∈ s.answers, a.1.point = .tx 1 ∧ (1, emptyState 1) ∈ a.1.before ∧ a.2 = emptyState 2) ∧ ¬ Truthful s := by
  refine ⟨_, rfl, ⟨_, mem_cons_self, rfl, mem_cons_of_mem _ mem_cons_self, rfl⟩, fun h => ?_⟩
  have heq := h _ mem_cons_self 1 (emptyState 1) rfl (mem_cons_of_mem _ mem_cons_self)
  exact absurd (congrArg CommittedState.version heq) (by decide)

end Fluxum
