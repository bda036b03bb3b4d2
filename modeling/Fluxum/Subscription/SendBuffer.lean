/-
# The send buffer of a subscriber

`sendbuffer.rs`: the fan-out offers messages, the writer task takes them. A
connection is dropped as blocked when its window has been open for more than
five seconds. The window opens with the first message of an empty queue and
closes only when a take empties the queue, so it says nothing about the takes
in between.

* `blocked_drop_iff`: which calls lead to a drop of a subscriber that is not
  starved; byte count and order are right after all calls.
* `drained_subscriber_dropped`: such a drop.
-/
import Fluxum.Lib.Bytes
import Mathlib.Data.List.Infix

namespace Fluxum

/-! ### The buffer -/

inductive DropReason where
  | bufferFull
  | blockedTimeout
deriving DecidableEq, Repr

inductive Tier where
  | normal
  | pressured
  | full
deriving DecidableEq, Repr

inductive Offered where
  | enqueued
  | skippedPressured
  | drop (reason : DropReason)
deriving DecidableEq, Repr

structure Message where
  bytes : Bytes
  tickSourced : Bool
  highPriority : Bool

structure SubscriberBuffer where
  capacityBytes : Nat
  queuedBytes : Nat
  queue : List Bytes
  /-- When the first message of an empty queue came. -/
  blockedSince : Option Int

/-- The two comparisons of the occupancy, which the source makes in floating point. -/
structure Occupancy where
  /-- More than 90% of the capacity is queued. -/
  above : (queued capacity : Nat) → Bool
  /-- At least 50% is. -/
  half : (queued capacity : Nat) → Bool

def saturatingSub (a b : Int) : Int := max (-9223372036854775808) (min 9223372036854775807 (a - b))

def blockedDropAfter : Int := 5000000

namespace SubscriberBuffer

variable (occupancy : Occupancy)

def new (capacityBytes : Nat) : SubscriberBuffer := ⟨max capacityBytes 1, 0, [], none⟩

def blockedPastDeadline (b : SubscriberBuffer) (now : Int) : Bool :=
  b.blockedSince.any fun since => blockedDropAfter < saturatingSub now since

def tier (b : SubscriberBuffer) (now : Int) : Tier :=
  if b.blockedPastDeadline now then .full
  else if occupancy.above b.queuedBytes b.capacityBytes then .full
  else if occupancy.half b.queuedBytes b.capacityBytes then .pressured
  else .normal

def enqueue (b : SubscriberBuffer) (bytes : Bytes) (now : Int) : SubscriberBuffer :=
  { b with
    blockedSince := if b.queue.isEmpty then some now else b.blockedSince
    queuedBytes := b.queuedBytes + bytes.length
    queue := b.queue ++ [bytes] }

def offer (b : SubscriberBuffer) (m : Message) (now : Int) : Offered × SubscriberBuffer :=
  match b.tier occupancy now with
  | .full => (.drop (if b.blockedPastDeadline now then .blockedTimeout else .bufferFull), b)
  | .pressured =>
    if m.tickSourced && !m.highPriority then (.skippedPressured, b) else (.enqueued, b.enqueue m.bytes now)
  | .normal => (.enqueued, b.enqueue m.bytes now)

def take (b : SubscriberBuffer) : Option (Bytes × SubscriberBuffer) :=
  match b.queue with
  | [] => none
  | bytes :: queue =>
    some (bytes, { b with
      queue, queuedBytes := b.queuedBytes - bytes.length
      blockedSince := if queue.isEmpty then none else b.blockedSince })

end SubscriberBuffer

/-! ### What went in and out -/

/-- A buffer and what was seen of it. -/
structure Connection where
  buffer : SubscriberBuffer
  /-- The messages enqueued, in order. -/
  queued : List Bytes
  /-- The messages taken, in order. -/
  sent : List Bytes
  /-- The last take since the queue was empty, if it left messages waiting. -/
  servedAt : Option Int
  /-- Since when a message has waited while no take succeeded. -/
  idleSince : Option Int

inductive BufferCall where
  | offer (message : Message) (now : Int)
  /-- The source's `take` reads no clock; the time is for the record. -/
  | take (now : Int)

namespace Connection

variable (occupancy : Occupancy)

def new (capacityBytes : Nat) : Connection := ⟨.new capacityBytes, [], [], none, none⟩

def step (c : Connection) : BufferCall → Connection
  | .offer m now =>
    match c.buffer.offer occupancy m now with
    | (.enqueued, buffer) =>
      { c with
        buffer, queued := c.queued ++ [m.bytes]
        idleSince := if c.buffer.queue.isEmpty then some now else c.idleSince }
    | (_, buffer) => { c with buffer }
  | .take now =>
    match c.buffer.take with
    | none => c
    | some (bytes, buffer) =>
      let left := if buffer.queue.isEmpty then none else some now
      { c with buffer, sent := c.sent ++ [bytes], servedAt := left, idleSince := left }

/-- The connection after some calls. -/
def after (capacityBytes : Nat) (calls : List BufferCall) : Connection := calls.foldl (step occupancy) (.new capacityBytes)

/-- Some message has been queued for more than five seconds during which no take succeeded. -/
def Starved (c : Connection) (now : Int) : Prop := ∃ time ∈ c.idleSince, blockedDropAfter < now - time

/-- What the buffer is, by what was seen. -/
structure Inv (c : Connection) : Prop where
  bytes : c.buffer.queuedBytes = c.buffer.queue.flatten.length
  fifo : c.sent ++ c.buffer.queue = c.queued
  /-- A message has waited since the last take, or else since the window opened. -/
  idle : c.idleSince = c.servedAt.or c.buffer.blockedSince
  empty : c.buffer.queue = [] → c.servedAt = none

variable {c : Connection}

theorem offer_cases (b : SubscriberBuffer) (m : Message) (now : Int) :
    b.offer occupancy m now = (.enqueued, b.enqueue m.bytes now) ∨
      ∃ o, o ≠ .enqueued ∧ b.offer occupancy m now = (o, b) := by
  unfold SubscriberBuffer.offer
  split
  · exact .inr ⟨_, by simp, rfl⟩
  · split
    · exact .inr ⟨_, by simp, rfl⟩
    · exact .inl rfl
  · exact .inl rfl

theorem Inv.offer (h : c.Inv) (m : Message) (now : Int) : (c.step occupancy (.offer m now)).Inv := by
  rcases offer_cases occupancy c.buffer m now with hoffer | ⟨o, ho, hoffer⟩
  · simp only [step, hoffer]
    refine ⟨by simp [SubscriberBuffer.enqueue, h.bytes], by simp [SubscriberBuffer.enqueue, ← h.fifo], ?_, by
      simp [SubscriberBuffer.enqueue]⟩
    cases hq : c.buffer.queue with
    | nil => simp [SubscriberBuffer.enqueue, hq, h.empty hq]
    | cons bytes queue => simp [SubscriberBuffer.enqueue, hq, h.idle]
  · simp only [step, hoffer]
    cases o with
    | enqueued => exact absurd rfl ho
    | skippedPressured | drop reason => exact h

theorem Inv.take (h : c.Inv) (now : Int) : (c.step occupancy (.take now)).Inv := by
  unfold step SubscriberBuffer.take
  cases hq : c.buffer.queue with
  | nil => exact h
  | cons bytes queue =>
    have hbytes := h.bytes
    rw [hq, List.flatten_cons, List.length_append] at hbytes
    refine ⟨?_, by simp [← h.fifo, hq], ?_, fun hempty => if_pos (List.isEmpty_iff.mpr hempty)⟩
    · show c.buffer.queuedBytes - bytes.length = queue.flatten.length
      omega
    · dsimp only
      split <;> rfl

/-- **After any calls** the invariant holds. -/
theorem inv_after (capacityBytes : Nat) (calls : List BufferCall) : (after occupancy capacityBytes calls).Inv := by
  refine List.foldlRecOn calls _ ⟨rfl, rfl, rfl, fun _ => rfl⟩ fun c h call _ => ?_
  cases call with
  | offer m now => exact h.offer occupancy m now
  | take now => exact h.take occupancy now

/-! ### The window and the last take, by the calls -/

section Calls

variable (queue : List BufferCall → List Bytes) (calls : List BufferCall)

/-- Messages have waited since an offer at `since`, which found the queue empty. -/
def WaitsSince (since : Int) : Prop :=
  ∃ before m rest, calls = before ++ .offer m since :: rest ∧ queue before = [] ∧
    ∀ front, front <+: rest → queue (before ++ .offer m since :: front) ≠ []

/-- The last take was at `time`, and left messages waiting. -/
def LeftWaiting (time : Int) : Prop :=
  ∃ before rest, calls = before ++ .take time :: rest ∧ queue (before ++ [.take time]) ≠ [] ∧ ∀ now, .take now ∉ rest

variable {queue calls} {call : BufferCall} {since time : Int}

theorem waitsSince_concat : WaitsSince queue (calls ++ [call]) since ↔
    queue (calls ++ [call]) ≠ [] ∧ (WaitsSince queue calls since ∨ queue calls = [] ∧ ∃ m, call = .offer m since) := by
  constructor
  · rintro ⟨before, m, rest, heq, hempty, hwaits⟩
    refine ⟨heq ▸ hwaits rest List.prefix_rfl, ?_⟩
    rcases rest.eq_nil_or_concat' with rfl | ⟨rest, last, rfl⟩
    · obtain ⟨rfl, hcall⟩ := List.append_inj' heq rfl
      exact .inr ⟨hempty, m, by simpa using hcall⟩
    · rw [← List.cons_append, ← List.append_assoc] at heq
      obtain ⟨rfl, -⟩ := List.append_inj' heq rfl
      exact .inl ⟨before, m, rest, rfl, hempty, fun front hfront => hwaits front (hfront.trans (List.prefix_append _ _))⟩
  · rintro ⟨hlast, ⟨before, m, rest, rfl, hempty, hwaits⟩ | ⟨hempty, m, rfl⟩⟩
    · refine ⟨before, m, rest ++ [call], by simp, hempty, fun front hfront => ?_⟩
      rcases List.prefix_concat_iff.mp hfront with rfl | hfront
      · simpa using hlast
      · exact hwaits front hfront
    · refine ⟨calls, m, [], rfl, hempty, fun front hfront => ?_⟩
      rw [List.prefix_nil.mp hfront]
      exact hlast

theorem leftWaiting_concat : LeftWaiting queue (calls ++ [call]) time ↔
    (∀ now, call ≠ .take now) ∧ LeftWaiting queue calls time ∨ call = .take time ∧ queue (calls ++ [call]) ≠ [] := by
  constructor
  · rintro ⟨before, rest, heq, hleft, hlast⟩
    rcases rest.eq_nil_or_concat' with rfl | ⟨rest, last, rfl⟩
    · obtain ⟨rfl, hcall⟩ := List.append_inj' heq rfl
      obtain rfl : call = .take time := by simpa using hcall
      exact .inr ⟨rfl, hleft⟩
    · rw [← List.cons_append, ← List.append_assoc] at heq
      obtain ⟨rfl, hcall⟩ := List.append_inj' heq rfl
      obtain rfl : call = last := by simpa using hcall
      refine .inl ⟨fun now hnow => hlast now (by simp [hnow]), before, rest, rfl, hleft, fun now hmem => hlast now ?_⟩
      exact List.mem_append_left _ hmem
  · rintro (⟨hoffer, before, rest, rfl, hleft, hlast⟩ | ⟨rfl, hleft⟩)
    · refine ⟨before, rest ++ [call], by simp, hleft, fun now hmem => ?_⟩
      rcases List.mem_append.mp hmem with hmem | hmem
      · exact hlast now hmem
      · exact hoffer now (List.mem_singleton.mp hmem).symm
    · exact ⟨calls, [], rfl, hleft, by simp⟩

end Calls

def queueAfter (capacityBytes : Nat) (calls : List BufferCall) : List Bytes := (after occupancy capacityBytes calls).buffer.queue

/-- The window and the last take are what the calls say. -/
theorem seen_after (capacityBytes : Nat) (calls : List BufferCall) :
    (∀ since, (after occupancy capacityBytes calls).buffer.blockedSince = some since ↔
      WaitsSince (queueAfter occupancy capacityBytes) calls since) ∧
    ∀ time, (after occupancy capacityBytes calls).servedAt = some time ↔
      LeftWaiting (queueAfter occupancy capacityBytes) calls time := by
  induction calls using List.reverseRecOn with
  | nil => simp [after, Connection.new, SubscriberBuffer.new, WaitsSince, LeftWaiting]
  | append_singleton calls call ih =>
  obtain ⟨hwaits, hleft⟩ := ih
  have hinv := inv_after occupancy capacityBytes calls
  have hclosed : (after occupancy capacityBytes calls).buffer.queue = [] →
      ∀ since, ¬ WaitsSince (queueAfter occupancy capacityBytes) calls since := by
    rintro hempty since ⟨before, m, rest, rfl, -, hfull⟩
    exact hfull rest List.prefix_rfl hempty
  have hstep : after occupancy capacityBytes (calls ++ [call]) = (after occupancy capacityBytes calls).step occupancy call := by
    simp [after]
  simp only [waitsSince_concat, leftWaiting_concat, ← hwaits, ← hleft, queueAfter, hstep] at hclosed ⊢
  generalize after occupancy capacityBytes calls = c at hinv hclosed ⊢
  cases call with
  | offer m now =>
    rcases offer_cases occupancy c.buffer m now with hoffer | ⟨o, ho, hoffer⟩
    · simp only [step, hoffer]
      cases hq : c.buffer.queue <;> simp [SubscriberBuffer.enqueue, hq] at hclosed ⊢
      exact fun since hsince => absurd hsince (hclosed since)
    · have hsame : c.step occupancy (.offer m now) = c := by simp only [step, hoffer]
      rw [hsame]
      cases hq : c.buffer.queue <;> simp [hq] at hclosed ⊢
      exact hclosed
  | take now =>
    rcases hq : c.buffer.queue with _ | ⟨bytes, _ | ⟨bytes', queue⟩⟩
    · have hsame : c.step occupancy (.take now) = c := by simp [step, SubscriberBuffer.take, hq]
      rw [hsame]
      simpa [hq, hinv.empty hq] using hclosed hq
    · simp [step, SubscriberBuffer.take, hq]
    · simp [step, SubscriberBuffer.take, hq]

end Connection

theorem lt_saturatingSub {a b : Int} : blockedDropAfter < saturatingSub a b ↔ blockedDropAfter < a - b := by
  unfold blockedDropAfter saturatingSub
  omega

theorem offer_blocked {occupancy : Occupancy} {b : SubscriberBuffer} {m : Message} {now : Int} :
    (b.offer occupancy m now).1 = .drop .blockedTimeout ↔ ∃ since ∈ b.blockedSince, blockedDropAfter < now - since := by
  have hpast : b.blockedPastDeadline now = true ↔ ∃ since ∈ b.blockedSince, blockedDropAfter < now - since := by
    simp [SubscriberBuffer.blockedPastDeadline, Option.any_eq_true, lt_saturatingSub]
  rw [← hpast]
  unfold SubscriberBuffer.offer SubscriberBuffer.tier
  by_cases hb : b.blockedPastDeadline now = true
  · simp [hb]
  · -- the other reason is given, or none
    split <;> simp_all
    split <;> simp

/-- **When a blocked subscriber is dropped.** After any calls `queuedBytes` is the length of the queue, and
what was taken is what was enqueued, in its order, up to the messages that wait. An offer drops the connection as
blocked only if it is starved exactly if, messages having waited for more than five seconds, the last take was more than
five seconds ago as well, if it left messages waiting. -/
theorem blocked_drop_iff (occupancy : Occupancy) (capacityBytes : Nat) (calls : List BufferCall) :
    let c := Connection.after occupancy capacityBytes calls
    c.buffer.queuedBytes = c.buffer.queue.flatten.length ∧ c.sent ++ c.buffer.queue = c.queued ∧
    ∀ m now, ((c.buffer.offer occupancy m now).1 = .drop .blockedTimeout → c.Starved now) ↔
      ∀ since, Connection.WaitsSince (Connection.queueAfter occupancy capacityBytes) calls since →
        blockedDropAfter < now - since → ∀ time,
          Connection.LeftWaiting (Connection.queueAfter occupancy capacityBytes) calls time → blockedDropAfter < now - time := by
  intro c
  have h : c.Inv := Connection.inv_after occupancy capacityBytes calls
  obtain ⟨hwaits, hleft⟩ := Connection.seen_after occupancy capacityBytes calls
  refine ⟨h.bytes, h.fifo, fun m now => ?_⟩
  simp only [← hwaits, ← hleft]
  change _ ↔ ∀ since, c.buffer.blockedSince = some since → _ → ∀ time, c.servedAt = some time → _
  rw [offer_blocked, Connection.Starved, h.idle]
  cases c.servedAt <;> simp

/-- Two messages, four seconds apart; the first is taken, and another comes a second later. -/
def drainedCalls : List BufferCall :=
  [.offer ⟨[1], false, false⟩ 0, .offer ⟨[2], false, false⟩ 4000000, .take 4500000]

/-- **A subscriber that takes its messages is dropped.** The one message that waits came 1.5 s ago and the last
take was one second ago. -/
theorem drained_subscriber_dropped : ∃ c : Connection,
    Connection.after ⟨fun q k => 9 * k < 10 * q, fun q k => k ≤ 2 * q⟩ 100 drainedCalls = c ∧
      (c.buffer.offer ⟨fun q k => 9 * k < 10 * q, fun q k => k ≤ 2 * q⟩ ⟨[3], false, false⟩ 5500000).1 =
        .drop .blockedTimeout ∧ c.servedAt = some 4500000 ∧ c.buffer.queue = [[2]] ∧ ¬ c.Starved 5500000 := by
  refine ⟨_, rfl, rfl, rfl, rfl, ?_⟩
  rintro ⟨time, htime, hlt⟩
  cases htime
  exact absurd hlt (by decide)

end Fluxum
