/-
# The sessions of a primary

`ReplicationPrimary` of `replication.rs`: `accept` registers a session under
the name of the replica and starts a streamer over it, and a streamer that
ends removes the name.

* `live_sessions_registered`: every live session is registered, if no streamer
  ends after its replica has reconnected.
* `reconnected_session_removed`: the old streamer ends and takes the new
  session out.
-/
import Fluxum.Lib.Runs
import Mathlib.Logic.Function.Basic

namespace Fluxum

open Option

/-! ### The primary -/

/-- A session and its streamer. -/
structure Streamer where
  id : Nat
  /-- The highest transaction the replica has applied. -/
  applied : Nat
  /-- The highest transaction the replica has durably appended. -/
  durable : Nat
  running : Bool
deriving DecidableEq, Repr

structure ReplicaHello where
  shardId : Nat
  epoch : Nat
  lastAppliedTxId : Nat

structure ReplAck where
  epoch : Nat
  appliedTxId : Nat
  durableTxId : Nat

def Streamer.acked (s : Streamer) (a : ReplAck) : Streamer :=
  { s with applied := max s.applied a.appliedTxId, durable := max s.durable a.durableTxId }

def Streamer.stopped (id : Nat) (s : Streamer) : Streamer := if s.id = id then { s with running := false } else s

structure ReplicationPrimary where
  shardId : Nat
  epoch : Nat
  fenced : Bool
  /-- Every session a replica ever had, the newest first. -/
  streamers : String → List Streamer
  /-- The session registered under the name of a replica. -/
  sessions : String → Option Nat

namespace ReplicationPrimary

def new (shardId epoch : Nat) : ReplicationPrimary := ⟨shardId, epoch, false, fun _ => [], fun _ => none⟩

def fence (p : ReplicationPrimary) (theirs : Nat) : ReplicationPrimary :=
  { p with epoch := max p.epoch theirs, fenced := true }

/-- The sessions of one replica, and the one that is registered. -/
def set (p : ReplicationPrimary) (member : String) (streamers : List Streamer) (session : Option Nat) :
    ReplicationPrimary :=
  { p with
    streamers := Function.update p.streamers member streamers
    sessions := Function.update p.sessions member session }

/-- Register a session, or refuse the hello. `latest` is the last durable transaction of the log. -/
def accept (p : ReplicationPrimary) (hello : ReplicaHello) (member : String) (latest : Nat) : ReplicationPrimary :=
  if hello.shardId ≠ p.shardId then p
  else if p.epoch < hello.epoch then p.fence hello.epoch
  else if latest < hello.lastAppliedTxId then p
  else
    let id := (p.streamers member).length
    let session := ⟨id, hello.lastAppliedTxId, hello.lastAppliedTxId, true⟩
    p.set member (session :: p.streamers member) (some id)

/-- A streamer ends; the name of its replica is removed, whichever session is under it. -/
def ended (p : ReplicationPrimary) (member : String) (id : Nat) : ReplicationPrimary :=
  p.set member ((p.streamers member).map (Streamer.stopped id)) none

/-- Record an acknowledgment, in the session that is registered for its replica. -/
def ack (p : ReplicationPrimary) (member : String) (a : ReplAck) : ReplicationPrimary :=
  let p := if p.epoch < a.epoch then p.fence a.epoch else p
  let session := p.sessions member
  p.set member ((p.streamers member).map fun s => if session = some s.id then s.acked a else s) session

/-- What `visibility_barrier` reads of a replica. -/
def durableOf (p : ReplicationPrimary) (member : String) : Option Nat :=
  (p.sessions member).bind fun id => ((p.streamers member).find? (·.id = id)).map (·.durable)

inductive PrimaryEvent where
  | accept (hello : ReplicaHello) (member : String) (latest : Nat)
  | ended (member : String) (id : Nat)
  | ack (member : String) (a : ReplAck)

/-- Only a running streamer ends. -/
def step (p : ReplicationPrimary) : PrimaryEvent → Option ReplicationPrimary
  | .accept hello member latest => some (p.accept hello member latest)
  | .ended member id =>
    if (p.streamers member).any fun s => s.id = id ∧ s.running then some (p.ended member id) else none
  | .ack member a => some (p.ack member a)

/-- The newest streamer of a replica, if it runs. -/
def live (p : ReplicationPrimary) (member : String) : Option Streamer :=
  (p.streamers member).head?.filter (·.running)

/-- The streamer that ends is the newest of its replica, or the newest has ended before it. -/
def EndsLast (p : ReplicationPrimary) : PrimaryEvent → Prop
  | .ended member id => ∀ s ∈ p.live member, s.id = id
  | _ => True

def Registered (p : ReplicationPrimary) : Prop := ∀ member, ∀ s ∈ p.live member, p.sessions member = some s.id

/-! ### Steps -/

variable {p p' : ReplicationPrimary} {member : String}

theorem Registered.set {streamers : List Streamer} {session : Option Nat} (h : Registered p)
    (hmember : ∀ s ∈ streamers.head?, s.running = true → session = some s.id) :
    Registered (p.set member streamers session) := by
  intro name s hs
  simp only [live, ReplicationPrimary.set, Function.update_apply] at hs ⊢
  split_ifs at hs ⊢
  · obtain ⟨hs, hrunning⟩ := filter_eq_some_iff.mp hs
    exact hmember s hs hrunning
  · exact h name s hs

/-- **Step lemma.** -/
theorem Registered.step {e : PrimaryEvent} (h : Registered p) (hlast : EndsLast p e) (hstep : p.step e = some p') :
    Registered p' := by
  cases e with
  | accept hello member latest =>
    cases hstep
    unfold accept
    split_ifs
    · exact h
    · exact h
    · exact h
    · exact h.set fun s hs _ => by
        cases hs
        rfl
  | ended member id =>
    obtain ⟨-, rfl⟩ := Runs.of_guard hstep
    refine h.set fun s hs hrunning => ?_
    rw [List.head?_map] at hs
    obtain ⟨t, ht, rfl⟩ := map_eq_some_iff.mp hs
    -- the newest streamer has ended, now or before
    unfold Streamer.stopped at hrunning
    split_ifs at hrunning with hid
    exact absurd (hlast t (filter_eq_some_iff.mpr ⟨ht, hrunning⟩)) hid
  | ack member a =>
    cases hstep
    unfold ack
    extract_lets q session
    have hq : Registered q := by
      unfold q
      split_ifs <;> exact h
    refine hq.set fun s hs hrunning => ?_
    rw [List.head?_map] at hs
    obtain ⟨t, ht, rfl⟩ := map_eq_some_iff.mp hs
    split_ifs at hrunning ⊢ with hid
    · exact hid
    · exact hq member t (filter_eq_some_iff.mpr ⟨ht, hrunning⟩)

/-- **A live session stays registered**, and an acknowledgment of its replica advances the offsets
that its streamer and the barrier read, if streamers of one replica end in order. -/
theorem live_sessions_registered (shardId epoch : Nat) (es : List PrimaryEvent)
    (hlast : Runs.Meets step EndsLast (.new shardId epoch) es)
    (hrun : Runs.run step (.new shardId epoch) es = some p) :
    ∀ member, ∀ s ∈ p.live member, p.sessions member = some s.id ∧
      ∀ a, (p.ack member a).live member = some (s.acked a) ∧
        (p.ack member a).durableOf member = some (max s.durable a.durableTxId) := by
  have hreg : Registered p := Runs.run_invariant_of_meets (fun _ _ _ h hlast hstep => h.step hlast hstep)
    (fun _ _ h => by cases h) hlast hrun
  intro member s hs
  have hsession := hreg member s hs
  obtain ⟨hhead, hrunning⟩ := filter_eq_some_iff.mp hs
  obtain ⟨rest, hrest⟩ := List.head?_eq_some_iff.mp hhead
  refine ⟨hsession, fun a => ?_⟩
  have hacked : (p.ack member a).sessions member = some s.id ∧ ∃ rest', (p.ack member a).streamers member = s.acked a :: rest' := by
    unfold ack
    split_ifs <;> simp [set, fence, hsession, hrest]
  obtain ⟨hsame, rest', hrest'⟩ := hacked
  simp [live, durableOf, hsame, hrest', Streamer.acked, hrunning]

/-- A replica connects, and connects again before its first streamer has ended. -/
def reconnects : List PrimaryEvent := [.accept ⟨0, 1, 3⟩ "b" 5, .accept ⟨0, 1, 4⟩ "b" 5, .ended "b" 0]

theorem live_sessions_registered_reconnects :
    ∃ p ∈ Runs.run step (.new 0 1) (reconnects.take 2), ∃ s ∈ p.live "b", p.sessions "b" = some s.id := by
  obtain ⟨p, hp, s, hs, -⟩ :
      ∃ p ∈ Runs.run step (.new 0 1) (reconnects.take 2), ∃ s ∈ p.live "b", s.id = 1 := by
    decide +kernel
  exact ⟨p, hp, s, hs, (live_sessions_registered 0 1 (reconnects.take 2)
    ⟨trivial, fun _ _ => ⟨trivial, fun _ _ => trivial⟩⟩ hp "b" s hs).1⟩

/-- The first streamer ends, the second one runs, and its acks are no longer recorded. -/
theorem reconnected_session_removed :
    ∃ p ∈ Runs.run step (.new 0 1) reconnects, p.live "b" = some ⟨1, 4, 4, true⟩ ∧
      p.sessions "b" = none ∧ (p.ack "b" ⟨1, 5, 5⟩).live "b" = some ⟨1, 4, 4, true⟩ := by
  decide +kernel

end ReplicationPrimary
end Fluxum
