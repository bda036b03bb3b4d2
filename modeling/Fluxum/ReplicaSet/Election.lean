/-
# Ballots

The pure part of a replica set's elections (`election.rs`): how many votes
elect a primary, and when a member votes for a candidate. Members are
numbered; a member's number stands for its name.
-/
import Mathlib.Tactic.Common

namespace Fluxum.ReplicaSet

open Option

/-- The vote a member has cast, as persisted. -/
structure Ballot where
  epoch : Nat
  votedFor : Nat
deriving DecidableEq, Repr

structure VoteRequest where
  memberName : Nat
  epoch : Nat
  lastLogEpoch : Nat
  lastAppliedTxId : Nat
deriving DecidableEq, Repr

structure VoteResponse where
  epoch : Nat
  granted : Bool
deriving DecidableEq, Repr

/-- Strictly more than half of the members. -/
def majority (members : Nat) : Nat := members / 2 + 1

/-- `(epoch, tx id)` pairs in the order of Rust's tuples. -/
def headLt (a b : Nat × Nat) : Bool := a.1 < b.1 || (a.1 = b.1 && a.2 < b.2)

/-- A ballot of a later epoch, or of the same epoch for another candidate, forbids the vote. -/
def Ballot.forbids (b : Ballot) (req : VoteRequest) : Bool :=
  b.epoch ≥ req.epoch && !(b.epoch = req.epoch && b.votedFor = req.memberName)

/-- The ballot to persist if the vote is granted. -/
def decideVote (actingEpoch : Nat) (ballot : Option Ballot) (ourHead : Nat × Nat)
    (hearsAPrimary : Bool) (req : VoteRequest) : Option Ballot :=
  if hearsAPrimary then none
  else if req.epoch ≤ actingEpoch then none
  else if ballot.any (·.forbids req) then none
  else if headLt (req.lastLogEpoch, req.lastAppliedTxId) ourHead then none
  else some ⟨req.epoch, req.memberName⟩

def ballotEpoch (ballot : Option Ballot) : Nat := ballot.elim 0 (·.epoch)

@[simp] theorem ballotEpoch_none : ballotEpoch none = 0 := rfl

@[simp] theorem ballotEpoch_some (b : Ballot) : ballotEpoch (some b) = b.epoch := rfl

/-- The ballot leaves room for a vote of `c` in `e`: it is of an earlier epoch, or it is this
very vote. -/
def Allows (ballot : Option Ballot) (e c : Nat) : Prop :=
  ∀ b ∈ ballot, b.epoch < e ∨ b = ⟨e, c⟩

theorem decideVote_eq_some {acting : Nat} {ballot : Option Ballot} {head : Nat × Nat} {hears : Bool}
    {req : VoteRequest} {b : Ballot} (h : decideVote acting ballot head hears req = some b) :
    b = ⟨req.epoch, req.memberName⟩ ∧ hears = false ∧ acting < req.epoch ∧
      Allows ballot req.epoch req.memberName ∧
      headLt (req.lastLogEpoch, req.lastAppliedTxId) head = false := by
  unfold decideVote at h
  split_ifs at h with hhears hepoch hballot hhead
  refine ⟨(some.inj h).symm, by simpa using hhears, by omega, fun b' hb' => ?_,
    by simpa using hhead⟩
  rw [mem_def.mp hb'] at hballot
  obtain ⟨e, c⟩ := b'
  simp only [any_some, Ballot.forbids, Bool.and_eq_true, decide_eq_true_eq, Bool.not_eq_true',
    Bool.and_eq_false_iff, decide_eq_false_iff_not] at hballot
  simp only [Ballot.mk.injEq]
  omega

end Fluxum.ReplicaSet
