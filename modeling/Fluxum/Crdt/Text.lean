/-
# Collaborative text

The text column of `crdt.rs`: a tree of characters, each parented on the
character it was typed after, with tombstones for deleted ones. The document
is the depth-first walk of the tree, siblings newest first.

* `crdt_text_converges`: replicas that applied the same edits, in any order,
  have the same document.
-/
import Fluxum.Lib.OrdMap
import Fluxum.Lib.Outcome
import Fluxum.Lib.Walk
import Mathlib.Data.List.Sort
import Mathlib.Data.Prod.Lex

namespace Fluxum

open Std (ExtTreeMap LawfulEqOrd TransOrd)
open Walk Outcome List Std.ExtTreeMap

/-! ### Edits -/

/-- The identity of an edit: a Lamport sequence and the actor, in this order. -/
structure OpId where
  seq : Nat
  actor : Nat
deriving DecidableEq, Repr

namespace OpId

def key (id : OpId) : Nat ×ₗ Nat := toLex (id.seq, id.actor)

theorem key_injective : Function.Injective key := by
  rintro ⟨s, a⟩ ⟨s', a'⟩ h
  simpa [key] using h

instance : LinearOrder OpId := LinearOrder.lift' key key_injective

instance : TransOrd OpId := inferInstance

instance : LawfulEqOrd OpId where
  eq_of_compare := compare_eq_iff_eq.mp

end OpId

/-- One edit of a character. -/
inductive TextOp where
  /-- `after` is the character it was typed after, `none` the start of the document. -/
  | insert (id : OpId) (after : Option OpId) (ch : Char)
  | delete (id target : OpId)
deriving DecidableEq, Repr

def TextOp.id : TextOp → OpId
  | .insert id _ _ | .delete id _ => id

/-- A character of the tree. -/
structure Entry where
  parent : Option OpId
  ch : Char
  /-- The smallest delete that tombstoned it. -/
  deletedBy : Option OpId
deriving DecidableEq, Repr

structure CrdtText where
  /-- Every character ever inserted, tombstones included. -/
  entries : ExtTreeMap OpId Entry

inductive CrdtError where
  | unknownParent (id parent : OpId)
  | unknownCharacter (id target : OpId)
deriving DecidableEq, Repr

namespace CrdtText

def new : CrdtText := ⟨∅⟩

def apply (d : CrdtText) : TextOp → Except CrdtError CrdtText
  | .insert id after ch =>
    -- idempotent
    if id ∈ d.entries then .ok d
    else
      match after with
      | none => .ok ⟨d.entries.insert id ⟨none, ch, none⟩⟩
      | some parent =>
        if parent ∈ d.entries then .ok ⟨d.entries.insert id ⟨some parent, ch, none⟩⟩
        else .error (.unknownParent id parent)
  | .delete id target =>
    match d.entries[target]? with
    | none => .error (.unknownCharacter id target)
    | some entry =>
      -- the smallest delete wins
      if entry.deletedBy.any (· ≤ id) then .ok d
      else .ok ⟨d.entries.insert target { entry with deletedBy := some id }⟩

/-- Edits one after the other, each of which has to succeed. -/
def applyAll (d : CrdtText) (ops : List TextOp) : Except CrdtError CrdtText := ops.foldlM apply d

/-! ### The document -/

/-- The characters typed after `parent`, newest first. -/
def childrenOf (d : CrdtText) (parent : Option OpId) : List OpId :=
  ((d.entries.toList.filter fun e => e.2.parent = parent).map Prod.fst).insertionSort (· ≥ ·)

/-- The ids in the order the walk pops them, tombstones included; each of its rounds pops a character. -/
def order (d : CrdtText) : Option (List OpId) :=
  walk (fun id => d.childrenOf (some id)) d.entries.size (d.childrenOf none)

/-- The character of an id, unless it is deleted. -/
def visible (d : CrdtText) (id : OpId) : Option Char :=
  (d.entries[id]?.filter fun e => e.deletedBy = none).map Entry.ch

def visibleIds (d : CrdtText) : Option (List OpId) := d.order.map (·.filter fun id => (d.visible id).isSome)

def text (d : CrdtText) : Option String := d.order.map fun ids => String.ofList (ids.filterMap d.visible)

end CrdtText

/-! ### The document is a function of the set of edits -/

variable {ch : Char}

section Applied

variable {ops ops' : List TextOp} {op : TextOp} {d d' : CrdtText} {id : OpId}

/-- The tombstone of a character after the edits: the smallest delete of it. -/
def Deleted (ops : List TextOp) (id : OpId) : Option OpId → Prop
  | none => ∀ x, .delete x id ∉ ops
  | some m => .delete m id ∈ ops ∧ ∀ x, .delete x id ∈ ops → m ≤ x

/-- What a document that applied the edits holds. -/
structure Applied (ops : List TextOp) (d : CrdtText) : Prop where
  inserted : ∀ id after ch, .insert id after ch ∈ ops → id ∈ d.entries
  entry : ∀ id e, d.entries[id]? = some e → .insert id e.parent e.ch ∈ ops ∧ Deleted ops id e.deletedBy
  target : ∀ x id, .delete x id ∈ ops → id ∈ d.entries

/-- No two edits share an id. -/
def DistinctIds (ops : List TextOp) : Prop := ∀ x ∈ ops, ∀ y ∈ ops, x.id = y.id → x = y

/-- An insert whose id is new, and the parent it hangs on. -/
theorem CrdtText.apply_insert {after : Option OpId} (h : d.apply (.insert id after ch) = .ok d') :
    id ∈ d.entries ∧ d' = d ∨
      id ∉ d.entries ∧ (∀ p ∈ after, p ∈ d.entries) ∧ d' = ⟨d.entries.insert id ⟨after, ch, none⟩⟩ := by
  unfold apply at h
  simp only at h
  split at h
  · rename_i hmem
    exact .inl ⟨hmem, (Except.ok.inj h).symm⟩
  rename_i hnew
  refine .inr ⟨hnew, ?_⟩
  cases after with
  | none => exact ⟨by simp, (Except.ok.inj h).symm⟩
  | some parent =>
    simp only at h
    split at h
    · rename_i hparent
      exact ⟨by simpa using hparent, (Except.ok.inj h).symm⟩
    · cases h

/-- A delete finds its character and keeps the smaller tombstone. -/
theorem CrdtText.apply_delete {target : OpId} (h : d.apply (.delete id target) = .ok d') :
    ∃ e, d.entries[target]? = some e ∧ ((∃ m ∈ e.deletedBy, m ≤ id) ∧ d' = d ∨
      (∀ m ∈ e.deletedBy, id < m) ∧ d' = ⟨d.entries.insert target { e with deletedBy := some id }⟩) := by
  rw [apply] at h
  split at h
  · cases h
  rename_i e he
  refine ⟨e, he, ?_⟩
  split at h
  · rename_i hle
    exact .inl ⟨by simpa [Option.any_eq_true] using hle, (Except.ok.inj h).symm⟩
  rename_i hlt
  refine .inr ⟨fun m hm => ?_, (Except.ok.inj h).symm⟩
  rw [Option.mem_def.mp hm] at hlt
  simpa using hlt

/-- The character that an edit puts at an id. -/
def TextOp.entryAt (id : OpId) : TextOp → Option Entry
  | .insert i after ch => if i = id then some ⟨after, ch, none⟩ else none
  | .delete _ _ => none

/-- The delete of a character that an edit is. -/
def TextOp.deleteAt (id : OpId) : TextOp → Option OpId
  | .insert _ _ _ => none
  | .delete x target => if target = id then some x else none

def Entry.delete (e : Entry) (x : OpId) : Entry := if e.deletedBy.any (· ≤ x) then e else { e with deletedBy := some x }

/-- **What edits make of an id.** The first insert of it counts, and all deletes. -/
theorem CrdtText.getElem?_applyAll {ops : List TextOp} {d : CrdtText} (h : d.applyAll ops = .ok d') (id : OpId) :
    d'.entries[id]? = (d.entries[id]?.or (ops.findSome? (·.entryAt id))).map
      fun e => (ops.filterMap (·.deleteAt id)).foldl Entry.delete e := by
  induction ops generalizing d with
  | nil =>
    cases h
    simp
  | cons op ops ih =>
    rw [CrdtText.applyAll, foldlM_cons] at h
    obtain ⟨m, hm, h⟩ := bind_eq_ok.mp h
    rw [ih h, findSome?_cons]
    cases op with
    | insert i after ch =>
      rw [filterMap_cons_none rfl]
      congr 1
      rcases apply_insert hm with ⟨hmem, rfl⟩ | ⟨hnew, -, rfl⟩
      · obtain ⟨e, he⟩ := Option.isSome_iff_exists.mp (mem_iff_isSome_getElem?.mp hmem)
        by_cases hi : i = id
        · subst hi
          simp [he]
        · simp [TextOp.entryAt, hi]
      · rw [OrdMap.lookup_insert]
        by_cases hi : i = id
        · subst hi
          simp [TextOp.entryAt, getElem?_eq_none hnew]
        · simp [TextOp.entryAt, hi]
    | delete x target =>
      obtain ⟨e, he, hcases⟩ := apply_delete hm
      have hm' : m.entries[id]? = if target = id then some (e.delete x) else d.entries[id]? := by
        rcases hcases with ⟨⟨y, hy, hle⟩, rfl⟩ | ⟨hlt, rfl⟩
        · have : e.delete x = e := if_pos ((Option.any_eq_true _ _).mpr ⟨y, hy, by simpa using hle⟩)
          split
          · next hi => rw [this, ← hi, he]
          · rfl
        · have : e.delete x = { e with deletedBy := some x } := if_neg fun hany => by
            obtain ⟨y, hy, hle⟩ := (Option.any_eq_true _ _).mp hany
            exact absurd (hlt y hy) (not_lt.mpr (by simpa using hle))
          rw [OrdMap.lookup_insert, this]
      by_cases hi : target = id
      · subst hi
        simp [hm', he, TextOp.entryAt, TextOp.deleteAt]
      · simp [hm', hi, TextOp.entryAt, TextOp.deleteAt]

theorem CrdtText.applyAll_append {ops ops' : List TextOp} :
    d.applyAll (ops ++ ops') = d.applyAll ops >>= fun m => m.applyAll ops' := foldlM_append

theorem Entry.foldl_delete (e : Entry) (xs : List OpId) :
    xs.foldl Entry.delete e = { e with deletedBy := (e.deletedBy.toList ++ xs).min? } := by
  induction xs generalizing e with
  | nil =>
    obtain ⟨parent, ch, o⟩ := e
    cases o <;> rfl
  | cons x xs ih =>
    rw [foldl_cons, ih, Entry.delete]
    obtain ⟨parent, ch, o⟩ := e
    cases o with
    | none => rfl
    | some m =>
      have hmin : (m :: x :: xs).min? = (min m x :: xs).min? := rfl
      by_cases hle : m ≤ x
      · simp only [Option.any_some, hle, decide_true, if_true, Option.toList_some, singleton_append, hmin, min_eq_left hle]
      · simp only [Option.any_some, hle, decide_false, Bool.false_eq_true, if_false, Option.toList_some,
          singleton_append, hmin, min_eq_right (not_le.mp hle).le]

theorem mem_filterMap_deleteAt {x : OpId} : x ∈ ops.filterMap (·.deleteAt id) ↔ .delete x id ∈ ops := by
  rw [mem_filterMap]
  constructor
  · rintro ⟨op, hop, hx⟩
    cases op with
    | insert => cases hx
    | delete y target =>
      obtain ⟨rfl, rfl⟩ : target = id ∧ y = x := by simpa [TextOp.deleteAt] using hx
      exact hop
  · exact fun h => ⟨_, h, by simp [TextOp.deleteAt]⟩

theorem insert_of_entryAt {e : Entry} (h : ops.findSome? (·.entryAt id) = some e) :
    .insert id e.parent e.ch ∈ ops ∧ e.deletedBy = none := by
  obtain ⟨op, hop, he⟩ := exists_of_findSome?_eq_some h
  cases op with
  | insert i after ch =>
    obtain ⟨rfl, rfl⟩ : i = id ∧ ⟨after, ch, none⟩ = e := by simpa [TextOp.entryAt] using he
    exact ⟨hop, rfl⟩
  | delete => cases he

theorem findSome?_entryAt_isSome : (ops.findSome? (·.entryAt id)).isSome ↔ ∃ after ch, .insert id after ch ∈ ops := by
  constructor
  · intro h
    obtain ⟨e, he⟩ := Option.isSome_iff_exists.mp h
    exact ⟨_, _, (insert_of_entryAt he).1⟩
  · rintro ⟨after, ch, hop⟩
    exact findSome?_isSome_iff.mpr ⟨_, hop, by simp [TextOp.entryAt]⟩

theorem CrdtText.mem_applyAll (h : d.applyAll ops = .ok d') :
    id ∈ d'.entries ↔ id ∈ d.entries ∨ ∃ after ch, .insert id after ch ∈ ops := by
  rw [mem_iff_isSome_getElem?, mem_iff_isSome_getElem?, getElem?_applyAll h, Option.isSome_map,
    Option.isSome_or, Bool.or_eq_true, findSome?_entryAt_isSome]

/-- No id is inserted in two ways. -/
def InsertsAgree (ops : List TextOp) : Prop :=
  ∀ id after ch after' ch', .insert id after ch ∈ ops → .insert id after' ch' ∈ ops → after = after' ∧ ch = ch'

theorem InsertsAgree.entryAt (h : InsertsAgree ops) {after : Option OpId} {ch : Char} (hop : .insert id after ch ∈ ops) :
    ops.findSome? (·.entryAt id) = some ⟨after, ch, none⟩ := by
  obtain ⟨⟨after', ch', o⟩, he⟩ := Option.isSome_iff_exists.mp (findSome?_entryAt_isSome.mpr ⟨after, ch, hop⟩)
  obtain ⟨hins, rfl⟩ := insert_of_entryAt he
  obtain ⟨rfl, rfl⟩ := h id after ch after' ch' hop hins
  exact he

/-- **Two documents that applied the same edits to one are equal.** -/
theorem CrdtText.applyAll_congr {e e' : CrdtText} (hagree : InsertsAgree ops) (hsame : ∀ op, op ∈ ops ↔ op ∈ ops')
    (h : d.applyAll ops = .ok e) (h' : d.applyAll ops' = .ok e') : e = e' := by
  have hfind : ∀ id, ops.findSome? (·.entryAt id) = ops'.findSome? (·.entryAt id) := by
    intro id
    cases hf : ops'.findSome? (·.entryAt id) with
    | none =>
      by_contra hne
      obtain ⟨after, ch, hop⟩ := findSome?_entryAt_isSome.mp (Option.isSome_iff_ne_none.mpr hne)
      have := findSome?_entryAt_isSome.mpr ⟨after, ch, (hsame _).mp hop⟩
      simp [hf] at this
    | some x =>
      obtain ⟨hins, hnone⟩ := insert_of_entryAt hf
      rw [hagree.entryAt ((hsame _).mpr hins), ← hnone]
  have hmin : ∀ (o : Option OpId) id, (o.toList ++ ops.filterMap (·.deleteAt id)).min? =
      (o.toList ++ ops'.filterMap (·.deleteAt id)).min? := by
    intro o id
    ext m
    simp only [min?_eq_some_iff, mem_append, mem_filterMap_deleteAt, hsame]
  obtain ⟨entries⟩ := e
  obtain ⟨entries'⟩ := e'
  refine congrArg CrdtText.mk (ext_getElem? fun id => ?_)
  have hget := getElem?_applyAll h id
  have hget' := getElem?_applyAll h' id
  simp only [Entry.foldl_delete, hfind, hmin] at hget hget'
  exact hget.trans hget'.symm

/-- **What a document holds after its edits.** -/
theorem applied_of_applyAll (h : CrdtText.new.applyAll ops = .ok d) : Applied ops d := by
  have hget := CrdtText.getElem?_applyAll h
  simp only [CrdtText.new, getElem?_empty, Option.none_or] at hget
  refine ⟨fun id after ch hop => (CrdtText.mem_applyAll h).mpr (.inr ⟨after, ch, hop⟩), fun id e he => ?_, fun x id hop => ?_⟩
  · rw [hget] at he
    obtain ⟨e₀, he₀, rfl⟩ := Option.map_eq_some_iff.mp he
    obtain ⟨hins, hnone⟩ := insert_of_entryAt he₀
    rw [Entry.foldl_delete, hnone]
    refine ⟨hins, ?_⟩
    simp only [Option.toList_none, nil_append]
    cases hmin : (ops.filterMap (·.deleteAt id)).min? with
    | none => exact fun x hx => by simpa [min?_eq_none_iff.mp hmin] using mem_filterMap_deleteAt.mpr hx
    | some m =>
      obtain ⟨hmem, hle⟩ := min?_eq_some_iff.mp hmin
      exact ⟨mem_filterMap_deleteAt.mp hmem, fun x hx => hle x (mem_filterMap_deleteAt.mpr hx)⟩
  · obtain ⟨pre, post, rfl⟩ := append_of_mem hop
    obtain ⟨m, -, hrest⟩ := bind_eq_ok.mp (CrdtText.applyAll_append ▸ h)
    have hcons := hrest
    rw [CrdtText.applyAll, foldlM_cons] at hcons
    obtain ⟨m', hm', -⟩ := bind_eq_ok.mp hcons
    obtain ⟨e, he, -⟩ := CrdtText.apply_delete hm'
    exact (CrdtText.mem_applyAll hrest).mpr (.inl (mem_iff_isSome_getElem?.mpr (by rw [he]; rfl)))

end Applied

/-! ### The walk of a document -/

namespace CrdtText

variable {d d' : CrdtText} {id : OpId} {parent : Option OpId} {out : List OpId}

theorem mem_childrenOf : id ∈ d.childrenOf parent ↔ ∃ e, d.entries[id]? = some e ∧ e.parent = parent := by
  unfold childrenOf
  rw [mem_insertionSort, mem_map]
  constructor
  · rintro ⟨⟨i, e⟩, hmem, rfl⟩
    obtain ⟨hmem, hparent⟩ := mem_filter.mp hmem
    exact ⟨e, mem_toList_iff_getElem?_eq_some.mp hmem, by simpa using hparent⟩
  · rintro ⟨e, he, hparent⟩
    exact ⟨(id, e), mem_filter.mpr ⟨mem_toList_iff_getElem?_eq_some.mpr he, by simpa using hparent⟩, rfl⟩

theorem nodup_childrenOf : (d.childrenOf parent).Nodup :=
  (perm_insertionSort _ _).nodup_iff.mpr
    (((filter_sublist).map Prod.fst).nodup (OrdMap.nodup_keys_toList d.entries))

theorem sorted_childrenOf : (d.childrenOf parent).Pairwise (· ≥ ·) := pairwise_insertionSort _ _

theorem childrenOf_eq {l : List OpId} (hnodup : l.Nodup) (hsorted : l.Pairwise (· ≥ ·))
    (hmem : ∀ id, id ∈ l ↔ ∃ e, d.entries[id]? = some e ∧ e.parent = parent) : d.childrenOf parent = l :=
  Perm.eq_of_pairwise (fun _ _ _ _ h h' => le_antisymm h' h) sorted_childrenOf hsorted
    ((perm_ext_iff_of_nodup nodup_childrenOf hnodup).mpr fun id => by rw [mem_childrenOf, hmem])

/-- Parents are in the document. -/
def Closed (d : CrdtText) : Prop := ∀ (id : OpId) (e : Entry), d.entries[id]? = some e → ∀ p ∈ e.parent, p ∈ d.entries

/-- The walk ends, and emits every character once. -/
structure Lists (d : CrdtText) (out : List OpId) : Prop where
  walks : Walks (fun id => d.childrenOf (some id)) (d.childrenOf none) out
  count : ∀ id, out.count id = if id ∈ d.entries then 1 else 0

/-- What every edit keeps of a document. -/
structure Ok (d : CrdtText) (out : List OpId) : Prop where
  closed : d.Closed
  lists : d.Lists out

theorem Lists.nodup (h : d.Lists out) : out.Nodup := by
  rw [nodup_iff_count_le_one]
  intro id
  rw [h.count]
  split <;> simp

theorem Lists.mem (h : d.Lists out) : id ∈ out ↔ id ∈ d.entries := by
  rw [← count_pos_iff, h.count]
  split <;> simp_all

theorem Lists.order_eq (h : d.Lists out) : d.order = some out := by
  refine walk_eq_some.mpr ⟨h.walks, ?_⟩
  have hkeys : out ⊆ d.entries.toList.map Prod.fst := by
    intro id hid
    obtain ⟨e, he⟩ := Option.isSome_iff_exists.mp (mem_iff_isSome_getElem?.mp (h.mem.mp hid))
    exact mem_map.mpr ⟨(id, e), mem_toList_iff_getElem?_eq_some.mpr he, rfl⟩
  calc out.length ≤ (d.entries.toList.map Prod.fst).length := (subperm_of_subset h.nodup hkeys).length_le
    _ = d.entries.size := by rw [length_map, length_toList]

theorem ok_new : new.Ok [] := by
  refine ⟨by simp [Closed, new], ?_, by simp [new]⟩
  exact .nil

theorem Ok.delete {target : OpId} {e : Entry} {o : Option OpId} (h : d.Ok out) (he : d.entries[target]? = some e) :
    Ok ⟨d.entries.insert target { e with deletedBy := o }⟩ out := by
  have hmem : ∀ i, i ∈ d.entries.insert target { e with deletedBy := o } ↔ i ∈ d.entries := by
    intro i
    rw [ExtTreeMap.mem_iff_isSome_getElem?, ExtTreeMap.mem_iff_isSome_getElem?, OrdMap.lookup_insert]
    split
    · rename_i heq
      simp [← heq, he]
    · rfl
  have hparent : ∀ (i : OpId) (p : Option OpId), (∃ e' : Entry, (d.entries.insert target { e with deletedBy := o })[i]? = some e' ∧ e'.parent = p) ↔
      ∃ e' : Entry, d.entries[i]? = some e' ∧ e'.parent = p := by
    intro i p
    rw [OrdMap.lookup_insert]
    split
    · rename_i heq
      simp [← heq, he]
    · rfl
  have hchildren : ∀ p, childrenOf ⟨d.entries.insert target { e with deletedBy := o }⟩ p = d.childrenOf p := fun p =>
    childrenOf_eq nodup_childrenOf sorted_childrenOf fun i => by rw [mem_childrenOf, hparent]
  refine ⟨fun i e' he' p hp => (hmem p).mpr ?_, ?_, fun i => ?_⟩
  · obtain ⟨e'', he'', heq⟩ := (hparent i e'.parent).mp ⟨e', he', rfl⟩
    exact h.closed i e'' he'' p (heq ▸ hp)
  · simp only [hchildren]
    exact h.lists.walks
  · rw [h.lists.count]
    simp only [hmem]

/-- A child of one character only is met once for every time this one is. -/
theorem count_flatMap_children {children : OpId → List OpId} {parent : Option OpId}
    (h : ∀ x, (children x).count id = if parent = some x then 1 else 0) :
    ∀ l : List OpId, (l.flatMap children).count id = parent.elim 0 l.count
  | [] => by cases parent <;> simp
  | x :: l => by
    rw [List.flatMap_cons, List.count_append, h, count_flatMap_children h l]
    cases parent with
    | none => simp
    | some q =>
      rw [Option.elim_some, Option.elim_some, List.count_cons]
      by_cases hq : q = x
      · simp [hq, Nat.add_comm]
      · simp [hq, Ne.symm hq]

theorem parent_insert (d : CrdtText) (id : OpId) (after : Option OpId) (ch : Char) (i : OpId) (p : Option OpId) :
    (∃ e, (d.entries.insert id ⟨after, ch, none⟩)[i]? = some e ∧ e.parent = p) ↔
      id = i ∧ after = p ∨ id ≠ i ∧ ∃ e, d.entries[i]? = some e ∧ e.parent = p := by
  rw [OrdMap.lookup_insert]
  by_cases hi : id = i <;> simp [hi]

/-- **A new character is a leaf**: the walk gains it and keeps its order. -/
theorem Ok.insert {after : Option OpId} (ch : Char) (h : d.Ok out) (hnew : id ∉ d.entries)
    (hafter : ∀ p ∈ after, p ∈ d.entries) :
    ∃ out', Ok ⟨d.entries.insert id ⟨after, ch, none⟩⟩ out' ∧ out'.filter (· ≠ id) = out := by
  have hnone : d.entries[id]? = none := getElem?_eq_none hnew
  have hne : ∀ p ∈ after, p ≠ id := by
    rintro p hp rfl
    exact hnew (hafter p hp)
  have hparent := d.parent_insert id after ch
  -- the children of every other character are as before, up to the new one
  have hkids : ∀ p, (childrenOf ⟨d.entries.insert id ⟨after, ch, none⟩⟩ p).filter (· ≠ id) = d.childrenOf p := by
    intro p
    symm
    refine childrenOf_eq (nodup_childrenOf.filter _) (sorted_childrenOf.filter _) fun i => ?_
    rw [mem_filter, mem_childrenOf, hparent]
    by_cases hi : id = i
    · subst hi
      simp [hnone]
    · simp [hi, Ne.symm hi]
  have hleaf : childrenOf ⟨d.entries.insert id ⟨after, ch, none⟩⟩ (some id) = [] := by
    refine childrenOf_eq nodup_nil .nil fun i => ?_
    rw [hparent]
    constructor
    · intro hi
      cases hi
    · rintro (⟨-, hp⟩ | ⟨-, e, he, hp⟩)
      · exact absurd rfl (hne id hp)
      · exact absurd (h.closed i e he id hp) hnew
  obtain ⟨out', hwalks, hfilter⟩ := h.lists.walks.add_leaf (fun x _ => hkids (some x)) hleaf (hkids none)
  have hcount : ∀ i, i ≠ id → out'.count i = out.count i := by
    intro i hi
    rw [← hfilter, count_filter (by simpa using hi)]
  have hself : out'.count id = 1 := by
    have hind : ∀ p, (childrenOf ⟨d.entries.insert id ⟨after, ch, none⟩⟩ p).count id = if after = p then 1 else 0 := by
      intro p
      rw [nodup_childrenOf.count]
      simp only [mem_childrenOf, hparent]
      simp [hnone]
    rw [hwalks.count, hind none, count_flatMap_children fun x => hind (some x)]
    cases after with
    | none => simp
    | some q =>
      have hq := h.lists.count q
      rw [if_pos (hafter q rfl)] at hq
      simp only [reduceCtorEq, if_false, Option.elim_some, Nat.zero_add]
      rw [hcount q (hne q rfl), hq]
  refine ⟨out', ⟨fun i e he p hp => ?_, hwalks, fun i => ?_⟩, hfilter⟩
  · rw [ExtTreeMap.mem_insert]
    rcases (hparent i e.parent).mp ⟨e, he, rfl⟩ with ⟨-, heq⟩ | ⟨-, e', he', heq⟩
    · exact .inr (hafter p (heq ▸ hp))
    · exact .inr (h.closed i e' he' p (heq ▸ hp))
  · by_cases hi : i = id
    · subst hi
      rw [hself, if_pos ExtTreeMap.mem_insert_self]
    · rw [hcount i hi, h.lists.count]
      have : i ∈ d.entries.insert id ⟨after, ch, none⟩ ↔ i ∈ d.entries := by
        rw [ExtTreeMap.mem_iff_isSome_getElem?, ExtTreeMap.mem_iff_isSome_getElem?, OrdMap.lookup_insert,
          if_neg (Ne.symm hi)]
      simp only [this]

/-- **One edit only adds to the walk.** -/
theorem Ok.apply {op : TextOp} (h : d.Ok out) (happly : d.apply op = .ok d') : ∃ out', d'.Ok out' ∧ out.Sublist out' := by
  cases op with
  | insert id after ch =>
    rcases apply_insert happly with ⟨-, rfl⟩ | ⟨hnew, hafter, rfl⟩
    · exact ⟨out, h, Sublist.refl _⟩
    · obtain ⟨out', hok, hfilter⟩ := h.insert ch hnew hafter
      exact ⟨out', hok, hfilter ▸ filter_sublist⟩
  | delete id target =>
    obtain ⟨e, he, ⟨-, rfl⟩ | ⟨-, rfl⟩⟩ := apply_delete happly
    · exact ⟨out, h, Sublist.refl _⟩
    · exact ⟨out, h.delete he, Sublist.refl _⟩

/-- **Later edits only add to the walk.** -/
theorem Ok.applyAll : ∀ {ops : List TextOp} {d : CrdtText} {out : List OpId}, d.Ok out → d.applyAll ops = .ok d' →
    ∃ out', d'.Ok out' ∧ out.Sublist out'
  | [], d, out, h, hall => by
    cases hall
    exact ⟨out, h, Sublist.refl _⟩
  | op :: ops, d, out, h, hall => by
    rw [CrdtText.applyAll, foldlM_cons] at hall
    obtain ⟨m, hm, hall⟩ := bind_eq_ok.mp hall
    obtain ⟨out₁, h₁, hsub₁⟩ := h.apply hm
    obtain ⟨out₂, h₂, hsub₂⟩ := h₁.applyAll hall
    exact ⟨out₂, h₂, hsub₁.trans hsub₂⟩

/-- A document that applied edits from the start is in order. -/
theorem exists_ok {ops : List TextOp} (h : new.applyAll ops = .ok d) : ∃ out, d.Ok out := by
  obtain ⟨out, hok, -⟩ := ok_new.applyAll h
  exact ⟨out, hok⟩

theorem visible_eq_some : d.visible id = some ch ↔ ∃ e, d.entries[id]? = some e ∧ e.deletedBy = none ∧ e.ch = ch := by
  unfold visible
  simp [Option.map_eq_some_iff, Option.filter_eq_some_iff, and_assoc]

/-- The text is the visible characters of the walk. -/
theorem forall₂_visible (d : CrdtText) (out : List OpId) :
    List.Forall₂ (fun id ch => d.visible id = some ch) (out.filter fun id => (d.visible id).isSome) (out.filterMap d.visible) := by
  induction out with
  | nil => exact .nil
  | cons id out ih =>
    cases hv : d.visible id with
    | none =>
      rw [filter_cons_of_neg (by simp [hv]), filterMap_cons_none hv]
      exact ih
    | some ch =>
      rw [filter_cons_of_pos (by simp [hv]), filterMap_cons_some hv]
      exact .cons hv ih

end CrdtText

section Visible

variable {ops : List TextOp} {d : CrdtText} {id : OpId}

theorem Applied.insert_of_visible (h : Applied ops d) (hv : d.visible id = some ch) :
    ∃ after, .insert id after ch ∈ ops := by
  obtain ⟨e, he, -, rfl⟩ := CrdtText.visible_eq_some.mp hv
  exact ⟨e.parent, (h.entry id e he).1⟩

/-- The visible characters are those inserted and not deleted. -/
theorem Applied.isSome_visible (h : Applied ops d) :
    (d.visible id).isSome ↔ (∃ after ch, .insert id after ch ∈ ops) ∧ ∀ x, .delete x id ∉ ops := by
  rw [Option.isSome_iff_exists]
  constructor
  · rintro ⟨ch, hv⟩
    obtain ⟨after, hins⟩ := h.insert_of_visible hv
    obtain ⟨e, he, hnone, -⟩ := CrdtText.visible_eq_some.mp hv
    have hdel := (h.entry id e he).2
    rw [hnone] at hdel
    exact ⟨⟨after, ch, hins⟩, hdel⟩
  · rintro ⟨⟨after, ch, hins⟩, hno⟩
    have hmem := mem_iff_isSome_getElem?.mp (h.inserted id after ch hins)
    obtain ⟨e, he⟩ := Option.isSome_iff_exists.mp hmem
    have hnone : e.deletedBy = none := by
      cases hd : e.deletedBy with
      | none => rfl
      | some m =>
        have hdel := (h.entry id e he).2
        rw [hd] at hdel
        exact absurd hdel.1 (hno m)
    exact ⟨e.ch, CrdtText.visible_eq_some.mpr ⟨e, he, hnone, rfl⟩⟩

end Visible

/-- **Collaborative text converges and keeps its order.** Two documents that applied the same edits, in any
order and with repetitions, are equal; the text lists every inserted character that no edit deletes once;
and the document order, which the text follows, only grows with later edits. -/
theorem crdt_text_converges {ops xs ys : List TextOp} {d d' : CrdtText} (hids : DistinctIds ops)
    (hxs : ∀ op, op ∈ xs ↔ op ∈ ops) (hys : ∀ op, op ∈ ys ↔ op ∈ ops)
    (hd : CrdtText.new.applyAll xs = .ok d) (hd' : CrdtText.new.applyAll ys = .ok d') :
    d = d' ∧ d.text = d'.text ∧ ∃ order ids text,
      d.order = some order ∧ d.visibleIds = some ids ∧ d.text = some text ∧ order.Nodup ∧ ids.Sublist order ∧
      (∀ id, id ∈ ids ↔ (∃ after ch, .insert id after ch ∈ ops) ∧ ∀ x, .delete x id ∉ ops) ∧
      List.Forall₂ (fun id ch => ∃ after, .insert id after ch ∈ ops) ids text.toList ∧
      ∀ later e, d.applyAll later = .ok e → ∃ order' ids', e.order = some order' ∧ e.visibleIds = some ids' ∧
        order'.Nodup ∧ ids'.Sublist order' ∧ order.Sublist order' := by
  have happlied : Applied xs d := applied_of_applyAll hd
  have hagree : InsertsAgree xs := fun id after ch after' ch' hop hop' =>
    (TextOp.insert.inj (hids _ ((hxs _).mp hop) _ ((hxs _).mp hop') rfl)).2
  have heq : d = d' := CrdtText.applyAll_congr hagree (fun op => (hxs op).trans (hys op).symm) hd hd'
  obtain ⟨order, hok⟩ := CrdtText.exists_ok hd
  have horder := hok.lists.order_eq
  refine ⟨heq, congrArg CrdtText.text heq, order, order.filter fun id => (d.visible id).isSome,
    String.ofList (order.filterMap d.visible), horder, ?_, ?_, hok.lists.nodup, filter_sublist, fun id => ?_, ?_, ?_⟩
  · rw [CrdtText.visibleIds, horder]
    rfl
  · rw [CrdtText.text, horder]
    rfl
  · rw [mem_filter, happlied.isSome_visible]
    simp only [hxs]
    constructor
    · exact fun h => h.2
    · rintro ⟨⟨after, ch, hins⟩, hno⟩
      exact ⟨hok.lists.mem.mpr (happlied.inserted id after ch ((hxs _).mpr hins)), ⟨after, ch, hins⟩, hno⟩
  · rw [String.toList_ofList]
    refine (d.forall₂_visible order).imp fun id ch hv => ?_
    obtain ⟨after, hins⟩ := happlied.insert_of_visible hv
    exact ⟨after, (hxs _).mp hins⟩
  · intro later e hlater
    obtain ⟨order', hok', hsub⟩ := hok.applyAll hlater
    have horder' := hok'.lists.order_eq
    refine ⟨order', order'.filter fun id => (e.visible id).isSome, horder', ?_, hok'.lists.nodup, filter_sublist, hsub⟩
    rw [CrdtText.visibleIds, horder']
    rfl

/-- Two editors type after the same character and one deletes it; the edits arrive in two orders, some twice. -/
def typedTwice : List TextOp :=
  [.insert ⟨1, 1⟩ none 'a', .insert ⟨2, 1⟩ (some ⟨1, 1⟩) 'b', .insert ⟨2, 2⟩ (some ⟨1, 1⟩) 'c', .delete ⟨3, 2⟩ ⟨1, 1⟩]

def typedTwiceAgain : List TextOp :=
  [.insert ⟨1, 1⟩ none 'a', .delete ⟨3, 2⟩ ⟨1, 1⟩, .insert ⟨2, 2⟩ (some ⟨1, 1⟩) 'c', .insert ⟨2, 1⟩ (some ⟨1, 1⟩) 'b',
    .delete ⟨3, 2⟩ ⟨1, 1⟩, .insert ⟨1, 1⟩ none 'a']

theorem crdt_text_converges_typedTwice : ∃ d d', CrdtText.new.applyAll typedTwice = .ok d ∧
    CrdtText.new.applyAll typedTwiceAgain = .ok d' ∧ d = d' ∧ d.text = d'.text := by
  obtain ⟨⟨d, hd⟩, d', hd'⟩ : (∃ d, CrdtText.new.applyAll typedTwice = .ok d) ∧ ∃ d, CrdtText.new.applyAll typedTwiceAgain = .ok d :=
    ⟨⟨_, rfl⟩, _, rfl⟩
  have hids : DistinctIds typedTwice := by
    unfold DistinctIds
    decide
  have hsame : ∀ op, op ∈ typedTwiceAgain ↔ op ∈ typedTwice := by
    intro op
    simp only [typedTwice, typedTwiceAgain, mem_cons, not_mem_nil, or_false]
    tauto
  obtain ⟨heq, htext, -⟩ := crdt_text_converges hids (fun _ => Iff.rfl) hsame hd hd'
  exact ⟨d, d', hd, hd', heq, htext⟩

/-- The younger of the two comes first, and the deleted character is not shown. -/
example : (CrdtText.new.applyAll typedTwiceAgain).toOption.bind CrdtText.text = some "cb" := by decide +kernel

end Fluxum
