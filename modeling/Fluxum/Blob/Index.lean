/-
# The blob index

`commitlog/blob.rs`: a store of objects by content hash, with an in-memory
index of reference counts, retention holds and upload leases. The index entry
and the object file of a hash are created and removed at different moments of
a call, and a failing file operation returns in between.

* `blob_index_truthful`: what the index knows is stored, and what has a
  reference, a hold or a lease is not removed.
* `blob_index_lies`: a write that fails leaves an entry without an object, and
  a hold under the id of a lease ends with the lease.

The hash type is a parameter, and a call gets the hash of its bytes. `gc` is
`expire` followed by `reclaim`, each under the lock of its own.
-/
import Fluxum.Lib.OrdMap
import Fluxum.Lib.Runs
import Mathlib.Algebra.Group.Nat.Defs

namespace Fluxum

open Std List ExtTreeMap

/-! ### The store -/

section Calls

variable (η : Type) [Ord η]

structure BlobStore where
  /-- Live row references per hash. -/
  refcounts : ExtTreeMap η Nat
  /-- Retention holds: holder to the hashes it pins. -/
  holds : ExtTreeMap Nat (List η)
  /-- Upload leases: holder and staging time per staged hash. -/
  uploads : ExtTreeMap η (Nat × Nat)
  nextUploadHolder : Nat
  objects : ExtTreeSet η

inductive BlobError where
  | io
  | increfUnknown (hash : η)
  | unrefUnknown (hash : η)

/-- `u64::MAX`. -/
def u64Max : Nat := 0xffffffffffffffff

/-- How the write of an object goes: to its end, not to the rename, or past the rename but not through the directory
fsync. -/
inductive WriteIo where
  | done
  | failed
  | unsynced
deriving DecidableEq

end Calls

namespace BlobStore

variable {η : Type} [Ord η] [TransOrd η]

def opened (objects : ExtTreeSet η) : BlobStore η :=
  ⟨objects.toList.foldl (fun counts hash => counts.insert hash 0) ∅, ∅, ∅, 0, objects⟩

def contains (s : BlobStore η) (hash : η) : Bool := s.refcounts.contains hash

/-- The index entry of the hash, made with count 0 if there is none. -/
def enter (s : BlobStore η) (hash : η) : BlobStore η :=
  { s with refcounts := s.refcounts.insertIfNew hash 0 }

/-- Whether the object could be written, and the store after it. -/
def writeObject (s : BlobStore η) (hash : η) (io : WriteIo) : Bool × BlobStore η :=
  if hash ∈ s.objects then (true, s)
  else
    match io with
    | .done => (true, { s with objects := s.objects.insert hash })
    | .failed => (false, s)
    | .unsynced => (false, { s with objects := s.objects.insert hash })

def put (s : BlobStore η) (hash : η) (io : WriteIo) : Except (BlobError η) η × BlobStore η :=
  let s := s.enter hash
  let count := s.refcounts[hash]?.getD 0
  let written := if count = 0 then s.writeObject hash io else (true, s)
  if written.1 then (.ok hash, { written.2 with refcounts := written.2.refcounts.insert hash (count + 1) })
  else (.error .io, written.2)

def hold (s : BlobStore η) (holder : Nat) (hashes : List η) : BlobStore η :=
  { s with holds := s.holds.insert holder (s.holds[holder]?.getD [] ++ hashes) }

def releaseHold (s : BlobStore η) (holder : Nat) : BlobStore η := { s with holds := s.holds.erase holder }

/-- Give a staged hash its upload lease, unless it has one. Lease holders count down from `u64::MAX`. -/
def lease (s : BlobStore η) (hash : η) (now : Nat) : BlobStore η :=
  if s.uploads.contains hash then s
  else
    let holder := u64Max - s.nextUploadHolder
    { s.hold holder [hash] with
      nextUploadHolder := (s.nextUploadHolder + 1) % 2 ^ 64
      uploads := s.uploads.insert hash (holder, now) }

def stage (s : BlobStore η) (hash : η) (io : WriteIo) (now : Nat) : Except (BlobError η) η × BlobStore η :=
  let written := (s.enter hash).writeObject hash io
  if written.1 then (.ok hash, written.2.lease hash now) else (.error .io, written.2)

def endLease (s : BlobStore η) (hash : η) : BlobStore η :=
  (s.uploads[hash]?).elim s fun upload => { s.releaseHold upload.1 with uploads := s.uploads.erase hash }

def incref (s : BlobStore η) (hash : η) : Except (BlobError η) Nat × BlobStore η :=
  (s.refcounts[hash]?).elim (.error (.increfUnknown hash), s) fun count =>
    (.ok (count + 1), { s with refcounts := s.refcounts.insert hash (count + 1) }.endLease hash)

def unref (s : BlobStore η) (hash : η) : Except (BlobError η) Unit × BlobStore η :=
  (s.refcounts[hash]?).elim (.error (.unrefUnknown hash), s) fun count =>
    (.ok (), { s with refcounts := s.refcounts.insert hash (count - 1) })

/-- The staged hashes whose lease is `orphanAfter` old. -/
def stale (s : BlobStore η) (now orphanAfter : Nat) : List η :=
  (s.uploads.toList.filter fun p => decide (orphanAfter ≤ now - p.2.2)).map Prod.fst

/-- The first half of `gc`. -/
def expire (s : BlobStore η) (now orphanAfter : Nat) : BlobStore η := (s.stale now orphanAfter).foldl endLease s

variable [DecidableEq η]

def held (s : BlobStore η) (hash : η) : Bool := s.holds.toList.any fun p => p.2.contains hash

/-- The hashes that `reclaim` goes through: without references and without a hold. -/
def candidates (s : BlobStore η) : List η :=
  (s.refcounts.toList.filter fun p => p.2 == 0 && !s.held p.1).map Prod.fst

omit [DecidableEq η] in
/-- Remove objects and entries one by one; `stuck` are the files that cannot be removed. -/
def reclaimLoop (stuck : η → Bool) : List η → BlobStore η → Except (BlobError η) Unit × BlobStore η
  | [], s => (.ok (), s)
  | hash :: hashes, s =>
    if s.objects.contains hash && stuck hash then (.error .io, s)
    else reclaimLoop stuck hashes { s with objects := s.objects.erase hash, refcounts := s.refcounts.erase hash }

end BlobStore

/-! ### Runs of calls -/

section Runs

variable {η : Type} [Ord η]

/-- A store, and the holds that its callers have registered and not released. -/
structure BlobRun (η : Type) [Ord η] where
  store : BlobStore η
  registered : List (Nat × η)

inductive BlobCall (η : Type) where
  | put (hash : η) (io : WriteIo)
  | stage (hash : η) (io : WriteIo) (now : Nat)
  | incref (hash : η)
  | unref (hash : η)
  | hold (holder : Nat) (hashes : List η)
  | releaseHold (holder : Nat)
  /-- First half of `gc`. -/
  | expire (now orphanAfter : Nat)
  /-- `reclaim`, also as the second half of `gc`; the candidates come in the order of a hash table. -/
  | reclaim (order : List η) (stuck : η → Bool)

variable [TransOrd η] [DecidableEq η]

def blobStep (s : BlobRun η) : BlobCall η → Option (BlobRun η)
  | .put hash io => some { s with store := (s.store.put hash io).2 }
  | .stage hash io now => some { s with store := (s.store.stage hash io now).2 }
  | .incref hash => some { s with store := (s.store.incref hash).2 }
  | .unref hash => some { s with store := (s.store.unref hash).2 }
  | .hold holder hashes =>
    some ⟨s.store.hold holder hashes, hashes.map (holder, ·) ++ s.registered⟩
  | .releaseHold holder => some ⟨s.store.releaseHold holder, s.registered.filter fun p => p.1 != holder⟩
  | .expire now orphanAfter => some { s with store := s.store.expire now orphanAfter }
  | .reclaim order stuck =>
    if order.isPerm s.store.candidates then some { s with store := (s.store.reclaimLoop stuck order).2 } else none

/-- The holder keeps the hash: by a hold that a caller registered, or as its upload lease. -/
def Pinned (s : BlobRun η) (holder : Nat) (hash : η) : Prop :=
  (holder, hash) ∈ s.registered ∨ ∃ staged, s.store.uploads[hash]? = some (holder, staged)

/-- The hash has a row reference, a hold or a lease. -/
def Protected (s : BlobRun η) (hash : η) : Prop :=
  (∃ count, s.store.refcounts[hash]? = some count ∧ 0 < count) ∨ ∃ holder, Pinned s holder hash

/-- What the index knows is stored. -/
def Stored (s : BlobStore η) : Prop := ∀ hash, s.contains hash = true → hash ∈ s.objects

/-- The hash keeps its index entry and its object. -/
def Keeps (s s' : BlobStore η) (hash : η) : Prop :=
  (s.contains hash = true → s'.contains hash = true) ∧ (hash ∈ s.objects → hash ∈ s'.objects)

/-- The lease of the hash is not under the id of a registered hold. -/
def LeaseApart (s : BlobRun η) (hash : η) : Prop :=
  ∀ upload ∈ s.store.uploads[hash]?, ∀ p ∈ s.registered, p.1 ≠ upload.1

/-- No upload lease is under the id. -/
def LeaseFree (s : BlobRun η) (holder : Nat) : Prop := ∀ p ∈ s.store.uploads.toList, p.2.1 ≠ holder

/-- An object write gets as far as its rename. No two leases have one id, no call releases the id of a lease, and a
lease that ends does not end a registered hold. -/
def Sound (s : BlobRun η) : BlobCall η → Prop
  | .put hash io => hash ∈ s.store.objects ∨ io ≠ .failed
  | .stage hash io _ => (hash ∈ s.store.objects ∨ io ≠ .failed) ∧
    (s.store.uploads.contains hash = true ∨ LeaseFree s (u64Max - s.store.nextUploadHolder))
  | .incref hash => LeaseApart s hash
  | .releaseHold holder => LeaseFree s holder
  | .expire now orphanAfter => ∀ hash ∈ s.store.stale now orphanAfter, LeaseApart s hash
  | _ => True

end Runs

/-! ### What a call changes -/

variable {holder : Nat}

namespace BlobStore

section Changes

variable {η : Type} [Ord η] {s s' : BlobStore η} {hash : η}

def HoldsGrow (s s' : BlobStore η) : Prop :=
  ∀ (holder : Nat) (hashes : List η), s.holds[holder]? = some hashes →
    ∃ hashes' : List η, s'.holds[holder]? = some hashes' ∧ hashes ⊆ hashes'

theorem holdsGrow_hold (holder : Nat) (hashes : List η) : HoldsGrow s (s.hold holder hashes) := by
  intro holder' hashes' hget
  rw [hold, OrdMap.lookup_insert]
  by_cases heq : holder = holder'
  · subst heq
    rw [if_pos rfl, hget]
    exact ⟨_, rfl, List.subset_append_left _ _⟩
  · rw [if_neg heq]
    exact ⟨hashes', hget, List.Subset.refl _⟩

variable [TransOrd η]

theorem contains_iff {h : η} : s.contains h = true ↔ ∃ count, s.refcounts[h]? = some count := by
  rw [contains, contains_eq_isSome_getElem?, Option.isSome_iff_exists]

/-- The index knows the same hashes, and the objects are the same. -/
structure Calm (s s' : BlobStore η) : Prop where
  contains : ∀ h, s'.contains h = s.contains h
  objects : s'.objects = s.objects

theorem Calm.trans {s'' : BlobStore η} (h : Calm s s') (h' : Calm s' s'') : Calm s s'' :=
  ⟨fun x => (h'.contains x).trans (h.contains x), h'.objects.trans h.objects⟩

theorem calm_lease (s : BlobStore η) (hash : η) (now : Nat) : Calm s (s.lease hash now) := by
  unfold lease
  split <;> exact ⟨fun _ => rfl, rfl⟩

theorem calm_endLease (s : BlobStore η) (hash : η) : Calm s (s.endLease hash) := by
  unfold endLease
  cases s.uploads[hash]? <;> exact ⟨fun _ => rfl, rfl⟩

theorem calm_foldl_endLease : ∀ (hashes : List η) (s : BlobStore η), Calm s (hashes.foldl endLease s)
  | [], _ => ⟨fun _ => rfl, rfl⟩
  | hash :: hashes, s => (calm_endLease s hash).trans (calm_foldl_endLease hashes (s.endLease hash))

/-- The call adds at most this hash to the index, and takes nothing away. -/
structure Adds (s s' : BlobStore η) (hash : η) : Prop where
  contains : ∀ h, s'.contains h = true ↔ hash = h ∨ s.contains h = true
  objects : ∀ h ∈ s.objects, h ∈ s'.objects
  holds : s'.holds = s.holds
  uploads : s'.uploads = s.uploads

variable [LawfulEqOrd η]

theorem contains_enter {h : η} : (s.enter hash).contains h = true ↔ hash = h ∨ s.contains h = true := by
  simp only [contains, enter, contains_insertIfNew, LawfulEqCmp.compare_eq_iff_eq, Bool.or_eq_true, beq_iff_eq]

theorem contains_insert {h : η} {count : Nat} :
    ({ s with refcounts := s.refcounts.insert hash count } : BlobStore η).contains h = true ↔
      hash = h ∨ s.contains h = true := by
  simp only [contains, ExtTreeMap.contains_insert, LawfulEqCmp.compare_eq_iff_eq, Bool.or_eq_true, beq_iff_eq]

theorem calm_insert {count count' : Nat} (hget : s.refcounts[hash]? = some count) :
    Calm s { s with refcounts := s.refcounts.insert hash count' } := by
  refine ⟨fun h => Bool.eq_iff_iff.mpr ?_, rfl⟩
  rw [contains_insert]
  constructor
  · rintro (rfl | hc)
    · exact contains_iff.mpr ⟨count, hget⟩
    · exact hc
  · exact .inr

/-- An object write adds at most its object, and does if it gets to the rename. -/
theorem writeObject_spec (s : BlobStore η) (hash : η) (io : WriteIo) :
    ∃ objects, (s.writeObject hash io).2 = { s with objects } ∧ (∀ h ∈ s.objects, h ∈ objects) ∧
      (hash ∈ s.objects ∨ io ≠ .failed → hash ∈ objects) := by
  unfold writeObject
  by_cases hmem : hash ∈ s.objects
  · rw [if_pos hmem]
    exact ⟨s.objects, rfl, fun _ h => h, fun _ => hmem⟩
  rw [if_neg hmem]
  have hinsert : ∀ h, h ∈ s.objects.insert hash ↔ hash = h ∨ h ∈ s.objects := OrdMap.mem_insert s.objects hash
  cases io with
  | done | unsynced => exact ⟨_, rfl, fun h hh => (hinsert h).mpr (.inr hh), fun _ => (hinsert hash).mpr (.inl rfl)⟩
  | failed => exact ⟨s.objects, rfl, fun _ h => h, fun h => absurd h (by simp [hmem])⟩

theorem put_adds (s : BlobStore η) (hash : η) (io : WriteIo) : Adds s (s.put hash io).2 hash := by
  obtain ⟨objects, hwrite, hobjects, -⟩ := writeObject_spec (s.enter hash) hash io
  unfold put
  by_cases hzero : (s.enter hash).refcounts[hash]?.getD 0 = 0
  · simp only [if_pos hzero]
    split
    · rw [hwrite]
      refine ⟨fun h => ?_, hobjects, rfl, rfl⟩
      rw [contains_insert]
      exact ⟨fun hc => hc.elim .inl fun hc => contains_enter.mp hc, fun hc => .inr (contains_enter.mpr hc)⟩
    · rw [hwrite]
      exact ⟨fun h => contains_enter, hobjects, rfl, rfl⟩
  · simp only [if_neg hzero, if_true]
    refine ⟨fun h => ?_, fun _ h => h, rfl, rfl⟩
    rw [contains_insert]
    exact ⟨fun hc => hc.elim .inl fun hc => contains_enter.mp hc, fun hc => .inr (contains_enter.mpr hc)⟩

theorem mem_objects_put {io : WriteIo} (hstored : Stored s) (hio : hash ∈ s.objects ∨ io ≠ .failed) :
    hash ∈ (s.put hash io).2.objects := by
  obtain ⟨objects, hwrite, hobjects, hadds⟩ := writeObject_spec (s.enter hash) hash io
  by_cases hmem : hash ∈ s.objects
  · exact (put_adds s hash io).objects hash hmem
  have hnone : s.refcounts[hash]? = none := by
    by_contra hsome
    obtain ⟨count, hget⟩ := Option.ne_none_iff_exists'.mp hsome
    exact hmem (hstored hash (contains_iff.mpr ⟨count, hget⟩))
  -- a hash without an entry is entered with count 0, so its object is written
  have hzero : (s.enter hash).refcounts[hash]?.getD 0 = 0 := by
    have hnot : hash ∉ s.refcounts := by simp [mem_iff_isSome_getElem?, hnone]
    rw [enter, getElem?_insertIfNew, if_pos ⟨ReflCmp.compare_self, hnot⟩]
    rfl
  unfold put
  simp only [if_pos hzero]
  split <;> rw [hwrite] <;> exact hadds hio

/-- `stage` as far as its object write. -/
theorem staged_spec (s : BlobStore η) (hash : η) (io : WriteIo) : Adds s ((s.enter hash).writeObject hash io).2 hash ∧
    (hash ∈ s.objects ∨ io ≠ .failed → hash ∈ ((s.enter hash).writeObject hash io).2.objects) ∧
    ((s.enter hash).writeObject hash io).2.nextUploadHolder = s.nextUploadHolder := by
  obtain ⟨objects, hwrite, hobjects, hadds⟩ := writeObject_spec (s.enter hash) hash io
  rw [hwrite]
  exact ⟨⟨fun h => contains_enter, hobjects, rfl, rfl⟩, hadds, rfl⟩

theorem calm_incref (s : BlobStore η) (hash : η) : Calm s (s.incref hash).2 := by
  unfold incref
  cases hget : s.refcounts[hash]? with
  | none => exact ⟨fun _ => rfl, rfl⟩
  | some count => exact (calm_insert hget).trans (calm_endLease _ hash)

theorem calm_unref (s : BlobStore η) (hash : η) : Calm s (s.unref hash).2 := by
  unfold unref
  cases hget : s.refcounts[hash]? with
  | none => exact ⟨fun _ => rfl, rfl⟩
  | some count => exact calm_insert hget

/-! ### Reclaiming -/

/-- What the loop removes is among the hashes it goes through; object and entry go together. -/
theorem reclaimLoop_spec (stuck : η → Bool) : ∀ (hashes : List η) (s : BlobStore η),
    ((s.reclaimLoop stuck hashes).2.holds = s.holds ∧ (s.reclaimLoop stuck hashes).2.uploads = s.uploads) ∧
      (∀ h, (s.reclaimLoop stuck hashes).2.contains h = true → s.contains h = true ∧
        (h ∈ s.objects → h ∈ (s.reclaimLoop stuck hashes).2.objects)) ∧
      ∀ h ∉ hashes, Keeps s (s.reclaimLoop stuck hashes).2 h
  | [], s => ⟨⟨rfl, rfl⟩, fun _ hc => ⟨hc, id⟩, fun _ _ => ⟨id, id⟩⟩
  | hash :: hashes, s => by
    unfold reclaimLoop
    split
    · exact ⟨⟨rfl, rfl⟩, fun _ hc => ⟨hc, id⟩, fun _ _ => ⟨id, id⟩⟩
    obtain ⟨hholds, hcontains, hkeeps⟩ := reclaimLoop_spec stuck hashes
      { s with objects := s.objects.erase hash, refcounts := s.refcounts.erase hash }
    refine ⟨hholds, fun h hc => ?_, fun h hh => ?_⟩
    · obtain ⟨hc', hobj⟩ := hcontains h hc
      have hne : compare hash h ≠ .eq := by
        intro heq
        rw [contains, contains_erase] at hc'
        simp [heq] at hc'
      rw [contains, contains_erase] at hc'
      refine ⟨(Bool.and_eq_true_iff.mp hc').2, fun hmem => hobj ?_⟩
      exact ExtTreeSet.mem_erase.mpr ⟨hne, hmem⟩
    · obtain ⟨hne, hh⟩ := ne_and_not_mem_of_not_mem_cons hh
      have hcmp : compare hash h ≠ .eq := fun heq => hne (LawfulEqCmp.compare_eq_iff_eq.mp heq).symm
      obtain ⟨hkc, hko⟩ := hkeeps h hh
      refine ⟨fun hc => hkc ?_, fun hmem => hko (ExtTreeSet.mem_erase.mpr ⟨hcmp, hmem⟩)⟩
      rw [contains, contains_erase, Bool.and_eq_true_iff]
      exact ⟨by simpa using hcmp, hc⟩

end Changes

section Candidates

variable {η : Type} [Ord η] [DecidableEq η] {s : BlobStore η} {hash : η}

theorem held_of_mem {hashes : List η} (hget : s.holds[holder]? = some hashes) (hmem : hash ∈ hashes) :
    s.held hash = true :=
  any_eq_true.mpr ⟨(holder, hashes), mem_toList_iff_getElem?_eq_some.mpr hget, by simpa using hmem⟩

variable [TransOrd η] [LawfulEqOrd η]

theorem mem_candidates : hash ∈ s.candidates ↔ s.refcounts[hash]? = some 0 ∧ s.held hash = false := by
  simp only [candidates, mem_map, mem_filter, mem_toList_iff_getElem?_eq_some, Bool.and_eq_true,
    beq_iff_eq, Bool.not_eq_true', Prod.exists, exists_and_right, exists_eq_right]
  constructor
  · rintro ⟨count, hget, rfl, hheld⟩
    exact ⟨hget, hheld⟩
  · rintro ⟨hget, hheld⟩
    exact ⟨0, hget, rfl, hheld⟩

end Candidates

end BlobStore

/-! ### The index over a run -/

section Truth

variable {η : Type} [Ord η] [TransOrd η] {s s' : BlobRun η} {hash : η}

structure BlobOk (s : BlobRun η) : Prop where
  stored : Stored s.store
  held : ∀ holder hash, Pinned s holder hash → ∃ hashes : List η, s.store.holds[holder]? = some hashes ∧ hash ∈ hashes
  leases : ∀ (hash hash' : η) (upload upload' : Nat × Nat), s.store.uploads[hash]? = some upload →
    s.store.uploads[hash']? = some upload' → upload.1 = upload'.1 → hash = hash'

/-- A call that leaves the holds and the leases as they are. -/
theorem BlobOk.of_eq {store : BlobStore η} (h : BlobOk s) (hstored : Stored store) (hholds : store.holds = s.store.holds)
    (huploads : store.uploads = s.store.uploads) : BlobOk { s with store } where
  stored := hstored
  held holder hash hp := by
    rw [Pinned, huploads] at hp
    rw [hholds]
    exact h.held holder hash hp
  leases := by
    rw [huploads]
    exact h.leases

theorem BlobOk.adds {store : BlobStore η} (h : BlobOk s) (hadds : s.store.Adds store hash)
    (hmem : hash ∈ store.objects) : BlobOk { s with store } := by
  refine h.of_eq (fun x hx => ?_) hadds.holds hadds.uploads
  rcases (hadds.contains x).mp hx with rfl | hx
  · exact hmem
  · exact hadds.objects x (h.stored x hx)

theorem Stored.calm {store store' : BlobStore η} (h : Stored store) (hcalm : store.Calm store') : Stored store' := by
  intro x hx
  rw [hcalm.contains] at hx
  rw [hcalm.objects]
  exact h x hx

theorem BlobOk.hold (holder : Nat) (hashes : List η) (h : BlobOk s) :
    BlobOk ⟨s.store.hold holder hashes, hashes.map (holder, ·) ++ s.registered⟩ where
  stored := h.stored
  held holder' x hp := by
    have hnew : x ∈ hashes ∧ holder = holder' ∨ Pinned s holder' x := by
      rcases hp with hp | hp
      · rcases mem_append.mp hp with hp | hp
        · obtain ⟨y, hy, heq⟩ := mem_map.mp hp
          cases heq
          exact .inl ⟨hy, rfl⟩
        · exact .inr (.inl hp)
      · exact .inr (.inr hp)
    rcases hnew with ⟨hx, rfl⟩ | hp
    · refine ⟨s.store.holds[holder]?.getD [] ++ hashes, ?_, mem_append_right _ hx⟩
      rw [BlobStore.hold, OrdMap.lookup_insert, if_pos rfl]
    · obtain ⟨held, hget, hin⟩ := h.held holder' x hp
      obtain ⟨held', hget', hsub⟩ := BlobStore.holdsGrow_hold holder hashes holder' held hget
      exact ⟨held', hget', hsub hin⟩
  leases := h.leases

variable [LawfulEqOrd η]

theorem LeaseFree.ne {staged : Nat × Nat} (h : LeaseFree s holder) (hget : s.store.uploads[hash]? = some staged) :
    staged.1 ≠ holder := h (hash, staged) (mem_toList_iff_getElem?_eq_some.mpr hget)

theorem BlobOk.releaseHold (h : BlobOk s) (hfree : LeaseFree s holder) :
    BlobOk ⟨s.store.releaseHold holder, s.registered.filter fun p => p.1 != holder⟩ where
  stored := h.stored
  held holder' x hp := by
    have hne : holder ≠ holder' := by
      rcases hp with hp | ⟨staged, hget⟩
      · exact Ne.symm (by simpa using (List.mem_filter.mp hp).2)
      · exact (hfree.ne hget).symm
    rw [BlobStore.releaseHold, OrdMap.lookup_erase, if_neg hne]
    exact h.held holder' x (hp.imp_left fun hp => (List.mem_filter.mp hp).1)
  leases := h.leases

theorem contains_foldl_insert : ∀ (hashes : List η) (counts : ExtTreeMap η Nat),
    (hashes.foldl (fun counts h => counts.insert h 0) counts).contains hash = true → hash ∈ hashes ∨ counts.contains hash = true
  | [], _, h => .inr h
  | x :: hashes, counts, h => by
    rcases contains_foldl_insert hashes (counts.insert x 0) h with h | h
    · exact .inl (List.mem_cons_of_mem _ h)
    · rw [ExtTreeMap.contains_insert, Bool.or_eq_true, beq_iff_eq, LawfulEqCmp.compare_eq_iff_eq] at h
      exact h.elim (fun heq => .inl (heq ▸ List.mem_cons_self)) .inr

theorem blobOk_opened (objects : ExtTreeSet η) : BlobOk ⟨BlobStore.opened objects, []⟩ where
  stored x hx := by
    rcases contains_foldl_insert objects.toList ∅ hx with h | h
    · exact ExtTreeSet.mem_toList.mp h
    · simp at h
  held _ _ hp := by simp [Pinned, BlobStore.opened] at hp
  leases _ _ _ _ hget := by simp [BlobStore.opened] at hget

theorem BlobOk.lease {now : Nat} (h : BlobOk s) (hfree : s.store.uploads.contains hash = true ∨
    LeaseFree s (u64Max - s.store.nextUploadHolder)) : BlobOk { s with store := s.store.lease hash now } := by
  classical
  unfold BlobStore.lease
  split
  · exact h
  next hnew =>
  have hfree := hfree.resolve_left hnew
  have hhold := (BlobOk.hold (u64Max - s.store.nextUploadHolder) [hash] h).held
  -- what is leased now is the new lease or an old one
  have hlease {x : η} {upload : Nat × Nat} (hget : (s.store.uploads.insert hash (u64Max - s.store.nextUploadHolder, now))[x]? =
      some upload) : hash = x ∧ upload.1 = u64Max - s.store.nextUploadHolder ∨ s.store.uploads[x]? = some upload := by
    rw [OrdMap.lookup_insert] at hget
    split at hget
    · next hx =>
      cases hget
      exact .inl ⟨hx, rfl⟩
    · exact .inr hget
  refine ⟨h.stored, fun holder x hp => hhold holder x ?_, fun x x' upload upload' hget hget' heq => ?_⟩
  · rcases hp with hp | ⟨staged, hget⟩
    · exact .inl (mem_append_right _ hp)
    · rcases hlease hget with ⟨rfl, rfl⟩ | hget
      · exact .inl (mem_append_left _ mem_cons_self)
      · exact .inr ⟨staged, hget⟩
  · rcases hlease hget with ⟨rfl, hid⟩ | hget <;> rcases hlease hget' with ⟨rfl, hid'⟩ | hget'
    · rfl
    · exact absurd (heq.symm.trans hid) (hfree.ne hget')
    · exact absurd (heq.trans hid') (hfree.ne hget)
    · exact h.leases x x' upload upload' hget hget' heq

theorem BlobOk.endLease (h : BlobOk s) (hapart : LeaseApart s hash) : BlobOk { s with store := s.store.endLease hash } := by
  classical
  have hstored := h.stored.calm (BlobStore.calm_endLease s.store hash)
  unfold BlobStore.endLease at hstored ⊢
  cases hget : s.store.uploads[hash]? with
  | none => exact h
  | some upload =>
    have hother {x : η} {upload' : Nat × Nat} (hx : (s.store.uploads.erase hash)[x]? = some upload') :
        hash ≠ x ∧ s.store.uploads[x]? = some upload' := by
      rw [OrdMap.lookup_erase] at hx
      split at hx
      · cases hx
      · next hne => exact ⟨hne, hx⟩
    rw [hget] at hstored
    refine ⟨hstored, fun holder x hp => ?_, fun x x' u u' hx hx' => h.leases x x' u u' (hother hx).2 (hother hx').2⟩
    have hp' : upload.1 ≠ holder ∧ Pinned s holder x := by
      rcases hp with hp | ⟨staged, hx⟩
      · exact ⟨Ne.symm (hapart upload hget _ hp), .inl hp⟩
      · obtain ⟨hne, hx⟩ := hother hx
        exact ⟨fun heq => hne (h.leases hash x upload _ hget hx heq), .inr ⟨staged, hx⟩⟩
    show ∃ hashes : List η, (s.store.holds.erase upload.1)[holder]? = some hashes ∧ x ∈ hashes
    rw [OrdMap.lookup_erase, if_neg hp'.1]
    exact h.held holder x hp'.2

theorem LeaseApart.endLease {x : η} (h : LeaseApart s x) : LeaseApart { s with store := s.store.endLease hash } x := by
  classical
  intro upload hup
  unfold BlobStore.endLease at hup
  cases hget : s.store.uploads[hash]? with
  | none => exact h upload (by simpa [hget] using hup)
  | some _ =>
    rw [hget] at hup
    change upload ∈ (s.store.uploads.erase hash)[x]? at hup
    rw [OrdMap.lookup_erase] at hup
    split at hup
    · cases hup
    · exact h upload hup

theorem BlobOk.endLeases : ∀ {hashes : List η} {s : BlobRun η}, BlobOk s → (∀ x ∈ hashes, LeaseApart s x) →
    BlobOk { s with store := hashes.foldl BlobStore.endLease s.store }
  | [], _, h, _ => h
  | hash :: _, _, h, hapart => (h.endLease (hapart hash mem_cons_self)).endLeases fun x hx =>
      (hapart x (mem_cons_of_mem hash hx)).endLease

variable [DecidableEq η]

/-- No call but `reclaim` takes anything away, and `reclaim` spares what is protected. -/
theorem keeps_step (h : BlobOk s) {call : BlobCall η} (hs : blobStep s call = some s')
    (hprotected : Protected s hash) : Keeps s.store s'.store hash := by
  have hadds : ∀ {store : BlobStore η} {x : η}, s.store.Adds store x → Keeps s.store store hash :=
    fun ha => ⟨fun hc => (ha.contains hash).mpr (.inr hc), ha.objects hash⟩
  have hcalm : ∀ {store : BlobStore η}, s.store.Calm store → Keeps s.store store hash :=
    fun hc => ⟨fun hin => by rw [hc.contains]; exact hin, fun hin => by rw [hc.objects]; exact hin⟩
  cases call with
  | put x io =>
    cases hs
    exact hadds (BlobStore.put_adds s.store x io)
  | stage x io now =>
    cases hs
    have hwrite := hadds (BlobStore.staged_spec s.store x io).1
    unfold BlobStore.stage
    simp only []
    split
    · have hlease := BlobStore.calm_lease ((s.store.enter x).writeObject x io).2 x now
      exact ⟨fun hc => by rw [hlease.contains]; exact hwrite.1 hc, fun hm => by rw [hlease.objects]; exact hwrite.2 hm⟩
    · exact hwrite
  | incref x =>
    cases hs
    exact hcalm (BlobStore.calm_incref s.store x)
  | unref x =>
    cases hs
    exact hcalm (BlobStore.calm_unref s.store x)
  | hold holder hashes | releaseHold holder =>
    cases hs
    exact ⟨id, id⟩
  | expire now orphanAfter =>
    cases hs
    exact hcalm (BlobStore.calm_foldl_endLease _ s.store)
  | reclaim order stuck =>
    rw [blobStep] at hs
    split at hs
    · rename_i hperm
      cases hs
      refine (BlobStore.reclaimLoop_spec stuck order s.store).2.2 hash fun hmem => ?_
      obtain ⟨hzero, hheld⟩ := BlobStore.mem_candidates.mp ((isPerm_iff.mp hperm).mem_iff.mp hmem)
      rcases hprotected with ⟨count, hget, hpos⟩ | ⟨holder, hpin⟩
      · rw [hget] at hzero
        exact absurd (Option.some.inj hzero) (Nat.pos_iff_ne_zero.mp hpos)
      · obtain ⟨hashes, hget, hin⟩ := h.held holder hash hpin
        rw [BlobStore.held_of_mem hget hin] at hheld
        cases hheld
    · cases hs

theorem blobOk_step (call : BlobCall η) (h : BlobOk s) (hsound : Sound s call) (hs : blobStep s call = some s') :
    BlobOk s' := by
  cases call with
  | put hash io =>
    cases hs
    exact h.adds (BlobStore.put_adds s.store hash io) (BlobStore.mem_objects_put h.stored hsound)
  | stage hash io now =>
    cases hs
    obtain ⟨hadds, hmem, hnext⟩ := BlobStore.staged_spec s.store hash io
    have hwrite := h.adds hadds (hmem hsound.1)
    unfold BlobStore.stage
    simp only []
    split
    · refine hwrite.lease ?_
      rw [LeaseFree, hadds.uploads, hnext]
      exact hsound.2
    · exact hwrite
  | incref hash =>
    cases hs
    unfold BlobStore.incref
    cases hget : s.store.refcounts[hash]? with
    | none => exact h
    | some count => exact (h.of_eq (h.stored.calm (BlobStore.calm_insert hget)) rfl rfl).endLease hsound
  | unref hash =>
    cases hs
    refine h.of_eq (h.stored.calm (BlobStore.calm_unref s.store hash)) ?_ ?_ <;>
      (unfold BlobStore.unref; cases s.store.refcounts[hash]? <;> rfl)
  | hold holder hashes =>
    cases hs
    exact h.hold _ _
  | releaseHold holder =>
    cases hs
    exact h.releaseHold hsound
  | expire now orphanAfter =>
    cases hs
    exact h.endLeases hsound
  | reclaim order stuck =>
    obtain ⟨-, rfl⟩ := Runs.of_guard hs
    obtain ⟨⟨hholds, huploads⟩, hcontains, -⟩ := BlobStore.reclaimLoop_spec stuck order s.store
    refine h.of_eq (fun x hx => ?_) hholds huploads
    obtain ⟨hx, hkept⟩ := hcontains x hx
    exact hkept (h.stored x hx)

/-- **The blob index tells the truth** in every run of sound calls: the hashes it knows have their object, and no call
takes away a hash that has a reference, a hold or a lease. -/
theorem blob_index_truthful {objects : ExtTreeSet η} {calls : List (BlobCall η)}
    (hmeets : Runs.Meets blobStep Sound ⟨BlobStore.opened objects, []⟩ calls)
    (hrun : Runs.run blobStep ⟨BlobStore.opened objects, []⟩ calls = some s) :
    Stored s.store ∧ ∀ call s', blobStep s call = some s' → ∀ hash, Protected s hash → Keeps s.store s'.store hash := by
  have hok : BlobOk s :=
    Runs.run_invariant_of_meets (fun _ call _ => blobOk_step call) (blobOk_opened objects) hmeets hrun
  exact ⟨hok.stored, fun call s' hs hash => keeps_step hok hs⟩

end Truth

/-! ### A failed write, and a shared holder id -/

section

variable {η : Type} [Ord η] [TransOrd η] [DecidableEq η] (s : BlobRun η)

instance (hash : η) : Decidable (LeaseApart s hash) :=
  inferInstanceAs (Decidable (∀ upload ∈ s.store.uploads[hash]?, ∀ p ∈ s.registered, p.1 ≠ upload.1))

instance (holder : Nat) : Decidable (LeaseFree s holder) :=
  inferInstanceAs (Decidable (∀ p ∈ s.store.uploads.toList, p.2.1 ≠ holder))

instance : ∀ call, Decidable (Sound s call)
  | .put hash io => inferInstanceAs (Decidable (hash ∈ s.store.objects ∨ io ≠ .failed))
  | .stage hash io _ => inferInstanceAs (Decidable ((hash ∈ s.store.objects ∨ io ≠ .failed) ∧
      (s.store.uploads.contains hash = true ∨ LeaseFree s (u64Max - s.store.nextUploadHolder))))
  | .incref hash => inferInstanceAs (Decidable (LeaseApart s hash))
  | .releaseHold holder => inferInstanceAs (Decidable (LeaseFree s holder))
  | .expire now orphanAfter => inferInstanceAs (Decidable (∀ hash ∈ s.store.stale now orphanAfter, LeaseApart s hash))
  | .unref _ => .isTrue trivial
  | .hold _ _ => .isTrue trivial
  | .reclaim _ _ => .isTrue trivial

end

/-- A store with one object, the hash 5. -/
def oneObject : BlobRun Nat := ⟨BlobStore.opened ((∅ : ExtTreeSet Nat).insert 5), []⟩

/-- A caller holds 5, and 6 is uploaded; a `reclaim` finds nothing to remove. -/
def soundCalls : List (BlobCall Nat) := [.hold 1 [5], .stage 6 .done 0, .reclaim [] fun _ => false]

theorem blob_index_truthful_soundCalls : ∃ s, Runs.run blobStep oneObject soundCalls = some s ∧
    s.store.contains 6 = true ∧ Stored s.store ∧ ∀ call s', blobStep s call = some s' → Keeps s.store s'.store 5 ∧ Keeps s.store s'.store 6 := by
  obtain ⟨s, hrun, hcontains, hheld, hleased⟩ : ∃ s ∈ Runs.run blobStep oneObject soundCalls, s.store.contains 6 = true ∧
      (1, 5) ∈ s.registered ∧ s.store.uploads[6]? = some (u64Max, 0) := by
    decide +kernel
  obtain ⟨hstored, hkeeps⟩ := blob_index_truthful (by decide +kernel) hrun
  exact ⟨s, hrun, hcontains, hstored, fun call s' hs =>
    ⟨hkeeps call s' hs 5 (.inr ⟨1, .inl hheld⟩), hkeeps call s' hs 6 (.inr ⟨u64Max, .inr ⟨0, hleased⟩⟩)⟩⟩

/-- The same with the id of the first upload lease for the hold. -/
def sharedHolder : List (BlobCall Nat) := [.hold u64Max [5], .stage 6 .done 0, .incref 6]

/-- A `put` whose write fails leaves an entry without an object. A hold under the id of an upload lease ends with the
lease, and a `reclaim` removes the object it was to keep. -/
theorem blob_index_lies :
    (∃ s, Runs.run blobStep oneObject [.put 7 .failed] = some s ∧ s.store.contains 7 = true ∧ 7 ∉ s.store.objects) ∧
    ∃ s s', Runs.run blobStep oneObject sharedHolder = some s ∧ (u64Max, 5) ∈ s.registered ∧ 5 ∈ s.store.objects ∧
      blobStep s (.reclaim [5] fun _ => false) = some s' ∧ 5 ∉ s'.store.objects := by
  constructor
  · decide +kernel
  obtain ⟨s, hrun, hreg, hmem, s', hs, hgone⟩ : ∃ s ∈ Runs.run blobStep oneObject sharedHolder,
      (u64Max, 5) ∈ s.registered ∧ 5 ∈ s.store.objects ∧
        ∃ s' ∈ blobStep s (.reclaim [5] fun _ => false), 5 ∉ s'.store.objects := by
    decide +kernel
  exact ⟨s, s', hrun, hreg, hmem, hs, hgone⟩

end Fluxum
