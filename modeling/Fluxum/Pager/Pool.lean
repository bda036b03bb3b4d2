/-
# The buffer pool

The frame pool of `store/pager/pool.rs`. Callers are threads; each holds the
pool lock only inside one of the sections below, and spills and reads pages
outside it. The model has one step per lock section and one per spill or
read, so a run is an interleaving of any number of callers.

A page id is installed once, as `Pager` does with the ids it allocates, and
no page is rewritten: only tests call `write_page`, since the tree above is
copy-on-write.
-/
import Fluxum.Lib.Runs
import Fluxum.Lib.OrdMap
import Fluxum.Lib.Bytes

namespace Fluxum
namespace Pager

open Std

structure PageKey where
  shardId : Nat
  tableId : Nat
  pageId : Nat
deriving DecidableEq, Repr

namespace PageKey

instance : Ord PageKey where
  compare a b := (compare a.shardId b.shardId).then
    ((compare a.tableId b.tableId).then (compare a.pageId b.pageId))

instance : TransOrd PageKey :=
  inferInstanceAs (TransCmp (compareLex (compareOn PageKey.shardId)
    (compareLex (compareOn PageKey.tableId) (compareOn PageKey.pageId))))

instance : LawfulEqOrd PageKey where
  eq_of_compare {a b} h := by
    simp only [compare, Ordering.then_eq_eq] at h
    obtain ⟨h₁, h₂, h₃⟩ := h
    cases a
    cases b
    simp_all [compareOfLessAndEq_eq_eq]

end PageKey

/-- `Arc<Vec<u8>>`: an image and the allocation that holds it. `Arc::ptr_eq` compares allocations. -/
structure Arc where
  ptr : Nat
  image : Bytes
deriving DecidableEq, Repr

structure Frame where
  key : PageKey
  data : Arc
  pins : Nat
  referenced : Bool
  dirty : Bool
deriving DecidableEq, Repr

/-- What the pool lock protects. The last free slot pushed is the head of `freeSlots`. -/
structure PoolInner where
  map : ExtTreeMap PageKey Nat
  frames : List (Option Frame)
  freeSlots : List Nat
  hand : Nat
  inflight : ExtTreeSet PageKey
  reclaiming : Bool

/-- The capacity and the two watermarks of a pool, in frames. -/
structure PoolOptions where
  frames : Nat
  highFrames : Nat
  lowFrames : Nat
deriving DecidableEq, Repr

namespace PoolInner

/-- `BufferPool::new`: every slot empty; the highest slot is on top of the free stack. -/
def new (opts : PoolOptions) : PoolInner :=
  ⟨∅, List.replicate opts.frames none, (List.range opts.frames).reverse, 0, ∅, false⟩

def occupied (inner : PoolInner) : Nat := inner.map.size

def frameAt (inner : PoolInner) (slot : Nat) : Option Frame := (inner.frames[slot]?).join

def setFrame (inner : PoolInner) (slot : Nat) (frame : Frame) : PoolInner :=
  { inner with frames := inner.frames.set slot (some frame) }

/-- A hit: the frame is referenced and pinned once more. -/
def pin (inner : PoolInner) (slot : Nat) (frame : Frame) : PoolInner :=
  inner.setFrame slot { frame with referenced := true, pins := frame.pins + 1 }

def unpin (inner : PoolInner) (slot : Nat) (key : PageKey) : PoolInner :=
  match inner.frameAt slot with
  | some frame => if frame.key = key then inner.setFrame slot { frame with pins := frame.pins - 1 } else inner
  | none => inner

def place (inner : PoolInner) (slot : Nat) (rest : List Nat) (frame : Frame) : PoolInner :=
  { inner.setFrame slot frame with map := inner.map.insert frame.key slot, freeSlots := rest }

def vacate (inner : PoolInner) (slot : Nat) (key : PageKey) : PoolInner :=
  { inner with
    frames := inner.frames.set slot none
    map := inner.map.erase key
    freeSlots := slot :: inner.freeSlots }

end PoolInner

/-- The sweep of `pick_victim`: `fuel` more ticks of the clock, with the first dirty candidate
seen so far. A clean unpinned frame without the referenced bit ends it. -/
def pickVictimLoop : Nat → PoolInner → Option Nat → Option Nat × PoolInner
  | 0, inner, dirtyCandidate => (dirtyCandidate, inner)
  | fuel + 1, inner, dirtyCandidate =>
    let slot := inner.hand
    let inner := { inner with hand := (slot + 1) % inner.frames.length }
    match inner.frameAt slot with
    | none => pickVictimLoop fuel inner dirtyCandidate
    | some frame =>
      if 0 < frame.pins then pickVictimLoop fuel inner dirtyCandidate
      else if frame.referenced then
        pickVictimLoop fuel (inner.setFrame slot { frame with referenced := false }) dirtyCandidate
      else if !frame.dirty then (some slot, inner)
      else pickVictimLoop fuel inner (dirtyCandidate.or (some slot))

def pickVictim (inner : PoolInner) : Option Nat × PoolInner :=
  pickVictimLoop (2 * inner.frames.length) inner none

/-- The arguments of a call of `install_with`. `fault` says that the caller is `get_or_fault`,
which holds the key in the single-flight set meanwhile. -/
structure Request where
  key : PageKey
  data : Arc
  dirty : Bool
  referenced : Bool
  fault : Bool
deriving DecidableEq, Repr

/-- How one pass of `install_with`'s loop leaves the lock. -/
inductive Outcome where
  /-- The page is resident in this slot, pinned for the caller. -/
  | served (slot : Nat)
  /-- The page was put in this slot. -/
  | installed (slot : Nat)
  /-- `BufferPoolExhausted`. -/
  | exhausted
  /-- The pool's accounting is broken. -/
  | broken
  /-- Nothing to evict, or a clean victim was dropped: loop. -/
  | again
  /-- A dirty victim was taken out and must be spilled. -/
  | evicted (victim : Frame)

/-- The part of the pass that looks for a victim. -/
def evictSection (mustEvict : Bool) (inner : PoolInner) : PoolInner × Outcome :=
  match pickVictim inner with
  | (none, inner) => if mustEvict then (inner, .exhausted) else ({ inner with reclaiming := false }, .again)
  | (some slot, inner) =>
    match inner.frameAt slot with
    | none => (inner, .broken)
    | some victim =>
      let inner := inner.vacate slot victim.key
      if victim.dirty then
        ({ inner with inflight := inner.inflight.insert victim.key }, .evicted victim)
      else (inner, .again)

/-- The part of the pass that takes a free slot. -/
def placeSection (req : Request) (inner : PoolInner) : PoolInner × Outcome :=
  let inner := { inner with reclaiming := false }
  match inner.freeSlots with
  | [] => (inner, .broken)
  | slot :: rest => (inner.place slot rest ⟨req.key, req.data, 1, req.referenced, req.dirty⟩, .installed slot)

/-- One pass of `install_with`'s loop under the lock. -/
def installSection (opts : PoolOptions) (req : Request) (inner : PoolInner) : PoolInner × Outcome :=
  match inner.map[req.key]? with
  | some slot =>
    match inner.frameAt slot with
    | some frame => (inner.pin slot frame, .served slot)
    | none => (inner, .broken)
  | none =>
    let occupied := inner.occupied
    -- crossing the high watermark starts a reclaim, which runs down to the low one
    let inner := { inner with reclaiming := inner.reclaiming || decide (opts.highFrames < occupied + 1) }
    let mustEvict := decide (opts.frames ≤ occupied)
    let wantEvict := inner.reclaiming && decide (opts.lowFrames < occupied + 1)
    if !mustEvict && !wantEvict then placeSection req inner else evictSection mustEvict inner

/-! ### Callers -/

/-- Where a caller stands between two of its steps. -/
inductive Caller where
  | idle
  /-- `get_or_fault` missed, holds `key` in the single-flight set, and is about to read the page. -/
  | reading (key : PageKey)
  /-- About to take the lock at the top of `install_with`'s loop. -/
  | installing (req : Request)
  /-- Took out a dirty victim and is about to spill it. -/
  | spilling (req : Request) (victim : Frame)
  /-- The spill failed; about to retake the lock and put the victim back. -/
  | spillFailed (req : Request) (victim : Frame)
  /-- The spill succeeded; about to drop the victim's single-flight guard and loop. -/
  | spilled (req : Request) (victimKey : PageKey)
  /-- The victim was dealt with after a failed spill; about to drop its single-flight guard and
  return the spill's error. -/
  | failing (req : Request) (victimKey : PageKey)
  /-- `install_with` returned to `get_or_fault`, with a pinned slot or an error; about to drop the
  single-flight guard of `key`. -/
  | returning (key : PageKey) (slot : Option Nat)
  /-- `flush`, with the copies it has still to spill. -/
  | flushing (todo : List (PageKey × Arc))
  /-- `flush` has spilled the copy `data` of `key` and is about to mark its frame clean. -/
  | flushed (key : PageKey) (data : Arc) (todo : List (PageKey × Arc))
  /-- `free_page` has discarded `key` and is about to drop it from the page directory. -/
  | freeing (key : PageKey)

/-- The pool, the cold tier, `n` callers and the page guards they hold. The last three fields
record the history: the page ids handed out, the image each page was installed dirty with, and
the pages discarded. -/
structure State (n : Nat) where
  inner : PoolInner
  /-- The live page directory, with the image each extent holds. -/
  cold : ExtTreeMap PageKey Bytes
  callers : Fin n → Caller
  guards : List (Nat × PageKey)
  nextPtr : Nat
  allocated : ExtTreeSet PageKey
  installed : ExtTreeMap PageKey Bytes
  discarded : ExtTreeSet PageKey

namespace State

variable {n : Nat}

/-- A new pool over an empty page file. -/
def new (opts : PoolOptions) : State n :=
  ⟨.new opts, ∅, fun _ => .idle, [], 0, ∅, ∅, ∅⟩

def setCaller (s : State n) (t : Fin n) (c : Caller) : State n :=
  { s with callers := Function.update s.callers t c }

/-- `install_with` returns to its caller, with the pinned slot or an error. -/
def finish (s : State n) (t : Fin n) (req : Request) (slot : Option Nat) : State n :=
  if req.fault then s.setCaller t (.returning req.key slot)
  else { s.setCaller t .idle with guards := slot.toList.map (·, req.key) ++ s.guards }

/-- A dirty request that found a slot is a page installed dirty. -/
def recordInstall (s : State n) (req : Request) : State n :=
  if req.dirty then { s with installed := s.installed.insert req.key req.data.image } else s

end State

/-- A step: one lock section, one spill, one page read, or the start of a call. The flag of a
spill or a read says whether it succeeds. -/
inductive Step (n : Nat) where
  /-- Call `install` with a page id that `allocate_page_id` has just handed out. -/
  | install (t : Fin n) (key : PageKey) (image : Bytes) (referenced : Bool)
  /-- Call `get_or_fault`; a caller that finds the key in flight waits, so has no step. -/
  | fault (t : Fin n) (key : PageKey)
  | read (t : Fin n) (ok : Bool)
  /-- Run one pass of `install_with`'s loop. -/
  | enter (t : Fin n)
  | spill (t : Fin n) (ok : Bool)
  /-- Retake the lock after a failed spill. -/
  | putBack (t : Fin n)
  | unguard (t : Fin n)
  | unpin (slot : Nat) (key : PageKey)
  /-- Call `flush`: copy out the dirty frames. -/
  | flush (t : Fin n)
  | flushSpill (t : Fin n) (ok : Bool)
  | flushMark (t : Fin n)
  /-- Call `free_page`: discard the page from the pool. -/
  | discard (t : Fin n) (key : PageKey)
  /-- Drop the page from the directory and give back its extent. -/
  | freeExtent (t : Fin n)
deriving DecidableEq, Repr

variable {n : Nat}

/-- The copies `flush` takes: the key and the image of every dirty frame, in slot order. -/
def dirtyCopies (inner : PoolInner) : List (PageKey × Arc) :=
  (inner.frames.filterMap id |>.filter (·.dirty)).map fun f => (f.key, f.data)

/-- `flush` marks the frame of `key` clean if it still holds the copy that was spilled. -/
def markClean (inner : PoolInner) (key : PageKey) (data : Arc) : PoolInner :=
  match inner.map[key]? with
  | none => inner
  | some slot =>
    match inner.frameAt slot with
    | none => inner
    | some frame => if frame.data.ptr = data.ptr then inner.setFrame slot { frame with dirty := false } else inner

/-- The lock section of `discard`; `none` is its error, for a pinned page. -/
def discardSection (inner : PoolInner) (key : PageKey) : Option PoolInner :=
  match inner.map[key]? with
  | none => some inner
  | some slot =>
    if (inner.frameAt slot).any (0 < ·.pins) then none else some (inner.vacate slot key)

/-- What a caller does after a pass of the loop. -/
def afterPass (s : State n) (t : Fin n) (req : Request) : Outcome → State n
  | .served slot => s.finish t req (some slot)
  | .installed slot => (s.recordInstall req).finish t req (some slot)
  | .exhausted => s.finish t req none
  | .broken => s.finish t req none
  | .again => s
  | .evicted victim => s.setCaller t (.spilling req victim)

/-- The first lock section of `get_or_fault`. -/
def faultSection (s : State n) (t : Fin n) (key : PageKey) : Option (State n) :=
  match s.inner.map[key]? with
  | some slot =>
    match s.inner.frameAt slot with
    | some frame => some { s with inner := s.inner.pin slot frame, guards := (slot, key) :: s.guards }
    | none => some s
  | none =>
    if key ∈ s.inner.inflight then none
    else some ({ s with inner := { s.inner with inflight := s.inner.inflight.insert key } }.setCaller t (.reading key))

/-- After the page read of a fault: the image goes to `install_with`, clean and referenced. -/
def readStep (s : State n) (t : Fin n) (key : PageKey) (ok : Bool) : State n :=
  match s.cold[key]?, ok with
  | some image, true =>
    { s with nextPtr := s.nextPtr + 1 }.setCaller t (.installing ⟨key, ⟨s.nextPtr, image⟩, false, true, true⟩)
  | _, _ => s.setCaller t (.returning key none)

/-- The section that puts a victim back after its spill failed: with no free slot it does nothing. -/
def putBackSection (inner : PoolInner) (victim : Frame) : PoolInner :=
  match inner.freeSlots with
  | slot :: rest => inner.place slot rest victim
  | [] => inner

/-- Remove a key from the single-flight set. -/
def dropInflight (s : State n) (key : PageKey) : State n :=
  { s with inner := { s.inner with inflight := s.inner.inflight.erase key } }

/-- One step of the pool; `none` if the caller is not at that point. -/
def step (opts : PoolOptions) (s : State n) : Step n → Option (State n)
  | .install t key image referenced =>
    match s.callers t with
    | .idle =>
      if key ∈ s.allocated then none
      else some ({ s with allocated := s.allocated.insert key, nextPtr := s.nextPtr + 1 }.setCaller t
        (.installing ⟨key, ⟨s.nextPtr, image⟩, true, referenced, false⟩))
    | _ => none
  | .fault t key =>
    match s.callers t with
    | .idle => faultSection s t key
    | _ => none
  | .read t ok =>
    match s.callers t with
    | .reading key => some (readStep s t key ok)
    | _ => none
  | .enter t =>
    match s.callers t with
    | .installing req =>
      let (inner, outcome) := installSection opts req s.inner
      some (afterPass { s with inner } t req outcome)
    | _ => none
  | .spill t ok =>
    match s.callers t with
    | .spilling req victim =>
      if ok then some ({ s with cold := s.cold.insert victim.key victim.data.image }.setCaller t
        (.spilled req victim.key))
      else some (s.setCaller t (.spillFailed req victim))
    | _ => none
  | .putBack t =>
    match s.callers t with
    | .spillFailed req victim =>
      some ({ s with inner := putBackSection s.inner victim }.setCaller t (.failing req victim.key))
    | _ => none
  | .unguard t =>
    match s.callers t with
    | .spilled req victimKey => some ((dropInflight s victimKey).setCaller t (.installing req))
    | .failing req victimKey => some ((dropInflight s victimKey).finish t req none)
    | .returning key slot =>
      some { (dropInflight s key).setCaller t .idle with guards := slot.toList.map (·, key) ++ s.guards }
    | _ => none
  | .unpin slot key =>
    if (slot, key) ∈ s.guards then
      some { s with inner := s.inner.unpin slot key, guards := s.guards.erase (slot, key) }
    else none
  | .flush t =>
    match s.callers t with
    | .idle => some (s.setCaller t (.flushing (dirtyCopies s.inner)))
    | _ => none
  | .flushSpill t ok =>
    match s.callers t with
    | .flushing [] => some (s.setCaller t .idle)
    | .flushing ((key, data) :: todo) =>
      if ok then some ({ s with cold := s.cold.insert key data.image }.setCaller t (.flushed key data todo))
      else some (s.setCaller t .idle)
    | _ => none
  | .flushMark t =>
    match s.callers t with
    | .flushed key data todo => some ({ s with inner := markClean s.inner key data }.setCaller t (.flushing todo))
    | _ => none
  | .discard t key =>
    match s.callers t with
    | .idle =>
      match discardSection s.inner key with
      | some inner => some ({ s with inner, discarded := s.discarded.insert key }.setCaller t (.freeing key))
      | none => some s
    | _ => none
  | .freeExtent t =>
    match s.callers t with
    | .freeing key => some ({ s with cold := s.cold.erase key }.setCaller t .idle)
    | _ => none

end Pager
end Fluxum
