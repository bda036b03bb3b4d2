/-
# The temporal window

The history of `store/memstore.rs` that `AS OF` reads look into: each commit
pushes the state it published, and the oldest entries are dropped to keep
within a number of commits and a number of bytes. The bytes are those of the
superseded pages that the reclaimer still holds. Popped entries are released
after the loop, when the history lock is free, so what the loop reads does not
change while it pops.

* `retain_longest_iff`: when the longest fitting history is what is kept.
* `retain_drops_all`: once over the ceiling, the loop pops every entry.
-/
import Fluxum.Store.CommitFaults

namespace Fluxum

open Std List

/-! ### The reclaimer's count -/

/-- The superseded pages that wait for reclamation. -/
def Reclaimer.pages (r : Reclaimer) : List SupersededPage := r.garbage.toList.flatMap Prod.snd

/-- The reclaimer with the running total of its pages. -/
structure PageReclaimer extends Reclaimer where
  pendingPages : Nat
  counted : pendingPages = toReclaimer.pages.length

namespace Reclaimer

variable {r : Reclaimer}

/-- What `collect` frees and what it keeps make up the pages. -/
theorem length_reclaimable_add (r : Reclaimer) : r.reclaimable.length + r.drained.pages.length = r.pages.length := by
  have hkept : r.drained.garbage.toList =
      r.garbage.toList.filter fun p => !decide (p.1 < saturatingAdd r.floor 1) := by
    rw [drained, ExtTreeMap.toList_filter]
    refine filter_congr fun p _ => ?_
    rw [← decide_not, decide_eq_decide, Nat.not_lt]
  rw [reclaimable, pages, pages, hkept, ← length_append, ← flatMap_append]
  exact ((filter_append_perm _ _).flatMap_right Prod.snd).length_eq

theorem pages_unpin (r : Reclaimer) (version : Nat) : (r.unpin version).pages = r.pages := by
  unfold unpin
  cases r.live[version]? <;> rfl

end Reclaimer

namespace PageReclaimer

theorem counted_collect (r : PageReclaimer) :
    r.pendingPages - r.reclaimable.length = r.toReclaimer.drained.pages.length := by
  have hadd := r.toReclaimer.length_reclaimable_add
  have hcount := r.counted
  omega

/-- `Reclaimer::collect`. A page that cannot be freed is dropped from the books all the same. -/
def collect (r : PageReclaimer) : PageReclaimer :=
  ⟨r.toReclaimer.drained, r.pendingPages - r.reclaimable.length, counted_collect r⟩

theorem counted_unpin (r : PageReclaimer) (version : Nat) :
    r.pendingPages = (r.toReclaimer.unpin version).pages.length :=
  r.counted.trans (congrArg length (r.toReclaimer.pages_unpin version).symm)

/-- The drop of a `VersionGuard`. -/
def unpin (r : PageReclaimer) (version : Nat) : PageReclaimer :=
  collect ⟨r.toReclaimer.unpin version, r.pendingPages, counted_unpin r version⟩

end PageReclaimer

/-! ### The window -/

/-- A retained commit: its transaction, its time in microseconds and the state it published. -/
structure RetainedCommit where
  txId : Nat
  atMicros : Int
  state : CommittedState

/-- The version that the entry's state pins. -/
def RetainedCommit.version (e : RetainedCommit) : Nat := e.state.version

structure WindowOptions where
  temporalWindow : Nat
  maxBytes : Nat
  pageSize : Nat

def PageReclaimer.retainedWindowBytes (o : WindowOptions) (r : PageReclaimer) : Nat :=
  min (r.pendingPages * o.pageSize) (2 ^ 64 - 1)

/-- Pop entries off the front as long as `exceeds` holds of what is left: the popped ones and the rest. -/
def popWhile (exceeds : List RetainedCommit → Bool) : List RetainedCommit → List RetainedCommit × List RetainedCommit
  | [] => ([], [])
  | e :: es => if exceeds (e :: es) then (e :: (popWhile exceeds es).1, (popWhile exceeds es).2) else ([], e :: es)

/-- The history after a push: the entries dropped and those kept. `exceeds` is what the second loop reads of the
reclaimer, with this much of the history left. -/
def retainWith (o : WindowOptions) (exceeds : List RetainedCommit → Bool) (history : List RetainedCommit) (entry : RetainedCommit) :
    List RetainedCommit × List RetainedCommit :=
  if o.temporalWindow = 0 then ([entry], history)
  else
    let counted := popWhile (fun h => decide (o.temporalWindow < h.length)) (history ++ [entry])
    let costed := popWhile exceeds counted.2
    (counted.1 ++ costed.1, costed.2)

/-- `retain_in_temporal_window`. The popped entries are alive until the loop is over, so it reads the same count
each time. -/
def retainInTemporalWindow (o : WindowOptions) (r : PageReclaimer) (history : List RetainedCommit) (entry : RetainedCommit) :
    List RetainedCommit × List RetainedCommit :=
  retainWith o (fun _ => decide (o.maxBytes < r.retainedWindowBytes o)) history entry

/-- Drop entries one after the other. A state's guard goes with its last reference; `held` are the versions that
others refer to. -/
def release (held : List Nat) : List RetainedCommit → PageReclaimer → PageReclaimer
  | [], r => r
  | e :: es, r =>
    release held es (if e.version ∈ held ∨ e.version ∈ es.map RetainedCommit.version then r else r.unpin e.version)

/-- The bytes still pinned when of `older ++ newer` the older entries are released. -/
def bytesWithout (o : WindowOptions) (r : PageReclaimer) (others : List Nat) (older newer : List RetainedCommit) : Nat :=
  (release (others ++ newer.map RetainedCommit.version) older r).retainedWindowBytes o

/-- `kept` is the longest suffix of the entries, within the number of commits, whose pinned pages fit the ceiling. -/
structure LongestFitting (o : WindowOptions) (r : PageReclaimer) (others : List Nat) (entries kept : List RetainedCommit) :
    Prop where
  suffix : kept <:+ entries
  count : kept.length ≤ o.temporalWindow
  fits : kept ≠ [] → ∀ older, older ++ kept = entries → bytesWithout o r others older kept ≤ o.maxBytes
  longest : ∀ older newer, older ++ newer = entries → newer.length ≤ o.temporalWindow →
    bytesWithout o r others older newer ≤ o.maxBytes → newer.length ≤ kept.length

/-! ### The loops -/

section PopWhile

variable {exceeds : List RetainedCommit → Bool}

theorem popWhile_append : ∀ es : List RetainedCommit, (popWhile exceeds es).1 ++ (popWhile exceeds es).2 = es
  | [] => rfl
  | e :: es => by
    rw [popWhile]
    by_cases h : exceeds (e :: es) = true
    · rw [if_pos h, List.cons_append, popWhile_append es]
    · rw [if_neg h, List.nil_append]

theorem popWhile_const (b : Bool) : ∀ es : List RetainedCommit, popWhile (fun _ => b) es = if b then (es, []) else ([], es)
  | [] => by cases b <;> rfl
  | e :: es => by
    rw [popWhile, popWhile_const b es]
    cases b <;> rfl

/-- The first loop keeps as many of the newest entries as the window has room for. -/
theorem length_popWhile_count (limit : Nat) : ∀ es : List RetainedCommit,
    (popWhile (fun h => decide (limit < h.length)) es).2.length = min limit es.length
  | [] => by simp [popWhile]
  | e :: es => by
    rw [popWhile]
    by_cases h : limit < (e :: es).length
    · rw [if_pos (decide_eq_true h), length_popWhile_count limit es]
      simp only [List.length_cons] at h ⊢
      omega
    · rw [if_neg (by simpa using h)]
      show (e :: es).length = _
      omega

end PopWhile

section Retain

variable {o : WindowOptions} {exceeds : List RetainedCommit → Bool} {history : List RetainedCommit} {entry : RetainedCommit}

theorem length_retainWith_le (hbound : history.length ≤ o.temporalWindow) :
    (retainWith o exceeds history entry).2.length ≤ o.temporalWindow := by
  unfold retainWith
  by_cases hoff : o.temporalWindow = 0
  · rw [if_pos hoff]
    exact hbound
  rw [if_neg hoff]
  have hcount := length_popWhile_count o.temporalWindow (history ++ [entry])
  have hcost := congrArg length (@popWhile_append exceeds
    (popWhile (fun h => decide (o.temporalWindow < h.length)) (history ++ [entry])).2)
  rw [length_append] at hcost
  show (popWhile exceeds _).2.length ≤ _
  omega

theorem retainWith_append (hbound : history.length ≤ o.temporalWindow) :
    (retainWith o exceeds history entry).1 ++ (retainWith o exceeds history entry).2 = history ++ [entry] := by
  unfold retainWith
  by_cases hoff : o.temporalWindow = 0
  · rw [if_pos hoff, length_eq_zero_iff.mp (by omega : history.length = 0)]
    rfl
  · rw [if_neg hoff]
    rw [append_assoc, popWhile_append, popWhile_append]

end Retain

/-! ### Releasing entries -/

section Release

variable {o : WindowOptions} {r : PageReclaimer} {held held' : List Nat}

theorem release_congr (h : ∀ v, v ∈ held ↔ v ∈ held') : ∀ (es : List RetainedCommit) (r : PageReclaimer),
    release held es r = release held' es r
  | [], _ => rfl
  | e :: es, r => by
    rw [release, release, release_congr h es]
    simp only [h e.version]

/-- Releasing in two parts: while the first goes, the second is held. -/
theorem release_append : ∀ (older newer : List RetainedCommit) (r : PageReclaimer),
    release held (older ++ newer) r = release held newer (release (held ++ newer.map RetainedCommit.version) older r)
  | [], _, _ => rfl
  | e :: es, newer, r => by
    have hiff : e.version ∈ held ∨ e.version ∈ (es ++ newer).map RetainedCommit.version ↔
        e.version ∈ held ++ newer.map RetainedCommit.version ∨ e.version ∈ es.map RetainedCommit.version := by
      rw [map_append, mem_append, mem_append]
      tauto
    rw [cons_append, release, release, release_append es newer]
    simp only [hiff]

theorem pendingPages_release_le : ∀ (es : List RetainedCommit) (r : PageReclaimer),
    (release held es r).pendingPages ≤ r.pendingPages
  | [], _ => Nat.le_refl _
  | e :: es, r => by
    rw [release]
    refine (pendingPages_release_le es _).trans ?_
    split
    · exact Nat.le_refl _
    · exact Nat.sub_le _ _

theorem retainedWindowBytes_mono {r r' : PageReclaimer} (h : r.pendingPages ≤ r'.pendingPages) :
    r.retainedWindowBytes o ≤ r'.retainedWindowBytes o := by
  have hmul := Nat.mul_le_mul_right o.pageSize h
  unfold PageReclaimer.retainedWindowBytes
  omega

end Release

/-! ### The byte bound -/

section Bound

variable {o : WindowOptions} {r : PageReclaimer} {others : List Nat} {history : List RetainedCommit} {entry : RetainedCommit}

theorem retain_of_fits (hon : o.temporalWindow ≠ 0) (hfits : r.retainedWindowBytes o ≤ o.maxBytes) :
    (retainInTemporalWindow o r history entry).2 =
      (popWhile (fun h => decide (o.temporalWindow < h.length)) (history ++ [entry])).2 := by
  rw [retainInTemporalWindow, retainWith, if_neg hon, decide_eq_false (Nat.not_lt.mpr hfits)]
  show (popWhile _ _).2 = _
  rw [popWhile_const]
  rfl

/-- Over the ceiling, every entry goes, the newest included. -/
theorem retain_of_over (hon : o.temporalWindow ≠ 0) (hover : o.maxBytes < r.retainedWindowBytes o) :
    (retainInTemporalWindow o r history entry).2 = [] := by
  rw [retainInTemporalWindow, retainWith, if_neg hon, decide_eq_true hover]
  show (popWhile _ _).2 = _
  rw [popWhile_const]
  rfl

theorem over_of_newest_over (hover : o.maxBytes < bytesWithout o r others history [entry]) {older newer : List RetainedCommit}
    (heq : older ++ newer = history ++ [entry]) (hne : newer ≠ []) : o.maxBytes < bytesWithout o r others older newer := by
  obtain ⟨mid, last, rfl⟩ := eq_nil_or_concat newer |>.resolve_left hne
  rw [concat_eq_append, ← append_assoc] at heq
  rw [concat_eq_append]
  obtain ⟨hhistory, hlast⟩ := append_inj' heq rfl
  rw [← hhistory, ← hlast] at hover
  -- the longer the suffix that is kept, the more stays pinned
  refine Nat.lt_of_lt_of_le hover ?_
  have hheld : ∀ v, v ∈ (others ++ [last].map RetainedCommit.version) ++ mid.map RetainedCommit.version ↔
      v ∈ others ++ (mid ++ [last]).map RetainedCommit.version := by
    intro v
    simp only [map_append, mem_append]
    tauto
  unfold bytesWithout
  rw [release_append, release_congr hheld]
  exact retainedWindowBytes_mono (pendingPages_release_le _ _)

/-- **The window keeps the longest suffix that fits the ceiling** exactly if it is off, or everything pending fits as
it is, or not even the newest entry alone would fit. -/
theorem retain_longest_iff (hbound : history.length ≤ o.temporalWindow) :
    LongestFitting o r others (history ++ [entry]) (retainInTemporalWindow o r history entry).2 ↔
      o.temporalWindow = 0 ∨ r.retainedWindowBytes o ≤ o.maxBytes ∨
        o.maxBytes < bytesWithout o r others history [entry] := by
  have hsuffix : (retainInTemporalWindow o r history entry).2 <:+ history ++ [entry] :=
    ⟨_, retainWith_append hbound⟩
  have hcount : (retainInTemporalWindow o r history entry).2.length ≤ o.temporalWindow := length_retainWith_le hbound
  by_cases hoff : o.temporalWindow = 0
  · refine iff_of_true ⟨hsuffix, hcount, fun hne => ?_, fun older newer _ hlen _ => by omega⟩ (.inl hoff)
    exact absurd (length_eq_zero_iff.mp (by omega)) hne
  by_cases hfits : r.retainedWindowBytes o ≤ o.maxBytes
  · refine iff_of_true ⟨hsuffix, hcount, fun _ older _ => (retainedWindowBytes_mono (pendingPages_release_le ..)).trans hfits, ?_⟩ (.inr (.inl hfits))
    intro older newer heq hlen _
    rw [retain_of_fits hoff hfits, length_popWhile_count, ← heq, length_append]
    omega
  · have hnil : (retainInTemporalWindow o r history entry).2 = [] := retain_of_over hoff (Nat.lt_of_not_le hfits)
    rw [hnil] at hsuffix hcount ⊢
    constructor
    · intro h
      refine .inr (.inr (Nat.lt_of_not_le fun hnewest => ?_))
      have hone : [entry].length ≤ o.temporalWindow := Nat.pos_of_ne_zero hoff
      exact absurd (h.longest history [entry] rfl hone hnewest) (Nat.not_succ_le_zero 0)
    · rintro (h | h | h)
      · exact absurd h hoff
      · exact absurd h hfits
      · refine ⟨hsuffix, hcount, fun hne => absurd rfl hne, fun older newer heq _ hle => ?_⟩
        by_contra hlen
        have hne : newer ≠ [] := by
          rintro rfl
          exact hlen (Nat.le_refl 0)
        exact absurd hle (Nat.not_le.mpr (over_of_newest_over h heq hne))

end Bound

/-! ### A window over its ceiling -/

/-- The versions 1, 2 and 3 are live; the commits of 2 and 3 superseded one page each. -/
def threeVersions : Reclaimer :=
  ⟨(∅ : ExtTreeMap Nat (List SupersededPage)).insert 2 [(1, 20)] |>.insert 3 [(1, 30)],
    (∅ : ExtTreeMap Nat Nat).insert 1 1 |>.insert 2 1 |>.insert 3 1⟩

theorem pages_threeVersions : 2 = threeVersions.pages.length := by decide +kernel

def threeReclaimer : PageReclaimer := ⟨threeVersions, 2, pages_threeVersions⟩

/-- Room for eight commits and one page. -/
def onePage : WindowOptions := ⟨8, 4096, 4096⟩

/-- The commit that published the version `n`. -/
def retainedAt (n : Nat) : RetainedCommit := ⟨n, 0, ⟨∅, n⟩⟩

/-- With room for eight commits, the bound applies to any history of at most eight. -/
theorem retain_longest_iff_onePage :
    [retainedAt 1, retainedAt 2].length ≤ onePage.temporalWindow ∧
      (LongestFitting onePage threeReclaimer [3] ([retainedAt 1, retainedAt 2] ++ [retainedAt 3])
          (retainInTemporalWindow onePage threeReclaimer [retainedAt 1, retainedAt 2] (retainedAt 3)).2 ↔
        onePage.temporalWindow = 0 ∨ threeReclaimer.retainedWindowBytes onePage ≤ onePage.maxBytes ∨
          onePage.maxBytes < bytesWithout onePage threeReclaimer [3] [retainedAt 1, retainedAt 2] [retainedAt 3]) :=
  ⟨by decide, retain_longest_iff (by decide)⟩

/-- Two superseded pages are pending, one over the ceiling. Releasing version 1 alone frees the first of them, but the
loop drops all three commits. -/
theorem retain_drops_all :
    (retainInTemporalWindow onePage threeReclaimer [retainedAt 1, retainedAt 2] (retainedAt 3)).2 = [] ∧
      bytesWithout onePage threeReclaimer [3] [retainedAt 1] [retainedAt 2, retainedAt 3] ≤ onePage.maxBytes ∧
      ¬ LongestFitting onePage threeReclaimer [3] ([retainedAt 1, retainedAt 2] ++ [retainedAt 3])
        (retainInTemporalWindow onePage threeReclaimer [retainedAt 1, retainedAt 2] (retainedAt 3)).2 := by
  have hnil : (retainInTemporalWindow onePage threeReclaimer [retainedAt 1, retainedAt 2] (retainedAt 3)).2 = [] :=
    retain_of_over (by decide) (by decide)
  have hfits : bytesWithout onePage threeReclaimer [3] [retainedAt 1] [retainedAt 2, retainedAt 3] ≤ onePage.maxBytes := by
    decide +kernel
  refine ⟨hnil, hfits, fun h => ?_⟩
  have hlen := h.longest [retainedAt 1] [retainedAt 2, retainedAt 3] rfl (by decide) hfits
  exact absurd hlen (by decide)

end Fluxum
