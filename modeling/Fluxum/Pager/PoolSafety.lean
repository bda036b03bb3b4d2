/-
# Dirty pages in the buffer pool

A page that was installed dirty has one live copy until it is in the cold
tier: in the frame the map points at, or in the hands of the caller that
evicted it. An eviction moves the copy to the caller, a successful spill
drops it, and the put-back after a failed spill moves it back to a frame.

* `kept_of_putBackFindsSlot`: no dirty page is lost, provided every put-back
  finds a free slot.
* `putBack_loses_page`: a run that loses one.
-/
import Fluxum.Pager.Pool

namespace Fluxum
namespace Pager

open Std List Function OrdMap

/-! ### Slots -/

/-- The part of a frame that says which page it holds. -/
structure Page where
  key : PageKey
  data : Arc
  dirty : Bool

def Frame.page (f : Frame) : Page := ⟨f.key, f.data, f.dirty⟩

variable {f : Frame} {slot : Nat}

namespace PoolInner

def pageAt (inner : PoolInner) (slot : Nat) : Option Page := (inner.frameAt slot).map Frame.page

theorem pageAt_of_frameAt {inner : PoolInner} (h : inner.frameAt slot = some f) :
    inner.pageAt slot = some f.page := by
  simp [pageAt, h]

theorem lt_of_frameAt {inner : PoolInner} (h : inner.frameAt slot = some f) :
    slot < inner.frames.length := by
  by_contra hlt
  simp [frameAt, getElem?_eq_none (Nat.le_of_not_lt hlt)] at h

section

variable (inner : PoolInner)
include inner

theorem frameAt_setFrame (hlt : slot < inner.frames.length) (f : Frame) (n : Nat) :
    (inner.setFrame slot f).frameAt n = if slot = n then some f else inner.frameAt n := by
  simp only [frameAt, setFrame, getElem?_set, hlt, if_true]
  split <;> rfl

theorem frameAt_vacate (slot : Nat) (key : PageKey) (n : Nat) :
    (inner.vacate slot key).frameAt n = if slot = n then none else inner.frameAt n := by
  simp only [frameAt, vacate, getElem?_set]
  split
  · split <;> rfl
  · rfl

theorem pageAt_setFrame (hlt : slot < inner.frames.length) (f : Frame) (n : Nat) :
    (inner.setFrame slot f).pageAt n = if slot = n then some f.page else inner.pageAt n := by
  rw [pageAt, inner.frameAt_setFrame hlt]
  split <;> rfl

theorem pageAt_vacate (slot : Nat) (key : PageKey) (n : Nat) :
    (inner.vacate slot key).pageAt n = if slot = n then none else inner.pageAt n := by
  rw [pageAt, frameAt_vacate]
  split <;> rfl

end

end PoolInner

/-- Two pools that hold the same pages in the same slots. -/
structure SamePages (a b : PoolInner) : Prop where
  map : a.map = b.map
  free : a.freeSlots = b.freeSlots
  length : a.frames.length = b.frames.length
  page : ∀ n, a.pageAt n = b.pageAt n

theorem SamePages.refl (a : PoolInner) : SamePages a a := ⟨rfl, rfl, rfl, fun _ => rfl⟩

theorem SamePages.trans {a b c : PoolInner} (h : SamePages a b) (h' : SamePages b c) : SamePages a c :=
  ⟨h.map.trans h'.map, h.free.trans h'.free, h.length.trans h'.length, fun n => (h.page n).trans (h'.page n)⟩

/-- Pins and the referenced bit say nothing about the page. -/
theorem samePages_setFrame {inner : PoolInner} {f g : Frame} (h : inner.frameAt slot = some f)
    (hg : g.page = f.page) : SamePages (inner.setFrame slot g) inner := by
  refine ⟨rfl, rfl, by simp [PoolInner.setFrame], fun n => ?_⟩
  rw [PoolInner.pageAt_setFrame _ (PoolInner.lt_of_frameAt h), hg]
  split
  · rename_i hn
    rw [← hn, PoolInner.pageAt_of_frameAt h]
  · rfl

theorem samePages_pin {inner : PoolInner} (h : inner.frameAt slot = some f) :
    SamePages (inner.pin slot f) inner :=
  samePages_setFrame h rfl

theorem samePages_unpin (inner : PoolInner) (slot : Nat) (key : PageKey) :
    SamePages (inner.unpin slot key) inner := by
  unfold PoolInner.unpin
  split
  · rename_i f hf
    split
    · exact samePages_setFrame hf rfl
    · exact .refl _
  · exact .refl _

theorem samePages_pickVictimLoop : ∀ (fuel : Nat) (inner : PoolInner) (cand : Option Nat),
    SamePages (pickVictimLoop fuel inner cand).2 inner
  | 0, inner, _ => .refl inner
  | fuel + 1, inner, cand => by
    have hand : SamePages { inner with hand := (inner.hand + 1) % inner.frames.length } inner :=
      ⟨rfl, rfl, rfl, fun _ => rfl⟩
    unfold pickVictimLoop
    dsimp only
    split
    · exact (samePages_pickVictimLoop fuel _ cand).trans hand
    rename_i f hf
    split
    · exact (samePages_pickVictimLoop fuel _ cand).trans hand
    split
    · exact ((samePages_pickVictimLoop fuel _ cand).trans (samePages_setFrame (g := { f with referenced := false }) hf rfl)).trans hand
    · split
      · exact hand
      · exact (samePages_pickVictimLoop fuel _ _).trans hand

theorem samePages_pickVictim (inner : PoolInner) : SamePages (pickVictim inner).2 inner :=
  samePages_pickVictimLoop _ inner none

/-- The map points at frames of its keys, and the free stack lists empty slots once each. -/
structure SlotsOk (inner : PoolInner) : Prop where
  linked : ∀ {k n}, inner.map[k]? = some n → ∃ p, inner.pageAt n = some p ∧ p.key = k
  free_empty : ∀ {n}, n ∈ inner.freeSlots → n < inner.frames.length ∧ inner.pageAt n = none
  free_nodup : inner.freeSlots.Nodup

theorem SlotsOk.congr {a b : PoolInner} (h : SamePages a b) (hb : SlotsOk b) : SlotsOk a where
  linked := by
    intro k n hn
    rw [h.map] at hn
    simpa only [h.page] using hb.linked hn
  free_empty := by
    intro n hn
    rw [h.free] at hn
    simpa only [h.page, h.length] using hb.free_empty hn
  free_nodup := h.free ▸ hb.free_nodup

theorem slotsOk_new (opts : PoolOptions) : SlotsOk (.new opts) where
  linked := by simp [PoolInner.new]
  free_empty := by
    intro n hn
    have hn : n < opts.frames := by simpa [PoolInner.new] using hn
    simp [PoolInner.new, PoolInner.pageAt, PoolInner.frameAt, hn]
  free_nodup := nodup_reverse.mpr nodup_range

/-! ### Copies -/

/-- Where the pool can hold the image of a page: in a slot, or in the hands of a caller. -/
inductive Loc (n : Nat) where
  | slot (i : Nat)
  | caller (t : Fin n)
deriving DecidableEq

variable {n : Nat} {o : Option Page}

/-- The copies of the pages installed with the images `installed`. A page that is not `covered`
has one copy, and if that copy is in a slot, `link` points at it. -/
structure Sound (copy : Loc n → Option Page) (link : PageKey → Option Nat)
    (installed : PageKey → Option Bytes) (covered : PageKey → Bytes → Prop) : Prop where
  image : ∀ {l p}, copy l = some p → installed p.key = some p.data.image
  clean : ∀ {l p}, copy l = some p → p.dirty = false → covered p.key p.data.image
  live : ∀ {k i}, installed k = some i → covered k i ∨ ∃ l p, copy l = some p ∧ p.key = k ∧
    (∀ l' p', copy l' = some p' → p'.key = k → l' = l) ∧ ∀ n, l = .slot n → link k = some n

namespace Sound

variable {copy copy' : Loc n → Option Page} {link link' : PageKey → Option Nat}
  {installed installed' : PageKey → Option Bytes} {covered covered' : PageKey → Bytes → Prop}
  {l l' : Loc n} {p : Page}

theorem mono (h : Sound copy link installed covered) (hc : ∀ k i, covered k i → covered' k i) :
    Sound copy link installed covered' where
  image := h.image
  clean := fun hp hd => hc _ _ (h.clean hp hd)
  live := fun hk => (h.live hk).imp_left (hc _ _)

theorem rearrange (h : Sound copy link installed covered) {k : PageKey}
    (hkeep : ∀ {m q}, q.key ≠ k → (copy' m = some q ↔ copy m = some q))
    (hinst : ∀ k', k' ≠ k → installed' k' = installed k') (hlink : ∀ k', k' ≠ k → link' k' = link k')
    (hcopies : ∀ {m q}, copy' m = some q → q.key = k →
      installed' k = some q.data.image ∧ (q.dirty = false → covered k q.data.image))
    (hlive : ∀ {i}, installed' k = some i → covered k i ∨ ∃ l p, copy' l = some p ∧ p.key = k ∧
      (∀ m q, copy' m = some q → q.key = k → m = l) ∧ ∀ n, l = .slot n → link' k = some n) :
    Sound copy' link' installed' covered where
  image := by
    intro m q hq
    by_cases hk : q.key = k
    · exact hk ▸ (hcopies hq hk).1
    · exact (hinst _ hk).trans (h.image ((hkeep hk).mp hq))
  clean := by
    intro m q hq hd
    by_cases hk : q.key = k
    · exact hk ▸ (hcopies hq hk).2 hd
    · exact h.clean ((hkeep hk).mp hq) hd
  live := by
    intro k' i hi
    rcases eq_or_ne k' k with rfl | hk
    · exact hlive hi
    rcases h.live ((hinst k' hk).symm.trans hi) with hcov | ⟨l, p, hp, rfl, huniq, hslot⟩
    · exact .inl hcov
    · exact .inr ⟨l, p, (hkeep hk).mpr hp, rfl, fun m q hq hkey => huniq m q ((hkeep (hkey ▸ hk)).mp hq) hkey,
        fun n hn => (hlink _ hk).trans (hslot n hn)⟩

theorem update_eq_some {m : Loc n} {q : Page} (hq : update copy l o m = some q) :
    m = l ∧ o = some q ∨ m ≠ l ∧ copy m = some q := by
  rcases eq_or_ne m l with rfl | hm
  · exact .inl ⟨rfl, by simpa using hq⟩
  · exact .inr ⟨hm, by simpa [hm] using hq⟩

theorem update_keeps {k : PageKey} (hl : ∀ q, copy l = some q → q.key = k)
    (ho : ∀ q, o = some q → q.key = k) {m : Loc n} {q : Page} (hk : q.key ≠ k) :
    update copy l o m = some q ↔ copy m = some q := by
  rcases eq_or_ne m l with rfl | hm
  · simp only [update_self]
    exact ⟨fun hq => absurd (ho q hq) hk, fun hq => absurd (hl q hq) hk⟩
  · rw [update_of_ne hm]

section

variable (h : Sound copy link installed covered)
include h

/-- A copy of a covered page can be dropped. -/
theorem drop (hp : copy l = some p)
    (hc : covered p.key p.data.image) (hlink : ∀ k, k ≠ p.key → link' k = link k) :
    Sound (update copy l none) link' installed covered := by
  refine h.rearrange (update_keeps (by simp [hp]) (by simp)) (fun _ _ => rfl) hlink ?_ ?_
  · rintro m q hq hkey
    obtain ⟨-, ⟨⟩⟩ | ⟨-, hq⟩ := update_eq_some hq
    exact hkey ▸ ⟨h.image hq, h.clean hq⟩
  · intro i hi
    cases (h.image hp).symm.trans hi
    exact .inl hc

/-- A copy of a covered page can be put in an empty location, or replace a copy of the same page. -/
theorem put (hl : ∀ q, copy l = some q → q.key = p.key)
    (hp : installed p.key = some p.data.image) (hc : covered p.key p.data.image)
    (hlink : ∀ k, k ≠ p.key → link' k = link k) :
    Sound (update copy l (some p)) link' installed covered := by
  refine h.rearrange (update_keeps hl (by simp)) (fun _ _ => rfl) hlink ?_ ?_
  · rintro m q hq hkey
    obtain ⟨-, ⟨⟩⟩ | ⟨-, hq⟩ := update_eq_some hq
    · exact ⟨hp, fun _ => hc⟩
    · exact hkey ▸ ⟨h.image hq, h.clean hq⟩
  · intro i hi
    cases hp.symm.trans hi
    exact .inl hc

/-- A page installed for the first time gets its one copy. -/
theorem add (hl : copy l = none) (hnew : installed p.key = none)
    (hd : p.dirty = true) (hlink : ∀ k, k ≠ p.key → link' k = link k)
    (hslot : ∀ n, l = .slot n → link' p.key = some n) :
    Sound (update copy l (some p)) link' (update installed p.key (some p.data.image)) covered := by
  have hone : ∀ {m q}, update copy l (some p) m = some q → q.key = p.key → m = l ∧ p = q := by
    intro m q hq hkey
    obtain ⟨rfl, ⟨⟩⟩ | ⟨-, hq⟩ := update_eq_some hq
    · exact ⟨rfl, rfl⟩
    · cases hnew.symm.trans (hkey ▸ h.image hq)
  refine h.rearrange (update_keeps (by simp [hl]) (by simp)) (fun k hk => by simp [hk]) hlink ?_ ?_
  · intro m q hq hkey
    obtain ⟨-, rfl⟩ := hone hq hkey
    simp [hd]
  · exact fun _ => .inr ⟨l, p, by simp, rfl, fun m q hq hkey => (hone hq hkey).1, hslot⟩

theorem move (hp : copy l = some p) (hl' : copy l' = none)
    (hlink : ∀ k, k ≠ p.key → link' k = link k) (hslot' : ∀ n, l' = .slot n → link' p.key = some n) :
    Sound (update (update copy l none) l' (some p)) link' installed covered := by
  -- a copy after the move is `p` at `l'`, or a copy from before anywhere but at `l`
  have hcases : ∀ {m q}, update (update copy l none) l' (some p) m = some q →
      m = l' ∧ p = q ∨ m ≠ l ∧ copy m = some q := by
    intro m q hq
    obtain ⟨rfl, ⟨⟩⟩ | ⟨-, hq⟩ := update_eq_some hq
    · exact .inl ⟨rfl, rfl⟩
    · exact .inr ((update_eq_some hq).resolve_left (by simp))
  refine h.rearrange (k := p.key) (fun hk => (update_keeps ?_ (by simp) hk).trans (update_keeps (by simp [hp]) (by simp) hk))
    (fun _ _ => rfl) hlink ?_ ?_
  · intro q hq
    obtain ⟨-, ⟨⟩⟩ | ⟨-, hq⟩ := update_eq_some hq
    simp [hl'] at hq
  · intro m q hq hkey
    obtain ⟨-, rfl⟩ | ⟨-, hq⟩ := hcases hq
    · exact ⟨h.image hp, h.clean hp⟩
    · exact hkey ▸ ⟨h.image hq, h.clean hq⟩
  · intro i hi
    refine (h.live hi).imp_right ?_
    rintro ⟨m, q, -, -, huniq, -⟩
    refine ⟨l', p, by simp, rfl, fun m' q' hq' hkey => ?_, hslot'⟩
    obtain ⟨rfl, -⟩ | ⟨hne, hq'⟩ := hcases hq'
    · rfl
    · exact absurd ((huniq m' q' hq' hkey).trans (huniq l p hp rfl).symm) hne

end

end Sound

/-! ### The invariant -/

/-- The dirty victim a caller holds, from its eviction to the end of its spill or its put-back. -/
def Caller.victim : Caller → Option Frame
  | .spilling _ victim => some victim
  | .spillFailed _ victim => some victim
  | _ => none

/-- The page a caller has still to install. -/
def Caller.request : Caller → Option Request
  | .installing req => some req
  | .spilling req _ => some req
  | .spillFailed req _ => some req
  | .spilled req _ => some req
  | _ => none

def State.copyAt (s : State n) : Loc n → Option Page
  | .slot n => s.inner.pageAt n
  | .caller t => (s.callers t).victim.map Frame.page

def State.link (s : State n) (k : PageKey) : Option Nat := s.inner.map[k]?

def State.imageOf (s : State n) (k : PageKey) : Option Bytes := s.installed[k]?

/-- The page no longer depends on the pool: it was discarded, or the cold tier has its image. -/
def Covered (s : State n) (k : PageKey) (i : Bytes) : Prop := k ∈ s.discarded ∨ s.cold[k]? = some i

/-- A dirty request is for a page not installed yet; a clean one brings back an image read from
the cold tier. -/
def RequestOk (s : State n) (r : Request) : Prop :=
  if r.dirty then s.installed[r.key]? = none ∧ r.key ∈ s.allocated
  else s.installed[r.key]? = some r.data.image ∧ Covered s r.key r.data.image

/-- What a caller relies on, by where it stands: its request is fit, `flush` copied and spilled images that were
installed, and a page that is being freed was discarded. -/
def CallerOk (s : State n) : Caller → Prop
  | .installing r | .spilling r _ | .spillFailed r _ | .spilled r _ => RequestOk s r
  | .flushing todo => ∀ x ∈ todo, s.installed[x.1]? = some x.2.image
  | .flushed k d todo =>
    (s.installed[k]? = some d.image ∧ Covered s k d.image) ∧ ∀ x ∈ todo, s.installed[x.1]? = some x.2.image
  | .freeing k => k ∈ s.discarded
  | .idle | .reading _ | .failing .. | .returning .. => True

/-- No other caller than `t` has a dirty request for the same page. -/
def Unrivalled (s : State n) (t : Fin n) (c : Caller) : Prop :=
  ∀ r ∈ c.request, r.dirty = true → ∀ t' ≠ t, ∀ r' ∈ (s.callers t').request, r'.dirty = true → r.key ≠ r'.key

/-- What the callers and the cold tier agree on, whatever the frames hold. -/
structure Books (s : State n) : Prop where
  cold : ∀ {k : PageKey} {i : Bytes}, s.cold[k]? = some i → s.installed[k]? = some i
  allocated : ∀ {k : PageKey} {i : Bytes}, s.installed[k]? = some i → k ∈ s.allocated
  caller : ∀ t, CallerOk s (s.callers t)
  distinct : ∀ t, Unrivalled s t (s.callers t)

structure Inv (s : State n) : Prop where
  slots : SlotsOk s.inner
  sound : Sound s.copyAt s.link s.imageOf (Covered s)
  books : Books s

variable {opts : PoolOptions} {s s' : State n} {t : Fin n} {c : Caller} {req : Request} {key : PageKey} {slot : Nat}
variable {image : Bytes} {ok : Bool}
  {rest : List Nat}

theorem copyAt_setCaller (s : State n) (t : Fin n) (c : Caller) :
    (s.setCaller t c).copyAt = update s.copyAt (.caller t) (c.victim.map Frame.page) := by
  funext l
  cases l with
  | slot n => rfl
  | caller u =>
    by_cases hu : u = t
    · subst hu
      simp [State.copyAt, State.setCaller]
    · simp [State.copyAt, State.setCaller, hu]

theorem CallerOk.request (h : CallerOk s c) (hr : req ∈ c.request) : RequestOk s req := by
  cases c <;> cases hr <;> exact h

/-- A caller that owes the pool nothing. -/
def Caller.Free : Caller → Prop
  | .idle | .reading _ | .failing .. | .returning .. => True
  | _ => False

theorem Caller.Free.request (h : c.Free) : c.request = none := by
  cases c <;> first | rfl | exact h.elim

theorem Caller.Free.victim (h : c.Free) : c.victim = none := by
  cases c <;> first | rfl | exact h.elim

theorem Caller.Free.callerOk (h : c.Free) (s : State n) : CallerOk s c := by
  cases c <;> trivial

/-- Nothing a caller relies on is taken away. -/
structure Grows (s s' : State n) : Prop where
  installed : ∀ {k : PageKey} {i : Bytes}, s.installed[k]? = some i → s'.installed[k]? = some i
  allocated : ∀ {k}, k ∈ s.allocated → k ∈ s'.allocated
  covered : ∀ {k i}, Covered s k i → Covered s' k i
  discarded : ∀ {k}, k ∈ s.discarded → k ∈ s'.discarded

theorem RequestOk.mono (h : RequestOk s req) (hg : Grows s s')
    (hnew : req.dirty = true → s.installed[req.key]? = none → s'.installed[req.key]? = none) : RequestOk s' req := by
  unfold RequestOk at h ⊢
  split
  · rename_i hd
    rw [if_pos hd] at h
    exact ⟨hnew hd h.1, hg.allocated h.2⟩
  · rename_i hd
    rw [if_neg hd] at h
    exact ⟨hg.installed h.1, hg.covered h.2⟩

theorem CallerOk.mono (h : CallerOk s c) (hg : Grows s s')
    (hnew : ∀ r ∈ c.request, r.dirty = true → s.installed[r.key]? = none → s'.installed[r.key]? = none) :
    CallerOk s' c := by
  cases c with
  | installing r | spilling r | spillFailed r | spilled r => exact RequestOk.mono h hg (hnew r rfl)
  | flushing todo => exact fun x hx => hg.installed (h x hx)
  | flushed k d todo => exact ⟨⟨hg.installed h.1.1, hg.covered h.1.2⟩, fun x hx => hg.installed (h.2 x hx)⟩
  | freeing k => exact hg.discarded h
  | idle | reading | failing | returning => trivial

theorem Books.mono (h : Books s) (hg : Grows s s')
    (hcold : ∀ {k : PageKey} {i : Bytes}, s'.cold[k]? = some i → s.installed[k]? = some i)
    (hinst : s'.installed = s.installed := by rfl) (hcallers : s'.callers = s.callers := by rfl) : Books s' where
  cold := fun hk => hg.installed (hcold hk)
  allocated := fun hk => hg.allocated (h.allocated (hinst ▸ hk))
  caller := fun t => hcallers ▸ (h.caller t).mono hg fun _ _ _ hk => hinst ▸ hk
  distinct := by
    unfold Unrivalled
    rw [hcallers]
    exact h.distinct

theorem Books.inner (h : Books s) (inner : PoolInner) : Books { s with inner } :=
  h.mono ⟨id, id, id, id⟩ h.cold

theorem Books.standing (h : Books s) (ht : s.callers t = c) : CallerOk s c ∧ Unrivalled s t c :=
  ⟨ht ▸ h.caller t, ht ▸ h.distinct t⟩

theorem unrivalled_of_none (h : c.request = none) : Unrivalled s t c := by
  simp [Unrivalled, h]

theorem Books.setCaller (hb : Books s) (hok : CallerOk s c)
    (hu : Unrivalled s t c) : Books (s.setCaller t c) where
  cold := hb.cold
  allocated := hb.allocated
  caller := by
    intro u
    refine CallerOk.mono (s := s) ?_ ⟨id, id, id, id⟩ fun _ _ _ => id
    simp only [State.setCaller, update_apply]
    split
    · exact hok
    · exact hb.caller u
  distinct := by
    intro u r hr hd u' hne r' hr' hd'
    simp only [State.setCaller, update_apply] at hr hr'
    split at hr <;> split at hr'
    · rename_i h₁ h₂
      exact absurd (h₂.trans h₁.symm) hne
    · rename_i h₁ h₂
      subst h₁
      exact hu r hr hd u' hne r' hr' hd'
    · rename_i h₁ h₂
      subst h₂
      exact (hu r' hr' hd' u (Ne.symm hne) r hr hd).symm
    · exact hb.distinct u r hr hd u' hne r' hr' hd'

theorem Inv.setCaller (h : Inv s) (hok : CallerOk s c) (hu : Unrivalled s t c)
    (hv : c.victim = (s.callers t).victim ∨
      c.victim = none ∧ ∀ v, (s.callers t).victim = some v → Covered s v.key v.data.image) :
    Inv (s.setCaller t c) where
  slots := h.slots
  books := h.books.setCaller hok hu
  sound := by
    have hcopy : s.copyAt (.caller t) = (s.callers t).victim.map Frame.page := rfl
    rw [copyAt_setCaller]
    rcases hv with hv | ⟨hv, hcov⟩
    · rw [hv, ← hcopy, update_eq_self]
      exact h.sound
    rw [hv]
    cases hvic : (s.callers t).victim with
    | none =>
      have : update s.copyAt (.caller t) (Option.map Frame.page none) = s.copyAt := by
        rw [← hvic, ← hcopy, update_eq_self]
      rw [this]
      exact h.sound
    | some v => exact h.sound.drop (p := v.page) (by rw [hcopy, hvic]; rfl) (hcov v hvic) fun _ _ => rfl

/-- What the frames and the callers do not depend on may grow. -/
theorem Inv.grow (h : Inv s) {cold guards nextPtr allocated discarded}
    (hg : Grows s { s with cold, guards, nextPtr, allocated, discarded })
    (hcold : ∀ {k : PageKey} {i : Bytes}, cold[k]? = some i → s.installed[k]? = some i) :
    Inv { s with cold, guards, nextPtr, allocated, discarded } :=
  ⟨h.slots, h.sound.mono fun _ _ => hg.covered, h.books.mono hg hcold⟩

theorem Inv.handles (h : Inv s) (guards : List (Nat × PageKey)) (nextPtr : Nat) :
    Inv { s with guards, nextPtr } :=
  h.grow ⟨id, id, id, id⟩ h.books.cold

theorem Inv.moveOn (h : Inv s) {c c' : Caller} (ht : s.callers t = c) (hok : CallerOk s c')
    (hu : Unrivalled s t c') (hv : c'.victim = c.victim) : Inv (s.setCaller t c') :=
  h.setCaller hok hu (.inl (by rw [ht, hv]))

theorem Inv.leave (h : Inv s) {c d : Caller} (ht : s.callers t = c) (hd : d.Free) (hv : c.victim = none) :
    Inv (s.setCaller t d) :=
  h.moveOn ht (hd.callerOk s) (unrivalled_of_none hd.request) (hd.victim.trans hv.symm)

theorem Inv.samePages (h : Inv s) {inner : PoolInner} (hp : SamePages inner s.inner) :
    Inv { s with inner } where
  slots := h.slots.congr hp
  books := h.books.inner _
  sound := by
    have hcopy : State.copyAt { s with inner } = s.copyAt := by
      funext l
      cases l with
      | slot n => exact hp.page n
      | caller u => rfl
    have hlink : State.link { s with inner } = s.link := by
      funext k
      simp only [State.link, hp.map]
    rw [hcopy, hlink]
    exact h.sound

/-! ### Steps -/

theorem Inv.release (h : Inv s) (hc : c.Free)
    (hv : ∀ v, (s.callers t).victim = some v → Covered s v.key v.data.image) : Inv (s.setCaller t c) :=
  h.setCaller (hc.callerOk s) (unrivalled_of_none hc.request) (.inr ⟨hc.victim, hv⟩)

theorem Inv.finish (h : Inv s) (req : Request) (slot : Option Nat)
    (hv : ∀ v, (s.callers t).victim = some v → Covered s v.key v.data.image) : Inv (s.finish t req slot) := by
  unfold State.finish
  split
  · exact h.release trivial hv
  · have := h.release (c := .idle) trivial hv
    exact this.handles _ _

/-- One slot changes what it holds. -/
theorem SlotsOk.change {inner inner' : PoolInner} (h : SlotsOk inner)
    (hpage : ∀ n, inner'.pageAt n = if slot = n then o else inner.pageAt n)
    (hlength : inner'.frames.length = inner.frames.length)
    (hlink : ∀ {k n}, inner'.map[k]? = some n →
      slot ≠ n ∧ inner.map[k]? = some n ∨ slot = n ∧ ∃ p, o = some p ∧ p.key = k)
    (hfree : ∀ n ∈ inner'.freeSlots,
      slot ≠ n ∧ n ∈ inner.freeSlots ∨ slot = n ∧ slot < inner.frames.length ∧ o = none)
    (hnodup : inner'.freeSlots.Nodup) : SlotsOk inner' where
  linked := by
    intro k n hn
    rw [hpage]
    rcases hlink hn with ⟨hne, hn⟩ | ⟨rfl, hp⟩
    · simpa only [if_neg hne] using h.linked hn
    · simpa only [if_true] using hp
  free_empty := by
    intro n hn
    rw [hpage, hlength]
    rcases hfree n hn with ⟨hne, hn⟩ | ⟨rfl, hempty⟩
    · simpa only [if_neg hne] using h.free_empty hn
    · simpa only [if_true] using hempty
  free_nodup := hnodup

/-- A page already installed, or new to the pool, is put in a free slot. -/
theorem slotsOk_place {inner : PoolInner} (h : SlotsOk inner) (f : Frame)
    (hfree : inner.freeSlots = slot :: rest) : SlotsOk (inner.place slot rest f) := by
  have hslot := h.free_empty (n := slot) (by simp [hfree])
  have hnodup := h.free_nodup
  rw [hfree, nodup_cons] at hnodup
  refine h.change (inner.pageAt_setFrame hslot.1 f) (length_set ..) (fun {k n} hk => ?_) (fun n hn => ?_) hnodup.2
  · replace hk := (lookup_insert ..).symm.trans hk
    split at hk
    · rename_i hkey
      cases hk
      exact .inr ⟨rfl, f.page, rfl, hkey⟩
    · refine .inl ⟨?_, hk⟩
      rintro rfl
      obtain ⟨p, hp, -⟩ := h.linked hk
      simp [hslot.2] at hp
  · exact .inl ⟨fun heq => hnodup.1 (heq ▸ hn), by rw [hfree]; exact mem_cons_of_mem _ hn⟩

theorem SlotsOk.key_of_linked {inner : PoolInner} (h : SlotsOk inner) (hf : inner.frameAt slot = some f)
    (hk : inner.map[key]? = some slot) : f.key = key := by
  obtain ⟨p, hp, rfl⟩ := h.linked hk
  cases (PoolInner.pageAt_of_frameAt hf).symm.trans hp
  rfl

theorem SlotsOk.not_free {inner : PoolInner} (h : SlotsOk inner) (hf : inner.frameAt slot = some f) :
    slot ∉ inner.freeSlots := by
  intro hmem
  cases (PoolInner.pageAt_of_frameAt hf).symm.trans (h.free_empty hmem).2

theorem slotsOk_vacate {inner : PoolInner} (h : SlotsOk inner)
    (hf : inner.frameAt slot = some f) : SlotsOk (inner.vacate slot f.key) := by
  have hnot := h.not_free hf
  refine h.change (inner.pageAt_vacate slot f.key) (length_set ..) (fun {k n} hk => ?_) (fun n hn => ?_)
    (nodup_cons.mpr ⟨hnot, h.free_nodup⟩)
  · replace hk := (lookup_erase ..).symm.trans hk
    split at hk
    · cases hk
    rename_i hkey
    refine .inl ⟨?_, hk⟩
    rintro rfl
    exact hkey (h.key_of_linked hf hk)
  · rcases mem_cons.mp hn with rfl | hn
    · exact .inr ⟨rfl, PoolInner.lt_of_frameAt hf, rfl⟩
    · exact .inl ⟨fun heq => hnot (heq ▸ hn), hn⟩

theorem slotsOk_setFrame {inner : PoolInner} (h : SlotsOk inner) {f g : Frame}
    (hf : inner.frameAt slot = some f) (hkey : g.key = f.key) : SlotsOk (inner.setFrame slot g) := by
  refine h.change (inner.pageAt_setFrame (PoolInner.lt_of_frameAt hf) g) (length_set ..) (fun {k n} hk => ?_)
    (fun n hn => .inl ⟨fun heq => h.not_free hf (heq ▸ hn), hn⟩) h.free_nodup
  rcases eq_or_ne slot n with rfl | hn
  · exact .inr ⟨rfl, g.page, rfl, hkey.trans (h.key_of_linked hf hk)⟩
  · exact .inl ⟨hn, hk⟩

theorem copyAt_of_pageAt (s : State n) {inner : PoolInner}
    (h : ∀ n, inner.pageAt n = if slot = n then o else s.inner.pageAt n) :
    State.copyAt { s with inner } = update s.copyAt (.slot slot) o := by
  funext l
  cases l with
  | slot n =>
    by_cases hn : slot = n
    · simp [State.copyAt, h, hn]
    · simp [State.copyAt, h, hn, Ne.symm hn]
  | caller u => simp [State.copyAt]

theorem copyAt_place (s : State n) (hlt : slot < s.inner.frames.length) (rest : List Nat) (f : Frame) :
    State.copyAt { s with inner := s.inner.place slot rest f } = update s.copyAt (.slot slot) (some f.page) :=
  copyAt_of_pageAt s (s.inner.pageAt_setFrame hlt f)

theorem copyAt_vacate (s : State n) (slot : Nat) (key : PageKey) :
    State.copyAt { s with inner := s.inner.vacate slot key } = update s.copyAt (.slot slot) none :=
  copyAt_of_pageAt s (s.inner.pageAt_vacate slot key)

theorem link_place (s : State n) (slot : Nat) (rest : List Nat) (f : Frame) (k : PageKey) :
    State.link { s with inner := s.inner.place slot rest f } k = if f.key = k then some slot else s.link k :=
  lookup_insert _ _ _ _

theorem link_vacate (s : State n) (slot : Nat) (key k : PageKey) :
    State.link { s with inner := s.inner.vacate slot key } k = if key = k then none else s.link k :=
  lookup_erase _ _ _

/-- A covered page leaves its slot. -/
theorem Inv.vacate (h : Inv s) (hf : s.inner.frameAt slot = some f)
    (hc : Covered s f.key f.data.image) : Inv { s with inner := s.inner.vacate slot f.key } where
  slots := slotsOk_vacate h.slots hf
  books := h.books.inner _
  sound := by
    rw [copyAt_vacate]
    refine h.sound.drop (p := f.page) (PoolInner.pageAt_of_frameAt hf) hc fun k hk => ?_
    exact (link_vacate s slot f.key k).trans (if_neg (Ne.symm hk))

/-- A dirty page moves from its slot to the caller that evicts it. -/
theorem Inv.evict (h : Inv s) (t : Fin n) (req : Request)
    (ht : s.callers t = .installing req) (hf : s.inner.frameAt slot = some f) :
    Inv (State.setCaller { s with inner := s.inner.vacate slot f.key } t (.spilling req f)) where
  slots := slotsOk_vacate h.slots hf
  books := by
    have hb : Books { s with inner := s.inner.vacate slot f.key } := h.books.inner _
    have hstands := hb.standing ht
    exact hb.setCaller hstands.1 hstands.2
  sound := by
    rw [copyAt_setCaller, copyAt_vacate]
    refine h.sound.move (PoolInner.pageAt_of_frameAt hf) ?_ (fun k hk => ?_) (by simp)
    · simp [State.copyAt, ht, Caller.victim]
    · exact (link_vacate s slot f.key k).trans (if_neg (Ne.symm hk))

/-- A page that is on disk comes back clean. -/
theorem Inv.placeClean (h : Inv s)
    (hfree : s.inner.freeSlots = slot :: rest) (hi : s.installed[f.key]? = some f.data.image)
    (hc : Covered s f.key f.data.image) : Inv { s with inner := s.inner.place slot rest f } where
  slots := slotsOk_place h.slots f hfree
  books := h.books.inner _
  sound := by
    have hslot := h.slots.free_empty (n := slot) (by simp [hfree])
    rw [copyAt_place s hslot.1]
    refine h.sound.put (p := f.page) ?_ hi hc fun k hk => ?_
    · intro q hq
      exact absurd (hslot.2.symm.trans hq) (by simp)
    · exact (link_place s slot rest f k).trans (if_neg (Ne.symm hk))

theorem Books.install (h : Books s) (image : Bytes) (hnew : s.installed[key]? = none) (halloc : key ∈ s.allocated)
    (hne : ∀ t, ∀ r ∈ (s.callers t).request, r.dirty = true → r.key ≠ key) :
    Books { s with installed := s.installed.insert key image } := by
  have hold : ∀ {k : PageKey} {i : Bytes}, s.installed[k]? = some i → (s.installed.insert key image)[k]? = some i := by
    intro k i hk
    rw [lookup_insert, if_neg]
    · exact hk
    · rintro rfl
      exact absurd (hnew.symm.trans hk) (by simp)
  refine ⟨fun hk => hold (h.cold hk), fun {k i} hk => ?_, fun t => (h.caller t).mono ⟨hold, id, id, id⟩ ?_, h.distinct⟩
  · rw [lookup_insert] at hk
    split at hk
    · rename_i hkey
      exact hkey ▸ halloc
    · exact h.allocated hk
  · intro r hr hd hnone
    exact (lookup_insert ..).trans ((if_neg (Ne.symm (hne t r hr hd))).trans hnone)

theorem Inv.placeDirty (h : Inv s) (ht : s.callers t = .installing req) (hd : req.dirty = true)
    (hfree : s.inner.freeSlots = slot :: rest) (hf : f.page = ⟨req.key, req.data, req.dirty⟩) (hc : c.Free) :
    Inv ((State.recordInstall { s with inner := s.inner.place slot rest f } req).setCaller t c) := by
  have hreq : req ∈ (s.callers t).request := by rw [ht]; rfl
  have hok := (h.books.caller t).request hreq
  simp only [RequestOk, hd, if_true] at hok
  rw [State.recordInstall, if_pos hd]
  refine ⟨slotsOk_place h.slots f hfree, ?_, ?_⟩
  · -- the page gets its one copy, in the slot
    have hslot := h.slots.free_empty (n := slot) (by simp [hfree])
    have hkey : f.page.key = req.key := by rw [hf]
    have hdata : f.page.data = req.data := by rw [hf]
    have hadd := h.sound.add (l := .slot slot) (p := f.page) hslot.2 (hkey ▸ hok.1) (by rw [hf]; exact hd)
      (fun k hk => (link_place s slot rest f k).trans (if_neg (Ne.symm hk)))
      (fun n hn => (link_place s slot rest f _).trans (by rw [← Loc.slot.inj hn]; exact if_pos rfl))
    rw [hkey, hdata, ← copyAt_place s hslot.1 rest] at hadd
    have hcopy : State.copyAt { s with inner := s.inner.place slot rest f } (.caller t) = none := by
      simp [State.copyAt, ht, Caller.victim]
    have himage : State.imageOf { s with installed := s.installed.insert req.key req.data.image } =
        update s.imageOf req.key (some req.data.image) := by
      funext k
      simp only [State.imageOf, lookup_insert, update_apply, eq_comm]
    rw [← update_eq_self (.caller t) (State.copyAt _), hcopy, ← himage] at hadd
    rw [copyAt_setCaller, hc.victim]
    exact hadd
  · have hb := (h.books.setCaller (t := t) (hc.callerOk s) (unrivalled_of_none hc.request)).install req.data.image
      hok.1 hok.2 fun u r hr hrd => ?_
    · exact hb.mono ⟨id, id, id, id⟩ hb.cold
    · rcases eq_or_ne u t with rfl | hu
      · simp [State.setCaller, hc.request] at hr
      · simp only [State.setCaller, update_of_ne hu] at hr
        exact h.books.distinct u r hr hrd t (Ne.symm hu) req hreq hd

/-- What one pass of `install_with`'s loop can do to the pages of the pool. -/
inductive Pass (req : Request) (inner : PoolInner) : PoolInner → Outcome → Prop where
  | kept {inner' o} (hp : SamePages inner' inner) (hi : ∀ n, o ≠ .installed n) (he : ∀ v, o ≠ .evicted v) :
      Pass req inner inner' o
  | placed {base slot rest} (hp : SamePages base inner) (hfree : base.freeSlots = slot :: rest) :
      Pass req inner (base.place slot rest ⟨req.key, req.data, 1, req.referenced, req.dirty⟩) (.installed slot)
  | dropped {base slot f} (hp : SamePages base inner) (hf : base.frameAt slot = some f) (hd : f.dirty = false) :
      Pass req inner (base.vacate slot f.key) .again
  | evicted {base slot f inner'} (hp : SamePages base inner) (hf : base.frameAt slot = some f)
      (hi : SamePages inner' (base.vacate slot f.key)) : Pass req inner inner' (.evicted f)

theorem Pass.base {a b inner : PoolInner} {o : Outcome} (h : Pass req b inner o)
    (hp : SamePages b a) : Pass req a inner o := by
  cases h with
  | kept h hi he => exact .kept (h.trans hp) hi he
  | placed h hfree => exact .placed (h.trans hp) hfree
  | dropped h hf hd => exact .dropped (h.trans hp) hf hd
  | evicted h hf hi => exact .evicted (h.trans hp) hf hi

theorem pass_evictSection (req : Request) (mustEvict : Bool) (inner : PoolInner) :
    Pass req inner (evictSection mustEvict inner).1 (evictSection mustEvict inner).2 := by
  have hp := samePages_pickVictim inner
  unfold evictSection
  split
  · rename_i inner' heq
    rw [heq] at hp
    split
    · exact .kept hp (by simp) (by simp)
    · exact .kept ⟨hp.1, hp.2, hp.3, hp.4⟩ (by simp) (by simp)
  · rename_i slot inner' heq
    rw [heq] at hp
    split
    · exact .kept hp (by simp) (by simp)
    rename_i victim hf
    split
    · exact .evicted hp hf ⟨rfl, rfl, rfl, fun _ => rfl⟩
    · rename_i hd
      exact .dropped hp hf (by simpa using hd)

theorem pass_placeSection (req : Request) (inner : PoolInner) :
    Pass req inner (placeSection req inner).1 (placeSection req inner).2 := by
  have hp : SamePages { inner with reclaiming := false } inner := ⟨rfl, rfl, rfl, fun _ => rfl⟩
  unfold placeSection
  dsimp only
  split
  · exact .kept hp (by simp) (by simp)
  · rename_i slot rest hfree
    exact .placed hp hfree

theorem pass_installSection (opts : PoolOptions) (req : Request) (inner : PoolInner) :
    Pass req inner (installSection opts req inner).1 (installSection opts req inner).2 := by
  unfold installSection
  split
  · split
    · rename_i f hf
      exact .kept (samePages_pin hf) (by simp) (by simp)
    · exact .kept (.refl _) (by simp) (by simp)
  · dsimp only
    split
    · exact (pass_placeSection _ _).base ⟨rfl, rfl, rfl, fun _ => rfl⟩
    · exact (pass_evictSection _ _ _).base ⟨rfl, rfl, rfl, fun _ => rfl⟩

section

variable (h : Inv s)
include h

/-- Put back after a failed spill, the victim moves from the caller to a free slot. -/
theorem Inv.putBack {v : Frame}
    (ht : s.callers t = .spillFailed req v) (hfree : s.inner.freeSlots = slot :: rest)
    (hc : c.Free) : Inv (State.setCaller { s with inner := s.inner.place slot rest v } t c) := by
  have hslot := h.slots.free_empty (n := slot) (by simp [hfree])
  refine ⟨slotsOk_place h.slots v hfree, ?_, ?_⟩
  · rw [copyAt_setCaller, hc.victim, copyAt_place s hslot.1, update_comm (by simp)]
    refine h.sound.move (p := v.page) ?_ hslot.2 (fun k hk => ?_) (fun n hn => ?_)
    · simp [State.copyAt, ht, Caller.victim]
    · exact (link_place s slot rest v k).trans (if_neg (Ne.symm hk))
    · exact (link_place s slot rest v _).trans (by rw [← Loc.slot.inj hn]; exact if_pos rfl)
  · have hb : Books { s with inner := s.inner.place slot rest v } := h.books.inner _
    exact hb.setCaller (hc.callerOk _) (unrivalled_of_none hc.request)

theorem inv_enter (hs : step opts s (.enter t) = some s') : Inv s' := by
  simp only [step] at hs
  split at hs
  case h_2 => simp at hs
  rename_i req ht
  cases hs
  have hvic : (s.callers t).victim = none := by rw [ht]; rfl
  have hpass := pass_installSection opts req s.inner
  revert hpass
  generalize (installSection opts req s.inner).1 = inner'
  generalize (installSection opts req s.inner).2 = o
  intro hpass
  cases hpass with
  | kept hp hi he =>
    have h' := h.samePages hp
    cases o with
    | served n | exhausted | broken => exact h'.finish _ _ (by simp [hvic])
    | installed n => exact absurd rfl (hi n)
    | again => exact h'
    | evicted v => exact absurd rfl (he v)
  | @placed base slot rest hp hfree =>
    have h' := h.samePages hp
    have hok : RequestOk _ req := (h'.books.standing ht).1
    unfold RequestOk at hok
    by_cases hd : req.dirty = true
    · have hplace := fun (c : Caller) (hc : c.Free) => h'.placeDirty
        (f := ⟨req.key, req.data, 1, req.referenced, req.dirty⟩) ht hd hfree rfl hc
      simp only [afterPass, State.finish]
      split
      · exact hplace _ trivial
      · have := hplace .idle trivial
        exact this.handles _ _
    · rw [if_neg hd] at hok
      have := h'.placeClean (f := ⟨req.key, req.data, 1, req.referenced, req.dirty⟩) hfree hok.1 hok.2
      simp only [afterPass, State.recordInstall, if_neg hd]
      exact this.finish _ _ (by simp [hvic])
  | dropped hp hf hd =>
    have h' := h.samePages hp
    exact h'.vacate hf (h'.sound.clean (l := .slot _) (PoolInner.pageAt_of_frameAt hf) hd)
  | evicted hp hf hi =>
    have h' := (h.samePages hp).evict t req ht hf
    exact h'.samePages hi

theorem inv_install {ref : Bool}
    (hs : step opts s (.install t key image ref) = some s') : Inv s' := by
  simp only [step] at hs
  split at hs
  case h_2 => simp at hs
  rename_i ht
  split at hs
  · simp at hs
  rename_i hfresh
  cases hs
  have hnew : s.installed[key]? = none := by
    cases hk : s.installed[key]? with
    | none => rfl
    | some i => exact absurd (h.books.allocated hk) hfresh
  have h' : Inv { s with allocated := s.allocated.insert key, nextPtr := s.nextPtr + 1 } :=
    h.grow ⟨id, fun hk => (mem_insert _ _ _).mpr (.inr hk), id, id⟩ h.books.cold
  refine h'.moveOn ht ⟨hnew, (mem_insert _ _ _).mpr (.inl rfl)⟩ ?_ rfl
  -- the page ids of the requests under way were handed out before
  intro r hr _ t' _ r' hr' hd' hkey
  cases hr
  have hok := (h.books.caller t').request hr'
  simp only [RequestOk, hd', if_true] at hok
  have hkey : key = r'.key := hkey
  exact hfresh (hkey ▸ hok.2)

theorem inv_fault (hs : step opts s (.fault t key) = some s') : Inv s' := by
  simp only [step] at hs
  split at hs
  case h_2 => simp at hs
  rename_i ht
  unfold faultSection at hs
  split at hs
  · split at hs
    · rename_i f hf
      cases hs
      have := h.samePages (samePages_pin hf)
      exact this.handles _ _
    · cases hs
      exact h
  · split at hs
    · simp at hs
    cases hs
    have hp : SamePages { s.inner with inflight := s.inner.inflight.insert key } s.inner := ⟨rfl, rfl, rfl, fun _ => rfl⟩
    have := h.samePages hp
    exact this.leave ht trivial rfl

theorem inv_read (hs : step opts s (.read t ok) = some s') : Inv s' := by
  simp only [step] at hs
  split at hs
  case h_2 => simp at hs
  rename_i key ht
  cases hs
  unfold readStep
  split
  · rename_i image hcold
    refine (h.handles s.guards (s.nextPtr + 1)).moveOn ht ⟨h.books.cold hcold, .inr hcold⟩ ?_ rfl
    intro r hr hd
    cases hr
    simp at hd
  · exact h.leave ht trivial rfl

theorem Inv.spill (hi : s.installed[key]? = some image) : Inv { s with cold := s.cold.insert key image } := by
  have hcold : ∀ {k : PageKey} {i : Bytes}, (s.cold.insert key image)[k]? = some i → s.installed[k]? = some i := by
    intro k i hk
    rw [lookup_insert] at hk
    split at hk
    · rename_i hkey
      rw [← hkey, hi, Option.some.inj hk]
    · exact h.books.cold hk
  have hcov : ∀ {k : PageKey} {i : Bytes}, Covered s k i → Covered { s with cold := s.cold.insert key image } k i := by
    rintro k i (hk | hk)
    · exact .inl hk
    right
    rw [lookup_insert]
    split
    · rename_i hkey
      rw [← hkey] at hk
      exact hi.symm.trans (h.books.cold hk)
    · exact hk
  exact h.grow ⟨id, id, hcov, id⟩ hcold

theorem inv_spill (hs : step opts s (.spill t ok) = some s') : Inv s' := by
  simp only [step] at hs
  split at hs
  case h_2 => simp at hs
  rename_i req v ht
  split at hs
  · cases hs
    have hv : s.installed[v.key]? = some v.data.image :=
      h.sound.image (l := .caller t) (p := v.page) (by simp [State.copyAt, ht, Caller.victim])
    have h' := h.spill hv
    have hstands := h'.books.standing ht
    refine h'.setCaller hstands.1 hstands.2 (.inr ⟨rfl, fun w hw => ?_⟩)
    obtain rfl : v = w := by
      rw [ht] at hw
      exact Option.some.inj hw
    exact .inr (by rw [lookup_insert, if_pos rfl])
  · cases hs
    have hstands := h.books.standing ht
    exact h.moveOn ht hstands.1 hstands.2 rfl

theorem inv_putBack (hfree : s.inner.freeSlots ≠ []) (hs : step opts s (.putBack t) = some s') : Inv s' := by
  simp only [step] at hs
  split at hs
  case h_2 => simp at hs
  rename_i req v ht
  cases hs
  unfold putBackSection
  split
  · rename_i slot rest hslot
    exact h.putBack ht hslot trivial
  · rename_i hnil
    exact absurd hnil hfree

theorem Inv.dropInflight (key : PageKey) : Inv (dropInflight s key) :=
  h.samePages ⟨rfl, rfl, rfl, fun _ => rfl⟩

theorem inv_unguard (hs : step opts s (.unguard t) = some s') : Inv s' := by
  simp only [step] at hs
  split at hs
  case h_4 => simp at hs
  · rename_i req vk ht
    cases hs
    have h' := h.dropInflight vk
    have hstands := h'.books.standing ht
    exact h'.moveOn ht hstands.1 hstands.2 rfl
  · rename_i req vk ht
    cases hs
    refine (h.dropInflight vk).finish req none fun v hv => ?_
    change (s.callers t).victim = some v at hv
    rw [ht] at hv
    exact absurd hv (by simp [Caller.victim])
  · rename_i key slot ht
    cases hs
    have := (h.dropInflight key).leave (d := .idle) ht trivial rfl
    exact this.handles _ _

theorem inv_unpin (hs : step opts s (.unpin slot key) = some s') : Inv s' := by
  simp only [step] at hs
  split at hs
  · cases hs
    have := h.samePages (samePages_unpin s.inner slot key)
    exact this.handles _ _
  · simp at hs

end

theorem mem_dirtyCopies {inner : PoolInner} {x : PageKey × Arc} (hx : x ∈ dirtyCopies inner) :
    ∃ slot f, inner.frameAt slot = some f ∧ f.key = x.1 ∧ f.data = x.2 := by
  simp only [dirtyCopies, mem_map, mem_filter, mem_filterMap, id] at hx
  obtain ⟨f, ⟨⟨_, hf, rfl⟩, -⟩, rfl⟩ := hx
  obtain ⟨slot, hslot⟩ := mem_iff_getElem?.mp hf
  exact ⟨slot, f, by simp [PoolInner.frameAt, hslot], rfl, rfl⟩

theorem inv_flush (h : Inv s)
    (hs : step opts s (.flush t) = some s') : Inv s' := by
  simp only [step] at hs
  split at hs
  case h_2 => simp at hs
  rename_i ht
  cases hs
  refine h.moveOn ht (fun x hx => ?_) (unrivalled_of_none rfl) rfl
  obtain ⟨slot, f, hf, hkey, hdata⟩ := mem_dirtyCopies hx
  rw [← hkey, ← hdata]
  exact h.sound.image (l := .slot slot) (p := f.page) (PoolInner.pageAt_of_frameAt hf)

theorem inv_flushSpill (h : Inv s) (hs : step opts s (.flushSpill t ok) = some s') : Inv s' := by
  simp only [step] at hs
  split at hs
  case h_3 => simp at hs
  · rename_i ht
    cases hs
    exact h.leave ht trivial rfl
  · rename_i key data todo ht
    have hcopies : ∀ x ∈ (key, data) :: todo, s.installed[x.1]? = some x.2.image := (h.books.standing ht).1
    have hinst := hcopies _ (List.mem_cons_self ..)
    split at hs
    · cases hs
      refine (h.spill hinst).moveOn ht ⟨⟨hinst, .inr ?_⟩, fun x hx => hcopies x (mem_cons_of_mem _ hx)⟩
        (unrivalled_of_none rfl) rfl
      exact (lookup_insert ..).trans (if_pos rfl)
    · cases hs
      exact h.leave ht trivial rfl

theorem Inv.markClean (h : Inv s) (hf : s.inner.frameAt slot = some f) (hc : Covered s f.key f.data.image) :
    Inv { s with inner := s.inner.setFrame slot { f with dirty := false } } where
  slots := slotsOk_setFrame h.slots hf rfl
  books := h.books.inner _
  sound := by
    have hold : s.copyAt (.slot slot) = some f.page := PoolInner.pageAt_of_frameAt hf
    rw [copyAt_of_pageAt s (s.inner.pageAt_setFrame (PoolInner.lt_of_frameAt hf) { f with dirty := false })]
    have himg : s.imageOf f.key = some f.data.image := h.sound.image hold
    refine h.sound.put ?_ himg hc fun _ _ => rfl
    intro q hq
    rw [← Option.some.inj (hold.symm.trans hq)]
    rfl

theorem inv_flushMark (h : Inv s)
    (hs : step opts s (.flushMark t) = some s') : Inv s' := by
  simp only [step] at hs
  split at hs
  case h_2 => simp at hs
  rename_i key data todo ht
  cases hs
  obtain ⟨hfl, hcopies⟩ := (h.books.standing ht).1
  have h' : Inv { s with inner := markClean s.inner key data } := by
    unfold markClean
    split
    · exact h
    rename_i slot hslot
    split
    · exact h
    rename_i f hf
    split
    · refine h.markClean hf ?_
      -- the frame the map points at holds the page, so its image is the one that was spilled
      obtain ⟨p, hp, rfl⟩ := h.slots.linked hslot
      cases (PoolInner.pageAt_of_frameAt hf).symm.trans hp
      have himg := h.sound.image (l := .slot slot) (PoolInner.pageAt_of_frameAt hf)
      rw [show f.data.image = data.image from Option.some.inj (himg.symm.trans hfl.1)]
      exact hfl.2
    · exact h
  exact h'.moveOn ht hcopies (unrivalled_of_none rfl) rfl

theorem inv_discard (h : Inv s)
    (hs : step opts s (.discard t key) = some s') : Inv s' := by
  simp only [step] at hs
  split at hs
  case h_2 => simp at hs
  rename_i ht
  split at hs
  case h_2 =>
    cases hs
    exact h
  rename_i inner hsec
  cases hs
  have hdisc : ∀ {k}, k ∈ s.discarded → k ∈ s.discarded.insert key :=
    fun hk => (mem_insert _ _ _).mpr (.inr hk)
  have hcov : ∀ {k i}, Covered s k i → Covered { s with discarded := s.discarded.insert key } k i :=
    fun hk => hk.imp_left hdisc
  have h' : Inv { s with discarded := s.discarded.insert key } :=
    h.grow ⟨id, id, hcov, hdisc⟩ h.books.cold
  have hkey : key ∈ s.discarded.insert key := (mem_insert _ _ _).mpr (.inl rfl)
  have h'' : Inv { s with inner, discarded := s.discarded.insert key } := by
    unfold discardSection at hsec
    split at hsec
    · cases hsec
      exact h'
    rename_i slot hslot
    split at hsec
    · simp at hsec
    cases hsec
    obtain ⟨p, hp, hpk⟩ := h.slots.linked hslot
    obtain ⟨f, hf, rfl⟩ := Option.map_eq_some_iff.mp hp
    obtain rfl : f.key = key := hpk
    exact h'.vacate hf (.inl hkey)
  exact h''.moveOn ht hkey (unrivalled_of_none rfl) rfl

theorem inv_freeExtent (h : Inv s)
    (hs : step opts s (.freeExtent t) = some s') : Inv s' := by
  simp only [step] at hs
  split at hs
  case h_2 => simp at hs
  rename_i key ht
  cases hs
  have hdisc : key ∈ s.discarded := (h.books.standing ht).1
  have hcov : ∀ {k i}, Covered s k i → Covered { s with cold := s.cold.erase key } k i := by
    rintro k i (hk | hk)
    · exact .inl hk
    by_cases hkey : key = k
    · exact .inl (hkey ▸ hdisc)
    · right
      rw [lookup_erase, if_neg hkey]
      exact hk
  have hcold : ∀ {k : PageKey} {i : Bytes}, (s.cold.erase key)[k]? = some i → s.installed[k]? = some i := by
    intro k i hk
    rw [lookup_erase] at hk
    split at hk
    · simp at hk
    · exact h.books.cold hk
  have h' : Inv { s with cold := s.cold.erase key } := h.grow ⟨id, id, hcov, id⟩ hcold
  exact h'.leave ht trivial rfl

/-! ### Runs -/

/-- **No page is lost.** A page installed dirty and never discarded is in the frame the pool finds it
in, in the hands of the caller that is spilling it, or in the cold tier; each time with its image. -/
def Kept (s : State n) : Prop :=
  ∀ (k : PageKey) (i : Bytes), s.installed[k]? = some i → k ∉ s.discarded →
    (∃ slot f, s.inner.map[k]? = some slot ∧ s.inner.frameAt slot = some f ∧ f.key = k ∧ f.data.image = i) ∨
    (∃ t v, (s.callers t).victim = some v ∧ v.key = k ∧ v.data.image = i) ∨ s.cold[k]? = some i

/-- A caller that retakes the lock after a failed spill finds a free slot. -/
def PutBackFindsSlot (s : State n) : Step n → Prop
  | .putBack _ => s.inner.freeSlots ≠ []
  | _ => True

instance (s : State n) (a : Step n) : Decidable (PutBackFindsSlot s a) := by
  cases a <;> unfold PutBackFindsSlot <;> infer_instance

theorem inv_new (opts : PoolOptions) : Inv (State.new (n := n) opts) where
  slots := slotsOk_new opts
  sound := by
    have hcopy : ∀ l, (State.new (n := n) opts).copyAt l = none := by
      intro l
      cases l with
      | slot n =>
        simp only [State.copyAt, State.new, PoolInner.new, PoolInner.pageAt, PoolInner.frameAt,
          getElem?_replicate]
        split <;> rfl
      | caller t => rfl
    exact ⟨by simp [hcopy], by simp [hcopy], by simp [State.imageOf, State.new]⟩
  books := by
    refine ⟨by simp [State.new], by simp [State.new], fun t => Caller.Free.callerOk (c := .idle) trivial _, fun t => unrivalled_of_none rfl⟩

theorem inv_step {opts : PoolOptions} (s : State n) (a : Step n) (s' : State n) (h : Inv s)
    (hC : PutBackFindsSlot s a) (hs : step opts s a = some s') : Inv s' := by
  cases a with
  | install => exact inv_install h hs
  | fault => exact inv_fault h hs
  | read => exact inv_read h hs
  | enter => exact inv_enter h hs
  | spill => exact inv_spill h hs
  | putBack => exact inv_putBack h hC hs
  | unguard => exact inv_unguard h hs
  | unpin => exact inv_unpin h hs
  | flush => exact inv_flush h hs
  | flushSpill => exact inv_flushSpill h hs
  | flushMark => exact inv_flushMark h hs
  | discard => exact inv_discard h hs
  | freeExtent => exact inv_freeExtent h hs

theorem kept_of_inv {s : State n} (h : Inv s) : Kept s := by
  intro k i hk hdisc
  rcases h.sound.live hk with (hd | hcold) | ⟨l, p, hp, rfl, -, hlink⟩
  · exact absurd hd hdisc
  · exact .inr (.inr hcold)
  have himg := Option.some.inj ((h.sound.image hp).symm.trans hk)
  cases l with
  | slot n =>
    obtain ⟨f, hf, rfl⟩ := Option.map_eq_some_iff.mp hp
    exact .inl ⟨n, f, hlink n rfl, hf, rfl, himg⟩
  | caller t =>
    obtain ⟨v, hv, rfl⟩ := Option.map_eq_some_iff.mp hp
    exact .inr (.inl ⟨t, v, hv, rfl, himg⟩)

/-- **Dirty pages survive every interleaving** in which a put-back finds a free slot. -/
theorem kept_of_putBackFindsSlot (opts : PoolOptions) (as : List (Step n)) (s : State n)
    (hC : Runs.Meets (step opts) PutBackFindsSlot (.new opts) as)
    (hrun : Runs.run (step opts) (.new opts) as = some s) : Kept s :=
  kept_of_inv (Runs.run_invariant_of_meets inv_step (inv_new opts) hC hrun)

/-- One frame. Caller 1 evicts page 1 and starts to spill it, caller 2 takes the slot that was freed,
and the spill fails. -/
def lostPageRun : List (Step 3) :=
  [.install 0 ⟨0, 1, 1⟩ [7] false, .enter 0, .unpin 0 ⟨0, 1, 1⟩,
   .install 1 ⟨0, 1, 2⟩ [8] false, .enter 1,
   .install 2 ⟨0, 1, 3⟩ [9] false, .enter 2, .enter 2,
   .spill 1 false, .putBack 1]

theorem putBack_loses_page :
    ∃ s, Runs.run (step ⟨1, 1, 0⟩) (.new ⟨1, 1, 0⟩) lostPageRun = some s ∧ ¬ Kept s := by
  obtain ⟨s, hs, hinst, hdisc, hmap, hvic, hcold⟩ : ∃ s ∈ Runs.run (step ⟨1, 1, 0⟩) (.new ⟨1, 1, 0⟩) lostPageRun,
      s.installed[(⟨0, 1, 1⟩ : PageKey)]? = some [7] ∧
        ⟨0, 1, 1⟩ ∉ s.discarded ∧ s.inner.map[(⟨0, 1, 1⟩ : PageKey)]? = none ∧
        (∀ t, (s.callers t).victim = none) ∧ s.cold[(⟨0, 1, 1⟩ : PageKey)]? = none := by
    decide +kernel
  refine ⟨s, hs, fun h => ?_⟩
  rcases h _ _ hinst hdisc with ⟨slot, f, hslot, -⟩ | ⟨t, v, hv, -⟩ | hc
  · simp [hmap] at hslot
  · simp [hvic] at hv
  · simp [hcold] at hc

/-- The same eviction with no third caller: the failed spill puts the page back. -/
def putBackRun : List (Step 2) :=
  [.install 0 ⟨0, 1, 1⟩ [7] false, .enter 0, .unpin 0 ⟨0, 1, 1⟩,
   .install 1 ⟨0, 1, 2⟩ [8] false, .enter 1, .spill 1 false, .putBack 1, .unguard 1]

theorem kept_putBackRun :
    ∃ s, Runs.run (step ⟨1, 1, 0⟩) (.new ⟨1, 1, 0⟩) putBackRun = some s ∧ Kept s := by
  obtain ⟨s, hs, -⟩ : ∃ s ∈ Runs.run (step ⟨1, 1, 0⟩) (.new ⟨1, 1, 0⟩) putBackRun, True := by decide +kernel
  exact ⟨s, hs, kept_of_putBackFindsSlot _ putBackRun s (by decide +kernel) hs⟩

end Pager
end Fluxum
