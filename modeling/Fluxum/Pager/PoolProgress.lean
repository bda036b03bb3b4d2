/-
# When the pool makes room

`install_with` loops until it has a slot. One caller alone, with spills that
succeed, evicts an unpinned frame in every round that does not return; once
every frame left is pinned, a round below capacity drops the watermark and
tries again.

* `install_ends_iff`: the loop ends unless the pinned frames reach the high
  watermark and leave a frame free.
* `pinned_above_watermark_loops`: then the next round raises it again.
* `no_frame_leaks`: the free slots are the empty ones, after every run.
-/
import Fluxum.Pager.PoolSafety

namespace Fluxum
namespace Pager

open Std List OrdMap Option

/-- The loop of `install_with` for a caller on its own whose spills succeed; `none` if `fuel` rounds do not
end it. -/
def installLoop (opts : PoolOptions) (req : Request) : Nat → PoolInner → Option (PoolInner × Outcome)
  | 0, _ => none
  | fuel + 1, inner =>
    match installSection opts req inner with
    | (inner, .again) => installLoop opts req fuel inner
    | (inner, .evicted victim) =>
      installLoop opts req fuel { inner with inflight := inner.inflight.erase victim.key }
    | (inner, outcome) => some (inner, outcome)

def PoolInner.pins (inner : PoolInner) : List (Option Nat) := inner.frames.map (Option.map Frame.pins)

def pinned (inner : PoolInner) : Nat := inner.pins.countP (·.any (0 < ·))

def unpinned (inner : PoolInner) : Nat := inner.pins.countP (·.any (· = 0))

/-- The books of a pool balance: frames, map and free slots agree, and the hand points at a slot. -/
structure Accounted (opts : PoolOptions) (inner : PoolInner) : Prop where
  slots : SlotsOk inner
  mapped : ∀ n f, inner.frameAt n = some f → inner.map[f.key]? = some n
  count : inner.occupied = inner.pins.countP Option.isSome
  free : inner.freeSlots.length + inner.occupied = opts.frames
  length : inner.frames.length = opts.frames
  hand : inner.hand < opts.frames

/-! ### Pin counts -/

theorem pins_getElem? (inner : PoolInner) (n : Nat) :
    inner.pins[n]?.join = (inner.frameAt n).map Frame.pins := by
  unfold PoolInner.pins PoolInner.frameAt
  rw [getElem?_map]
  cases inner.frames[n]? <;> rfl

theorem countP_isSome_eq : ∀ l : List (Option Nat), l.countP Option.isSome = l.countP (·.any (0 < ·)) + l.countP (·.any (· = 0))
  | [] => rfl
  | o :: l => by
    have ih := countP_isSome_eq l
    simp only [countP_cons]
    rcases o with _ | _ | n <;> simp [ih] <;> omega

variable {inner : PoolInner} {cand : Option Nat} {slot : Nat} {fuel : Nat} {next : PoolInner}

theorem occupied_eq {opts : PoolOptions} (h : Accounted opts inner) :
    inner.occupied = pinned inner + unpinned inner := by
  rw [h.count, countP_isSome_eq]
  rfl

theorem frames_getElem?_of_frameAt {f : Frame} (h : inner.frameAt slot = some f) :
    inner.frames[slot]? = some (some f) := join_eq_some_iff.mp h

theorem set_eq_self {α : Type} {l : List α} {n : Nat} {a : α} (h : l[n]? = some a) : l.set n a = l := by
  obtain ⟨hn, rfl⟩ := List.getElem?_eq_some_iff.mp h
  exact set_getElem_self hn

/-- A frame put in a slot, or taken out of it, leaves the pin counts of the other slots. -/
theorem pins_of_set {a : PoolInner} {o : Option Frame} (h : a.frames = inner.frames.set slot o) :
    a.pins = inner.pins.set slot (o.map Frame.pins) := by
  rw [PoolInner.pins, h, map_set, PoolInner.pins]

theorem pins_setFrame {f g : Frame} (h : inner.frameAt slot = some f) (hg : g.pins = f.pins) :
    (inner.setFrame slot g).pins = inner.pins := by
  rw [pins_of_set rfl]
  refine set_eq_self ?_
  rw [PoolInner.pins, getElem?_map, frames_getElem?_of_frameAt h]
  simp [hg]

/-! ### The sweep -/

/-- A slot holds a frame that nobody pins. -/
def PoolInner.Unpinned (inner : PoolInner) (slot : Nat) : Prop := inner.pins[slot]?.join = some 0

theorem unpinned_iff : inner.Unpinned slot ↔ ∃ f, inner.frameAt slot = some f ∧ f.pins = 0 := by
  rw [PoolInner.Unpinned, pins_getElem?, map_eq_some_iff]

/-- One tick of the sweep: the hand moves on, and at most the bit of the frame under it changes. -/
structure Tick (inner next : PoolInner) : Prop where
  length : next.frames.length = inner.frames.length
  hand : next.hand = (inner.hand + 1) % inner.frames.length
  pins : next.pins = inner.pins
  others : ∀ slot ≠ inner.hand, next.frameAt slot = inner.frameAt slot

/-- A tick that goes on with the candidate it had: an unpinned frame under the hand had its bit set and loses it. -/
def Passes (inner next : PoolInner) : Prop :=
  ∀ f, inner.frameAt inner.hand = some f → f.pins = 0 →
    f.referenced = true ∧ next.frameAt inner.hand = some { f with referenced := false }

/-- **What a tick does**: it stops at an unpinned frame, passes the frame, or has a candidate from now on. -/
theorem pickVictimLoop_succ (fuel : Nat) (inner : PoolInner) (cand : Option Nat) :
    ∃ next, Tick inner next ∧
      (pickVictimLoop (fuel + 1) inner cand = (some inner.hand, next) ∧ inner.Unpinned inner.hand ∨
        pickVictimLoop (fuel + 1) inner cand = pickVictimLoop fuel next cand ∧ Passes inner next ∨
        pickVictimLoop (fuel + 1) inner cand = pickVictimLoop fuel next (cand.or (some inner.hand)) ∧
          inner.Unpinned inner.hand) := by
  let moved := { inner with hand := (inner.hand + 1) % inner.frames.length }
  have htick : Tick inner moved := ⟨rfl, rfl, rfl, fun _ _ => rfl⟩
  rw [pickVictimLoop]
  split
  · rename_i hnone
    exact ⟨_, htick, .inr (.inl ⟨rfl, fun f hf => absurd (hf.symm.trans hnone) (by simp)⟩)⟩
  rename_i f hf
  have hat : inner.frameAt inner.hand = some f := hf
  split
  · refine ⟨_, htick, .inr (.inl ⟨rfl, fun g hg hzero => ?_⟩)⟩
    cases hg.symm.trans hat
    omega
  · have hfree : inner.Unpinned inner.hand := unpinned_iff.mpr ⟨f, hat, by omega⟩
    split
    · rename_i href
      have hset := PoolInner.frameAt_setFrame _ (PoolInner.lt_of_frameAt hf) { f with referenced := false }
      refine ⟨moved.setFrame _ { f with referenced := false }, ⟨length_set .., rfl, pins_setFrame hf rfl,
        fun n hn => (hset n).trans (if_neg (Ne.symm hn))⟩, .inr (.inl ⟨rfl, fun g hg _ => ?_⟩)⟩
      cases hg.symm.trans hat
      exact ⟨href, (hset _).trans (if_pos rfl)⟩
    · split
      · exact ⟨_, htick, .inl ⟨rfl, hfree⟩⟩
      · exact ⟨_, htick, .inr (.inr ⟨rfl, hfree⟩)⟩

theorem pins_pickVictimLoop (fuel : Nat) (inner : PoolInner) (cand : Option Nat) :
    (pickVictimLoop fuel inner cand).2.pins = inner.pins := by
  induction fuel generalizing inner cand with
  | zero => rfl
  | succ fuel ih =>
    obtain ⟨next, htick, ⟨heq, -⟩ | ⟨heq, -⟩ | ⟨heq, -⟩⟩ := pickVictimLoop_succ fuel inner cand <;> rw [heq]
    · exact htick.pins
    · exact (ih _ _).trans htick.pins
    · exact (ih _ _).trans htick.pins

theorem Tick.hand_lt (h : Tick inner next) (hhand : inner.hand < inner.frames.length) :
    next.hand < next.frames.length := by
  rw [h.hand, h.length]
  exact Nat.mod_lt _ (by omega)

theorem hand_pickVictimLoop (fuel : Nat) (inner : PoolInner) (cand : Option Nat) (h : inner.hand < inner.frames.length) :
    (pickVictimLoop fuel inner cand).2.hand < inner.frames.length := by
  induction fuel generalizing inner cand with
  | zero => exact h
  | succ fuel ih =>
    obtain ⟨next, htick, ⟨heq, -⟩ | ⟨heq, -⟩ | ⟨heq, -⟩⟩ := pickVictimLoop_succ fuel inner cand <;>
      rw [heq, ← htick.length]
    · exact htick.hand_lt h
    · exact ih _ _ (htick.hand_lt h)
    · exact ih _ _ (htick.hand_lt h)

theorem pickVictimLoop_some (hcand : ∀ c ∈ cand, inner.Unpinned c)
    (h : (pickVictimLoop fuel inner cand).1 = some slot) : inner.Unpinned slot := by
  induction fuel generalizing inner cand with
  | zero => exact hcand slot h
  | succ fuel ih =>
    obtain ⟨next, htick, ⟨heq, hfree⟩ | ⟨heq, -⟩ | ⟨heq, hfree⟩⟩ := pickVictimLoop_succ fuel inner cand <;> rw [heq] at h
    · exact some.inj h ▸ hfree
    all_goals rw [PoolInner.Unpinned, ← htick.pins]
    · exact ih (fun c hc => by rw [PoolInner.Unpinned, htick.pins]; exact hcand c hc) h
    refine ih (fun c hc => ?_) h
    rw [PoolInner.Unpinned, htick.pins]
    rcases or_eq_some_iff.mp hc with hc | ⟨-, hc⟩
    · exact hcand c hc
    · exact some.inj hc ▸ hfree

theorem pickVictimLoop_isSome (fuel : Nat) (inner : PoolInner) (h : cand.isSome) :
    (pickVictimLoop fuel inner cand).1.isSome := by
  induction fuel generalizing inner cand with
  | zero => exact h
  | succ fuel ih =>
    obtain ⟨next, -, ⟨heq, -⟩ | ⟨heq, -⟩ | ⟨heq, -⟩⟩ := pickVictimLoop_succ fuel inner cand <;> rw [heq]
    · rfl
    · exact ih _ h
    · exact ih _ (by simp)

theorem passes_of_none (h : (pickVictimLoop (fuel + 1) inner cand).1 = none) :
    ∃ next, Tick inner next ∧ Passes inner next ∧ (pickVictimLoop fuel next cand).1 = none := by
  obtain ⟨next, htick, ⟨heq, -⟩ | ⟨heq, hpasses⟩ | ⟨heq, -⟩⟩ := pickVictimLoop_succ fuel inner cand <;> rw [heq] at h
  · cases h
  · exact ⟨next, htick, hpasses, h⟩
  · have hsome := pickVictimLoop_isSome fuel next (by simp : (cand.or (some inner.hand)).isSome)
    rw [h] at hsome
    cases hsome

theorem Tick.ahead (h : Tick inner next) (i : Nat) :
    (next.hand + i) % next.frames.length = (inner.hand + (i + 1)) % inner.frames.length := by
  rw [h.hand, h.length, Nat.mod_add_mod]
  congr 1
  omega

theorem referenced_of_none (h : (pickVictimLoop fuel inner cand).1 = none)
    (hhand : inner.hand < inner.frames.length) {i : Nat} (hi : i < fuel) {f : Frame}
    (hf : inner.frameAt ((inner.hand + i) % inner.frames.length) = some f) (hpins : f.pins = 0) :
    f.referenced = true := by
  induction fuel generalizing inner i f with
  | zero => omega
  | succ fuel ih =>
    obtain ⟨next, htick, hpasses, hrest⟩ := passes_of_none h
    cases i with
    | zero =>
      rw [Nat.add_zero, Nat.mod_eq_of_lt hhand] at hf
      exact (hpasses f hf hpins).1
    | succ i =>
      have hih := @ih next hrest (htick.hand_lt hhand) i (by omega)
      rw [htick.ahead] at hih
      by_cases heq : (inner.hand + (i + 1)) % inner.frames.length = inner.hand
      · rw [heq] at hf
        exact (hpasses f hf hpins).1
      · exact hih (htick.others _ heq ▸ hf) hpins

/-- A fruitless sweep passes no unpinned frame twice. -/
theorem not_unpinned_of_revisit (h : (pickVictimLoop fuel inner cand).1 = none)
    (hhand : inner.hand < inner.frames.length) {i j : Nat} (hij : i < j) (hj : j < fuel)
    (hsame : (inner.hand + i) % inner.frames.length = (inner.hand + j) % inner.frames.length) :
    ¬ inner.Unpinned ((inner.hand + j) % inner.frames.length) := by
  induction fuel generalizing inner i j with
  | zero => omega
  | succ fuel ih =>
    obtain ⟨next, htick, hpasses, hrest⟩ := passes_of_none h
    obtain ⟨j, rfl⟩ : ∃ k, j = k + 1 := ⟨j - 1, by omega⟩
    cases i with
    | zero =>
      -- passing it again finds the bit cleared
      rw [Nat.add_zero, Nat.mod_eq_of_lt hhand] at hsame
      rw [← hsame, unpinned_iff]
      rintro ⟨f, hf, hzero⟩
      have hagain := referenced_of_none hrest (htick.hand_lt hhand) (by omega : j < fuel) (f := { f with referenced := false })
      rw [htick.ahead, ← hsame] at hagain
      exact absurd (hagain (hpasses f hf hzero).2 hzero) (by simp)
    | succ i =>
      have hih := @ih next hrest (htick.hand_lt hhand) i j (by omega) (by omega)
      rw [htick.ahead, htick.ahead, PoolInner.Unpinned, htick.pins] at hih
      exact hih hsame

/-- **The sweep finds an unpinned frame if there is one.** -/
theorem pickVictim_none (hhand : inner.hand < inner.frames.length) (h : (pickVictim inner).1 = none) (slot : Nat) :
    ¬ inner.Unpinned slot := by
  intro hslot
  obtain ⟨f, hf, -⟩ := unpinned_iff.mp hslot
  have hlt := PoolInner.lt_of_frameAt hf
  -- the slot is passed in the first round and again in the second
  have hround : ∀ m, (inner.hand + ((slot + inner.frames.length - inner.hand) % inner.frames.length + m * inner.frames.length)) %
      inner.frames.length = slot := by
    intro m
    rw [← Nat.add_assoc, Nat.add_mul_mod_self_right, Nat.add_mod_mod,
      show inner.hand + (slot + inner.frames.length - inner.hand) = slot + inner.frames.length by omega, Nat.add_mod_right,
      Nat.mod_eq_of_lt hlt]
  have hfirst : (slot + inner.frames.length - inner.hand) % inner.frames.length < inner.frames.length := Nat.mod_lt _ (by omega)
  have hsame := (hround 0).trans (hround 1).symm
  have hno := not_unpinned_of_revisit h hhand (by omega) (by omega) hsame
  rw [hround 1] at hno
  exact hno hslot

/-! ### The books -/

section Books

variable {opts : PoolOptions} {inner : PoolInner} {req : Request} {slot : Nat}

theorem accounted_new (hframes : 1 ≤ opts.frames) : Accounted opts (.new opts) where
  slots := slotsOk_new opts
  mapped := by
    intro n f hf
    simp only [PoolInner.new, PoolInner.frameAt, getElem?_replicate] at hf
    split at hf <;> simp at hf
  count := by
    show (∅ : ExtTreeMap PageKey Nat).size = _
    simp [PoolInner.new, PoolInner.pins, map_replicate, countP_replicate]
  free := by
    show (range opts.frames).reverse.length + (∅ : ExtTreeMap PageKey Nat).size = _
    simp
  length := length_replicate ..
  hand := hframes

theorem Accounted.samePages {a : PoolInner} (h : Accounted opts inner) (hp : SamePages a inner) (hpins : a.pins = inner.pins)
    (hhand : a.hand < opts.frames) : Accounted opts a where
  slots := h.slots.congr hp
  mapped := by
    intro n f hf
    have hpage := hp.page n
    rw [PoolInner.pageAt_of_frameAt hf] at hpage
    obtain ⟨g, hg, hkey⟩ := map_eq_some_iff.mp hpage.symm
    rw [hp.map, ← show g.key = f.key from congrArg Page.key hkey]
    exact h.mapped n g hg
  count := by
    rw [PoolInner.occupied, hp.map, hpins]
    exact h.count
  free := by
    rw [PoolInner.occupied, hp.map, hp.free]
    exact h.free
  length := hp.length.trans h.length
  hand := hhand

theorem Accounted.pickVictim (h : Accounted opts inner) : Accounted opts (pickVictim inner).2 := by
  have hhand : inner.hand < inner.frames.length := h.length ▸ h.hand
  exact h.samePages (samePages_pickVictim inner) (pins_pickVictimLoop _ _ _) (h.length ▸ hand_pickVictimLoop _ _ _ hhand)

theorem pins_getElem {f : Frame} (hf : inner.frameAt slot = some f) :
    ∃ hlt : slot < inner.pins.length, inner.pins[slot] = some f.pins := by
  refine getElem?_eq_some_iff.mp ?_
  unfold PoolInner.pins
  rw [getElem?_map, frames_getElem?_of_frameAt hf]
  rfl

theorem Accounted.vacate {f : Frame} (h : Accounted opts inner) (hf : inner.frameAt slot = some f) :
    Accounted opts (inner.vacate slot f.key) := by
  have hmem : inner.map.contains f.key = true := by
    rw [ExtTreeMap.contains_eq_isSome_getElem?, h.mapped slot f hf]
    rfl
  have hsize : (inner.vacate slot f.key).occupied = inner.occupied - 1 := by
    show (inner.map.erase f.key).size = _
    rw [ExtTreeMap.size_erase, if_pos hmem]
    rfl
  have hpos : 0 < inner.occupied := by
    rw [h.count, countP_pos_iff]
    obtain ⟨hlt, hpin⟩ := pins_getElem hf
    exact ⟨_, getElem_mem hlt, by rw [hpin]; rfl⟩
  refine ⟨slotsOk_vacate h.slots hf, fun n g hg => ?_, ?_, ?_, ?_, h.hand⟩
  · rw [PoolInner.frameAt_vacate] at hg
    split at hg
    · cases hg
    rename_i hne
    have hmap := h.mapped n g hg
    show (inner.map.erase f.key)[g.key]? = some n
    rw [lookup_erase, if_neg]
    · exact hmap
    · intro hkey
      rw [← hkey, h.mapped slot f hf] at hmap
      exact hne (some.inj hmap)
  · obtain ⟨hlt, hpin⟩ := pins_getElem hf
    rw [hsize, pins_of_set rfl, h.count, countP_set hlt, hpin]
    simp
  · show inner.freeSlots.length + 1 + _ = opts.frames
    have := h.free
    omega
  · show (inner.frames.set slot none).length = opts.frames
    rw [length_set]
    exact h.length

theorem Accounted.place (h : Accounted opts inner) {rest : List Nat} (f : Frame) (hfree : inner.freeSlots = slot :: rest)
    (hkey : inner.map[f.key]? = none) : Accounted opts (inner.place slot rest f) := by
  have hslot := h.slots.free_empty (n := slot) (by simp [hfree])
  have hsize : (inner.place slot rest f).occupied = inner.occupied + 1 := by
    show (inner.map.insert f.key slot).size = _
    rw [ExtTreeMap.size_insert, if_neg]
    · rfl
    · rw [ExtTreeMap.contains_eq_isSome_getElem?, hkey]
      simp
  refine ⟨slotsOk_place h.slots f hfree, fun n g hg => ?_, ?_, ?_, ?_, h.hand⟩
  · have hat := inner.frameAt_setFrame hslot.1 f n
    rw [show (inner.place slot rest f).frameAt n = _ from hat] at hg
    show (inner.map.insert f.key slot)[g.key]? = some n
    rw [lookup_insert]
    split at hg
    · rename_i heq
      cases hg
      rw [if_pos rfl, heq]
    · have hmap := h.mapped n g hg
      rw [if_neg]
      · exact hmap
      · intro heq
        rw [← heq, hkey] at hmap
        cases hmap
  · have hlt : slot < inner.pins.length := by
      rw [PoolInner.pins, length_map]
      exact hslot.1
    have hnone : inner.pins[slot] = none := by
      have hat := pins_getElem? inner slot
      have hempty : inner.frameAt slot = none := by
        have := hslot.2
        rwa [PoolInner.pageAt, map_eq_none_iff] at this
      rw [hempty, getElem?_eq_getElem hlt] at hat
      simpa using hat
    rw [hsize, pins_of_set rfl, h.count, countP_set hlt, hnone]
    simp
  · show rest.length + _ = opts.frames
    have := h.free
    rw [hfree, length_cons] at this
    omega
  · show (inner.frames.set slot (some f)).length = opts.frames
    rw [length_set]
    exact h.length

theorem Accounted.flags (h : Accounted opts inner) (inflight : ExtTreeSet PageKey) (reclaiming : Bool) :
    Accounted opts { inner with inflight, reclaiming } :=
  ⟨⟨h.slots.linked, h.slots.free_empty, h.slots.free_nodup⟩, h.mapped, h.count, h.free, h.length, h.hand⟩

theorem unpinned_eq_zero (h : ∀ n, ¬ inner.Unpinned n) : unpinned inner = 0 := by
  rw [unpinned, countP_eq_zero]
  intro o ho hzero
  obtain ⟨n, hn, rfl⟩ := getElem_of_mem ho
  refine h n ?_
  rw [PoolInner.Unpinned, getElem?_eq_getElem hn]
  cases hpin : inner.pins[n] with
  | none => simp [hpin] at hzero
  | some k =>
    obtain rfl : k = 0 := by simpa [hpin] using hzero
    rfl

/-- How a round goes on: what the next round starts from. -/
inductive Continues : PoolInner × Outcome → PoolInner → Prop
  | again (inner : PoolInner) : Continues (inner, .again) inner
  | evicted (inner : PoolInner) (victim : Frame) :
    Continues (inner, .evicted victim) { inner with inflight := inner.inflight.erase victim.key }

theorem installLoop_of_continues (h : Continues (installSection opts req inner) next) (fuel : Nat) :
    installLoop opts req (fuel + 1) inner = installLoop opts req fuel next := by
  rw [installLoop]
  generalize hs : installSection opts req inner = r at h
  cases h <;> rfl

/-- A pool that a round leaves behind for the next. -/
structure Next (opts : PoolOptions) (req : Request) (inner next : PoolInner) : Prop where
  accounted : Accounted opts next
  absent : next.map[req.key]? = none
  pinned : pinned next = pinned inner

/-- **The victim part of a round**: an unpinned frame goes, or there is none. -/
theorem evictSection_cases (h : Accounted opts inner) (hkey : inner.map[req.key]? = none) (mustEvict : Bool) :
    (∃ next, Continues (evictSection mustEvict inner) next ∧ Next opts req inner next ∧ unpinned next + 1 = unpinned inner) ∨
    unpinned inner = 0 ∧ ∃ swept, Next opts req inner swept ∧ unpinned swept = 0 ∧
      evictSection mustEvict inner = if mustEvict then (swept, .exhausted) else ({ swept with reclaiming := false }, .again) := by
  have hhand : inner.hand < inner.frames.length := h.length ▸ h.hand
  have hswept := h.pickVictim
  have hpins : (pickVictim inner).2.pins = inner.pins := pins_pickVictimLoop _ _ _
  have hmap : (pickVictim inner).2.map = inner.map := (samePages_pickVictim inner).map
  unfold evictSection
  cases hpick : pickVictim inner with
  | mk picked swept =>
    rw [hpick] at hswept hpins hmap
    cases picked with
    | none =>
      have hzero := unpinned_eq_zero (pickVictim_none hhand (by rw [hpick]))
      refine .inr ⟨hzero, swept, ⟨hswept, hmap ▸ hkey, congrArg (countP _) hpins⟩, ?_, rfl⟩
      rw [unpinned, hpins]
      exact hzero
    | some slot =>
      have hslot : swept.Unpinned slot := by
        have hsome : (pickVictimLoop (2 * inner.frames.length) inner none).1 = some slot := congrArg Prod.fst hpick
        have hfound := pickVictimLoop_some (by simp) hsome
        rwa [PoolInner.Unpinned, ← hpins] at hfound
      obtain ⟨victim, hvictim, hfree⟩ := unpinned_iff.mp hslot
      have hvacate := hswept.vacate hvictim
      obtain ⟨hlt, hpin⟩ := pins_getElem hvictim
      rw [hfree] at hpin
      have hpinned : pinned (swept.vacate slot victim.key) = pinned inner := by
        rw [pinned, pins_of_set rfl, countP_set hlt, hpin, hpins]
        simp [pinned]
      have hunpinned : unpinned (swept.vacate slot victim.key) + 1 = unpinned inner := by
        have hpos : 0 < unpinned swept := by
          rw [unpinned, countP_pos_iff]
          exact ⟨_, getElem_mem hlt, by rw [hpin]; rfl⟩
        rw [unpinned, pins_of_set rfl, countP_set hlt, hpin]
        rw [unpinned, hpins] at hpos ⊢
        simp only [any_some, decide_true, if_true, map_none, any_none, Bool.false_eq_true, if_false] at hpos ⊢
        omega
      have habsent : (swept.vacate slot victim.key).map[req.key]? = none := by
        show (swept.map.erase victim.key)[req.key]? = none
        rw [lookup_erase, hmap, hkey]
        simp
      refine .inl ?_
      simp only [hvictim]
      split
      · exact ⟨_, .evicted _ victim, ⟨(hvacate.flags _ _), habsent, hpinned⟩, hunpinned⟩
      · exact ⟨_, .again _, ⟨hvacate, habsent, hpinned⟩, hunpinned⟩

/-- The round takes a free slot. -/
def Places (opts : PoolOptions) (inner : PoolInner) : Prop :=
  inner.occupied < opts.frames ∧ ((inner.reclaiming = true ∨ opts.highFrames ≤ inner.occupied) → inner.occupied + 1 ≤ opts.lowFrames)

/-- The test that the round makes. -/
theorem places_iff : (!decide (opts.frames ≤ inner.occupied) && !((inner.reclaiming || decide (opts.highFrames < inner.occupied + 1)) &&
    decide (opts.lowFrames < inner.occupied + 1))) = true ↔ Places opts inner := by
  simp only [Places, Bool.and_eq_true, Bool.not_eq_true', decide_eq_false_iff_not, Nat.not_le, Bool.and_eq_false_iff,
    Bool.or_eq_false_iff, Nat.lt_add_one_iff]
  refine and_congr_right fun _ => ?_
  cases inner.reclaiming <;> simp <;> omega

theorem installSection_places (h : Accounted opts inner) (hkey : inner.map[req.key]? = none) (hplaces : Places opts inner) :
    ∃ inner' slot, installSection opts req inner = (inner', .installed slot) := by
  have hfree : inner.freeSlots ≠ [] := by
    intro hnil
    have := h.free
    rw [hnil, length_nil] at this
    have := hplaces.1
    omega
  obtain ⟨slot, rest, hslots⟩ := exists_cons_of_ne_nil hfree
  unfold installSection
  simp only [hkey]
  rw [if_pos (places_iff.mpr hplaces), placeSection]
  simp only [hslots]
  exact ⟨_, _, rfl⟩

theorem installSection_evicts (hkey : inner.map[req.key]? = none) (hplaces : ¬ Places opts inner) :
    ∃ reclaiming, installSection opts req inner = evictSection (decide (opts.frames ≤ inner.occupied)) { inner with reclaiming } := by
  unfold installSection
  simp only [hkey]
  rw [if_neg (mt places_iff.mp hplaces)]
  exact ⟨_, rfl⟩

/-- **One round** for a page that is not resident: it places the page, or finds every frame of a full pool pinned, or
goes on with one unpinned frame less; with no unpinned frame left it goes on with the reclaim called off. -/
theorem round_cases (h : Accounted opts inner) (hkey : inner.map[req.key]? = none) :
    (Places opts inner ∧ ∃ inner' slot, installSection opts req inner = (inner', .installed slot)) ∨
    (opts.frames ≤ inner.occupied ∧ unpinned inner = 0 ∧ ∃ inner', installSection opts req inner = (inner', .exhausted)) ∨
    (¬ Places opts inner ∧ ∃ next, Continues (installSection opts req inner) next ∧ Next opts req inner next ∧
      (unpinned next + 1 = unpinned inner ∨
        unpinned inner = 0 ∧ inner.occupied < opts.frames ∧ unpinned next = 0 ∧ next.reclaiming = false)) := by
  by_cases hplaces : Places opts inner
  · exact .inl ⟨hplaces, installSection_places h hkey hplaces⟩
  obtain ⟨reclaiming, hsection⟩ := installSection_evicts hkey hplaces
  right
  rw [hsection]
  rcases evictSection_cases (h.flags inner.inflight reclaiming) hkey (decide (opts.frames ≤ inner.occupied)) with
    ⟨next, hcont, hnext, hless⟩ | ⟨hzero, swept, hswept, hswept0, heq⟩
  · exact .inr ⟨hplaces, next, hcont, ⟨hnext.accounted, hnext.absent, hnext.pinned⟩, .inl hless⟩
  rw [heq]
  by_cases hfull : opts.frames ≤ inner.occupied
  · rw [if_pos (by simpa using hfull)]
    exact .inl ⟨hfull, hzero, swept, rfl⟩
  · rw [if_neg (by simpa using hfull)]
    exact .inr ⟨hplaces, _, .again _, ⟨hswept.accounted.flags _ false, hswept.absent, hswept.pinned⟩,
      .inr ⟨hzero, by omega, hswept0, rfl⟩⟩

/-- A full pool all of whose frames are pinned. -/
def AllPinned (opts : PoolOptions) (inner : PoolInner) : Prop :=
  ∀ slot < opts.frames, ∃ f, inner.frameAt slot = some f ∧ 0 < f.pins

theorem allPinned_of_pinned (h : Accounted opts inner) (hall : pinned inner = opts.frames) : AllPinned opts inner := by
  intro slot hslot
  have hlen : inner.pins.length = opts.frames := by
    rw [PoolInner.pins, length_map, h.length]
  rw [← hlen] at hall hslot
  have hpin := countP_eq_length.mp hall _ (getElem_mem hslot)
  have hat := pins_getElem? inner slot
  rw [getElem?_eq_getElem hslot] at hat
  cases hf : inner.frameAt slot with
  | none =>
    rw [hf] at hat
    rw [show inner.pins[slot] = none from hat] at hpin
    cases hpin
  | some f =>
    rw [hf] at hat
    rw [show inner.pins[slot] = some f.pins from hat] at hpin
    exact ⟨f, rfl, by simpa using hpin⟩

/-- What `install_with` may return, with the pool before and after the call: a guard on a pinned frame of the page, or
`BufferPoolExhausted` if every frame was pinned. -/
def Returns (opts : PoolOptions) (req : Request) (inner inner' : PoolInner) : Outcome → Prop
  | .served slot => ∃ f, inner'.frameAt slot = some f ∧ f.key = req.key ∧ 0 < f.pins
  | .installed slot => ∃ f, inner'.frameAt slot = some f ∧ f.key = req.key ∧ 0 < f.pins
  | .exhausted => AllPinned opts inner
  | _ => False

theorem returns_served (h : Accounted opts inner) (hkey : inner.map[req.key]? = some slot) :
    ∃ inner', installSection opts req inner = (inner', .served slot) ∧ Returns opts req inner inner' (.served slot) := by
  obtain ⟨page, hpage, hpagekey⟩ := h.slots.linked hkey
  obtain ⟨f, hf, rfl⟩ := map_eq_some_iff.mp hpage
  refine ⟨inner.pin slot f, ?_, ⟨{ f with referenced := true, pins := f.pins + 1 }, ?_, hpagekey, Nat.succ_pos _⟩⟩
  · unfold installSection
    simp only [hkey, hf]
  · rw [PoolInner.pin, PoolInner.frameAt_setFrame _ (PoolInner.lt_of_frameAt hf), if_pos rfl]

theorem returns_installed {start inner' : PoolInner} (h : Accounted opts inner)
    (hsection : installSection opts req inner = (inner', .installed slot)) : Returns opts req start inner' (.installed slot) := by
  have hpass := pass_installSection opts req inner
  rw [hsection] at hpass
  cases hpass with
  | kept hp hi he => exact absurd rfl (hi slot)
  | @placed base _ rest hp hfree =>
    have hslot := (h.slots.congr hp).free_empty (by simp [hfree] : slot ∈ base.freeSlots)
    refine ⟨⟨req.key, req.data, 1, req.referenced, req.dirty⟩, ?_, rfl, Nat.one_pos⟩
    show (base.setFrame slot _).frameAt slot = _
    rw [PoolInner.frameAt_setFrame _ hslot.1, if_pos rfl]

/-- `install_with` returns, as it should. -/
def Ends (opts : PoolOptions) (req : Request) (inner : PoolInner) : Prop :=
  ∃ fuel inner' o, installLoop opts req fuel inner = some (inner', o) ∧ Returns opts req inner inner' o

theorem ends_of_section {start inner' : PoolInner} {o : Outcome} (hsection : installSection opts req inner = (inner', o))
    (hreturns : Returns opts req start inner' o) :
    ∃ fuel inner' o, installLoop opts req fuel inner = some (inner', o) ∧ Returns opts req start inner' o := by
  refine ⟨1, inner', o, ?_, hreturns⟩
  rw [installLoop, hsection]
  cases o <;> first | rfl | exact hreturns.elim

/-- Below the high watermark, or with every frame pinned, the loop ends: the induction is on the unpinned frames. -/
theorem ends_of_pinned {start : PoolInner} (hhigh : opts.highFrames ≤ opts.frames) (hstart : Accounted opts start)
    (hroom : pinned start < opts.highFrames ∨ pinned start = opts.frames) :
    ∀ (count : Nat) (inner : PoolInner), unpinned inner = count → Next opts req start inner →
      ∃ fuel inner' o, installLoop opts req fuel inner = some (inner', o) ∧ Returns opts req start inner' o := by
  intro count
  induction count with
  | zero =>
    intro inner hcount hinner
    have hocc := occupied_eq hinner.accounted
    have hpin := hinner.pinned
    rcases round_cases hinner.accounted hinner.absent with ⟨-, inner', slot, hs⟩ | ⟨hfull, -, inner', hs⟩ |
      ⟨-, next, hcont, hnext, hless | ⟨-, hfree, hzero, hflag⟩⟩
    · exact ends_of_section hs (returns_installed hinner.accounted hs)
    · exact ends_of_section hs (allPinned_of_pinned hstart (by omega))
    · omega
    -- the reclaim is off and the pool is below the high watermark: the next round takes a free slot
    have hocc' := occupied_eq hnext.accounted
    have hpin' := hnext.pinned
    have hplaces : Places opts next := by
      refine ⟨by omega, ?_⟩
      rintro (hr | hr)
      · rw [hflag] at hr
        cases hr
      · omega
    obtain ⟨inner', slot, hs⟩ := installSection_places hnext.accounted hnext.absent hplaces
    obtain ⟨fuel, inner', o, hloop, hret⟩ :=
      ends_of_section hs (returns_installed hnext.accounted hs : Returns opts req start _ _)
    exact ⟨fuel + 1, inner', o, by rw [installLoop_of_continues hcont, hloop], hret⟩
  | succ count ih =>
    intro inner hcount hinner
    rcases round_cases hinner.accounted hinner.absent with ⟨-, inner', slot, hs⟩ | ⟨-, hzero, -⟩ |
      ⟨-, next, hcont, hnext, hless | ⟨hzero, -⟩⟩
    · exact ends_of_section hs (returns_installed hinner.accounted hs)
    · omega
    · obtain ⟨fuel, inner', o, hloop, hret⟩ :=
        ih next (by omega) ⟨hnext.accounted, hnext.absent, hnext.pinned.trans hinner.pinned⟩
      exact ⟨fuel + 1, inner', o, by rw [installLoop_of_continues hcont, hloop], hret⟩
    · omega

/-- With a free frame, and the pinned ones at the high watermark, every round goes on. -/
theorem installLoop_diverges (hlow : opts.lowFrames ≤ opts.highFrames) : ∀ (fuel : Nat) (inner : PoolInner), Accounted opts inner →
    inner.map[req.key]? = none → opts.highFrames ≤ pinned inner → pinned inner < opts.frames →
    installLoop opts req fuel inner = none
  | 0, _, _, _, _, _ => rfl
  | fuel + 1, inner, h, hkey, hpin, hfree => by
    have hocc := occupied_eq h
    rcases round_cases h hkey with ⟨⟨-, hplaces⟩, -⟩ | ⟨hfull, hzero, -⟩ | ⟨-, next, hcont, hnext, -⟩
    · have := hplaces (.inr (by omega))
      omega
    · omega
    · rw [installLoop_of_continues hcont]
      exact installLoop_diverges hlow fuel next hnext.accounted hnext.absent (hnext.pinned ▸ hpin) (hnext.pinned ▸ hfree)

/-! ### Pools that a run reaches -/

section

variable (h : Accounted opts inner)
include h

theorem Accounted.setFrame {f g : Frame} (hf : inner.frameAt slot = some f) (hkey : g.key = f.key) :
    Accounted opts (inner.setFrame slot g) where
  slots := slotsOk_setFrame h.slots hf hkey
  mapped := by
    intro n k hk
    rw [PoolInner.frameAt_setFrame _ (PoolInner.lt_of_frameAt hf)] at hk
    split at hk
    · rename_i hn
      cases hk
      rw [hkey, ← hn]
      exact h.mapped slot f hf
    · exact h.mapped n k hk
  count := by
    obtain ⟨hlt, hpin⟩ := pins_getElem hf
    have hpos : 0 < inner.pins.countP isSome := by
      rw [countP_pos_iff]
      exact ⟨_, getElem_mem hlt, by rw [hpin]; rfl⟩
    rw [pins_of_set rfl, countP_set hlt, hpin]
    simp only [map_some, isSome_some, if_true]
    have := h.count
    show inner.occupied = _
    omega
  free := h.free
  length := (length_set ..).trans h.length
  hand := h.hand

theorem Accounted.unpin (slot : Nat) (key : PageKey) : Accounted opts (inner.unpin slot key) := by
  unfold PoolInner.unpin
  split
  · rename_i f hf
    split
    · exact h.setFrame hf rfl
    · exact h
  · exact h

theorem Accounted.markClean (key : PageKey) (data : Arc) : Accounted opts (markClean inner key data) := by
  unfold Pager.markClean
  split
  · exact h
  split
  · exact h
  rename_i f hf
  split
  · exact h.setFrame hf rfl
  · exact h

theorem Accounted.discardSection {inner' : PoolInner} {key : PageKey}
    (hd : discardSection inner key = some inner') : Accounted opts inner' := by
  unfold Pager.discardSection at hd
  split at hd
  · cases hd
    exact h
  rename_i slot hslot
  obtain ⟨page, hpage, rfl⟩ := h.slots.linked hslot
  obtain ⟨f, hf, rfl⟩ := map_eq_some_iff.mp hpage
  split at hd
  · cases hd
  · cases hd
    exact h.vacate hf

theorem Accounted.placeSection (hkey : inner.map[req.key]? = none) :
    Accounted opts (placeSection req inner).1 := by
  unfold Pager.placeSection
  dsimp only
  split
  · exact h.flags inner.inflight false
  · rename_i slot rest hfree
    exact (h.flags inner.inflight false).place _ hfree hkey

end

/-- The page that an eviction takes out is no longer mapped. -/
def Unmapped (inner : PoolInner) : Outcome → Prop
  | .evicted victim => inner.map[victim.key]? = none
  | _ => True

theorem Accounted.evictSection (h : Accounted opts inner) (mustEvict : Bool) :
    Accounted opts (evictSection mustEvict inner).1 ∧ Unmapped (evictSection mustEvict inner).1 (evictSection mustEvict inner).2 := by
  have hswept := h.pickVictim
  unfold Pager.evictSection
  split
  · rename_i swept heq
    rw [heq] at hswept
    split
    · exact ⟨hswept, trivial⟩
    · exact ⟨hswept.flags swept.inflight false, trivial⟩
  · rename_i slot swept heq
    rw [heq] at hswept
    split
    · exact ⟨hswept, trivial⟩
    rename_i victim hvictim
    have hvacate := hswept.vacate hvictim
    split
    · refine ⟨hvacate.flags _ swept.reclaiming, ?_⟩
      show (swept.map.erase victim.key)[victim.key]? = none
      rw [lookup_erase, if_pos rfl]
    · exact ⟨hvacate, trivial⟩

theorem Accounted.installSection (h : Accounted opts inner) (req : Request) :
    Accounted opts (installSection opts req inner).1 ∧
      Unmapped (installSection opts req inner).1 (installSection opts req inner).2 := by
  unfold Pager.installSection
  split
  · split
    · rename_i f hf
      exact ⟨h.setFrame hf rfl, trivial⟩
    · exact ⟨h, trivial⟩
  · rename_i hkey
    dsimp only
    split
    · refine ⟨(h.flags inner.inflight _).placeSection hkey, ?_⟩
      unfold Pager.placeSection
      dsimp only
      split <;> trivial
    · exact (h.flags inner.inflight _).evictSection _

/-- A pool with one caller: its books balance, and the page it is spilling is not mapped. -/
structure Alone (opts : PoolOptions) (s : State 1) : Prop where
  accounted : Accounted opts s.inner
  victim : ∀ v ∈ (s.callers 0).victim, s.inner.map[v.key]? = none

variable {s s' : State 1} {t : Fin 1}

theorem Alone.settled {callers : Fin 1 → Caller} {c : Caller} (h : Accounted opts s.inner)
    (hs : s.callers = Function.update callers t c) (hc : c.victim = none) : Alone opts s := by
  refine ⟨h, ?_⟩
  rw [hs, Subsingleton.elim t 0, Function.update_self, hc]
  simp

theorem Alone.finish (h : Accounted opts s.inner) (slot : Option Nat) : Alone opts (s.finish t req slot) := by
  unfold State.finish
  split <;> exact .settled h rfl rfl

theorem Alone.afterPass (h : Accounted opts s.inner) (hc : s.callers t = .installing req) {o : Outcome}
    (ho : Unmapped s.inner o) : Alone opts (afterPass s t req o) := by
  obtain rfl : t = 0 := Subsingleton.elim _ _
  cases o with
  | served slot | exhausted | broken => exact .finish h _
  | installed slot =>
    refine .finish ?_ _
    unfold State.recordInstall
    split <;> exact h
  | again => exact (⟨h, by simp [hc, Caller.victim]⟩ : Alone opts s)
  | evicted victim =>
    refine ⟨h, ?_⟩
    rintro v ⟨⟩
    exact ho

theorem Alone.faultSection (h : Alone opts s) (key : PageKey) (hs : faultSection s t key = some s') : Alone opts s' := by
  unfold Pager.faultSection at hs
  split at hs
  · split at hs
    · rename_i f hf
      cases hs
      exact ⟨h.accounted.setFrame hf rfl, h.victim⟩
    · cases hs
      exact h
  · split at hs
    · cases hs
    · cases hs
      exact .settled (h.accounted.flags _ s.inner.reclaiming) rfl rfl

theorem Alone.readStep (h : Alone opts s) (key : PageKey) (ok : Bool) : Alone opts (readStep s t key ok) := by
  unfold Pager.readStep
  split <;> exact .settled h.accounted rfl rfl

theorem Accounted.putBackSection {v : Frame} (h : Accounted opts inner) (hv : inner.map[v.key]? = none) :
    Accounted opts (putBackSection inner v) := by
  unfold Pager.putBackSection
  split
  · rename_i slot rest hfree
    exact h.place v hfree hv
  · exact h

theorem alone_step (s : State 1) (a : Step 1) (s' : State 1) (h : Alone opts s) (hs : step opts s a = some s') :
    Alone opts s' := by
  cases a with
  | install t key image referenced =>
    simp only [step] at hs
    split at hs
    · split at hs
      · cases hs
      · cases hs
        exact .settled h.accounted rfl rfl
    · cases hs
  | fault t key =>
    simp only [step] at hs
    split at hs
    · exact h.faultSection key hs
    · cases hs
  | read t ok =>
    simp only [step] at hs
    split at hs
    · cases hs
      exact h.readStep _ ok
    · cases hs
  | enter t =>
    simp only [step] at hs
    split at hs
    · rename_i req hc
      cases hs
      have hround := h.accounted.installSection req
      exact .afterPass (s := { s with inner := _ }) hround.1 hc hround.2
    · cases hs
  | spill t ok =>
    obtain rfl : t = 0 := Subsingleton.elim _ _
    simp only [step] at hs
    split at hs
    · rename_i req victim hc
      have hvictim := h.victim
      split at hs
      · cases hs
        exact .settled h.accounted rfl rfl
      · cases hs
        rw [hc] at hvictim
        exact ⟨h.accounted, hvictim⟩
    · cases hs
  | putBack t =>
    obtain rfl : t = 0 := Subsingleton.elim _ _
    simp only [step] at hs
    split at hs
    · rename_i req victim hc
      cases hs
      exact .settled (h.accounted.putBackSection (h.victim victim (by rw [hc]; rfl))) rfl rfl
    · cases hs
  | unguard t =>
    have hdrop : ∀ key, Accounted opts (dropInflight s key).inner := fun _ => h.accounted.flags _ s.inner.reclaiming
    simp only [step] at hs
    split at hs
    · cases hs
      exact .settled (hdrop _) rfl rfl
    · cases hs
      exact .finish (hdrop _) _
    · cases hs
      exact .settled (hdrop _) rfl rfl
    · cases hs
  | unpin slot key =>
    obtain ⟨-, rfl⟩ := Runs.of_guard hs
    refine ⟨h.accounted.unpin slot key, ?_⟩
    rw [(samePages_unpin s.inner slot key).map]
    exact h.victim
  | flush t | freeExtent t =>
    simp only [step] at hs
    split at hs
    · cases hs
      exact .settled h.accounted rfl rfl
    · cases hs
  | flushSpill t ok =>
    simp only [step] at hs
    split at hs
    · cases hs
      exact .settled h.accounted rfl rfl
    · split at hs <;> cases hs <;> exact .settled h.accounted rfl rfl
    · cases hs
  | flushMark t =>
    simp only [step] at hs
    split at hs
    · cases hs
      exact .settled (h.accounted.markClean _ _) rfl rfl
    · cases hs
  | discard t key =>
    simp only [step] at hs
    split at hs
    · split at hs
      · rename_i inner hd
        cases hs
        exact .settled (h.accounted.discardSection hd) rfl rfl
      · cases hs
        exact h
    · cases hs

/-- The books balance in every pool that one caller reaches. -/
theorem accounted_run {as : List (Step 1)} (hframes : 1 ≤ opts.frames)
    (hrun : Runs.run (step opts) (.new opts) as = some s) : Accounted opts s.inner := by
  have hnew : Alone opts (.new opts) := ⟨accounted_new hframes, by simp [State.new, Caller.victim]⟩
  exact (Runs.run_invariant alone_step hnew hrun).accounted

end Books

/-- **Installation ends** unless the page is absent, the pinned frames reach the high watermark and a frame is free. -/
theorem install_ends_iff (opts : PoolOptions) (req : Request) (inner : PoolInner) (hlow : opts.lowFrames ≤ opts.highFrames)
    (hhigh : opts.highFrames ≤ opts.frames) (h : Accounted opts inner) :
    Ends opts req inner ↔
      inner.map[req.key]?.isSome ∨ pinned inner < opts.highFrames ∨ pinned inner = opts.frames := by
  cases hkey : inner.map[req.key]? with
  | some slot =>
    obtain ⟨inner', hs, hret⟩ := returns_served h hkey
    simp only [isSome_some, true_or, iff_true]
    exact ends_of_section hs hret
  | none =>
    have hbound : pinned inner ≤ opts.frames := by
      have := occupied_eq h
      have := h.free
      omega
    simp only [isSome_none, Bool.false_eq_true, false_or]
    constructor
    · rintro ⟨fuel, inner', o, hloop, -⟩
      by_contra hno
      rw [installLoop_diverges hlow fuel inner h hkey (by omega) (by omega)] at hloop
      cases hloop
    · intro hroom
      exact ends_of_pinned hhigh h hroom _ inner rfl ⟨h, hkey, rfl⟩

/-- Two frames and a high watermark of one. A page is installed and stays pinned. -/
def pinnedPageRun : List (Step 1) := [.install 0 ⟨0, 1, 1⟩ [7] false, .enter 0]

theorem pinned_above_watermark_loops :
    ∃ s : State 1, Runs.run (step ⟨2, 1, 1⟩) (.new ⟨2, 1, 1⟩) pinnedPageRun = some s ∧
      ¬ Ends ⟨2, 1, 1⟩ ⟨⟨0, 1, 2⟩, ⟨1, [8]⟩, true, false, false⟩ s.inner := by
  obtain ⟨s, hs, hkey, hpinned⟩ : ∃ s : State 1, s ∈ Runs.run (step ⟨2, 1, 1⟩) (.new ⟨2, 1, 1⟩) pinnedPageRun ∧
      s.inner.map[(⟨0, 1, 2⟩ : PageKey)]? = none ∧ pinned s.inner = 1 := by
    decide +kernel
  refine ⟨s, hs, ?_⟩
  rintro ⟨fuel, inner', o, hloop, -⟩
  rw [installLoop_diverges (by decide) fuel s.inner (accounted_run (by decide) hs) hkey hpinned.ge (by rw [hpinned]; decide)] at hloop
  cases hloop

/-- Two pages are installed, and the first is unpinned. -/
def twoPagesRun : List (Step 1) := pinnedPageRun ++ [.unpin 2 ⟨0, 1, 1⟩, .install 0 ⟨0, 1, 2⟩ [8] false, .enter 0]

/-- A third page finds one frame pinned, one that it can evict and one free. -/
theorem install_ends_iff_twoPages : ∃ s : State 1, Runs.run (step ⟨3, 2, 1⟩) (.new ⟨3, 2, 1⟩) twoPagesRun = some s ∧
    s.inner.occupied = 2 ∧ pinned s.inner = 1 ∧ Ends ⟨3, 2, 1⟩ ⟨⟨0, 1, 3⟩, ⟨2, [9]⟩, true, false, false⟩ s.inner := by
  obtain ⟨s, hs, hoccupied, hpinned⟩ : ∃ s : State 1, s ∈ Runs.run (step ⟨3, 2, 1⟩) (.new ⟨3, 2, 1⟩) twoPagesRun ∧
      s.inner.occupied = 2 ∧ pinned s.inner = 1 := by
    decide +kernel
  refine ⟨s, hs, hoccupied, hpinned, ?_⟩
  exact (install_ends_iff _ _ _ (by decide) (by decide) (accounted_run (by decide) hs)).mpr (.inr (.inl (by rw [hpinned]; decide)))

/-- The free slots are as many as the empty ones, so there is no other empty slot. -/
theorem Accounted.mem_freeSlots_iff (h : Accounted opts inner) :
    slot ∈ inner.freeSlots ↔ slot < opts.frames ∧ inner.frameAt slot = none := by
  have hpins : inner.pins = (range opts.frames).map fun n => (inner.frameAt n).map Frame.pins := by
    have hlen : inner.pins.length = opts.frames := (length_map _).trans h.length
    refine ext_getElem (by simpa using hlen) fun n hn _ => ?_
    rw [getElem_map, getElem_range, ← pins_getElem?, getElem?_eq_getElem hn, join_some]
  have hcount : (range opts.frames).countP (fun n => (inner.frameAt n).isSome) = inner.occupied := by
    rw [h.count, hpins, countP_map]
    simp [Function.comp_def]
  have hempty : ((range opts.frames).filter fun n => !(inner.frameAt n).isSome).length = inner.freeSlots.length := by
    have hsplit := (range opts.frames).length_eq_length_filter_add fun n => (inner.frameAt n).isSome
    rw [length_range, ← countP_eq_length_filter, hcount] at hsplit
    have := h.free
    omega
  have hsub : inner.freeSlots <+~ (range opts.frames).filter fun n => !(inner.frameAt n).isSome := by
    refine h.slots.free_nodup.subperm fun n hn => ?_
    simpa [PoolInner.pageAt, h.length] using h.slots.free_empty hn
  rw [(hsub.perm_of_length_le hempty.le).mem_iff]
  simp

/-- **No frame leaks.** After any run of one caller, the free slots are the empty ones, each listed once, and the page
table has exactly the pages in the frames. -/
theorem no_frame_leaks {s : State 1} {as : List (Step 1)} (hframes : 1 ≤ opts.frames)
    (hrun : Runs.run (step opts) (.new opts) as = some s) :
    s.inner.freeSlots.Nodup ∧ s.inner.freeSlots.length + s.inner.map.size = opts.frames ∧
      (∀ slot, slot ∈ s.inner.freeSlots ↔ slot < opts.frames ∧ s.inner.frameAt slot = none) ∧
      ∀ (k : PageKey) slot, s.inner.map[k]? = some slot ↔ ∃ f, s.inner.frameAt slot = some f ∧ f.key = k := by
  have h := accounted_run hframes hrun
  refine ⟨h.slots.free_nodup, h.free, fun _ => h.mem_freeSlots_iff, fun k slot => ⟨fun hk => ?_, ?_⟩⟩
  · obtain ⟨p, hp, rfl⟩ := h.slots.linked hk
    obtain ⟨f, hf, rfl⟩ := Option.map_eq_some_iff.mp hp
    exact ⟨f, hf, rfl⟩
  · rintro ⟨f, hf, rfl⟩
    exact h.mapped slot f hf

theorem no_frame_leaks_pinnedPageRun : ∃ s : State 1,
    Runs.run (step ⟨2, 1, 1⟩) (.new ⟨2, 1, 1⟩) pinnedPageRun = some s ∧ s.inner.freeSlots.length = 1 ∧
      ∀ slot, slot ∈ s.inner.freeSlots ↔ slot < 2 ∧ s.inner.frameAt slot = none := by
  obtain ⟨s, hs, hfree⟩ : ∃ s ∈ Runs.run (step ⟨2, 1, 1⟩) (.new ⟨2, 1, 1⟩) pinnedPageRun, s.inner.freeSlots.length = 1 := by
    decide +kernel
  exact ⟨s, hs, hfree, (no_frame_leaks (by decide) hs).2.2.1⟩

end Pager
end Fluxum
