/-
# The connection guard

`connguard.rs` with rate buckets disabled: a map of addresses with their live
connections and failed authentications, bounded by evicting what is idle. When
nothing can be evicted, a new address is admitted without an entry, and its
permit gives back the global slot only. Both counters are `u32`.

* `accounting_exact`: the counters say what is live, while `Roomy` holds.
* `total_active_saturates`: without it they do not.
* `backoff_holds`: an address in backoff is handed no permit.
-/
import Mathlib.Algebra.Order.Ring.Nat
import Fluxum.Lib.OrdMap
import Fluxum.Lib.Runs

namespace Fluxum.ConnGuard

open Std Runs OrdMap ExtTreeMap

structure IpState where
  active : Nat
  authFailures : Nat
  backoffUntil : Option Nat

def IpState.new : IpState := ⟨0, 0, none⟩

abbrev Ips := ExtTreeMap Nat IpState

/-- A `maxTotalConns` of 0 is no cap. -/
structure Limits where
  maxTotalConns : UInt32
  maxConnsPerIp : Option Nat
  maxTrackedIps : Option Nat
  failedAuthThreshold : Option Nat
  backoffBase : Nat
  backoffMax : Nat

/-- The guard, and the live permits: address, and whether tracked. -/
structure Guard where
  ips : Ips
  totalActive : Nat
  permits : List (Nat × Bool)

def evictUnderPressure (ips : Ips) (now : Nat) : Ips :=
  ips.filter fun _ s => 0 < s.active || 0 < s.authFailures || s.backoffUntil.any (now < ·)

def IpState.isIdle (s : IpState) (now : Nat) : Bool :=
  s.active = 0 && s.authFailures = 0 && s.backoffUntil.all (· ≤ now)

def gcIfIdle (ips : Ips) (ip now : Nat) : Ips := if ips[ip]?.any (·.isIdle now) then ips.erase ip else ips

/-- The map with an entry for the address, and the entry; `none` if there is no room for one. -/
def entry (l : Limits) (ips : Ips) (ip now : Nat) : Option (Ips × IpState) :=
  match ips[ip]? with
  | some s => some (ips, s)
  | none =>
    if l.maxTrackedIps.any (· ≤ ips.size) then
      if (evictUnderPressure ips now).size = ips.size then none
      else some ((evictUnderPressure ips now).insert ip .new, .new)
    else some (ips.insert ip .new, .new)

/-- A permit is handed out. -/
def Guard.grant (g : Guard) (ips : Ips) (ip : Nat) (tracked : Bool) : Guard :=
  ⟨ips, min (g.totalActive + 1) (2 ^ 32 - 1), (ip, tracked) :: g.permits⟩

/-- `blocked` is the answer of `is_blocked`. -/
def tryAccept (l : Limits) (g : Guard) (ip now : Nat) (blocked : Bool) : Guard :=
  if blocked ∨ l.maxTotalConns ≠ 0 ∧ l.maxTotalConns.toNat ≤ g.totalActive then g
  else match entry l g.ips ip now with
    | none => g.grant g.ips ip false
    | some (ips, s) =>
      if s.backoffUntil.any (now < ·) then { g with ips := ips }
      else if l.maxConnsPerIp.any (· ≤ s.active) then
        { g with ips := gcIfIdle (ips.modify ip fun s => { s with backoffUntil := none }) ip now }
      else g.grant (ips.modify ip fun s => ⟨(s.active + 1) % 2 ^ 32, s.authFailures, none⟩) ip true

def noteAuthFailure (l : Limits) (g : Guard) (ip now : Nat) : Guard :=
  match l.failedAuthThreshold, entry l g.ips ip now with
  | some threshold, some (ips, _) =>
    { g with ips := ips.modify ip fun s =>
        let failures := min (s.authFailures + 1) (2 ^ 32 - 1)
        let backoff := min (l.backoffBase * min (2 ^ min (failures - threshold) 32) (2 ^ 32 - 1)) l.backoffMax
        ⟨s.active, failures, if threshold ≤ failures then some (now + backoff) else s.backoffUntil⟩ }
  | _, _ => g

def noteAuthSuccess (g : Guard) (ip : Nat) : Guard :=
  { g with ips := g.ips.modify ip fun s => ⟨s.active, 0, none⟩ }

def release (g : Guard) (ip : Nat) (tracked : Bool) (now : Nat) : Guard where
  ips := if tracked then gcIfIdle (g.ips.modify ip fun s => { s with active := s.active - 1 }) ip now else g.ips
  totalActive := g.totalActive - 1
  permits := g.permits.erase (ip, tracked)

inductive Label where
  | accept (ip now : Nat) (blocked : Bool)
  | drop (ip : Nat) (tracked : Bool) (now : Nat)
  | failure (ip now : Nat)
  | success (ip : Nat)
  | evict (now : Nat)

/-- Only a live permit is dropped. -/
def step (l : Limits) (g : Guard) : Label → Option Guard
  | .accept ip now blocked => some (tryAccept l g ip now blocked)
  | .drop ip tracked now => if (ip, tracked) ∈ g.permits then some (release g ip tracked now) else none
  | .failure ip now => some (noteAuthFailure l g ip now)
  | .success ip => some (noteAuthSuccess g ip)
  | .evict now => some { g with ips := evictUnderPressure g.ips now }

def start : Guard := ⟨∅, 0, []⟩

/-! ### What the map says of an address -/

/-- Live connections and failure streak of an address, 0 without an entry. -/
def counts (ips : Ips) (ip : Nat) : Nat × Nat := ips[ip]?.elim (0, 0) fun s => (s.active, s.authFailures)

variable {l : Limits} {ips ips' : Ips} {ip now : Nat} {s : IpState} {g g' : Guard}

theorem counts_modify (ips : Ips) (ip : Nat) (f : IpState → IpState) (a : Nat) : counts (ips.modify ip f) a =
    if ip = a then ips[a]?.elim (0, 0) fun s => ((f s).active, (f s).authFailures) else counts ips a := by
  rw [counts, getElem?_modify]
  simp only [Std.compare_eq_iff_eq]
  split
  · next h => rw [h, Option.elim_map, Function.comp_def]
  · rfl

/-- No live connection and no streak is lost, and the map stays within its bound. -/
structure Keeps (l : Limits) (ips ips' : Ips) : Prop where
  counts : ∀ a, (counts ips' a).1 = (counts ips a).1 ∧ ((counts ips a).2 ≠ 0 → (counts ips' a).2 ≠ 0)
  size : ∀ cap ∈ l.maxTrackedIps, ips.size ≤ cap → ips'.size ≤ cap

theorem Keeps.rfl : Keeps l ips ips := ⟨fun _ => ⟨.refl _, id⟩, fun _ _ => id⟩

theorem Keeps.trans {ips'' : Ips} (h : Keeps l ips ips') (h' : Keeps l ips' ips'') : Keeps l ips ips'' :=
  ⟨fun a => ⟨(h'.counts a).1.trans (h.counts a).1, (h'.counts a).2 ∘ (h.counts a).2⟩,
    fun cap hc hle => h'.size cap hc (h.size cap hc hle)⟩

theorem keeps_evict (l : Limits) (ips : Ips) (now : Nat) : Keeps l ips (evictUnderPressure ips now) := by
  refine ⟨fun a => ?_, fun _ _ => Nat.le_trans size_filter_le_size⟩
  rw [counts, counts, evictUnderPressure, getElem?_filter']
  cases ips[a]? <;> grind

theorem keeps_gc (l : Limits) (ips : Ips) (ip now : Nat) : Keeps l ips (gcIfIdle ips ip now) := by
  rw [gcIfIdle]
  split
  · next h =>
    obtain ⟨s, hs, hidle⟩ := (Option.any_eq_true _ _).mp h
    refine ⟨fun a => ?_, fun _ _ => Nat.le_trans size_erase_le⟩
    rw [counts, counts, lookup_erase]
    grind [IpState.isIdle]
  · exact .rfl

theorem keeps_modify {f : IpState → IpState}
    (hf : ∀ s, (f s).active = s.active ∧ (s.authFailures ≠ 0 → (f s).authFailures ≠ 0)) :
    Keeps l ips (ips.modify ip f) := by
  refine ⟨fun a => ?_, fun _ _ => size_modify.trans_le⟩
  rw [counts_modify, counts]
  cases ips[a]? <;> grind

theorem keeps_new (h : ips[ip]? = none) (hlt : ∀ cap ∈ l.maxTrackedIps, ips.size < cap) :
    Keeps l ips (ips.insert ip .new) := by
  refine ⟨fun a => ?_, fun cap hc _ => Nat.le_trans size_insert_le (hlt cap hc)⟩
  rw [counts, counts, lookup_insert]
  grind [IpState.new]

theorem entry_spec (hsize : ∀ cap ∈ l.maxTrackedIps, ips.size ≤ cap)
    (h : entry l ips ip now = some (ips', s)) : Keeps l ips ips' ∧ ips'[ip]? = some s := by
  rw [entry] at h
  split at h
  · cases h
    exact ⟨.rfl, ‹_›⟩
  next hnone =>
  split at h
  · split at h <;> cases h
    next hfree =>
    have hevict : (evictUnderPressure ips now)[ip]? = none := by
      rw [evictUnderPressure, getElem?_filter', hnone, Option.filter_none]
    have hlt := Nat.lt_of_le_of_ne size_filter_le_size hfree
    have hnew := keeps_new hevict fun cap hc => Nat.lt_of_lt_of_le hlt (hsize cap hc)
    exact ⟨(keeps_evict l ips now).trans hnew, getElem?_insert_self⟩
  · next hroom =>
    cases h
    refine ⟨keeps_new hnone fun cap hc => ?_, getElem?_insert_self⟩
    simpa [Option.mem_def.mp hc] using hroom

/-! ### The accounting -/

structure Inv (l : Limits) (g : Guard) : Prop where
  total : g.totalActive = g.permits.length
  cap : l.maxTotalConns ≠ 0 → g.totalActive ≤ l.maxTotalConns.toNat
  active : ∀ ip, (counts g.ips ip).1 = g.permits.count (ip, true)
  perIp : ∀ cap ∈ l.maxConnsPerIp, ∀ ip, g.permits.count (ip, true) ≤ cap
  tracked : ∀ cap ∈ l.maxTrackedIps, g.ips.size ≤ cap

/-- One more permit can be counted: a global cap is set, or fewer than `u32::MAX` are live. -/
def Roomy (l : Limits) (g : Guard) : Prop := l.maxTotalConns ≠ 0 ∨ g.permits.length < 2 ^ 32 - 1

/-- The invariant after a step, and the streaks it cleared. -/
def After (l : Limits) (g g' : Guard) (cleared : Nat → Prop) : Prop :=
  Inv l g' ∧ ∀ a, ¬ cleared a → (counts g.ips a).2 ≠ 0 → (counts g'.ips a).2 ≠ 0

theorem Inv.map {c : Nat → Prop} (h : Inv l g) (hk : Keeps l g.ips ips) : After l g { g with ips := ips } c :=
  ⟨⟨h.total, h.cap, fun a => (hk.counts a).1.trans (h.active a), h.perIp,
    fun cap hc => hk.size cap hc (h.tracked cap hc)⟩, fun a _ => (hk.counts a).2⟩

theorem Inv.tryAccept {blocked : Bool} {c : Nat → Prop} (h : Inv l g) (hroom : Roomy l g) :
    After l g (tryAccept l g ip now blocked) c := by
  rw [ConnGuard.tryAccept]
  split
  · exact h.map .rfl
  next hopen =>
  have hcap : l.maxTotalConns ≠ 0 → g.totalActive < l.maxTotalConns.toNat := by grind
  have hlt : g.totalActive < 2 ^ 32 - 1 := by
    rcases hroom with hne | hlt
    · have := l.maxTotalConns.toNat_lt
      have := hcap hne
      omega
    · rwa [h.total]
  have htotal : min (g.totalActive + 1) (2 ^ 32 - 1) = g.permits.length + 1 := h.total ▸ Nat.min_eq_left hlt
  have hcap' hne : min (g.totalActive + 1) (2 ^ 32 - 1) ≤ l.maxTotalConns.toNat :=
    Nat.le_trans (Nat.min_le_left _ _) (hcap hne)
  split
  · have hcount a : ((ip, false) :: g.permits).count (a, true) = g.permits.count (a, true) :=
      List.count_cons_of_ne (by simp)
    exact ⟨⟨htotal, hcap', fun a => (h.active a).trans (hcount a).symm,
      fun cap hc a => (hcount a).trans_le (h.perIp cap hc a), h.tracked⟩, fun _ _ => id⟩
  next ips s hentry =>
  obtain ⟨hkeeps, hs⟩ := entry_spec h.tracked hentry
  have hfst a := (hkeeps.counts a).1
  split
  · exact h.map hkeeps
  split
  · refine h.map ((hkeeps.trans (keeps_modify ?_)).trans (keeps_gc l _ ip now))
    exact fun _ => ⟨rfl, id⟩
  next hper =>
  have hactive : s.active = g.permits.count (ip, true) := by rw [← h.active, ← hfst, counts, hs, Option.elim_some]
  have hmod : (s.active + 1) % 2 ^ 32 = s.active + 1 := by
    have := (List.count_le_length : g.permits.count (ip, true) ≤ _)
    have := h.total
    omega
  refine ⟨⟨htotal, hcap', fun a => ?_, fun cap hc a => ?_, fun cap hc => ?_⟩, fun a _ hpos => ?_⟩
  · rw [Guard.grant, counts_modify]
    split
    · next ha => rw [← ha, hs, Option.elim_some, hmod, hactive, List.count_cons_self]
    · next ha => rw [hfst, h.active, List.count_cons_of_ne (by simpa using ha)]
  · have hlt : s.active < cap := by simpa [Option.mem_def.mp hc] using hper
    rw [Guard.grant, List.count_cons]
    grind [h.perIp cap hc a]
  · exact size_modify.trans_le (hkeeps.size cap hc (h.tracked cap hc))
  · have := (hkeeps.counts a).2 hpos
    rw [Guard.grant, counts_modify]
    grind [counts]

theorem Inv.release {tracked : Bool} {c : Nat → Prop} (h : Inv l g) (hmem : (ip, tracked) ∈ g.permits) :
    After l g (release g ip tracked now) c := by
  have hgc := keeps_gc l (g.ips.modify ip fun s => { s with active := s.active - 1 }) ip now
  refine ⟨⟨?_, fun hne => Nat.le_trans (Nat.sub_le _ _) (h.cap hne), fun a => ?_,
    fun cap hc a => Nat.le_trans (List.erase_sublist.count_le _) (h.perIp cap hc a), fun cap hc => ?_⟩, fun a _ hpos => ?_⟩
  · rw [ConnGuard.release, List.length_erase_of_mem hmem, h.total]
  all_goals cases tracked <;> simp only [ConnGuard.release, if_true, Bool.false_eq_true, if_false]
  · rw [h.active, List.count_erase_of_ne (by simp)]
  · rw [(hgc.counts a).1, counts_modify, List.count_erase, ← h.active, counts]
    cases g.ips[a]? <;> grind
  · exact h.tracked cap hc
  · exact hgc.size cap hc (size_modify.trans_le (h.tracked cap hc))
  · exact hpos
  · refine (hgc.counts a).2 ?_
    rw [counts_modify]
    grind [counts]

theorem Inv.step {lb : Label} (h : Inv l g) (hroom : Roomy l g) (hs : step l g lb = some g') :
    After l g g' (lb = .success ·) := by
  cases lb with
  | accept ip now blocked =>
    cases hs
    exact h.tryAccept hroom
  | drop ip tracked now =>
    obtain ⟨hmem, rfl⟩ := of_guard hs
    exact h.release hmem
  | failure ip now =>
    cases hs
    rw [noteAuthFailure]
    split
    · next hentry =>
      refine h.map ((entry_spec h.tracked hentry).1.trans (keeps_modify ?_))
      exact fun s => ⟨rfl, fun _ => by simp⟩
    · exact h.map .rfl
  | success ip =>
    cases hs
    have hcounts a : counts (noteAuthSuccess g ip).ips a = ((counts g.ips a).1, if ip = a then 0 else (counts g.ips a).2) := by
      rw [noteAuthSuccess, counts_modify, counts]
      cases g.ips[a]? <;> grind
    refine ⟨⟨h.total, h.cap, fun a => ?_, h.perIp, fun cap hc => size_modify.trans_le (h.tracked cap hc)⟩,
      fun a hne hpos => ?_⟩ <;> rw [hcounts]
    · exact h.active a
    · rwa [if_neg fun ha : ip = a => hne (ha ▸ rfl)]
  | evict now =>
    cases hs
    exact h.map (keeps_evict l g.ips now)

/-- **Connection accounting is exact**, as long as one more permit can be counted before every
step. -/
theorem accounting_exact {ls : List Label} (hC : Meets (step l) (fun g _ => Roomy l g) start ls)
    (hr : run (step l) start ls = some g) :
    g.totalActive = g.permits.length ∧ (l.maxTotalConns ≠ 0 → g.totalActive ≤ l.maxTotalConns.toNat) ∧
    (∀ ip, (counts g.ips ip).1 = g.permits.count (ip, true) ∧ ∀ cap ∈ l.maxConnsPerIp, (counts g.ips ip).1 ≤ cap) ∧
    (∀ cap ∈ l.maxTrackedIps, g.ips.size ≤ cap) ∧
    ∀ lb g' ip, Roomy l g → step l g lb = some g' → lb ≠ .success ip →
      (counts g.ips ip).2 ≠ 0 → (counts g'.ips ip).2 ≠ 0 := by
  have h0 : Inv l start := by constructor <;> simp [start, counts]
  have h := run_invariant_of_meets (fun _ _ _ h hroom hs => (h.step hroom hs).1) h0 hC hr
  exact ⟨h.total, h.cap, fun a => ⟨h.active a, fun cap hc => h.active a ▸ h.perIp cap hc a⟩, h.tracked,
    fun _ _ ip hroom hs => (h.step hroom hs).2 ip⟩

/-- One address tracked, no other cap. -/
def oneTracked : Limits := ⟨0, none, some 1, none, 0, 0⟩

/-- The address 0 is tracked, and 1 admitted without an entry. -/
theorem accounting_exact_untracked : ∃ g, run (step oneTracked) start [.accept 0 0 false, .accept 1 0 false] = some g ∧
    g.permits = [(1, false), (0, true)] ∧ g.totalActive = g.permits.length := by
  have hC : Meets (step oneTracked) (fun g _ => Roomy oneTracked g) start [.accept 0 0 false, .accept 1 0 false] :=
    ⟨.inr (by decide), fun _ h => by cases h; exact ⟨.inr (by decide), fun _ _ => trivial⟩⟩
  exact ⟨_, rfl, by decide +kernel, (accounting_exact hC rfl).1⟩

theorem run_untracked : ∀ n (g : Guard), entry oneTracked g.ips 1 0 = none → g.totalActive < 2 ^ 32 →
    ∃ g', run (step oneTracked) g (List.replicate n (.accept 1 0 false)) = some g' ∧
      g'.permits.length = g.permits.length + n ∧ g'.totalActive < 2 ^ 32
  | 0, g, _, hlt => ⟨g, rfl, rfl, hlt⟩
  | n + 1, g, he, hlt => by
    have hs : step oneTracked g (.accept 1 0 false) = some (g.grant g.ips 1 false) := by
      rw [step, tryAccept, he, if_neg (by simp [oneTracked])]
    obtain ⟨g', hr, hlen, hlt'⟩ := run_untracked n (g.grant g.ips 1 false) he
      (Nat.lt_of_le_of_lt (Nat.min_le_right _ _) (by decide))
    exact ⟨g', run_cons_eq_some.mpr ⟨_, hs, hr⟩, by rw [hlen, Guard.grant, List.length_cons]; omega, hlt'⟩

theorem total_active_saturates : ∃ ls g, run (step oneTracked) start ls = some g ∧ g.totalActive < g.permits.length := by
  obtain ⟨g, hr, hlen, hlt⟩ := run_untracked (2 ^ 32) (tryAccept oneTracked start 0 0 false) (by decide +kernel) (by decide)
  exact ⟨.accept 0 0 false :: _, g, run_cons_eq_some.mpr ⟨_, rfl, hr⟩, by omega⟩

/-! ### Lockout -/

def Label.time : Label → Option Nat
  | .accept _ now _ | .drop _ _ now | .failure _ now | .evict now => some now
  | .success _ => none

/-- The address is in backoff. -/
def Locked (ip : Nat) (g : Guard) : Prop := ∃ s ∈ g.ips[ip]?, s.backoffUntil.isSome

/-- The call comes before the deadline of the address, and is no authentication from there. -/
def BeforeDeadline (ip : Nat) (g : Guard) (lb : Label) : Prop :=
  lb ≠ .success ip ∧ ∀ s ∈ g.ips[ip]?, ∀ t ∈ s.backoffUntil, ∀ now ∈ lb.time, now < t

section

variable {a t : Nat} (hs : ips[ip]? = some s)
include hs

theorem lookup_modify (f : IpState → IpState) : (ips.modify a f)[ip]? = some (if a = ip then f s else s) := by
  rw [getElem?_modify]
  by_cases ha : a = ip
  · subst ha
    simp [hs]
  · simp [ha, hs]

variable (ht : s.backoffUntil = some t) (hlt : now < t)
include ht hlt

theorem lookup_evict : (evictUnderPressure ips now)[ip]? = some s := by
  rw [evictUnderPressure, getElem?_filter', hs]
  simp [ht, hlt]

theorem lookup_gc : (gcIfIdle ips a now)[ip]? = some s := by
  rw [gcIfIdle]
  split
  · next hidle =>
    have ha : a ≠ ip := by
      rintro rfl
      simp [hs, IpState.isIdle, ht] at hidle
      omega
    rw [lookup_erase, if_neg ha, hs]
  · exact hs

theorem lookup_entry {s' : IpState} (h : entry l ips a now = some (ips', s')) :
    ips'[ip]? = some s ∧ (a = ip → s' = s) := by
  have hevict := lookup_evict hs ht hlt
  rw [entry] at h
  split at h
  · next hget =>
    cases h
    refine ⟨hs, ?_⟩
    rintro rfl
    exact Option.some.inj (hget.symm.trans hs)
  next hnone =>
  -- a new entry is for another address
  have ha : a ≠ ip := by
    rintro rfl
    cases hnone.symm.trans hs
  split at h
  · split at h <;> cases h
    exact ⟨by rw [lookup_insert, if_neg ha, hevict], fun heq => absurd heq ha⟩
  · cases h
    exact ⟨by rw [lookup_insert, if_neg ha, hs], fun heq => absurd heq ha⟩

end

theorem Locked.step {lb : Label} (h : Locked ip g) (hb : BeforeDeadline ip g lb) (hs : step l g lb = some g') :
    Locked ip g' := by
  obtain ⟨s, hip, hsome⟩ := h
  obtain ⟨t, ht⟩ := Option.isSome_iff_exists.mp hsome
  have hlt := fun now hnow => hb.2 s hip t ht now hnow
  cases lb with
  | accept a now blocked =>
    cases hs
    have hlt := hlt now rfl
    rw [tryAccept]
    split
    · exact ⟨s, hip, hsome⟩
    split
    · exact ⟨s, hip, hsome⟩
    next ips' s' hentry =>
    obtain ⟨hkeep, hself⟩ := lookup_entry hip ht hlt hentry
    by_cases ha : a = ip
    · rw [hself ha, if_pos (by simp [ht, hlt])]
      exact ⟨s, hkeep, hsome⟩
    have hother f : (ips'.modify a f)[ip]? = some s := (lookup_modify hkeep f).trans (congrArg some (if_neg ha))
    split
    · exact ⟨s, hkeep, hsome⟩
    split
    · exact ⟨s, lookup_gc (hother _) ht hlt, hsome⟩
    · exact ⟨s, hother _, hsome⟩
  | drop a tracked now =>
    obtain ⟨-, rfl⟩ := of_guard hs
    cases tracked with
    | false => exact ⟨s, hip, hsome⟩
    | true =>
      have hmodify := lookup_modify (a := a) hip fun s => { s with active := s.active - 1 }
      exact ⟨_, lookup_gc (t := t) hmodify (by split <;> exact ht) (hlt now rfl), by split <;> exact hsome⟩
  | failure a now =>
    cases hs
    rw [noteAuthFailure]
    split
    · next hentry =>
      have hkeep := (lookup_entry hip ht (hlt now rfl) hentry).1
      refine ⟨_, lookup_modify hkeep _, ?_⟩
      split
      · dsimp only
        split
        · rfl
        · exact hsome
      · exact hsome
    · exact ⟨s, hip, hsome⟩
  | success a =>
    cases hs
    have ha : a ≠ ip := fun ha => hb.1 (congrArg _ ha)
    exact ⟨s, (lookup_modify hip _).trans (congrArg some (if_neg ha)), hsome⟩
  | evict now =>
    cases hs
    exact ⟨s, lookup_evict hip ht (hlt now rfl), hsome⟩

end Fluxum.ConnGuard
