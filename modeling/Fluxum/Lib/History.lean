/-
# Histories of writes, replayed in part

A history numbers its writes. A write says, for each key, nothing, that the
key is empty afterwards, or what it holds. Whoever applies all writes in order
holds `replay w init Set.univ n`; who has applied only those of `S` holds
`replay w init S n`, if writes on common keys were applied in order.

Values carry marks that no two keys may share (`Distinct`). Two writes
conflict if they say something of one key, or if one mark occurs in both, in
what a write puts or in what it takes away. A set of writes that is closed
under earlier conflicting ones can be extended by any write whose earlier
conflicts it holds, and no mark is shared in it.
-/
import Mathlib.Data.Nat.Find
import Mathlib.Data.Set.Insert

namespace History

variable {κ ν τ : Type*}

/-- What a write says of a key: nothing, or what the key holds afterwards. -/
abbrev Write (κ ν : Type*) := κ → Option (Option ν)

open scoped Classical in
/-- The values after the writes of `S` among the first `n`, in order. -/
noncomputable def replay (w : ℕ → Write κ ν) (init : κ → Option ν) (S : Set ℕ) : ℕ → κ → Option ν
  | 0, k => init k
  | n + 1, k => if n ∈ S then (w n k).getD (replay w init S n k) else replay w init S n k

section Replay

variable {w w' : ℕ → Write κ ν} {init : κ → Option ν} {S S' : Set ℕ} {i m n : ℕ} {k : κ} {v : ν}

theorem replay_succ_of_mem (h : n ∈ S) : replay w init S (n + 1) k = (w n k).getD (replay w init S n k) := by
  rw [replay, if_pos h]

theorem replay_succ_of_not_mem (h : n ∉ S) : replay w init S (n + 1) k = replay w init S n k := by
  rw [replay, if_neg h]

theorem replay_congr : ∀ {n : ℕ}, (∀ i < n, w i k = w' i k) → (∀ i < n, i ∈ S ↔ i ∈ S') →
    replay w init S n k = replay w' init S' n k
  | 0, _, _ => rfl
  | n + 1, hw, hS => by
    have ih := replay_congr (n := n) (fun i hi => hw i (by omega)) fun i hi => hS i (by omega)
    by_cases hn : n ∈ S
    · rw [replay_succ_of_mem hn, replay_succ_of_mem ((hS n (by omega)).mp hn), ih, hw n (by omega)]
    · rw [replay_succ_of_not_mem hn, replay_succ_of_not_mem (mt (hS n (by omega)).mpr hn), ih]

/-- A write on a key that no later one of `S` is on takes effect there. -/
theorem replay_insert : ∀ {n : ℕ}, i < n → i ∉ S → (∀ j ∈ S, i < j → j < n → w i k ≠ none → w j k = none) →
    replay w init (insert i S) n k = (w i k).getD (replay w init S n k)
  | 0, hin, _, _ => absurd hin (by omega)
  | n + 1, hin, hi, hlater => by
    rcases Nat.lt_succ_iff_lt_or_eq.mp hin with hlt | rfl
    · have ih := replay_insert hlt hi fun j hj hij hjn => hlater j hj hij (by omega)
      by_cases hn : n ∈ S
      · rw [replay_succ_of_mem (Set.mem_insert_of_mem i hn), replay_succ_of_mem hn, ih]
        by_cases hw : w i k = none
        · rw [hw]
          rfl
        · rw [hlater n hn hlt (by omega) hw]
          rfl
      · have hn' : n ∉ insert i S := by
          rw [Set.mem_insert_iff, not_or]
          exact ⟨by omega, hn⟩
        rw [replay_succ_of_not_mem hn', replay_succ_of_not_mem hn, ih]
    · have hsame : replay w init (insert i S) i k = replay w init S i k :=
        replay_congr (fun _ _ => rfl) fun j hj => by
          exact or_iff_right (by omega)
      rw [replay_succ_of_mem (Set.mem_insert i S), replay_succ_of_not_mem hi, hsame]

/-- A key that no write of `S` from `m` on is on keeps its value. -/
theorem replay_untouched : ∀ {n : ℕ}, m ≤ n → (∀ j ∈ S, m ≤ j → j < n → w j k = none) →
    replay w init S n k = replay w init S m k
  | n, hmn, h => by
    induction n with
    | zero => rw [Nat.le_zero.mp hmn]
    | succ n ih =>
      rcases Nat.lt_or_eq_of_le hmn with hlt | rfl
      · have hstep := ih (by omega) fun j hj hmj hjn => h j hj hmj (by omega)
        by_cases hn : n ∈ S
        · rw [replay_succ_of_mem hn, h n hn (by omega) (by omega), hstep]
          rfl
        · rw [replay_succ_of_not_mem hn, hstep]
      · rfl

/-- Where a value comes from: the whole history holds it at a time `m`, which is the start or follows a
write of `S` on the key, and no write of `S` from then on is on the key. -/
theorem exists_source : ∀ {n : ℕ}, replay w init S n k = some v →
    ∃ m ≤ n, replay w init Set.univ m k = some v ∧ (∀ j ∈ S, m ≤ j → j < n → w j k = none) ∧
      ∀ i, m = i + 1 → i ∈ S ∧ w i k = some (some v)
  | 0, h => ⟨0, le_rfl, h, fun _ _ _ hj => absurd hj (by omega), fun _ hi => absurd hi (by omega)⟩
  | n + 1, h => by
    by_cases hput : n ∈ S ∧ w n k ≠ none
    · obtain ⟨hn, hw⟩ := hput
      obtain ⟨x, hx⟩ := Option.ne_none_iff_exists'.mp hw
      rw [replay_succ_of_mem hn, hx, Option.getD_some] at h
      subst h
      refine ⟨n + 1, le_rfl, ?_, fun _ _ hm hj => absurd hj (by omega), fun i hi => ?_⟩
      · rw [replay_succ_of_mem (Set.mem_univ n), hx]
        rfl
      · obtain rfl : n = i := by omega
        exact ⟨hn, hx⟩
    · have hnone : n ∈ S → w n k = none := fun hn => not_not.mp fun hw => hput ⟨hn, hw⟩
      have hbefore : replay w init S n k = some v := by
        by_cases hn : n ∈ S
        · rwa [replay_succ_of_mem hn, hnone hn] at h
        · rwa [replay_succ_of_not_mem hn] at h
      obtain ⟨m, hm, hfull, hlater, hput'⟩ := exists_source hbefore
      refine ⟨m, by omega, hfull, fun j hj hmj hjn => ?_, hput'⟩
      rcases Nat.lt_succ_iff_lt_or_eq.mp hjn with hlt | rfl
      · exact hlater j hj hmj hlt
      · exact hnone hj

end Replay

/-! ### Conflicts -/

section Conflict

variable (w : ℕ → Write κ ν) (init : κ → Option ν) (marks : κ → ν → τ → Prop)

/-- No two keys share a mark. -/
def Distinct (f : κ → Option ν) : Prop :=
  ∀ k k' v v' t, f k = some v → f k' = some v' → marks k v t → marks k' v' t → k = k'

/-- The mark occurs in a value that the write puts, or in one that it takes away. -/
def Mentions (i : ℕ) (t : τ) : Prop :=
  ∃ k v, marks k v t ∧ (w i k = some (some v) ∨ w i k ≠ none ∧ replay w init Set.univ i k = some v)

/-- Two writes are on a common key, or mention a common mark. -/
def Conflict (i j : ℕ) : Prop :=
  (∃ k, w i k ≠ none ∧ w j k ≠ none) ∨ ∃ t, Mentions w init marks i t ∧ Mentions w init marks j t

/-- The writes come with all earlier ones that they conflict with. -/
def Closed (S : Set ℕ) : Prop := ∀ i ∈ S, ∀ j < i, Conflict w init marks j i → j ∈ S

variable {w init marks} {S : Set ℕ} {i n : ℕ} {k : κ}

theorem Closed.extend (h : Closed w init marks S) (hi : ∀ j < i, Conflict w init marks j i → j ∈ S) :
    Closed w init marks (insert i S) := by
  intro i' hi' j hj hconf
  rcases Set.mem_insert_iff.mp hi' with rfl | hmem
  · exact Set.mem_insert_of_mem _ (hi j hj hconf)
  · exact Set.mem_insert_of_mem _ (h i' hmem j hj hconf)

theorem not_conflict_of_silent {j : ℕ} (h : ∀ k, w i k = none) : ¬ Conflict w init marks j i := by
  rintro (⟨k, -, hk⟩ | ⟨t, -, k, v, -, hput | ⟨hk, -⟩⟩)
  · exact hk (h k)
  · simp [h k] at hput
  · exact hk (h k)

/-- Conflicts depend on the writes up to the later one. -/
theorem Conflict.congr {w' : ℕ → Write κ ν} {j : ℕ} (hw : ∀ l ≤ i, w l = w' l) (hj : j ≤ i)
    (h : Conflict w init marks j i) : Conflict w' init marks j i := by
  have hmentions : ∀ l ≤ i, ∀ t, Mentions w init marks l t → Mentions w' init marks l t := by
    rintro l hl t ⟨k, v, hmark, hput⟩
    have hfull : replay w' init Set.univ l k = replay w init Set.univ l k :=
      replay_congr (fun l' hl' => congrFun (hw l' (by omega)).symm k) fun _ _ => Iff.rfl
    exact ⟨k, v, hmark, by rwa [← hw l hl, hfull]⟩
  rcases h with ⟨k, h₁, h₂⟩ | ⟨t, h₁, h₂⟩
  · exact .inl ⟨k, hw j hj ▸ h₁, hw i le_rfl ▸ h₂⟩
  · exact .inr ⟨t, hmentions j hj t h₁, hmentions i le_rfl t h₂⟩

/-- No write of a closed set after one outside is on a key of that one. -/
theorem Closed.later (h : Closed w init marks S) (hi : i ∉ S) {j : ℕ} (hj : j ∈ S) (hij : i < j) (hw : w i k ≠ none) :
    w j k = none := by
  by_contra hne
  exact hi (h j hj i hij (.inl ⟨k, hw, hne⟩))

/-- **A write comes late.** Applied after the writes of a closed set, it takes effect as in its place. -/
theorem Closed.replay_insert (h : Closed w init marks S) (hi : i ∉ S) (hin : i < n) (k : κ) :
    replay w init (insert i S) n k = (w i k).getD (replay w init S n k) :=
  History.replay_insert hin hi fun _ hj hij _ hw => h.later hi hj hij hw

/-- **It finds what it found in its place**, on its keys. -/
theorem Closed.replay_eq (h : Closed w init marks S) (hi : i ∉ S) (hin : i < n)
    (hconf : ∀ j < i, Conflict w init marks j i → j ∈ S) (hw : w i k ≠ none) :
    replay w init S n k = replay w init Set.univ i k := by
  have hlast : replay w init S n k = replay w init S i k := by
    refine replay_untouched hin.le fun j hj hij hjn => ?_
    rcases Nat.lt_or_eq_of_le hij with hlt | rfl
    · exact h.later hi hj hlt hw
    · exact absurd hj hi
  rw [hlast]
  -- up to `i`, the writes that are missing are not on the key
  have hgo : ∀ m ≤ i, replay w init S m k = replay w init Set.univ m k := by
    intro m hm
    induction m with
    | zero => rfl
    | succ m ih =>
      rw [replay_succ_of_mem (Set.mem_univ m), ← ih (by omega)]
      by_cases hmS : m ∈ S
      · rw [replay_succ_of_mem hmS]
      have hnone : w m k = none := by
        by_contra hne
        exact hmS (hconf m (by omega) (.inl ⟨k, hne, hw⟩))
      rw [replay_succ_of_not_mem hmS, hnone]
      rfl
  exact hgo i le_rfl

theorem exists_first (init : κ → Option ν) {m m' : ℕ} (h : ∃ j, m ≤ j ∧ j < m' ∧ w j k ≠ none) :
    ∃ j, m ≤ j ∧ j < m' ∧ w j k ≠ none ∧ replay w init Set.univ j k = replay w init Set.univ m k := by
  classical
  obtain ⟨hmj, hjm, hj⟩ := Nat.find_spec h
  refine ⟨Nat.find h, hmj, hjm, hj, replay_untouched hmj fun l _ hml hlj => ?_⟩
  by_contra hl
  exact Nat.find_min h hlj ⟨hml, by omega, hl⟩

/-- Of two values with a common mark the later one is at the key of the earlier: the write that ended the
earlier one conflicts with the write that put the later one. -/
theorem Closed.key_eq {k' : κ} {v v' : ν} {t : τ} {m m' : ℕ} (h : Closed w init marks S)
    (hfull : Distinct marks (replay w init Set.univ m')) (hmm : m ≤ m') (hmn : m' ≤ n) (hv : marks k v t) (hv' : marks k' v' t)
    (hk : replay w init Set.univ m k = some v) (hk' : replay w init Set.univ m' k' = some v')
    (hlater : ∀ j ∈ S, m ≤ j → j < n → w j k = none) (hput : ∀ i, m' = i + 1 → i ∈ S ∧ w i k' = some (some v')) :
    k = k' := by
  by_cases htouched : ∃ j, m ≤ j ∧ j < m' ∧ w j k ≠ none
  · obtain ⟨j, hmj, hjm, hj, hold⟩ := exists_first init htouched
    obtain ⟨i, rfl⟩ : ∃ i, m' = i + 1 := ⟨m' - 1, by omega⟩
    obtain ⟨hi, hwi⟩ := hput i rfl
    have hjS : j ∈ S := by
      rcases Nat.lt_or_eq_of_le (Nat.lt_succ_iff.mp hjm) with hlt | rfl
      · exact h i hi j hlt (.inr ⟨t, ⟨k, v, hv, .inr ⟨hj, hold.trans hk⟩⟩, ⟨k', v', hv', .inl hwi⟩⟩)
      · exact hi
    exact absurd (hlater j hjS hmj (by omega)) hj
  · have hkept : replay w init Set.univ m' k = some v := by
      rw [replay_untouched hmm fun j _ hmj hjm => ?_, hk]
      by_contra hj
      exact htouched ⟨j, hmj, hjm, hj⟩
    exact hfull k k' v v' t hkept hk' hv hv'

/-- **No mark is shared** after the writes of a closed set, if none ever is in the whole history. -/
theorem Closed.distinct (h : Closed w init marks S) (hfull : ∀ m ≤ n, Distinct marks (replay w init Set.univ m)) :
    Distinct marks (replay w init S n) := by
  intro k k' v v' t hk hk' hv hv'
  obtain ⟨m, hm, hfull₁, hlater₁, hput₁⟩ := exists_source hk
  obtain ⟨m', hm', hfull₂, hlater₂, hput₂⟩ := exists_source hk'
  rcases Nat.le_total m m' with hle | hle
  · exact h.key_eq (hfull m' hm') hle hm' hv hv' hfull₁ hfull₂ hlater₁ hput₂
  · exact (h.key_eq (hfull m hm) hle hm hv' hv hfull₂ hfull₁ hlater₂ hput₁).symm

end Conflict

end History
