/-
# Majorities

Two majorities of one finite set meet.
-/
import Mathlib.Data.Finset.Card
import Mathlib.Data.Finset.Range

namespace Quorum

/-- More than half of the numbers below `n` satisfy `P`. -/
def Majority (n : Nat) (P : Nat → Prop) : Prop :=
  ∃ Q ⊆ Finset.range n, n / 2 + 1 ≤ Q.card ∧ ∀ i ∈ Q, P i

variable {n : Nat} {P R : Nat → Prop}

theorem Majority.imp (h : Majority n P) (hPR : ∀ i, P i → R i) : Majority n R := by
  obtain ⟨Q, hQn, hQ, hP⟩ := h
  exact ⟨Q, hQn, hQ, fun i hi => hPR i (hP i hi)⟩

/-- **Majorities meet.** -/
theorem Majority.meet (hP : Majority n P) (hR : Majority n R) : ∃ i < n, P i ∧ R i := by
  obtain ⟨Q, hQn, hQ, hP⟩ := hP
  obtain ⟨S, hSn, hS, hR⟩ := hR
  have hcard : (Finset.range n).card < Q.card + S.card := by
    rw [Finset.card_range]
    omega
  obtain ⟨i, hi⟩ := Finset.inter_nonempty_of_card_lt_card_add_card hQn hSn hcard
  obtain ⟨hiQ, hiS⟩ := Finset.mem_inter.mp hi
  exact ⟨i, Finset.mem_range.mp (hQn hiQ), hP i hiQ, hR i hiS⟩

/-- Enough different numbers below `n` are a majority. -/
theorem majority_of_list {l : List Nat} (hnodup : l.Nodup) (hlt : ∀ i ∈ l, i < n)
    (hlen : n / 2 + 1 ≤ l.length) (hP : ∀ i ∈ l, P i) : Majority n P := by
  refine ⟨l.toFinset, fun i hi => ?_, ?_, fun i hi => hP i (List.mem_toFinset.mp hi)⟩
  · exact Finset.mem_range.mpr (hlt i (List.mem_toFinset.mp hi))
  · rwa [List.toFinset_card_of_nodup hnodup]

end Quorum
