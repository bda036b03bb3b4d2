/-
# Lists that agree as far as both go

Two lists of which one is the beginning of the other.
-/
import Mathlib.Data.List.Basic

/-- One list goes on where the other ends. -/
def Comparable {α : Type*} (a b : List α) : Prop := a <+: b ∨ b <+: a

namespace Comparable

variable {α : Type*} {a b c : List α}

theorem symm (h : Comparable a b) : Comparable b a := Or.symm h

theorem of_le (h : Comparable b c) (hab : a <+: b) : Comparable a c := by
  rcases h with h | h
  · exact .inl (hab.trans h)
  · exact List.prefix_or_prefix_of_prefix hab h

theorem le_of_length (h : Comparable a b) (hlen : a.length ≤ b.length) : a <+: b := by
  rcases h with h | h
  · exact h
  · obtain rfl := h.eq_of_length_le hlen
    exact List.prefix_rfl

theorem take_eq (h : Comparable a b) {n : Nat} (ha : n ≤ a.length) (hb : n ≤ b.length) :
    a.take n = b.take n := by
  rcases h with ⟨c, rfl⟩ | ⟨c, rfl⟩
  · rw [List.take_append_of_le_length ha]
  · rw [List.take_append_of_le_length hb]

theorem append_getElem_le (h : a <+: b) {x : α} (hx : b[a.length]? = some x) : a ++ [x] <+: b := by
  obtain ⟨t, rfl⟩ := h
  rw [List.getElem?_append_right (Nat.le_refl _), Nat.sub_self] at hx
  obtain ⟨y, t, rfl⟩ : ∃ y t', t = y :: t' := by
    cases t with
    | nil => cases hx
    | cons y t => exact ⟨y, t, rfl⟩
  cases hx
  exact ⟨t, by simp⟩

end Comparable
