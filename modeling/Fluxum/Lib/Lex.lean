/-
# Lists in lexicographic order

The order that a tree over strings of symbols keeps. Strings that are not
prefixes of each other compare as they do whatever follows them, so a
prefix-free code compares as its code words.
-/
import Mathlib.Data.List.Basic
import Mathlib.Tactic.Common

namespace Lex

open Std

variable {α : Type*} [Ord α] [TransOrd α] [LawfulEqOrd α] {a b x y : List α}

omit [LawfulEqOrd α] in
@[simp] theorem compare_append_left : ∀ (p a b : List α), compare (p ++ a) (p ++ b) = compare a b
  | [], _, _ => rfl
  | c :: p, a, b => by
    rw [List.cons_append, List.cons_append, List.compare_cons_cons, compare_self, compare_append_left p]
    rfl

omit [TransOrd α] in
/-- Strings that are not prefixes of each other differ where both have a symbol. -/
theorem compare_append_of_not_prefix : ∀ {a b : List α}, ¬ a <+: b → ¬ b <+: a → ∀ x y : List α,
    compare (a ++ x) (b ++ y) = compare a b ∧ compare a b ≠ .eq
  | [], b, h, _, _, _ => absurd List.nil_prefix h
  | _ :: _, [], _, h, _, _ => absurd List.nil_prefix h
  | c :: a, d :: b, hab, hba, x, y => by
    simp only [List.cons_append, List.compare_cons_cons]
    by_cases hcd : c = d
    · subst hcd
      rw [List.prefix_cons_iff] at hab hba
      have ha : ¬ a <+: b := fun h => hab (.inr ⟨a, rfl, h⟩)
      have hb : ¬ b <+: a := fun h => hba (.inr ⟨b, rfl, h⟩)
      obtain ⟨h₁, h₂⟩ := compare_append_of_not_prefix ha hb x y
      cases compare c c <;> simp [h₁, h₂]
    · have hne : compare c d ≠ .eq := fun h => hcd (LawfulEqCmp.eq_of_compare h)
      cases h : compare c d <;> simp_all

/-- **Prefix-free codes.** If neither word is a proper prefix of the other, the words decide, and the
rest where they are equal. -/
theorem compare_append (h : a <+: b ∨ b <+: a → a = b) (x y : List α) :
    compare (a ++ x) (b ++ y) = (compare a b).then (compare x y) := by
  by_cases hab : a = b
  · subst hab
    rw [compare_append_left, compare_self]
    rfl
  · have hn : ¬ a <+: b := fun hp => hab (h (.inl hp))
    have hm : ¬ b <+: a := fun hp => hab (h (.inr hp))
    obtain ⟨h₁, h₂⟩ := compare_append_of_not_prefix hn hm x y
    rw [h₁]
    cases hc : compare a b <;> simp_all

/-- Words of one length are prefix-free. -/
theorem compare_append_of_length (h : a.length = b.length) (x y : List α) :
    compare (a ++ x) (b ++ y) = (compare a b).then (compare x y) := by
  apply compare_append
  rintro (hp | hp)
  · exact hp.eq_of_length h
  · exact (hp.eq_of_length h.symm).symm

omit [TransOrd α] in
/-- A map that turns the order of the symbols round turns the order of prefix-free words round. -/
theorem compare_map_of_reverses {f : α → α} (hf : ∀ x y, compare (f x) (f y) = compare y x) :
    ∀ {a b : List α}, (a <+: b ∨ b <+: a → a = b) → compare (a.map f) (b.map f) = compare b a
  | [], [], _ => rfl
  | [], d :: b, h => by simp at h
  | c :: a, [], h => by simp at h
  | c :: a, d :: b, h => by
    rw [List.map_cons, List.map_cons, List.compare_cons_cons, List.compare_cons_cons, hf]
    by_cases hcd : c = d
    · subst hcd
      rw [compare_map_of_reverses hf fun hp => (List.cons.inj (h (by simpa using hp))).2]
    · have hne : compare d c ≠ .eq := fun h' => hcd (LawfulEqCmp.eq_of_compare h').symm
      cases hc : compare d c <;> simp_all

end Lex
