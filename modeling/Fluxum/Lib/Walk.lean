/-
# Depth-first walks with a stack

A walk pops a node, emits it and pushes its children. Adding a leaf to the
children of a node adds the leaf to what is emitted and moves nothing else.
-/
import Mathlib.Data.List.Count

namespace Walk

open List Option

variable {α : Type*}

/-- Pop, emit, push the children; `none` if `fuel` rounds do not end it. -/
def walk (children : α → List α) : Nat → List α → Option (List α)
  | _, [] => some []
  | 0, _ :: _ => none
  | fuel + 1, x :: stack => (walk children fuel (children x ++ stack)).map (x :: ·)

/-- From this stack the walk ends, and emits `out`. -/
inductive Walks (children : α → List α) : List α → List α → Prop
  | nil : Walks children [] []
  | cons {x : α} {stack out : List α} (h : Walks children (children x ++ stack) out) :
    Walks children (x :: stack) (x :: out)

variable {children children' : α → List α} {stack out : List α}

theorem walk_eq_some {fuel : Nat} : walk children fuel stack = some out ↔ Walks children stack out ∧ out.length ≤ fuel := by
  induction fuel generalizing stack out with
  | zero =>
    cases stack with
    | nil =>
      rw [walk, some.injEq]
      constructor
      · rintro rfl
        exact ⟨.nil, Nat.le_refl _⟩
      · rintro ⟨h, -⟩
        cases h
        rfl
    | cons x stack =>
      rw [walk]
      constructor
      · intro h
        cases h
      · rintro ⟨h, hlen⟩
        cases h
        simp at hlen
  | succ fuel ih =>
    cases stack with
    | nil =>
      rw [walk, some.injEq]
      constructor
      · rintro rfl
        exact ⟨.nil, Nat.zero_le _⟩
      · rintro ⟨h, -⟩
        cases h
        rfl
    | cons x stack =>
      rw [walk, map_eq_some_iff]
      constructor
      · rintro ⟨out, h, rfl⟩
        obtain ⟨h, hlen⟩ := ih.mp h
        exact ⟨.cons h, Nat.succ_le_succ hlen⟩
      · rintro ⟨h, hlen⟩
        cases h with
        | cons h => exact ⟨_, ih.mpr ⟨h, Nat.le_of_succ_le_succ hlen⟩, rfl⟩

section Leaf

variable [DecidableEq α]

/-- A node is emitted once for every time it is on the stack or a child of an emitted node. -/
theorem Walks.count (h : Walks children stack out) (y : α) :
    out.count y = stack.count y + (out.flatMap children).count y := by
  induction h with
  | nil => simp
  | cons _ ih =>
    rw [count_cons, count_cons, ih, count_append, flatMap_cons, count_append]
    omega

/-- **A new leaf moves nothing.** The other nodes are emitted as before. -/
theorem Walks.add_leaf {leaf : α} (hkids : ∀ x, x ≠ leaf → (children' x).filter (· ≠ leaf) = children x)
    (hleaf : children' leaf = []) (h : Walks children stack out) :
    ∀ {stack' : List α}, stack'.filter (· ≠ leaf) = stack →
      ∃ out', Walks children' stack' out' ∧ out'.filter (· ≠ leaf) = out := by
  -- the leaves on top of the new stack are popped before the old walk moves
  induction h with
  | nil =>
    intro stack' hstack
    induction stack' with
    | nil => exact ⟨[], .nil, rfl⟩
    | cons y stack' ih =>
      by_cases hy : y = leaf
      · subst hy
        rw [filter_cons_of_neg (by simp)] at hstack
        obtain ⟨out', hout', hfilter⟩ := ih hstack
        refine ⟨y :: out', .cons ?_, ?_⟩
        · rwa [hleaf, nil_append]
        · rwa [filter_cons_of_neg (by simp)]
      · rw [filter_cons_of_pos (by simpa using hy)] at hstack
        cases hstack
  | @cons x stack out h ihWalk =>
    intro stack' hstack
    induction stack' with
    | nil => cases hstack
    | cons y stack' ih =>
      by_cases hy : y = leaf
      · subst hy
        rw [filter_cons_of_neg (by simp)] at hstack
        obtain ⟨out', hout', hfilter⟩ := ih hstack
        refine ⟨y :: out', .cons ?_, ?_⟩
        · rwa [hleaf, nil_append]
        · rwa [filter_cons_of_neg (by simp)]
      · rw [filter_cons_of_pos (by simpa using hy), cons.injEq] at hstack
        obtain ⟨rfl, hstack⟩ := hstack
        have hpushed : (children' y ++ stack').filter (· ≠ leaf) = children y ++ stack := by
          rw [filter_append, hkids y hy, hstack]
        obtain ⟨out', hout', hfilter⟩ := ihWalk hpushed
        exact ⟨y :: out', .cons hout', by rw [filter_cons_of_pos (by simpa using hy), hfilter]⟩

end Leaf

end Walk
