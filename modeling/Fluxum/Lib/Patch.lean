/-
# Writes that are replayed

A write says nothing of a place or gives its new value. Writes that have
been applied and are applied again, with later ones after them, leave what the
later ones leave: a copy of the state that is newer than its label says still
catches up.
-/
import Mathlib.Tactic.Common

namespace Patch

variable {β : Type*}

/-- The value after a write. -/
def patch (x : β) (w : Option β) : β := w.getD x

@[simp] theorem patch_none (x : β) : patch x none = x := rfl

@[simp] theorem patch_some (x y : β) : patch x (some y) = y := rfl

theorem foldl_patch_none (x : β) : ∀ {ws : List (Option β)}, (∀ w ∈ ws, w = none) → ws.foldl patch x = x
  | [], _ => rfl
  | w :: ws, h => by
    rw [List.foldl_cons, h w (by simp), patch_none, foldl_patch_none x fun w' hw' => h w' (by simp [hw'])]

/-- Either no write says anything, or the result does not depend on the start. -/
theorem foldl_patch_indep (x y : β) : ∀ ws : List (Option β), (∀ w ∈ ws, w = none) ∨ ws.foldl patch x = ws.foldl patch y
  | [] => .inl (by simp)
  | none :: ws => by
    rcases foldl_patch_indep x y ws with h | h
    · exact .inl (by simpa using h)
    · exact .inr (by simpa using h)
  | some z :: ws => .inr (by simp)

theorem foldl_patch_cases (x : β) : ∀ ws : List (Option β), ws.foldl patch x = x ∨ some (ws.foldl patch x) ∈ ws
  | [] => .inl rfl
  | none :: ws => by
    rcases foldl_patch_cases x ws with h | h
    · exact .inl h
    · exact .inr (List.mem_cons_of_mem _ h)
  | some y :: ws => by
    rcases foldl_patch_cases y ws with h | h
    · refine .inr (List.mem_cons.mpr (.inl ?_))
      rw [List.foldl_cons, patch_some, h]
    · exact .inr (List.mem_cons_of_mem _ h)

/-- **Applying writes again** before the later ones changes nothing. -/
theorem foldl_patch_again (x : β) (ws ws' : List (Option β)) :
    (ws ++ ws').foldl patch (ws.foldl patch x) = (ws ++ ws').foldl patch x := by
  rcases foldl_patch_indep (ws.foldl patch x) x (ws ++ ws') with h | h
  · rw [foldl_patch_none x fun w hw => h w (by simp [hw])]
  · exact h

end Patch
