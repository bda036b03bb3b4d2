/-
# Maps that summarise the groups of a list

A list of rows, a key on them, and a map that holds for every key that occurs
a summary of the rows with that key: a count, a sum, or a map of the same
kind. `Summarises key S rows m` says so; rows come and go one at a time.
-/
import Mathlib.Data.List.Perm.Basic
import Fluxum.Lib.OrdMap

namespace Grouped

open Std

variable {κ ρ σ : Type*} [DecidableEq κ]

/-- The rows of one group. -/
def group (key : ρ → κ) (k : κ) (rows : List ρ) : List ρ := rows.filter (key · = k)

section Group

variable {key : ρ → κ} {k : κ} {r : ρ} {rows rows' : List ρ}

theorem mem_group : r ∈ group key k rows ↔ r ∈ rows ∧ key r = k := by simp [group]

theorem group_cons_self (key : ρ → κ) (r : ρ) (rows : List ρ) : group key (key r) (r :: rows) = r :: group key (key r) rows := by simp [group]

theorem group_cons_of_ne (h : key r ≠ k) : group key k (r :: rows) = group key k rows := by simp [group, h]

theorem group_perm (h : rows.Perm rows') : (group key k rows).Perm (group key k rows') := h.filter _

end Group

variable [Ord κ] [TransOrd κ]

/-- The map holds a summary of every group that has rows, and nothing else. -/
structure Summarises (key : ρ → κ) (S : List ρ → σ → Prop) (rows : List ρ) (m : ExtTreeMap κ σ) : Prop where
  absent : ∀ k, m[k]? = none → group key k rows = []
  present : ∀ k s, m[k]? = some s → group key k rows ≠ [] ∧ S (group key k rows) s

namespace Summarises

variable {key : ρ → κ} {S : List ρ → σ → Prop} {rows rows' : List ρ} {m m' : ExtTreeMap κ σ} {r : ρ} {s : σ}

theorem empty (key : ρ → κ) (S : List ρ → σ → Prop) : Summarises key S [] ∅ :=
  ⟨fun _ _ => rfl, fun k s h => by simp at h⟩

theorem perm (h : Summarises key S rows m) (hS : ∀ l l' s, l.Perm l' → S l s → S l' s) (hp : rows.Perm rows') :
    Summarises key S rows' m := by
  refine ⟨fun k hk => ?_, fun k s hk => ?_⟩
  · exact (h.absent k hk ▸ group_perm hp : List.Perm [] _).nil_eq.symm
  · obtain ⟨hne, hs⟩ := h.present k s hk
    refine ⟨fun hnil => hne ?_, hS _ _ _ (group_perm hp) hs⟩
    exact (hnil ▸ group_perm hp : List.Perm _ []).eq_nil

theorem exists_entry (h : Summarises key S rows m) [LawfulEqOrd κ] (hr : r ∈ rows) : ∃ s, (key r, s) ∈ m.toList := by
  cases hk : m[key r]? with
  | none => exact absurd (h.absent _ hk) (List.ne_nil_of_mem (mem_group.mpr ⟨hr, rfl⟩))
  | some s => exact ⟨s, ExtTreeMap.mem_toList_iff_getElem?_eq_some.mpr hk⟩

/-- An entry summarises the rows of its key, and there is one. -/
theorem of_entry (h : Summarises key S rows m) [LawfulEqOrd κ] {p : κ × σ} (hp : p ∈ m.toList) :
    S (group key p.1 rows) p.2 ∧ ∃ r ∈ group key p.1 rows, r ∈ rows ∧ key r = p.1 := by
  obtain ⟨hne, hs⟩ := h.present _ _ (ExtTreeMap.mem_toList_iff_getElem?_eq_some.mp hp)
  obtain ⟨r, hr⟩ := List.exists_mem_of_ne_nil _ hne
  exact ⟨hs, r, hr, mem_group.mp hr⟩

theorem getD (h : Summarises key S rows m) {d : σ} (hd : S [] d) (k : κ) : S (group key k rows) (m[k]?.getD d) := by
  cases hk : m[k]? with
  | none => rw [h.absent k hk]; exact hd
  | some s => exact (h.present k s hk).2

variable [LawfulEqOrd κ]

/-- **A row comes.** -/
theorem put (h : Summarises key S rows m) (hs : S (r :: group key (key r) rows) s) :
    Summarises key S (r :: rows) (m.insert (key r) s) := by
  refine ⟨fun k hk => ?_, fun k s' hk => ?_⟩ <;> rw [OrdMap.lookup_insert] at hk <;> split at hk
  · simp at hk
  · rename_i hne
    rw [group_cons_of_ne hne]
    exact h.absent k hk
  · rename_i heq
    subst heq
    cases hk
    rw [group_cons_self]
    exact ⟨List.cons_ne_nil _ _, hs⟩
  · rename_i hne
    rw [group_cons_of_ne hne]
    exact h.present k s' hk

/-- **A row goes**, and others of its group stay. -/
theorem take (h : Summarises key S (r :: rows) m) (hne : group key (key r) rows ≠ [])
    (hs : S (group key (key r) rows) s) : Summarises key S rows (m.insert (key r) s) := by
  refine ⟨fun k hk => ?_, fun k s' hk => ?_⟩ <;> rw [OrdMap.lookup_insert] at hk <;> split at hk
  · simp at hk
  · rename_i hk'
    have := h.absent k hk
    rwa [group_cons_of_ne hk'] at this
  · rename_i heq
    subst heq
    cases hk
    exact ⟨hne, hs⟩
  · rename_i hk'
    have := h.present k s' hk
    rwa [group_cons_of_ne hk'] at this

/-- **The last row of a group goes.** -/
theorem drop (h : Summarises key S (r :: rows) m) (hnil : group key (key r) rows = []) :
    Summarises key S rows (m.erase (key r)) := by
  refine ⟨fun k hk => ?_, fun k s' hk => ?_⟩ <;> rw [OrdMap.lookup_erase] at hk <;> split at hk
  · rename_i heq
    exact heq ▸ hnil
  · rename_i hk'
    have := h.absent k hk
    rwa [group_cons_of_ne hk'] at this
  · simp at hk
  · rename_i hk'
    have := h.present k s' hk
    rwa [group_cons_of_ne hk'] at this

/-- **The map is determined by the rows**, if the summary of a group is. -/
theorem unique (hS : ∀ l s s', l ≠ [] → S l s → S l s' → s = s') (h : Summarises key S rows m)
    (h' : Summarises key S rows m') : m = m' := by
  refine ExtTreeMap.ext_getElem? fun k => ?_
  cases hk : m[k]? with
  | none =>
    have hnil := h.absent k hk
    cases hk' : m'[k]? with
    | none => rfl
    | some s' => exact absurd hnil (h'.present k s' hk').1
  | some s =>
    obtain ⟨hne, hs⟩ := h.present k s hk
    cases hk' : m'[k]? with
    | none => exact absurd (h'.absent k hk') hne
    | some s' => rw [hS _ s s' hne hs (h'.present k s' hk').2]

end Summarises

end Grouped
