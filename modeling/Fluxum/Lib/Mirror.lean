/-
# Maps that mirror a keyed collection

A collection of records, given as the partial function `f` from their names,
and a map `d` from keys computed from the records to the names: a secondary
index, or the owners of the values of a constraint. `Mirrors key f d` says
that the map holds exactly the entries of the records.
-/
import Mathlib.Logic.Function.Basic
import Fluxum.Lib.OrdMap

namespace Mirror

open Std Option

variable {κ ν ε : Type*} [Ord ε] [TransOrd ε] {key : κ → ν → Option ε} {f g : κ → Option ν}
  {d : ExtTreeMap ε κ} {k k' : κ} {v v' : ν} {e : ε}

/-- The entries of `d` are the keys of the records of `f`, with their names. -/
def Mirrors (key : κ → ν → Option ε) (f : κ → Option ν) (d : ExtTreeMap ε κ) : Prop :=
  ∀ e k, d[e]? = some k ↔ ∃ v, f k = some v ∧ key k v = some e

theorem mirrors_empty (key : κ → ν → Option ε) : Mirrors key (fun _ => none) ∅ := by
  intro e k
  simp

theorem Mirrors.entry (h : Mirrors key f d) (hk : f k = some v) (he : key k v = some e) : d[e]? = some k :=
  (h e k).mpr ⟨v, hk, he⟩

/-- **No two records share a key.** -/
theorem Mirrors.key_inj (h : Mirrors key f d) (hk : f k = some v) (hk' : f k' = some v') (he : key k v = some e)
    (he' : key k' v' = some e) : k = k' := by
  have h₁ := h.entry hk he
  have h₂ := h.entry hk' he'
  rw [h₁] at h₂
  exact some.inj h₂

theorem Mirrors.free (h : Mirrors key f d) (hk : f k = none)
    (hne : ∀ k' v', f k' = some v' → key k' v' = some e → k' = k) : d[e]? = none := by
  rcases hd : d[e]? with _ | k'
  · rfl
  · obtain ⟨v', hk', he'⟩ := (h e k').mp hd
    rw [hne k' v' hk' he', hk] at hk'
    simp at hk'

variable [LawfulEqOrd ε] [DecidableEq κ]

theorem Mirrors.insert (h : Mirrors key f d) (hk : f k = none) (he : key k v = some e) (hfree : d[e]? = none) :
    Mirrors key (Function.update f k (some v)) (d.insert e k) := by
  classical
  intro e' k'
  rw [OrdMap.lookup_insert]
  by_cases hkk : k' = k
  · subst hkk
    by_cases hee : e = e'
    · subst hee
      simpa using he
    have hno : d[e']? ≠ some k' := fun hd => by
      obtain ⟨_, hk', _⟩ := (h e' k').mp hd
      simp [hk] at hk'
    have hne : ∀ w, some v = some w → key k' w ≠ some e' := by
      rintro w hw he'
      cases hw
      exact hee (some.inj (he.symm.trans he'))
    simpa [hee, hno] using hne
  · rw [Function.update_of_ne hkk, ← h e' k']
    by_cases hee : e = e'
    · subst hee
      simp [hfree, Ne.symm hkk]
    · simp [hee]

theorem Mirrors.erase (h : Mirrors key f d) (hk : f k = some v) (he : key k v = some e) :
    Mirrors key (Function.update f k none) (d.erase e) := by
  classical
  intro e' k'
  rw [OrdMap.lookup_erase]
  by_cases hkk : k' = k
  · subst hkk
    have hno : e ≠ e' → d[e']? ≠ some k' := fun hee hd => by
      obtain ⟨w, hw, he'⟩ := (h e' k').mp hd
      cases hk.symm.trans hw
      exact hee (some.inj (he.symm.trans he'))
    simpa using hno
  · rw [Function.update_of_ne hkk, ← h e' k']
    by_cases hee : e = e'
    · subst hee
      simp [h.entry hk he, Ne.symm hkk]
    · simp [hee]

end Mirror
