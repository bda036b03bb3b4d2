/-
# Ordered maps over keys with decidable equality

The lookup rules of the extensional tree map compare keys with `compare`.
Over keys whose comparison decides equality they read as updates of a
function; the developments use them in this form.
-/
import Mathlib.Order.Basic
import Std.Data.ExtTreeMap.Lemmas
import Std.Data.ExtTreeSet.Lemmas

namespace OrdMap

open Std List ExtTreeMap

variable {κ β : Type*} [Ord κ] [TransOrd κ] [LawfulEqOrd κ] {t : ExtTreeMap κ β}

theorem lookup_insert [DecidableEq κ] (t : ExtTreeMap κ β) (k a : κ) (v : β) :
    (t.insert k v)[a]? = if k = a then some v else t[a]? := by
  simp only [ExtTreeMap.getElem?_insert, LawfulEqCmp.compare_eq_iff_eq]

theorem lookup_erase [DecidableEq κ] (t : ExtTreeMap κ β) (k a : κ) :
    (t.erase k)[a]? = if k = a then none else t[a]? := by
  simp only [ExtTreeMap.getElem?_erase, LawfulEqCmp.compare_eq_iff_eq]

theorem getElem?_foldl_erase [DecidableEq κ] (a : κ) : ∀ (ks : List κ) (t : ExtTreeMap κ β),
    (ks.foldl ExtTreeMap.erase t)[a]? = if a ∈ ks then none else t[a]?
  | [], t => by simp
  | k :: ks, t => by
    rw [List.foldl_cons, getElem?_foldl_erase a ks, lookup_erase]
    by_cases hks : a ∈ ks
    · simp [hks]
    · by_cases hk : k = a
      · simp [hk]
      · simp [hks, hk, Ne.symm hk]

theorem getElem?_insertMany_of_not_mem {l : List (κ × β)} {k : κ} (h : k ∉ l.map Prod.fst) : (t.insertMany l)[k]? = t[k]? := by
  classical
  exact getElem?_insertMany_list_of_contains_eq_false (by simpa using h)

theorem mem_insert (t : ExtTreeSet κ) (k a : κ) : a ∈ t.insert k ↔ k = a ∨ a ∈ t := by
  simp only [ExtTreeSet.mem_insert, LawfulEqCmp.compare_eq_iff_eq]

theorem nodup_keys_toList (t : ExtTreeMap κ β) : (t.toList.map Prod.fst).Nodup := by
  rw [nodup_iff_pairwise_ne, pairwise_map]
  exact t.distinct_keys_toList.imp fun h heq => h (LawfulEqCmp.compare_eq_iff_eq.mpr heq)

theorem insertMany_toList (t : ExtTreeMap κ β) : (∅ : ExtTreeMap κ β).insertMany t.toList = t := by
  classical
  refine ext_getElem? fun k => ?_
  rcases hk : t[k]? with _ | v
  · rw [getElem?_insertMany_of_not_mem, getElem?_empty]
    intro hmem
    obtain ⟨p, hp, rfl⟩ := mem_map.mp hmem
    cases hk.symm.trans (mem_toList_iff_getElem?_eq_some.mp hp)
  · exact getElem?_insertMany_list_of_mem compare_self t.distinct_keys_toList (mem_toList_iff_getElem?_eq_some.mpr hk)

theorem nodup_toList (t : ExtTreeMap κ β) : t.toList.Nodup :=
  Pairwise.of_map Prod.fst (fun _ _ hne heq => hne (congrArg Prod.fst heq)) (nodup_keys_toList t)

theorem toList_perm_erase {k : κ} {v : β} (h : t[k]? = some v) :
    t.toList.Perm ((k, v) :: (t.erase k).toList) := by
  classical
  have hout : (k, v) ∉ (t.erase k).toList := by
    rw [mem_toList_iff_getElem?_eq_some, lookup_erase, if_pos rfl]
    simp
  refine (perm_ext_iff_of_nodup (nodup_toList t) (nodup_cons.mpr ⟨hout, nodup_toList _⟩)).mpr fun p => ?_
  rw [mem_cons, mem_toList_iff_getElem?_eq_some, mem_toList_iff_getElem?_eq_some, lookup_erase]
  by_cases hk : k = p.1
  · rw [if_pos hk, ← hk, h]
    simp [Prod.ext_iff, ← hk, eq_comm]
  · rw [if_neg hk]
    simp [Prod.ext_iff, Ne.symm hk]

theorem toList_perm_insert {k : κ} (h : t[k]? = none) (v : β) :
    (t.insert k v).toList.Perm ((k, v) :: t.toList) := by
  classical
  have hself : (t.insert k v)[k]? = some v := by rw [lookup_insert, if_pos rfl]
  have herase : (t.insert k v).erase k = t := by
    refine ext_getElem? fun a => ?_
    rw [lookup_erase, lookup_insert]
    split
    · rename_i hk
      rw [← hk, h]
    · rfl
  have := toList_perm_erase hself
  rwa [herase] at this

omit [LawfulEqOrd κ] in
theorem compare_head_toList {p q : κ × β} (hp : t.toList.head? = some p) (hq : q ∈ t.toList) :
    compare p.1 q.1 ≠ .gt := by
  have hsorted := t.ordered_keys_toList
  obtain ⟨tail, htail⟩ := head?_eq_some_iff.mp hp
  rw [htail] at hsorted hq
  rcases mem_cons.mp hq with rfl | hq
  · rw [compare_self]
    decide
  · have := (pairwise_cons.mp hsorted).1 q hq
    simp [this]

omit [LawfulEqOrd κ] in
theorem compare_getLast_toList {p q : κ × β} (hp : t.toList.getLast? = some p) (hq : q ∈ t.toList) :
    compare p.1 q.1 ≠ .lt := by
  have hsorted := t.ordered_keys_toList
  obtain ⟨init, hinit⟩ := getLast?_eq_some_iff.mp hp
  rw [hinit] at hsorted hq
  rcases mem_append.mp hq with hq | hq
  · have := (pairwise_append.mp hsorted).2.2 q hq p (by simp)
    rw [OrientedCmp.gt_of_lt this]
    decide
  · rw [mem_singleton.mp hq, compare_self]
    decide

omit [Ord κ] [TransOrd κ] [LawfulEqOrd κ] in
theorem nodup_keys_filterMap {γ : Type*} {g : κ × β → Option (κ × γ)} (hg : ∀ p q, g p = some q → q.1 = p.1) :
    ∀ {l : List (κ × β)}, (l.map Prod.fst).Nodup → ((l.filterMap g).map Prod.fst).Nodup
  | [], _ => by simp
  | p :: l, h => by
    rw [List.map_cons, List.nodup_cons] at h
    have ih := nodup_keys_filterMap hg h.2
    cases hp : g p with
    | none => rwa [filterMap_cons_none hp]
    | some q =>
      rw [filterMap_cons_some hp, map_cons, nodup_cons]
      refine ⟨fun hmem => h.1 ?_, ih⟩
      obtain ⟨q', hq', heq⟩ := mem_map.mp hmem
      obtain ⟨p', hp', hpq⟩ := mem_filterMap.mp hq'
      rw [← hg p q hp, ← heq, hg p' q' hpq]
      exact mem_map_of_mem hp'

end OrdMap
