/-
# Pre- and postconditions of fallible computations

A computation `x : Except ε α` whose error carries the state the failure
leaves. `Ends E x Q` says where it ends: with `Q` if it succeeds, with `E` if
it fails.
-/
import Mathlib.Data.List.Forall2
import Mathlib.Tactic.Common

namespace Outcome

open List Except

universe u v

variable {ε : Type u} {α β : Type v} {E : ε → Prop} {Q : α → Prop} {R : β → Prop}

/-- `x` succeeds with `Q` or fails with `E`. -/
def Ends (E : ε → Prop) (x : Except ε α) (Q : α → Prop) : Prop :=
  match x with
  | .ok a => Q a
  | .error e => E e

variable {x : Except ε α} {f : α → Except ε β}

section

variable (h : Ends E x Q)
include h

theorem Ends.bind (hf : ∀ a, Q a → Ends E (f a) R) : Ends E (x >>= f) R := by
  cases x with
  | ok a => exact hf a h
  | error e => exact h

theorem Ends.mono {Q' : α → Prop} (hQ : ∀ a, Q a → Q' a) : Ends E x Q' := by
  cases x with
  | ok a => exact hQ a h
  | error e => exact h

theorem Ends.both {E' E'' : ε → Prop} {Q' Q'' : α → Prop} (h' : Ends E' x Q')
    (hE : ∀ e, E e → E' e → E'' e) (hQ : ∀ a, Q a → Q' a → Q'' a) : Ends E'' x Q'' := by
  cases x with
  | ok a => exact hQ a h h'
  | error e => exact hE e h h'

theorem Ends.of_ok {a : α} (hx : x = .ok a) : Q a := by
  rw [hx] at h
  exact h

theorem Ends.of_error {e : ε} (hx : x = .error e) : E e := by
  rw [hx] at h
  exact h

/-- Sequencing, for a rest that is known for what the first part returned. -/
theorem Ends.bind_ok (hf : ∀ a, x = .ok a → Ends E (f a) R) : Ends E (x >>= f) R := by
  cases x with
  | ok a => exact hf a rfl
  | error e => exact h

end

theorem ends_of_eq_ok {a : α} (hx : x = .ok a) (h : Q a) : Ends E x Q := by
  rw [hx]
  exact h

theorem Ends.exists_ok (h : Ends (fun _ => False) x Q) : ∃ a, x = .ok a := by
  cases x with
  | ok a => exact ⟨a, rfl⟩
  | error e => exact h.elim

theorem Ends.mapM : ∀ {xs : List α}, (∀ x ∈ xs, Ends E (f x) fun _ => True) → Ends E (xs.mapM f) fun _ => True
  | [], _ => trivial
  | x :: xs, h => by
    rw [List.mapM_cons]
    refine (h x (by simp)).bind fun y _ => ?_
    exact (Ends.mapM fun x' hx' => h x' (List.mem_cons_of_mem x hx')).bind fun ys _ => trivial

/-- **Loop rule**, for steps that are known for the items of the list. -/
theorem Ends.foldlM_of_mem {γ : Type*} {f : α → γ → Except ε α} {a : α} : ∀ {cs : List γ},
    (∀ a, ∀ c ∈ cs, Q a → Ends E (f a c) Q) → Q a → Ends E (cs.foldlM f a) Q
  | [], _, h => h
  | c :: cs, hf, h => by
    rw [List.foldlM_cons]
    exact (hf a c (by simp) h).bind fun b hb => Ends.foldlM_of_mem (fun a' c' hc' => hf a' c' (by simp [hc'])) hb

/-- **Loop rule.** -/
theorem Ends.foldlM {γ : Type*} {f : α → γ → Except ε α} (hf : ∀ a c, Q a → Ends E (f a c) Q) {cs : List γ} {a : α}
    (ha : Q a) : Ends E (cs.foldlM f a) Q :=
  Ends.foldlM_of_mem (fun a c _ => hf a c) ha

/-- **Loop rule**, for items with distinct keys: a step reads and writes what is looked up at the key of its item. -/
theorem Ends.foldlM_keyed {γ κ ν : Type*} (look : α → κ → ν) (key : γ → κ) {P : γ → ν → ν → Prop} {f : α → γ → Except ε α} :
    ∀ {cs : List γ} {a : α}, (cs.map key).Nodup →
      (∀ c ∈ cs, ∀ b, look b (key c) = look a (key c) → Ends E (f b c) fun b' =>
        P c (look a (key c)) (look b' (key c)) ∧ ∀ k, k ≠ key c → look b' k = look b k) →
      Ends E (cs.foldlM f a) fun b =>
        (∀ c ∈ cs, P c (look a (key c)) (look b (key c))) ∧ ∀ k, k ∉ cs.map key → look b k = look a k
  | [], a, _, _ => ⟨by simp, fun _ _ => rfl⟩
  | c :: cs, a, hnodup, hf => by
    rw [List.map_cons, List.nodup_cons] at hnodup
    rw [List.foldlM_cons]
    refine (hf c (by simp) a rfl).bind fun a₁ ⟨hc, hother⟩ => ?_
    have hkeep : ∀ c' ∈ cs, look a₁ (key c') = look a (key c') := fun c' hc' =>
      hother _ fun heq => hnodup.1 (heq ▸ mem_map_of_mem hc')
    refine (Ends.foldlM_keyed look key (P := P) hnodup.2 fun c' hc' b hb => ?_).mono fun b ⟨hcs, hrest⟩ =>
      ⟨fun c' hc' => ?_, fun k hk => ?_⟩
    · rw [hkeep c' hc'] at hb ⊢
      exact hf c' (mem_cons_of_mem _ hc') b hb
    · rcases mem_cons.mp hc' with rfl | hc'
      · rwa [hrest _ hnodup.1]
      · exact hkeep c' hc' ▸ hcs c' hc'
    · rw [map_cons, mem_cons, not_or] at hk
      exact (hrest k hk.2).trans (hother k hk.1)

theorem bind_eq_ok {b : β} : (x >>= f) = .ok b ↔ ∃ a, x = .ok a ∧ f a = .ok b := by
  cases x with
  | ok a => exact ⟨fun h => ⟨a, rfl, h⟩, fun ⟨_, ha, hb⟩ => ok.inj ha ▸ hb⟩
  | error e => exact ⟨(nomatch ·), fun ⟨_, ha, _⟩ => nomatch ha⟩

theorem toOption_eq_some_iff {a : α} : x.toOption = some a ↔ x = .ok a := by
  cases x <;> simp [Except.toOption]

theorem bind_eq_error {e : ε} (h : (x >>= f) = .error e) : x = .error e ∨ ∃ a, x = .ok a ∧ f a = .error e := by
  cases x with
  | ok a => exact .inr ⟨a, rfl, h⟩
  | error e' => exact .inl (congrArg error (error.inj h))

/-- A loop over a list succeeds exactly if every step does. -/
theorem mapM_eq_ok {α β : Type v} {f : α → Except ε β} : ∀ {xs : List α} {ys : List β},
    xs.mapM f = .ok ys ↔ List.Forall₂ (fun x y => f x = .ok y) xs ys
  | [], ys => by
    rw [List.mapM_nil, List.forall₂_nil_left_iff]
    exact ⟨fun h => (Except.ok.inj h).symm, fun h => h ▸ rfl⟩
  | x :: xs, ys => by
    rw [List.mapM_cons, bind_eq_ok]
    constructor
    · rintro ⟨y, hy, h⟩
      obtain ⟨ys', hys', h'⟩ := bind_eq_ok.mp h
      cases h'
      exact .cons hy (mapM_eq_ok.mp hys')
    · rintro (_ | ⟨hy, hys⟩)
      exact ⟨_, hy, bind_eq_ok.mpr ⟨_, mapM_eq_ok.mpr hys, rfl⟩⟩

theorem exists_of_mem_mapM {α β : Type v} {f : α → Except ε β} {xs : List α} {ys : List β} {y : β}
    (h : xs.mapM f = .ok ys) (hy : y ∈ ys) : ∃ x ∈ xs, f x = .ok y := by
  have h' := mapM_eq_ok.mp h
  clear h
  induction h' with
  | nil => simp at hy
  | @cons x y' xs ys hxy _ ih =>
    rcases mem_cons.mp hy with rfl | hy'
    · exact ⟨x, by simp, hxy⟩
    · obtain ⟨x', hx', h'⟩ := ih hy'
      exact ⟨x', mem_cons_of_mem x hx', h'⟩

theorem exists_of_mapM_mem {α β : Type v} {f : α → Except ε β} {xs : List α} {ys : List β} {x : α}
    (h : xs.mapM f = .ok ys) (hx : x ∈ xs) : ∃ y ∈ ys, f x = .ok y := by
  have h' := mapM_eq_ok.mp h
  clear h
  induction h' with
  | nil => simp at hx
  | @cons a b as bs hab _ ih =>
    rcases mem_cons.mp hx with rfl | hx
    · exact ⟨b, by simp, hab⟩
    · obtain ⟨y, hy, hfy⟩ := ih hx
      exact ⟨y, by simp [hy], hfy⟩

theorem exists_mapM_eq_ok : ∀ {xs : List α}, (∀ x ∈ xs, ∃ y, f x = .ok y) → ∃ ys, xs.mapM f = .ok ys
  | [], _ => ⟨[], rfl⟩
  | x :: xs, h => by
    obtain ⟨y, hy⟩ := h x (by simp)
    obtain ⟨ys, hys⟩ := exists_mapM_eq_ok fun x' hx' => h x' (mem_cons_of_mem x hx')
    exact ⟨y :: ys, by rw [mapM_cons, hy, hys]; rfl⟩

theorem forM_eq_ok {f : α → Except ε PUnit} : ∀ {xs : List α}, (∀ x ∈ xs, f x = .ok ⟨⟩) → xs.forM f = .ok ⟨⟩
  | [], _ => rfl
  | x :: xs, h => by
    show (f x >>= fun _ => xs.forM f) = .ok ⟨⟩
    rw [h x (by simp)]
    exact forM_eq_ok fun x' hx' => h x' (List.mem_cons_of_mem x hx')

/-- What a loop over a list does to a property of its elements and to a part `c` it leaves alone. -/
theorem mapM_forall {α γ : Type v} {f : α → Except ε α} {P Q : α → Prop} {c : α → γ} {xs ys : List α}
    (hstep : ∀ x y, P x → f x = .ok y → Q y ∧ c y = c x) (hP : ∀ x ∈ xs, P x) (h : xs.mapM f = .ok ys) :
    (∀ y ∈ ys, Q y) ∧ ys.map c = xs.map c := by
  have h' := mapM_eq_ok.mp h
  clear h
  induction h' with
  | nil => simp
  | @cons x y xs ys hxy _ ih =>
    obtain ⟨hQ, hc⟩ := hstep x y (hP x (by simp)) hxy
    obtain ⟨hQs, hcs⟩ := ih fun x' hx' => hP x' (mem_cons_of_mem x hx')
    exact ⟨by simpa using ⟨hQ, hQs⟩, by simp [hc, hcs]⟩

end Outcome
