/-
# Runs of a transition function

A system is a partial function `step : σ → ℓ → Option σ`: the label says
which step is taken and carries every choice the environment makes, and
`none` says that the step is not enabled. A run is a list of labels.
-/
import Mathlib.Tactic.Common

namespace Runs

open Option

variable {σ ℓ : Type*} (step : σ → ℓ → Option σ)

/-- The state after the steps `ls`, or `none` if one of them is not enabled. -/
def run : σ → List ℓ → Option σ
  | s, [] => some s
  | s, l :: ls => (step s l).bind fun s' => run s' ls

/-- Every step of the run meets `C` in the state it starts from. -/
def Meets (C : σ → ℓ → Prop) : σ → List ℓ → Prop
  | _, [] => True
  | s, l :: ls => C s l ∧ ∀ s' ∈ step s l, Meets C s' ls

instance Meets.decidable (C : σ → ℓ → Prop) [∀ s l, Decidable (C s l)] :
    ∀ s ls, Decidable (Meets step C s ls)
  | _, [] => .isTrue trivial
  | s, l :: ls =>
    have : ∀ s', Decidable (Meets step C s' ls) := fun s' => Meets.decidable C s' ls
    inferInstanceAs (Decidable (_ ∧ ∀ s' ∈ step s l, Meets step C s' ls))

variable {step}

@[simp] theorem run_nil (s : σ) : run step s [] = some s := rfl

theorem run_cons_eq_some {s s' : σ} {l : ℓ} {ls : List ℓ} :
    run step s (l :: ls) = some s' ↔ ∃ m, step s l = some m ∧ run step m ls = some s' := by
  simp only [run, bind_eq_some_iff]

theorem of_guard {p : Prop} [Decidable p] {s s' : σ} (h : (if p then some s else none) = some s') : p ∧ s = s' := by
  simpa only [ite_none_right_eq_some, some.injEq] using h

variable {C : σ → ℓ → Prop} {I : σ → Prop}

theorem Meets.and {D : σ → ℓ → Prop} : ∀ {ls : List ℓ} {s : σ}, Meets step C s ls → Meets step D s ls →
    Meets step (fun s l => C s l ∧ D s l) s ls
  | [], _, _, _ => trivial
  | _ :: _, _, hC, hD => ⟨⟨hC.1, hD.1⟩, fun s' hs' => (hC.2 s' hs').and (hD.2 s' hs')⟩

theorem Meets.imp {D : σ → ℓ → Prop} (hCD : ∀ s l, C s l → D s l) : ∀ {ls : List ℓ} {s : σ}, Meets step C s ls →
    Meets step D s ls
  | [], _, _ => trivial
  | _ :: _, _, hC => ⟨hCD _ _ hC.1, fun s' hs' => (hC.2 s' hs').imp hCD⟩

/-- A condition that follows from another one in the states of a run. -/
theorem Meets.imp_of_invariant {D : σ → ℓ → Prop} (hstep : ∀ s l s', I s → step s l = some s' → I s')
    (hCD : ∀ s l, I s → C s l → D s l) : ∀ {ls : List ℓ} {s : σ}, I s → Meets step C s ls → Meets step D s ls
  | [], _, _, _ => trivial
  | l :: _, s, hI, hC => ⟨hCD _ _ hI hC.1, fun s' hs' => (hC.2 s' hs').imp_of_invariant hstep hCD (hstep s l s' hI hs')⟩

theorem meets_of_forall {D : ℓ → Prop} : ∀ {ls : List ℓ} {s : σ}, (∀ l ∈ ls, D l) → Meets step (fun _ l => D l) s ls
  | [], _, _ => trivial
  | l :: ls, _, h => ⟨h l (by simp), fun _ _ => meets_of_forall fun l' hl' => h l' (List.mem_cons_of_mem _ hl')⟩

/-- **Invariance under a condition.** An invariant kept by the steps that meet `C` holds after
every run whose steps meet `C`. -/
theorem run_invariant_of_meets (hstep : ∀ s l s', I s → C s l → step s l = some s' → I s') :
    ∀ {ls : List ℓ} {s s' : σ}, I s → Meets step C s ls → run step s ls = some s' → I s'
  | [], s, s', hI, _, h => by
    cases h
    exact hI
  | l :: ls, s, s', hI, hC, h => by
    obtain ⟨m, hm, h'⟩ := run_cons_eq_some.mp h
    exact run_invariant_of_meets hstep (hstep s l m hI hC.1 hm) (hC.2 m hm) h'

/-- **Totality under a condition.** If the invariant and the condition enable every step, the run
goes through. -/
theorem exists_run_of_meets (hstep : ∀ s l, I s → C s l → ∃ s', step s l = some s' ∧ I s') :
    ∀ {ls : List ℓ} {s : σ}, I s → Meets step C s ls → ∃ s', run step s ls = some s' ∧ I s'
  | [], s, hI, _ => ⟨s, rfl, hI⟩
  | l :: ls, s, hI, hC => by
    obtain ⟨m, hm, hIm⟩ := hstep s l hI hC.1
    obtain ⟨s', hs', hI'⟩ := exists_run_of_meets hstep hIm (hC.2 m hm)
    exact ⟨s', run_cons_eq_some.mpr ⟨m, hm, hs'⟩, hI'⟩

/-- **Invariance.** -/
theorem run_invariant (hstep : ∀ s l s', I s → step s l = some s' → I s')
    {ls : List ℓ} {s s' : σ} (hI : I s) (h : run step s ls = some s') : I s' := by
  induction ls generalizing s with
  | nil =>
    cases h
    exact hI
  | cons l ls ih =>
    obtain ⟨m, hm, h'⟩ := run_cons_eq_some.mp h
    exact ih (hstep s l m hI hm) h'

end Runs
