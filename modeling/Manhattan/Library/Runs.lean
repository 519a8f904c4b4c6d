import Mathlib

/-! # Runs of a partial step function

A run is a list of steps, each of which may be impossible in the state it is to be taken in.
`Along` says that every step of a run meets a condition in the state before it; an invariant
that such steps keep holds at the end of the run.
-/

namespace Manhattan.Library.Runs

universe u v

variable {σ : Type u} {ι : Type v} (step : σ → ι → Option σ)

def run (s : σ) (steps : List ι) : Option σ := steps.foldlM step s

def Along (meets : σ → ι → Prop) : σ → List ι → Prop
  | _, [] => True
  | s, i :: steps => meets s i ∧ ∀ t, step s i = some t → Along meets t steps

variable {step} {meets : σ → ι → Prop} {s t : σ} {steps later : List ι} {i : ι}

theorem run_cons_eq_some :
    run step s (i :: steps) = some t ↔ ∃ next, step s i = some next ∧ run step next steps = some t :=
  Option.bind_eq_some_iff

theorem run_append_eq_some :
    run step s (steps ++ later) = some t ↔
      ∃ middle, run step s steps = some middle ∧ run step middle later = some t := by
  unfold run
  rw [List.foldlM_append]
  exact Option.bind_eq_some_iff

theorem along_true : Along step (fun _ _ => True) s steps := by
  induction steps generalizing s with
  | nil => trivial
  | cons i steps ih => exact ⟨trivial, fun _ _ => ih⟩

theorem Along.cons (hMeets : meets s i) (hStep : step s i = some t)
    (hRest : Along step meets t steps) : Along step meets s (i :: steps) := by
  refine ⟨hMeets, ?_⟩
  intro u hu
  obtain rfl := Option.some.inj (hStep.symm.trans hu)
  exact hRest

theorem Along.left (h : Along step meets s (steps ++ later)) : Along step meets s steps := by
  induction steps generalizing s with
  | nil => trivial
  | cons i steps ih =>
    obtain ⟨hMeets, hRest⟩ := h
    exact ⟨hMeets, fun t hStep => ih (hRest t hStep)⟩

theorem Along.right (h : Along step meets s (steps ++ later)) (hRun : run step s steps = some t) :
    Along step meets t later := by
  induction steps generalizing s with
  | nil =>
    obtain rfl := Option.some.inj hRun
    exact h
  | cons i steps ih =>
    obtain ⟨next, hStep, hRest⟩ := run_cons_eq_some.mp hRun
    exact ih (h.2 next hStep) hRest

theorem Along.keeps (invariant : σ → Prop)
    (hStep : ∀ s i t, invariant s → meets s i → step s i = some t → invariant t)
    (h : Along step meets s steps) (hStart : invariant s) (hRun : run step s steps = some t) :
    invariant t := by
  induction steps generalizing s with
  | nil =>
    obtain rfl := Option.some.inj hRun
    exact hStart
  | cons i steps ih =>
    obtain ⟨next, hFirst, hRest⟩ := run_cons_eq_some.mp hRun
    exact ih (h.2 next hFirst) (hStep s i next hStart h.1 hFirst) hRest

end Manhattan.Library.Runs
