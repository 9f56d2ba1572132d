import Mathlib.Logic.Basic

/-! # Runs of a labelled step relation

A run keeps the transitions it takes, so that what holds of every step of a run can be said of their list.
-/

variable {σ ℓ : Type}

/-- A run from state to state with its transitions, first to last. -/
inductive Run (step : σ → ℓ → σ → Prop) : σ → List (σ × ℓ × σ) → σ → Prop
  | nil (s : σ) : Run step s [] s
  | cons {s s' t : σ} {l : ℓ} {ts : List (σ × ℓ × σ)} :
      step s l s' → Run step s' ts t → Run step s ((s, l, s') :: ts) t

namespace Run

variable {step : σ → ℓ → σ → Prop} {s t : σ} {ts : List (σ × ℓ × σ)}

/-- A run with one more step. -/
theorem snoc {t' : σ} {l : ℓ} (run : Run step s ts t) (last : step t l t') : Run step s (ts ++ [(t, l, t')]) t' := by
  induction run with
  | nil s => exact .cons last (.nil t')
  | cons first rest ih => exact .cons first (ih last)

/-- Every transition of a run is a step. -/
theorem step_of_mem (run : Run step s ts t) {u : σ × ℓ × σ} (mem : u ∈ ts) : step u.1 u.2.1 u.2.2 := by
  induction run with
  | nil s => cases mem
  | cons first rest ih =>
    rcases List.mem_cons.mp mem with rfl | mem
    · exact first
    · exact ih mem

/-- What every transition of a run keeps, the run keeps. -/
theorem keeps {P : σ → Prop} (run : Run step s ts t)
    (kept : ∀ u ∈ ts, step u.1 u.2.1 u.2.2 → P u.1 → P u.2.2) (start : P s) : P t := by
  induction run with
  | nil s => exact start
  | cons first rest ih =>
    obtain ⟨head, tail⟩ := List.forall_mem_cons.mp kept
    exact ih tail (head first start)

/-- Conditions that agree on every step agree on every run. -/
theorem forall_iff {P Q : σ × ℓ × σ → Prop} (agree : ∀ {s l s'}, step s l s' → (P (s, l, s') ↔ Q (s, l, s')))
    (run : Run step s ts t) : (∀ u ∈ ts, P u) ↔ ∀ u ∈ ts, Q u :=
  forall₂_congr fun _ mem => agree (run.step_of_mem mem)

end Run
