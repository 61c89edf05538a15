import Mathlib.Tactic

/-!
Runs of a labelled transition relation, with the two induction rules that are
used for them: an invariant of the steps is one of the run, and a simulation of
the steps by a function is one of the run.
-/

namespace Kyuzen

/-- A run of `step` that performs the labels of a list in order. -/
inductive Run {σ α : Type} (step : σ → α → σ → Prop) : σ → List α → σ → Prop where
  | nil (s : σ) : Run step s [] s
  | cons {s s' s'' : σ} {a : α} {as : List α} (h : step s a s') (rest : Run step s' as s'') :
      Run step s (a :: as) s''

namespace Run

variable {σ τ α : Type} {step : σ → α → σ → Prop}

theorem invariant {I : σ → Prop} (hstep : ∀ s a s', I s → step s a s' → I s') {s s' : σ}
    {as : List α} (h : Run step s as s') (hs : I s) : I s' := by
  induction h with
  | nil s => exact hs
  | cons hfirst _ ih => exact ih (hstep _ _ _ hs hfirst)

/-- If each step moves `R`-related states along `f`, so does a run. -/
theorem simulation {R : σ → τ → Prop} {f : τ → α → τ}
    (hstep : ∀ s t a s', R s t → step s a s' → R s' (f t a)) {s s' : σ} {t : τ} {as : List α}
    (h : Run step s as s') (hs : R s t) : R s' (as.foldl f t) := by
  induction h generalizing t with
  | nil s => exact hs
  | cons hfirst _ ih => exact ih (hstep _ _ _ _ hs hfirst)

theorem foldl {f : σ → α → σ} {as : List α} (h : ∀ a ∈ as, ∀ s, step s a (f s a)) (s : σ) :
    Run step s as (as.foldl f s) := by
  induction as generalizing s with
  | nil => exact .nil s
  | cons a as ih =>
    exact .cons (h a (.head _) s) (ih (fun b hb => h b (.tail _ hb)) _)

end Run

end Kyuzen
