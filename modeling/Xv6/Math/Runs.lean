/-
# Labelled runs

Finite runs of a labelled transition system, grown at the end, and the rule by
which an invariant of single steps becomes a property of every state reached.
-/

import Mathlib

namespace Xv6.Math

variable {σ α : Type}

/-- `Run step s₀ cs s`: from `s₀` the labels `cs` lead to `s`. -/
inductive Run (step : α → σ → σ → Prop) (s₀ : σ) : List α → σ → Prop
  | start : Run step s₀ [] s₀
  | snoc {cs : List α} {c : α} {s t : σ} :
      Run step s₀ cs s → step c s t → Run step s₀ (cs ++ [c]) t

namespace Run

variable {step : α → σ → σ → Prop} {s₀ s : σ} {cs : List α}

/-- What holds at the start and is kept by every step holds all along. -/
theorem invariant {motive : List α → σ → Prop} (start : motive [] s₀)
    (keeps : ∀ cs c s t, motive cs s → step c s t → motive (cs ++ [c]) t)
    (run : Run step s₀ cs s) : motive cs s := by
  induction run with
  | start => exact start
  | snoc _ hstep ih => exact keeps _ _ _ _ ih hstep

/-- A step in front of a run gives a run. -/
theorem cons {c : α} {s₁ : σ} (first : step c s₀ s₁) (rest : Run step s₁ cs s) :
    Run step s₀ (c :: cs) s := by
  induction rest with
  | start => exact Run.snoc Run.start first
  | snoc _ hstep ih => exact ih.snoc hstep

/-- A run stays a run when its steps are weakened. -/
theorem mono {step' : α → σ → σ → Prop} (weaker : ∀ c s t, step c s t → step' c s t)
    (run : Run step s₀ cs s) : Run step' s₀ cs s := by
  induction run with
  | start => exact Run.start
  | snoc _ hstep ih => exact ih.snoc (weaker _ _ _ hstep)

end Run

/-- The state after a list of labels, if every label can be taken. -/
def execute (act : σ → α → Option σ) : σ → List α → Option σ
  | s, [] => some s
  | s, c :: cs => (act s c).bind fun t => execute act t cs

variable {act : σ → α → Option σ} {step : α → σ → σ → Prop} {s₀ s : σ} {cs : List α}

/-- An execution is a run, when its labels stand for steps. -/
theorem Run.of_execute_mem (sound : ∀ c ∈ cs, ∀ s t, act s c = some t → step c s t)
    (done : execute act s₀ cs = some s) : Run step s₀ cs s := by
  induction cs generalizing s₀ with
  | nil =>
    obtain rfl := Option.some.inj done
    exact Run.start
  | cons c cs ih =>
    obtain ⟨hfirst, hrest⟩ := List.forall_mem_cons.mp sound
    obtain ⟨t, hact, hdone⟩ := Option.bind_eq_some_iff.mp done
    exact Run.cons (hfirst s₀ t hact) (ih hrest hdone)

theorem Run.of_execute
    (sound : ∀ c s t, act s c = some t → step c s t) (done : execute act s₀ cs = some s) :
    Run step s₀ cs s :=
  Run.of_execute_mem (fun c _ => sound c) done

end Xv6.Math
