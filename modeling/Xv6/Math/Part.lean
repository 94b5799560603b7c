/-
# Computations on a part of the state

A computation can be run on one part of a larger state, and a computation on a larger state
can be seen through a projection of it. If what is seen is itself a computation, triples about
that one hold for the larger one.
-/

import Xv6.Math.Hoare

namespace Xv6.Math

open EStateM (Result)

variable {ε δ σ τ ρ α β γ : Type}

/-! ### Running on a part -/

/-- Run a computation on a part of the state; `wrap` turns its reasons to stop into reasons of
the larger computation. -/
def zoom (part : σ → τ) (put : σ → τ → σ) (wrap : ε → δ) (x : EStateM ε τ α) : EStateM δ σ α :=
  fun s =>
    match x.run (part s) with
    | .ok a t => .ok a (put s t)
    | .error e t => .error (wrap e) (put s t)

variable {s : σ} {t : τ} {a : α}

section Zoom

variable {part : σ → τ} {put : σ → τ → σ} {wrap : ε → δ} {x : EStateM ε τ α}

theorem zoom_run_of_ok (run : x.run (part s) = .ok a t) :
    (zoom part put wrap x).run s = .ok a (put s t) := by
  change (match x.run (part s) with
    | .ok a t => Result.ok a (put s t)
    | .error e t => Result.error (wrap e) (put s t)) = _
  rw [run]

theorem zoom_run_of_error {e : ε} (run : x.run (part s) = .error e t) :
    (zoom part put wrap x).run s = .error (wrap e) (put s t) := by
  change (match x.run (part s) with
    | .ok a t => Result.ok a (put s t)
    | .error e t => Result.error (wrap e) (put s t)) = _
  rw [run]

theorem zoom_run_eq_ok {u : σ} (run : (zoom part put wrap x).run s = .ok a u) :
    ∃ t, x.run (part s) = .ok a t ∧ u = put s t := by
  cases h : x.run (part s) with
  | ok b t =>
    rw [zoom_run_of_ok h] at run
    cases run
    exact ⟨t, rfl, rfl⟩
  | error e t =>
    rw [zoom_run_of_error h] at run
    cases run

/-- What the part does not show is kept. -/
theorem keeps_zoom {obs : σ → γ} (frame : ∀ s t, obs (put s t) = obs s) :
    Keeps obs (zoom part put wrap x) := by
  intro s
  cases h : x.run (part s) with
  | ok a t =>
    rw [zoom_run_of_ok h]
    exact frame s t
  | error e t =>
    rw [zoom_run_of_error h]
    exact frame s t

end Zoom

/-! ### Looking at a part -/

/-- A result, seen through a projection of the state. -/
def projected (π : σ → τ) : Result ε σ α → Result ε τ α
  | .ok a s => .ok a (π s)
  | .error e s => .error e (π s)

/-- Seen through the projection `π`, the computation `x` is the computation `y`. -/
def Projects (π : σ → τ) (x : EStateM ε σ α) (y : EStateM ε τ α) : Prop :=
  ∀ s, projected π (x.run s) = y.run (π s)

namespace Projects

variable {π : σ → τ} {x : EStateM ε σ α} {y : EStateM ε τ α}

theorem pure (a : α) : Projects π (pure a : EStateM ε σ α) (pure a) := fun _ => rfl

theorem throw (e : ε) : Projects π (throw e : EStateM ε σ α) (throw e) := fun _ => rfl

/-- A change outside of what is seen. -/
theorem modify {g : σ → σ} (unseen : ∀ s, π (g s) = π s) :
    Projects π (modify g : EStateM ε σ PUnit) (Pure.pure ⟨⟩) := fun s =>
  congrArg (Result.ok PUnit.unit) (unseen s)

theorem zoom {put : σ → τ → σ} (π_put : ∀ s t, π (put s t) = t) (y : EStateM ε τ α) :
    Projects π (zoom π put id y) y := by
  intro s
  cases h : y.run (π s) with
  | ok a t =>
    rw [zoom_run_of_ok h]
    exact congrArg (Result.ok a) (π_put s t)
  | error e t =>
    rw [zoom_run_of_error h]
    exact congrArg (Result.error e) (π_put s t)

/-- What is seen to return does return. -/
theorem run_ok (projects : Projects π x y) (run : y.run (π s) = .ok a t) :
    ∃ u, x.run s = .ok a u ∧ π u = t := by
  have h := projects s
  rw [run] at h
  cases hrun : x.run s with
  | ok b u =>
    rw [hrun] at h
    obtain ⟨rfl, hu⟩ := Result.ok.inj (show Result.ok b (π u) = Result.ok a t from h)
    exact ⟨u, rfl, hu⟩
  | error e u =>
    rw [hrun] at h
    cases h

variable {f : α → EStateM ε σ β}

theorem bind {g : α → EStateM ε τ β} (first : Projects π x y)
    (rest : ∀ a, Projects π (f a) (g a)) : Projects π (x >>= f) (y >>= g) := by
  intro s
  have hfirst := first s
  cases h : x.run s with
  | ok a t =>
    rw [h] at hfirst
    rw [run_bind_of_ok h, run_bind_of_ok hfirst.symm]
    exact rest a t
  | error e t =>
    rw [h] at hfirst
    rw [run_bind_of_error h, run_bind_of_error hfirst.symm]
    rfl

/-- A part that is not seen at all. -/
theorem silent {y : EStateM ε τ β}
    (first : Projects π x (Pure.pure a)) (rest : Projects π (f a) y) : Projects π (x >>= f) y := by
  intro s
  have hfirst := first s
  cases hrun : x.run s with
  | ok b t =>
    rw [hrun] at hfirst
    obtain ⟨hb, hπ⟩ := Result.ok.inj (show Result.ok b (π t) = Result.ok a (π s) from hfirst)
    rw [run_bind_of_ok hrun, hb, rest t, hπ]
  | error e t =>
    rw [hrun] at hfirst
    cases hfirst

theorem ite {c : Prop} [Decidable c] {x' : EStateM ε σ α} {y' : EStateM ε τ α}
    (hx : Projects π x y) (hy : Projects π x' y') :
    Projects π (if c then x else x') (if c then y else y') := by
  split
  · exact hx
  · exact hy

theorem forM {step : β → EStateM ε σ PUnit} {step' : β → EStateM ε τ PUnit}
    (each : ∀ b, Projects π (step b) (step' b)) (bs : List β) :
    Projects π (bs.forM step) (bs.forM step') := by
  induction bs with
  | nil => exact pure _
  | cons b bs ih => exact bind (each b) fun _ => ih

/-- Triples carry over to the larger computation. -/
theorem ensures {pre : τ → Prop} {post : α → τ → Prop} {stops : ε → Prop}
    (projects : Projects π x y) (triple : Ensures pre y post stops) :
    Ensures (fun s => pre (π s)) x (fun a s => post a (π s)) stops := by
  intro s hpre
  have h := triple (π s) hpre
  rw [← projects s] at h
  cases hrun : x.run s with
  | ok _ _ | error _ _ =>
    rw [hrun] at h
    exact h

end Projects

end Xv6.Math
