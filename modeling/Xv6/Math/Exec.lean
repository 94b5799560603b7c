/-
# Stateful computations that may stop

Kernel code is modelled as a computation over an explicit state that either
returns a value or stops for a reason (a panic, a wait that nobody ends, a wild
pointer). Both outcomes keep the state reached, because a disk survives a stopped
machine. The computations are the core library's `EStateM`; this file adds the
equations by which they are executed symbolically and inverted, and the rules for
running a list of steps.
-/

import Mathlib

namespace Xv6.Math

open EStateM (Result)

variable {ε σ α β : Type}

/-- The state in which a computation ended, whether it returned or stopped. -/
def endState : Result ε σ α → σ
  | .ok _ s => s
  | .error _ s => s

@[simp] theorem endState_ok (a : α) (s : σ) : endState (.ok a s : Result ε σ α) = s := rfl

@[simp] theorem endState_error (e : ε) (s : σ) :
    endState (.error e s : Result ε σ α) = s := rfl

/-- Whether a computation returned. -/
def returned : Result ε σ α → Bool
  | .ok _ _ => true
  | .error _ _ => false

theorem eq_ok_of_returned {r : Result ε σ Unit} (h : returned r = true) :
    r = .ok () (endState r) := by
  cases r with
  | ok => rfl
  | error => cases h

/-- Whether a computation returned a value in a state that pass the test. -/
def returnedWith (test : α → σ → Bool) : Result ε σ α → Bool
  | .ok a s => test a s
  | .error _ _ => false

theorem exists_of_returnedWith {test : α → σ → Bool} {r : Result ε σ α}
    (h : returnedWith test r = true) : ∃ a s, r = .ok a s ∧ test a s = true := by
  cases r with
  | ok a s => exact ⟨a, s, rfl, h⟩
  | error => cases h

/-- Whether a computation stopped with an error in a state that pass the test. -/
def stoppedWith (test : ε → σ → Bool) : Result ε σ α → Bool
  | .ok _ _ => false
  | .error e s => test e s

theorem exists_of_stoppedWith {test : ε → σ → Bool} {r : Result ε σ α}
    (h : stoppedWith test r = true) : ∃ e s, r = .error e s ∧ test e s = true := by
  cases r with
  | ok => cases h
  | error e s => exact ⟨e, s, rfl, h⟩

section Equations

variable {x : EStateM ε σ α} {f : α → EStateM ε σ β} {s s' : σ} {a : α} {b : β} {e : ε}

theorem run_bind_of_ok (h : x.run s = .ok a s') : (x >>= f).run s = (f a).run s' := by
  rw [EStateM.run_bind, h]

theorem run_bind_of_error (h : x.run s = .error e s') : (x >>= f).run s = .error e s' := by
  rw [EStateM.run_bind, h]

/-- A sequence returns exactly when its first part returns and the rest then does. -/
theorem run_bind_eq_ok_iff :
    (x >>= f).run s = .ok b s' ↔ ∃ a t, x.run s = .ok a t ∧ (f a).run t = .ok b s' := by
  cases h : x.run s with
  | ok a t =>
    rw [run_bind_of_ok h]
    constructor
    · exact fun hf => ⟨a, t, rfl, hf⟩
    · rintro ⟨a', t', hx, hf⟩
      cases hx
      exact hf
  | error e t =>
    rw [run_bind_of_error h]
    constructor
    · intro hf
      cases hf
    · rintro ⟨a', t', hx, -⟩
      cases hx

/-- A sequence stops exactly when its first part stops, or returns and the rest stops. -/
theorem run_bind_eq_error_iff :
    (x >>= f).run s = .error e s' ↔
      x.run s = .error e s' ∨ ∃ a t, x.run s = .ok a t ∧ (f a).run t = .error e s' := by
  cases h : x.run s with
  | ok a t =>
    rw [run_bind_of_ok h]
    constructor
    · exact fun hf => Or.inr ⟨a, t, rfl, hf⟩
    · rintro (hx | ⟨a', t', hx, hf⟩)
      · cases hx
      · cases hx
        exact hf
  | error e t =>
    rw [run_bind_of_error h]
    constructor
    · intro hf
      cases hf
      exact Or.inl rfl
    · rintro (hx | ⟨a', t', hx, -⟩)
      · cases hx
        rfl
      · cases hx

theorem run_get_bind (f : σ → EStateM ε σ β) (s : σ) : (get >>= f).run s = (f s).run s := rfl

theorem run_modify_bind (g : σ → σ) (f : PUnit → EStateM ε σ β) (s : σ) :
    (modify g >>= f).run s = (f ⟨⟩).run (g s) := rfl

@[simp] theorem run_throw (e : ε) (s : σ) :
    (throw e : EStateM ε σ α).run s = .error e s := rfl

@[simp] theorem run_map_modify (g : σ → σ) (f : PUnit → β) (s : σ) :
    (f <$> (modify g : EStateM ε σ PUnit)).run s = .ok (f ⟨⟩) (g s) := rfl

@[simp] theorem run_ite (c : Prop) [Decidable c] (x y : EStateM ε σ α) (s : σ) :
    (if c then x else y).run s = if c then x.run s else y.run s := by
  split <;> rfl

end Equations

section Loops

variable {s s' : σ}

@[simp] theorem run_forM_nil (step : α → EStateM ε σ PUnit) (s : σ) :
    (List.forM [] step).run s = .ok ⟨⟩ s := rfl

theorem run_forM_cons (x : α) (xs : List α) (step : α → EStateM ε σ PUnit) (s : σ) :
    ((x :: xs).forM step).run s = (step x >>= fun _ => xs.forM step).run s := rfl

end Loops

/-! ### Observations that a computation keeps, however it ends -/

/-- The computation does not change what is observed, whether it returns or stops. -/
def Keeps (obs : σ → β) (x : EStateM ε σ α) : Prop := ∀ s, obs (endState (x.run s)) = obs s

variable {x : EStateM ε σ α} {f : α → EStateM ε σ β}

namespace Keeps

variable {γ : Type} {obs : σ → γ}

theorem pure (a : α) : Keeps obs (pure a : EStateM ε σ α) := fun _ => rfl

theorem throw (e : ε) : Keeps obs (throw e : EStateM ε σ α) := fun _ => rfl

theorem get : Keeps obs (get : EStateM ε σ σ) := fun _ => rfl

theorem modify {g : σ → σ} (same : ∀ s, obs (g s) = obs s) :
    Keeps obs (modify g : EStateM ε σ PUnit) := same

theorem comp {δ : Type} (keeps : Keeps obs x) (g : γ → δ) :
    Keeps (fun s => g (obs s)) x := fun s => congrArg g (keeps s)

theorem bind (first : Keeps obs x) (rest : ∀ a, Keeps obs (f a)) : Keeps obs (x >>= f) := by
  intro s
  have hx := first s
  cases h : x.run s with
  | ok a t =>
    rw [h, endState_ok] at hx
    rw [run_bind_of_ok h, rest a t, hx]
  | error e t =>
    rw [h] at hx
    rw [run_bind_of_error h]
    exact hx

theorem ite {c : Prop} [Decidable c] {y : EStateM ε σ α} (hx : Keeps obs x) (hy : Keeps obs y) :
    Keeps obs (if c then x else y) := by
  split
  · exact hx
  · exact hy

theorem forM {step : α → EStateM ε σ PUnit} (keeps : ∀ x, Keeps obs (step x)) (xs : List α) :
    Keeps obs (xs.forM step) := by
  induction xs with
  | nil => exact pure _
  | cons x xs ih => exact bind (keeps x) fun _ => ih

theorem mapM {step : α → EStateM ε σ β} (keeps : ∀ x, Keeps obs (step x)) (xs : List α) :
    Keeps obs (xs.mapM step) := by
  induction xs with
  | nil => exact pure _
  | cons x xs ih =>
    rw [List.mapM_cons]
    exact bind (keeps x) fun _ => bind ih fun _ => pure _

/-- What is observed after a computation that returns is what was observed before it. -/
theorem of_ok {a : α} {s t : σ} (keeps : Keeps obs x)
    (run : x.run s = .ok a t) : obs t = obs s := by
  have hs := keeps s
  rw [run] at hs
  exact hs

end Keeps

/-! ### Relations between the states before and after -/

/-- However the computation ends, the state before it and the state after it are related. -/
def Evolves (rel : σ → σ → Prop) (x : EStateM ε σ α) : Prop := ∀ s, rel s (endState (x.run s))

namespace Evolves

variable {rel rel' : σ → σ → Prop}

theorem modify {g : σ → σ} (related : ∀ s, rel s (g s)) :
    Evolves rel (modify g : EStateM ε σ PUnit) := related

theorem ite {c : Prop} [Decidable c] {y : EStateM ε σ α} (hx : c → Evolves rel x)
    (hy : ¬ c → Evolves rel y) : Evolves rel (if c then x else y) := by
  by_cases h : c
  · rw [if_pos h]
    exact hx h
  · rw [if_neg h]
    exact hy h

variable [IsPreorder σ rel]

theorem pure (a : α) : Evolves rel (pure a : EStateM ε σ α) := fun s => refl_of rel s

theorem throw (e : ε) : Evolves rel (throw e : EStateM ε σ α) := fun s => refl_of rel s

theorem get : Evolves rel (get : EStateM ε σ σ) := fun s => refl_of rel s

/-- The rule for a sequence, from one state. -/
theorem bind_at {s : σ} (first : rel s (endState (x.run s)))
    (rest : ∀ a t, x.run s = .ok a t → rel t (endState ((f a).run t))) :
    rel s (endState ((x >>= f).run s)) := by
  cases h : x.run s with
  | ok a t =>
    rw [h, endState_ok] at first
    rw [run_bind_of_ok h]
    exact trans_of rel first (rest a t h)
  | error e t =>
    rw [h] at first
    rw [run_bind_of_error h]
    exact first

theorem bind (first : Evolves rel x) (rest : ∀ a, Evolves rel (f a)) : Evolves rel (x >>= f) :=
  fun s => bind_at (first s) fun a t _ => rest a t

end Evolves

end Xv6.Math
