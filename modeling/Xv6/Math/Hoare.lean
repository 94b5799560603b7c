/-
# Pre- and postconditions

Triples for computations that may stop. A triple has a postcondition for the runs that
return and names the reasons for which a run may stop instead.
-/

import Xv6.Math.Exec

namespace Xv6.Math

variable {ε σ α β γ : Type}

/-- From a state with `pre` the computation returns with `post`, or it stops for one of the
reasons `stops`. -/
def Ensures (pre : σ → Prop) (x : EStateM ε σ α) (post : α → σ → Prop) (stops : ε → Prop) :
    Prop :=
  ∀ s, pre s →
    match x.run s with
    | .ok a t => post a t
    | .error e _ => stops e

/-- The computation may stop for any reason. -/
def anyStop : ε → Prop := fun _ => True

variable {s t : σ} {e : ε} {f : α → EStateM ε σ β} {g : σ → σ} {c : Prop}

namespace Ensures

variable {pre : σ → Prop} {post : α → σ → Prop} {stops : ε → Prop} {x : EStateM ε σ α} {a : α}

/-- What a triple says about a run that returned. -/
theorem of_ok (triple : Ensures pre x post stops) (before : pre s)
    (run : x.run s = .ok a t) : post a t := by
  have h := triple s before
  rw [run] at h
  exact h

/-- A computation without a reason to stop returns. -/
theorem returns (triple : Ensures pre x post fun _ => False) (before : pre s) :
    ∃ a t, x.run s = .ok a t ∧ post a t := by
  have h := triple s before
  cases hrun : x.run s with
  | ok a t =>
    rw [hrun] at h
    exact ⟨a, t, rfl, h⟩
  | error e t =>
    rw [hrun] at h
    exact h.elim

/-- A triple that allows every stop speaks of the runs that return only. -/
theorem of_runs (holds : ∀ s a t, pre s → x.run s = .ok a t → post a t) :
    Ensures pre x post anyStop := by
  intro s hpre
  cases h : x.run s with
  | ok a t => exact holds s a t hpre h
  | error e t => trivial

/-- Return in the state that is known. -/
theorem ret (holds : post a s) : Ensures (fun t => t = s) (pure a : EStateM ε σ α) post stops := by
  rintro _ rfl
  exact holds

theorem pure (holds : ∀ s, pre s → post a s) :
    Ensures pre (pure a : EStateM ε σ α) post stops := holds

theorem throw (allowed : stops e) : Ensures pre (throw e : EStateM ε σ α) post stops :=
  fun _ _ => allowed

theorem modify {post : PUnit → σ → Prop} (holds : ∀ s, pre s → post ⟨⟩ (g s)) :
    Ensures pre (modify g : EStateM ε σ PUnit) post stops := holds

variable {mid post' : α → σ → Prop} {y : EStateM ε σ α} {stops' : ε → Prop}

/-- The rule of sequence. -/
theorem bind {post : β → σ → Prop}
    (first : Ensures pre x mid stops) (rest : ∀ a, Ensures (mid a) (f a) post stops) :
    Ensures pre (x >>= f) post stops := by
  intro s hpre
  have hfirst := first s hpre
  cases h : x.run s with
  | ok a t =>
    rw [h] at hfirst
    rw [run_bind_of_ok h]
    exact rest a t hfirst
  | error e t =>
    rw [h] at hfirst
    rw [run_bind_of_error h]
    exact hfirst

/-- Execute the first part on the state that is known. -/
theorem step {post : β → σ → Prop}
    (run : x.run s = .ok a t) (rest : Ensures (fun u => u = t) (f a) post stops) :
    Ensures (fun u => u = s) (x >>= f) post stops := by
  rintro _ rfl
  rw [run_bind_of_ok run]
  exact rest t rfl

/-- Only the run from the known state matters. -/
theorem of_run_eq (same : x.run s = y.run s)
    (triple : Ensures (fun u => u = s) y post stops) : Ensures (fun u => u = s) x post stops := by
  rintro _ rfl
  rw [same]
  exact triple _ rfl

/-- A triple may be proved state by state, and used at one state. -/
theorem of_pre (triple : ∀ s, pre s → Ensures (fun t => t = s) x post stops) :
    Ensures pre x post stops := fun s hpre => triple s hpre s rfl

/-- The rule of sequence, state by state. -/
theorem bindAt {post : β → σ → Prop} (first : Ensures pre x mid stops)
    (rest : ∀ a t, mid a t → Ensures (fun u => u = t) (f a) post stops) :
    Ensures pre (x >>= f) post stops := first.bind fun a => of_pre (rest a)

/-- Forget everything about the state but one property. -/
theorem of_holds (pre : σ → Prop) (holds : pre s) (triple : Ensures pre x post stops) :
    Ensures (fun t => t = s) x post stops := by
  rintro _ rfl
  exact triple _ holds

theorem ite [Decidable c]
    (hx : c → Ensures pre x post stops) (hy : ¬ c → Ensures pre y post stops) :
    Ensures pre (if c then x else y) post stops := by
  by_cases h : c
  · rw [if_pos h]
    exact hx h
  · rw [if_neg h]
    exact hy h

/-- The rule of consequence. -/
theorem mono {pre' : σ → Prop} (triple : Ensures pre x post stops) (before : ∀ s, pre' s → pre s)
    (after : ∀ a s, post a s → post' a s) (more : ∀ e, stops e → stops' e) :
    Ensures pre' x post' stops' := by
  intro s hpre
  have h := triple s (before s hpre)
  cases hrun : x.run s with
  | ok a t =>
    rw [hrun] at h
    exact after a t h
  | error e t =>
    rw [hrun] at h
    exact more e h

theorem weaken (triple : Ensures pre x post stops)
    (after : ∀ a s, post a s → post' a s) (more : ∀ e, stops e → stops' e) :
    Ensures pre x post' stops' := triple.mono (fun _ h => h) after more

end Ensures

/-- Runs that return keep `inv`, and runs that stop do so with a reason and in a state of
`stop`. -/
def StopsIn (inv : σ → Prop) (x : EStateM ε σ α) (stop : ε → σ → Prop) : Prop :=
  ∀ s, inv s →
    match x.run s with
    | .ok _ t => inv t
    | .error e t => stop e t

namespace StopsIn

variable {inv : σ → Prop} {stop : ε → σ → Prop} {x y : EStateM ε σ α}

theorem pure (a : α) : StopsIn inv (pure a : EStateM ε σ α) stop := fun _ h => h

theorem throw (allowed : ∀ s, inv s → stop e s) :
    StopsIn inv (throw e : EStateM ε σ α) stop := allowed

theorem modify (keeps : ∀ s, inv s → inv (g s)) :
    StopsIn inv (modify g : EStateM ε σ PUnit) stop := keeps

theorem ite [Decidable c] (hx : StopsIn inv x stop) (hy : StopsIn inv y stop) :
    StopsIn inv (if c then x else y) stop := by
  split
  · exact hx
  · exact hy

theorem bind (first : StopsIn inv x stop)
    (rest : ∀ a, StopsIn inv (f a) stop) : StopsIn inv (x >>= f) stop := by
  intro s hs
  have hfirst := first s hs
  cases h : x.run s with
  | ok a t =>
    rw [h] at hfirst
    rw [run_bind_of_ok h]
    exact rest a t hfirst
  | error e t =>
    rw [h] at hfirst
    rw [run_bind_of_error h]
    exact hfirst

/-- A first part that only looks at the state. -/
theorem look {look : σ → α} (reads : ∀ s, x.run s = .ok (look s) s)
    (rest : ∀ s, inv s → StopsIn inv (f (look s)) stop) : StopsIn inv (x >>= f) stop := by
  intro s hs
  rw [run_bind_of_ok (reads s)]
  exact rest s hs s hs

/-- What is known about a run that stopped. -/
theorem of_error (triple : StopsIn inv x stop) (before : inv s)
    (run : x.run s = .error e t) : stop e t := by
  have h := triple s before
  rw [run] at h
  exact h

end StopsIn

/-- Run a computation for every element of a list and put the results together. -/
def collect (step : α → EStateM ε σ (List β)) : List α → EStateM ε σ (List β)
  | [] => pure []
  | x :: xs => do
    let here ← step x
    let rest ← collect step xs
    pure (here ++ rest)

/-- The rule of loops that put results together; the invariant knows what is left and what was
put together so far. -/
theorem Ensures.collect {step : α → EStateM ε σ (List β)} {inv : List α → List β → σ → Prop}
    {stops : ε → Prop}
    (keeps : ∀ x xs acc, Ensures (inv (x :: xs) acc) (step x)
      (fun out => inv xs (acc ++ out)) stops)
    (xs : List α) (acc : List β) :
    Ensures (inv xs acc) (collect step xs) (fun out => inv [] (acc ++ out)) stops := by
  induction xs generalizing acc with
  | nil =>
    refine Ensures.pure fun s h => ?_
    rwa [List.append_nil]
  | cons x xs ih =>
    refine (keeps x xs acc).bind fun here => (ih (acc ++ here)).bind fun rest => ?_
    refine Ensures.pure fun s h => ?_
    rwa [← List.append_assoc]

/-- A result that is not used may be dropped at once. -/
theorem discard_bind {x : EStateM ε σ α} {y : EStateM ε σ PUnit}
    (same : (x >>= fun _ => pure PUnit.unit) = y) (rest : EStateM ε σ β) :
    (x >>= fun _ => rest) = (y >>= fun _ => rest) := by
  rw [← same, bind_assoc]
  simp only [pure_bind]

/-- Without the results it is a plain loop. -/
theorem collect_forM {step : α → EStateM ε σ (List β)} {plain : α → EStateM ε σ PUnit}
    (same : ∀ x, (step x >>= fun _ => pure PUnit.unit) = plain x) (xs : List α) :
    (collect step xs >>= fun _ => pure PUnit.unit) = xs.forM plain := by
  induction xs with
  | nil => rfl
  | cons x xs ih =>
    have hcons : (x :: xs).forM plain = (plain x >>= fun _ => xs.forM plain) := rfl
    rw [hcons, ← same x, ← ih, collect]
    simp only [bind_assoc, pure_bind]

end Xv6.Math
