/-
# Whom a signal wakes

`wake_on_cond` looks for processes that are `SLEEPING`, have the image of the caller and carry the
condition in `cond_addr`. A process sleeps in `sleep_on_cond`, which stores `cond_addr`, or in
`sleep`, which does not, and nothing ever clears the field. So a process that waited for the
condition some time ago, and now sleeps in another call, is woken as well.
-/

import Xv6.Proc.States

namespace Xv6

open Math

/-- The code of a process that sleeps: it has switched away in `sleep`, or in `sleep_on_cond` for
the condition `condAddr`. -/
structure Thread.Asleep (th : Thread) (condAddr : Int) : Prop where
  quiet : th.yielding = none
  place : (∃ chan lk, th.inner = some (.sleep .sched chan lk)) ∨
    ∃ mutex, th.inner = some (.sleepOnCond true condAddr mutex)

/-- The call is about to run `wake_on_cond` of this condition. -/
def Frame.wakesCond : Frame → Option Int
  | .wakeOnCond cond => some cond
  | .signaller .signal _ cond _ => some cond
  | _ => none

namespace Machine

variable {s t : Machine} {x : Act}

/-- In the action, `g` runs `wake_on_cond(cond)`. -/
def WakesCond (s : Machine) (x : Act) (g : ProcId) (cond : Int) : Prop :=
  ∃ c ans f, x = .step c ans ∧ s.InCall c g f ∧ f.wakesCond = some cond

/-- The process has the image, and is blocked in `sleep_on_cond` with the condition. -/
structure BlockedOnCond (s : Machine) (mem : Nat) (cond : Int) (p : ProcId) : Prop where
  asleep : (s.proc p).state = .SLEEPING
  image : (s.proc p).mem = mem
  condAddr : (s.proc p).condAddr = cond
  quiet : (s.thread p).yielding = none
  place : ∃ mutex, (s.thread p).inner = some (.sleepOnCond true cond mutex)

/-- The process has the image and is blocked in `sleep`, and its slot carries the condition from
an earlier wait. -/
structure LeftOnCond (s : Machine) (mem : Nat) (cond : Int) (p : ProcId) : Prop where
  asleep : (s.proc p).state = .SLEEPING
  image : (s.proc p).mem = mem
  condAddr : (s.proc p).condAddr = cond
  place : ∃ chan lk, (s.thread p).inner = some (.sleep .sched chan lk)

/-- If the action is `wake_on_cond`, it changes the state of waiters on the condition only. -/
def WakesWaiters (s : Machine) (x : Act) (t : Machine) : Prop :=
  ∀ g cond, s.WakesCond x g cond → ∀ p, (t.proc p).state ≠ (s.proc p).state →
    s.BlockedOnCond (s.proc g).mem cond p

/-- If the action is `wake_on_cond`, no process of the image sleeps elsewhere with the condition
in its slot. -/
def NoneLeft (s : Machine) (x : Act) : Prop :=
  ∀ g cond, s.WakesCond x g cond → ∀ p, ¬ s.LeftOnCond (s.proc g).mem cond p

/-- Where the processes are that sleep. -/
def Sleepers (s : Machine) : Prop :=
  ∀ p, (s.proc p).state = .SLEEPING → (s.thread p).Asleep (s.proc p).condAddr

theorem boot_sleepers (mem : Nat) (cond : Nat → Bool) (word : Nat → Int → Int) :
    (boot mem cond word).Sleepers := by
  intro p asleep
  by_cases h : p = 0
  · subst h
    cases asleep
  · simp only [boot, Function.update_of_ne h] at asleep
    cases asleep

theorem Sleepers.step (sleepers : s.Sleepers) (inv : s.Inv) (step : Step x s t) : t.Sleepers := by
  intro p asleep
  rcases (step.state inv p).sleeping asleep with
    hstate | ⟨c, ans, chan, lk, rfl, here, -⟩ | ⟨c, ans, cond, mutex, rfl, here⟩
  · -- it slept before, and only `sleep_on_cond` of the process itself stores the field
    rw [step.thread_of_idle inv (by simp [hstate]) (by simp [hstate])]
    rcases (step.row inv p).condAddr with h | ⟨_, _, _, _, _, here, _⟩
    · rw [h]
      exact sleepers p hstate
    · rw [inv.state_running here.here] at hstate
      cases hstate
  · rw [(runInner_effect (step.runInner inv here)).2, Function.update_self]
    exact ⟨here.quiet, .inl ⟨chan, lk, rfl⟩⟩
  · have heffect := runInner_effect (step.runInner inv here)
    have hproc : t.proc = s.proc.set p fun r => { r with condAddr := cond, state := .SLEEPING } :=
      congrArg Shared.proc heffect.1
    rw [heffect.2, Function.update_self, hproc, ProcTable.set_self]
    exact ⟨here.quiet, .inr ⟨mutex, rfl⟩⟩

/-- The table after `wake_on_cond`. -/
theorem WakesCond.proc_eq {g : ProcId} {cond : Int} (wakes : s.WakesCond x g cond) (inv : s.Inv)
    (step : Step x s t) : t.proc = s.proc.wakeOnCond (s.proc g).mem cond := by
  obtain ⟨c, ans, f, rfl, here, hf⟩ := wakes
  have hother : ∀ b np, f ≠ .fork b (.context np) := by
    rintro b np rfl
    cases hf
  have hshared := congrArg Shared.proc (runFrame_effect hother (step.runFrame inv here)).shared
  unfold Frame.wakesCond at hf
  split at hf
  · cases hf
    exact hshared
  · cases hf
    exact hshared
  · cases hf

/-- Whose state `wake_on_cond` changes. -/
theorem WakesCond.changes_iff {g p : ProcId} {cond : Int} (wakes : s.WakesCond x g cond)
    (inv : s.Inv) (step : Step x s t) :
    (t.proc p).state ≠ (s.proc p).state ↔ (s.proc p).state = .SLEEPING ∧
      (s.proc p).mem = (s.proc g).mem ∧ (s.proc p).condAddr = cond := by
  rw [wakes.proc_eq inv step, ProcTable.wakeOnCond, Proc.wakeIf]
  split
  next h =>
    obtain ⟨hasleep, hselected⟩ := h
    refine iff_of_true ?_ ⟨hasleep, of_decide_eq_true hselected⟩
    rw [hasleep]
    intro hstate
    cases hstate
  next h => exact iff_of_false (not_not.mpr rfl) fun h' => h ⟨h'.1, decide_eq_true h'.2⟩

/-- One action wakes waiters only, exactly if no process is left with the condition. -/
theorem Step.wakesWaiters_iff (step : Step x s t) (inv : s.Inv) (sleepers : s.Sleepers) :
    s.WakesWaiters x t ↔ s.NoneLeft x := by
  refine forall_congr' fun g => forall_congr' fun cond => forall_congr' fun wakes =>
    forall_congr' fun p => ?_
  rw [wakes.changes_iff inv step]
  constructor
  · rintro honly ⟨hasleep, himage, haddr, chan, lk, hplace⟩
    obtain ⟨mutex, hplace'⟩ := (honly ⟨hasleep, himage, haddr⟩).place
    cases hplace.symm.trans hplace'
  · rintro hnone ⟨hasleep, himage, haddr⟩
    obtain ⟨hquiet, hplace | hplace⟩ := sleepers p hasleep
    · exact absurd ⟨hasleep, himage, haddr, hplace⟩ hnone
    · exact ⟨hasleep, himage, haddr, hquiet, haddr ▸ hplace⟩

/-- In every run, every `wake_on_cond(c)` changes the state of processes only that are blocked in
`sleep_on_cond` with `c` in the address space of the caller, if and only if at none of them a
process of the address space was blocked in `sleep` with `c` left in `cond_addr`. -/
theorem wake_on_cond_wakes_waiters_iff {mem : Nat} {cond : Nat → Bool} {word : Nat → Int → Int}
    {as : List Act} :
    Run (fun x s t => Step x s t ∧ s.WakesWaiters x t) (boot mem cond word) as s ↔
      Run (fun x s t => Step x s t ∧ s.NoneLeft x) (boot mem cond word) as s := by
  have hstart : (boot mem cond word).Inv ∧ (boot mem cond word).Sleepers :=
    ⟨boot_inv mem cond word, boot_sleepers mem cond word⟩
  have hinv : ∀ {as s}, Run Step (boot mem cond word) as s → s.Inv ∧ s.Sleepers := fun run =>
    run.invariant (motive := fun _ s => s.Inv ∧ s.Sleepers) hstart fun _ _ _ _ ⟨inv, sleepers⟩ h =>
      ⟨inv.step h, sleepers.step inv h⟩
  constructor
  · intro run
    induction run with
    | start => exact .start
    | snoc hrun hstep ih =>
      obtain ⟨inv, sleepers⟩ := hinv (hrun.mono fun _ _ _ h => h.1)
      exact ih.snoc ⟨hstep.1, (hstep.1.wakesWaiters_iff inv sleepers).mp hstep.2⟩
  · intro run
    induction run with
    | start => exact .start
    | snoc hrun hstep ih =>
      obtain ⟨inv, sleepers⟩ := hinv (hrun.mono fun _ _ _ h => h.1)
      exact ih.snoc ⟨hstep.1, (hstep.1.wakesWaiters_iff inv sleepers).mpr hstep.2⟩

/-- A thread of init waits for the condition 16, is woken by a signal, and then sleeps in another
call. Another signal of 16 wakes it there. -/
theorem wake_on_cond_wakes_other_sleeper :
    ∃ as s x t, Run Step (boot 4096 (fun _ => false) fun _ _ => 0) as s ∧ Step x s t ∧
      s.WakesCond x 0 16 ∧ (s.thread 1).inner = some (.sleep .sched (.object 7) (.object 3)) ∧
      (t.proc 1).state ≠ (s.proc 1).state ∧ ¬ s.WakesWaiters x t := by
  let as : List Act := List.flatten [[.step 0 7, .step 0 0, .call 0 (.fork true)],
    List.replicate 8 (.step 0 1), [.step 1 150, .step 1 0],
    -- the thread waits for the condition, and init signals it
    [.call 1 (.sleepOnCond 16 24), .step 1 0, .step 1 0, .call 0 (.wakeOnCond 16), .step 0 0],
    [.step 1 150, .step 1 0, .step 1 0],
    -- the thread goes to sleep in another call
    [.call 1 (.waiter 5 7 (.object 3) false)], List.replicate 6 (.step 1 0),
    [.call 0 (.wakeOnCond 16)]]
  have hdone : ((execute act (boot 4096 (fun _ => false) fun _ _ => 0) as).bind fun s =>
      (s.act (.step 0 0)).map fun t => ((s.cpus 0).place, s.thread 0, (s.thread 1).inner,
        (s.proc 1).state, (t.proc 1).state)) =
      some (.process 0, ⟨some (.wakeOnCond 16), none, none, 0⟩,
        some (.sleep .sched (.object 7) (.object 3)), .SLEEPING, .RUNNABLE) := by decide +kernel
  obtain ⟨s, hs, hnext⟩ := Option.bind_eq_some_iff.mp hdone
  obtain ⟨t, ht, hstate⟩ := Option.map_eq_some_iff.mp hnext
  simp only [Prod.mk.injEq] at hstate
  obtain ⟨hplace, hcall, hinner, hasleep, hawake⟩ := hstate
  have hwakes : s.WakesCond (.step 0 0) 0 16 :=
    ⟨0, 0, .wakeOnCond 16, rfl, ⟨hplace, by rw [hcall], by rw [hcall], by rw [hcall]⟩, rfl⟩
  have hchanged : (t.proc 1).state ≠ (s.proc 1).state := by
    rw [hasleep, hawake]
    decide
  refine ⟨as, s, .step 0 0, t, Run.of_execute (fun _ _ _ h => h) hs, ht, hwakes, hinner, hchanged,
    fun honly => ?_⟩
  obtain ⟨mutex, hplace'⟩ := (honly 0 16 hwakes 1 hchanged).place
  cases hinner.symm.trans hplace'

end Machine

end Xv6
