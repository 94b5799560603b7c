/-
# The flag `killed`

`kill` sets the flag in the first slot with the given pid, whatever the state of that slot;
only `exit` clears it. This file says when a slot that `allocproc` takes has the flag clear.
-/

import Xv6.Proc.Parents

namespace Xv6

open Math

namespace Machine

variable {s t : Machine} {a : Act} {p : ProcId}

/-- Whenever `kill` runs its scan, the slot that it finds is in use and its process has not
exited; and a `fork` gives up only a slot that nobody has killed. -/
structure KillsLive (s : Machine) (a : Act) : Prop where
  finds : ∀ c ans q pid p, a = .step c ans → s.InCall c q (.kill pid) →
    (List.finRange NPROC).find? (fun r => (s.proc r).pid = pid) = some p → (s.proc p).state.Live
  gives : ∀ np, s.GivesUp a np → (s.proc np).killed = false

/-- The flag is set in slots of such processes only. -/
def KilledLive (s : Machine) : Prop := ∀ p, (s.proc p).killed = true → (s.proc p).state.Live

theorem KilledLive.clear (held : s.KilledLive) (gone : ¬ (s.proc p).state.Live) :
    (s.proc p).killed = false := by
  cases h : (s.proc p).killed with
  | false => rfl
  | true => exact absurd (held p h) gone

/-- What one step does to the flag. -/
theorem KilledLive.step (held : s.KilledLive) (inv : s.Inv) (kills : s.KillsLive a)
    (step : Step a s t) : t.KilledLive := by
  intro p hkilled
  have hmove := step.state inv p
  -- a slot that the step leaves with its flag stays in use, or leaves the flag clear
  have hkept : (t.proc p).killed = (s.proc p).killed → (t.proc p).state.Live := by
    intro hsame
    rcases hmove.live (held p (hsame ▸ hkilled)) with h | ⟨c, ans, rfl, here⟩ | hgives
    · exact h
    · rw [step.exit_pass inv here, ProcTable.exit_self] at hkilled
      cases hkilled
    · rw [hsame, kills.gives p hgives] at hkilled
      cases hkilled
  cases step.row inv p with
  | same row | woken _ row | dispatched _ row | yields _ row | reaped _ row | dozes _ _ _ _ _ _ row
  | resumes _ _ _ _ _ _ row | condSleeps _ _ _ _ _ _ row | allocated _ before row | dropped _ row
  | parented _ _ _ _ row | image _ _ _ _ _ row | cleared _ _ _ _ _ _ row | readied _ _ _ _ row
  | tickets _ _ _ row => exact hkept (by rw [row])
  | killed finds row =>
    -- the flag is set here only, and the condition is about this slot
    obtain ⟨c, ans, q, pid, hact, here, hfound⟩ := finds
    have hlive := kills.finds c ans q pid p hact here hfound
    rw [row]
    rcases Proc.wakeIf_state (fun _ => true) (s.proc p) with h | ⟨-, h⟩
    · dsimp only
      rwa [h]
    · dsimp only
      rw [h]
      decide
  | exits c ans hact here row =>
    rw [row, ProcTable.exit_self] at hkilled
    cases hkilled
  | handedOver c ans x hact here other row =>
    -- the child of a process that exits gets a new parent, and keeps its flag
    refine hkept ?_
    rw [row, ProcTable.exit_of_ne _ other]
    exact ProcTable.handOver_field Proc.killed (fun _ _ => rfl) (fun _ _ => rfl) _ _ _

/-- A step that meets the conditions. -/
def KillStep (a : Act) (s t : Machine) : Prop := s.KillsLive a ∧ Step a s t

section Main

variable {mem : Nat} {cond : Nat → Bool} {word : Nat → Int → Int} {as : List Act}

theorem boot_killedLive (mem : Nat) (cond : Nat → Bool) (word : Nat → Int → Int) :
    (boot mem cond word).KilledLive := by
  intro p hkilled
  by_cases hp : p = 0
  · rw [hp] at hkilled
    cases hkilled
  · simp only [boot, Function.update_of_ne hp] at hkilled
    cases hkilled

/-- In every run in which `kill` finds only processes that have not exited, and no `fork` fails for
a process that was killed: the slot that `allocproc` takes has `killed == 0`, and when `kill`
returns 0 there is a process with that pid. -/
theorem born_unkilled (run : Run KillStep (boot mem cond word) as s) :
    (∀ c q b p, s.InCall c q (.fork b .start) → s.proc.unused = some p →
      (s.proc p).killed = false) ∧
    ∀ c ans q pid t, s.InCall c q (.kill pid) → KillStep (.step c ans) s t →
      (t.thread q).eax = 0 → ∃ p, (s.proc p).state ≠ .UNUSED ∧ (s.proc p).pid = pid := by
  have inv : s.Inv ∧ s.KilledLive :=
    run.invariant (motive := fun _ s => s.Inv ∧ s.KilledLive)
      ⟨boot_inv mem cond word, boot_killedLive mem cond word⟩
      fun _ _ _ _ inv step => ⟨inv.1.step step.2, inv.2.step inv.1 step.1 step.2⟩
  refine ⟨fun c q b p _ hunused => inv.2.clear ?_, fun c ans q pid t here step hzero => ?_⟩
  · rw [s.proc.unused_eq_some hunused]
    decide
  · have hthread := (runFrame_effect (by simp) (step.2.runFrame inv.1 here)).thread
    rw [hthread, Function.update_self] at hzero
    change (s.proc.kill pid).2 = 0 at hzero
    rw [ProcTable.kill] at hzero
    split at hzero
    next p hfound =>
      exact ⟨p, (step.1.finds c ans q pid p rfl here hfound).1,
        by simpa using List.find?_some hfound⟩
    next => cases hzero

/-- The conditions for an action, as a test. -/
def killsLive (s : Machine) : Act → Bool
  | .step c _ =>
    match (s.cpus c).place with
    | .process q =>
      match (s.thread q).call with
      | some (.kill pid) =>
        ((List.finRange NPROC).find? fun r => (s.proc r).pid = pid).all fun p =>
          (s.proc p).state.Live
      | some (.fork _ (.giveUp np)) | some (.fork _ (.drop np)) => !(s.proc np).killed
      | _ => true
    | _ => true
  | _ => true

theorem killsLive_of_test {a : Act} (test : s.killsLive a = true) : s.KillsLive a where
  finds c ans q pid p act here hfound := by
    subst act
    simp only [killsLive, here.here, here.call, hfound, Option.all_some, decide_eq_true_eq] at test
    exact test
  gives np fails := by
    obtain ⟨c, ans, q, b, rfl, here | here⟩ := fails <;>
    · simp only [killsLive, here.here, here.call, Bool.not_eq_true'] at test
      exact test

theorem run_of_killsLive {s₀ : Machine}
    (done : execute (fun s a => if s.killsLive a then s.act a else none) s₀ as = some s) :
    Run KillStep s₀ as s := by
  refine Run.of_execute (fun a s t hact => ?_) done
  split at hact
  next htest => exact ⟨killsLive_of_test htest, hact⟩
  next => cases hact

/-- Init forks a child, which runs on CPU 1, and is in a second `fork` when the child kills the
new process: the call returns 0, and the process with the pid 3 is an embryo. -/
theorem born_unkilled_embryo :
    ∃ as s t, Run KillStep (boot 4096 (fun _ => false) fun _ _ => 0) as s ∧
      s.InCall 1 1 (.kill 3) ∧ KillStep (.step 1 0) s t ∧ (t.thread 1).eax = 0 ∧
      (t.proc 2).killed = true ∧ (t.proc 2).state = .EMBRYO ∧
      ∃ p, (s.proc p).state ≠ .UNUSED ∧ (s.proc p).pid = 3 := by
  let as : List Act := List.flatten [twoProcesses, forkToImage 0 12288, [.call 1 (.kill 3)]]
  have hdone : (execute (fun s a => if s.killsLive a then s.act a else none)
      (boot 4096 (fun _ => false) fun _ _ => 0) as).map
      (fun s => ((s.cpus 1).place, s.thread 1, s.killsLive (.step 1 0),
        (s.act (.step 1 0)).map fun t => decide ((t.thread 1).eax = 0 ∧
          (t.proc 2).killed = true ∧ (t.proc 2).state = .EMBRYO))) =
      some (.process 1, ⟨some (.kill 3), none, none, 0⟩, true, some true) := by
    decide +kernel
  obtain ⟨s, hs, hstate⟩ := Option.map_eq_some_iff.mp hdone
  simp only [Prod.mk.injEq] at hstate
  obtain ⟨hplace, hthread, htest, hact⟩ := hstate
  obtain ⟨t, ht, hafter⟩ := Option.map_eq_some_iff.mp hact
  obtain ⟨heax, hkilled, hembryo⟩ := of_decide_eq_true hafter
  have hrun := run_of_killsLive hs
  have hcall : s.InCall 1 1 (.kill 3) :=
    ⟨hplace, by rw [hthread], by rw [hthread], by rw [hthread]⟩
  have hstep : KillStep (.step 1 0) s t := ⟨killsLive_of_test htest, ht⟩
  exact ⟨as, s, t, hrun, hcall, hstep, heax, hkilled, hembryo,
    (born_unkilled hrun).2 1 0 1 3 t hcall hstep heax⟩

/-- Init calls `kill(0)`, which returns 0 although no process has the pid 0: it has marked slot
1, which was never used. The next `fork` takes that slot. -/
theorem kill_marks_unused :
    ∃ as s t bs u, Run Step (boot 4096 (fun _ => false) fun _ _ => 0) as s ∧
      s.InCall 0 0 (.kill 0) ∧ Step (.step 0 0) s t ∧ (t.thread 0).eax = 0 ∧
      (∀ p, (s.proc p).state ≠ .UNUSED → (s.proc p).pid ≠ 0) ∧
      Run Step t bs u ∧ u.InCall 0 0 (.fork false .start) ∧
      u.proc.unused = some 1 ∧ (u.proc 1).killed = true := by
  let as : List Act := [.step 0 7, .step 0 0, .call 0 (.kill 0)]
  have hdone : (execute act (boot 4096 (fun _ => false) fun _ _ => 0) as).map
      (fun s => ((s.cpus 0).place, s.thread 0,
        decide (∀ p, (s.proc p).state ≠ .UNUSED → (s.proc p).pid ≠ 0),
        (s.act (.step 0 0)).bind fun t => (t.act (.call 0 (.fork false))).map fun u =>
          decide ((t.thread 0).eax = 0 ∧ (u.cpus 0).place = .process 0 ∧
            u.thread 0 = ⟨some (.fork false .start), none, none, 0⟩ ∧ u.proc.unused = some 1 ∧
            (u.proc 1).killed = true))) =
      some (.process 0, ⟨some (.kill 0), none, none, 0⟩, true, some true) := by
    decide +kernel
  obtain ⟨s, hs, hstate⟩ := Option.map_eq_some_iff.mp hdone
  simp only [Prod.mk.injEq, decide_eq_true_eq] at hstate
  obtain ⟨hplace, hthread, hpids, hrest⟩ := hstate
  obtain ⟨t, ht, hrest⟩ := Option.bind_eq_some_iff.mp hrest
  obtain ⟨u, hu, hlast⟩ := Option.map_eq_some_iff.mp hrest
  obtain ⟨heax, hplace', hthread', hunused, hkilled⟩ := of_decide_eq_true hlast
  exact ⟨as, s, t, _, u, run_of_execute hs,
    ⟨hplace, by rw [hthread], by rw [hthread], by rw [hthread]⟩, ht, heax, hpids,
    Run.start.snoc hu, ⟨hplace', by rw [hthread'], by rw [hthread'], by rw [hthread']⟩, hunused,
    hkilled⟩

end Main

end Machine

end Xv6
