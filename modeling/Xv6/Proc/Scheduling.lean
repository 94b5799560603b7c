/-
# Process states on many CPUs

Every segment of every CPU keeps the invariant of running processes. Whenever the table
lock is free, the processes that are `RUNNING` are then those that the CPUs run, one each,
and only the four functions that the scheduler counts on make a process `RUNNABLE`.
-/

import Xv6.Proc.Running

namespace Xv6

open Math

namespace Machine

variable {chan : Chan} {lk : LockId} {cond mutex : Int} {table : ProcTable} {ans : Nat}

section Threads

variable {s : Machine} {q : ProcId} {f f₀ : Frame}

theorem Inv.fits_goto (inv : s.Inv) (quiet : (s.thread q).yielding = none)
    (place : (s.thread q).call = some f₀) (embryo : f.embryo = none ∨ f.embryo = f₀.embryo)
    (ready : ∀ b np, f ≠ .fork b (.ready np)) :
    s.Fits q ((s.thread q).goto f) :=
  inv.fits (Thread.goto_ok quiet f) (by rw [Thread.embryo, Thread.embryo, place]; exact embryo)
    (fun b np h => absurd (Option.some.inj h) (ready b np))

theorem Inv.fits_finish (inv : s.Inv) (eax : Int) : s.Fits q (Thread.user eax) :=
  inv.fits
    { yield := fun h => absurd rfl h
      sleep := fun _ _ _ h => by cases h
      sleepOnCond := fun _ _ _ h => by cases h
      mutexLock := fun _ h => by cases h }
    (Or.inl rfl) (fun _ _ h => by cases h)

theorem Inv.fits_leave (inv : s.Inv) (quiet : (s.thread q).yielding = none) :
    s.Fits q (s.thread q).leave :=
  inv.fits
    { yield := fun h => absurd quiet h
      sleep := fun _ _ _ h => by cases h
      sleepOnCond := fun _ _ _ h => by cases h
      mutexLock := fun _ h => by cases h }
    (Or.inr rfl) (fun _ _ h => h)

theorem Inv.fits_sleep (inv : s.Inv) (quiet : (s.thread q).yielding = none) {pc : SleepPc}
    (call : (s.thread q).callLocks = [lk]) (other : pc = .unlock ∨ pc = .relock → lk ≠ .procTable) :
    s.Fits q ((s.thread q).enter (.sleep pc chan lk)) :=
  inv.fits
    { yield := fun h => absurd quiet h
      sleep := fun _ _ _ h => by cases h; exact ⟨call, other⟩
      sleepOnCond := fun _ _ _ h => by cases h
      mutexLock := fun _ h => by cases h }
    (Or.inr rfl) (fun _ _ h => h)

theorem Inv.fits_sleepOnCond (inv : s.Inv) (quiet : (s.thread q).yielding = none)
    {switched : Bool} (call : (s.thread q).callLocks = []) :
    s.Fits q ((s.thread q).enter (.sleepOnCond switched cond mutex)) :=
  inv.fits
    { yield := fun h => absurd quiet h
      sleep := fun _ _ _ h => by cases h
      sleepOnCond := fun _ _ _ _ => call
      mutexLock := fun _ h => by cases h }
    (Or.inr rfl) (fun _ _ h => h)

theorem Inv.fits_yield (inv : s.Inv) (free : (s.thread q).baseLocks = []) (y : Option YieldPc) :
    s.Fits q ((s.thread q).yield y) :=
  have ok := inv.threads q
  inv.fits ⟨fun _ => free, ok.sleep, ok.sleepOnCond, ok.mutexLock⟩ (Or.inr rfl) (fun _ _ h => h)

end Threads

section Segments

variable {s t : Machine} {c : CpuId} {q : ProcId}

/-- Processes that sleep are woken. -/
theorem Inv.wake (inv : s.Inv) (wakes : s.proc.Wakes table) : (s.setTable table).Inv := by
  refine inv.setTable (fun p => ?_) (fun p hp => ?_) (fun r np hr => ?_)
  · rcases wakes p with h | ⟨h, h'⟩
    · rw [h]
    · rw [h, h']
      decide
  · rcases wakes p with h | ⟨h, h'⟩
    · rw [h] at hp
      exact inv.parked p hp
    · exact inv.parked p (Or.inr h)
  · have hnp := inv.embryo r np hr
    rcases wakes np with h | ⟨h, h'⟩
    · rw [h, hnp]
    · rw [hnp] at h
      cases h

/-- The state of one slot changes, but it does not start or stop running. -/
theorem Inv.setState (inv : s.Inv) {p : ProcId} (change : Proc → Proc)
    (before : (s.proc p).state ≠ .RUNNING) (after : (change (s.proc p)).state ≠ .RUNNING)
    (parked : (change (s.proc p)).state = .RUNNABLE ∨ (change (s.proc p)).state = .SLEEPING →
      (s.thread p).Parked)
    (nobody : ∀ r, (s.thread r).embryo ≠ some p) : (s.setTable (s.proc.set p change)).Inv := by
  refine inv.setTable (fun r => ?_) (fun r hr => ?_) (fun r np hr => ?_)
  · by_cases h : r = p
    · rw [h, ProcTable.set_self]
      exact iff_of_false after before
    · rw [ProcTable.set_of_ne _ h]
  · by_cases h : r = p
    · rw [h, ProcTable.set_self] at hr
      rw [h]
      exact parked hr
    · rw [ProcTable.set_of_ne _ h] at hr
      exact inv.parked r hr
  · have h : np ≠ p := fun e => nobody r (e ▸ hr)
    rw [ProcTable.set_of_ne _ h]
    exact inv.embryo r np hr

/-- The process on a CPU stores its new state and calls `sched` with the table lock. -/
theorem Inv.sched (inv : s.Inv) (here : (s.cpus c).place = .process q) {u : Machine} {th : Thread}
    (change : Proc → Proc) (step : u.sched c q = some t) (fits : s.Fits q th)
    (table : u.proc = s.proc.set q change) (thread : u.thread = Function.update s.thread q th)
    (cpus : u.cpus = s.cpus ∨ s.Free .procTable ∧ u.cpus = (s.lock c .procTable).cpus)
    (parked : (change (s.proc q)).state = .RUNNABLE ∨ (change (s.proc q)).state = .SLEEPING →
      th.Parked) : t.Inv := by
  obtain ⟨⟨hstate, hheld⟩, rfl⟩ := sched_eq_some.mp step
  rw [table, ProcTable.set_self] at hstate
  have hcurproc : (u.cpus c).curproc = some q := by
    rcases cpus with h | ⟨-, h⟩
    · rw [h, inv.curproc here]
    · rw [h, lock, setCpu]
      simp only [Function.update_self, inv.curproc here]
  have hupdate : ∀ r, Function.update u.cpus c r = Function.update s.cpus c r := by
    intro r
    rcases cpus with h | ⟨-, h⟩
    · rw [h]
    · rw [h]
      exact Function.update_idem ..
  refine inv.switch here fits table thread ?_ hstate parked ?_
  · rw [setCpu, hcurproc, hheld]
    exact hupdate _
  · rcases cpus with h | ⟨hfree, -⟩
    · right
      rw [← h, hheld]
      exact List.mem_singleton_self _
    · exact Or.inl hfree

theorem Inv.runYield (inv : s.Inv) (here : (s.cpus c).place = .process q) {pc : YieldPc}
    (place : (s.thread q).yielding = some pc) (step : s.runYield c q q pc = some t) : t.Inv := by
  have hbase := (inv.threads q).yield (by rw [place]; exact Option.some_ne_none pc)
  cases pc with
  | start =>
    obtain ⟨hfree, step⟩ := acquire_bind.mp step
    exact inv.sched here (fun r => { r with state := .RUNNABLE }) step (inv.fits_yield hbase _)
      rfl rfl (Or.inr ⟨hfree, rfl⟩) fun _ => Thread.Parked.yield ..
  | sched =>
    obtain ⟨-, rfl⟩ := release_some.mp step
    refine inv.release here (inv.fits_yield hbase none) rfl rfl rfl fun k => ?_
    change k ∈ (s.thread q).baseLocks ↔ _
    rw [hbase, Thread.locks, place]
    simp

theorem Inv.runSleep (inv : s.Inv) (here : (s.cpus c).place = .process q)
    (quiet : (s.thread q).yielding = none) {pc : SleepPc}
    (place : (s.thread q).inner = some (.sleep pc chan lk))
    (step : s.runSleep c q q chan lk pc = some t) : t.Inv := by
  obtain ⟨hcall, hother⟩ := (inv.threads q).sleep pc chan lk place
  have hold := Thread.locks_inner quiet place
  cases pc with
  | start =>
    rw [Machine.runSleep] at step
    split at step
    next htable =>
      cases step
      refine inv.stay here (inv.fits_sleep quiet hcall (by simp)) rfl rfl rfl fun l => ?_
      rw [Thread.locks_enter quiet, hold, htable]
      rfl
    next htable =>
      obtain ⟨hfree, rfl⟩ := acquire_some.mp step
      refine inv.acquire here hfree (inv.fits_sleep quiet hcall fun _ => htable) rfl rfl rfl
        fun k => ?_
      rw [Thread.locks_enter quiet, hold]
      exact List.mem_cons
  | unlock =>
    obtain ⟨-, rfl⟩ := release_some.mp step
    have hlk : lk ≠ .procTable := hother (Or.inl rfl)
    refine inv.release here (inv.fits_sleep quiet hcall (by simp)) rfl rfl rfl fun k => ?_
    rw [Thread.locks_enter quiet, hold]
    simp only [Inner.locks, SleepPc.locks, List.mem_cons, List.not_mem_nil, or_false]
    constructor
    · rintro rfl
      exact ⟨hlk.symm, Or.inl rfl⟩
    · rintro ⟨hne, h | h⟩
      · exact h
      · exact absurd h hne
  | doze =>
    exact inv.sched here (fun r => { r with chan := some chan, state := .SLEEPING }) step
      (inv.fits_sleep quiet hcall (by simp)) rfl rfl (Or.inl rfl) fun _ => by
        rw [Thread.enter, quiet]
        exact Thread.Parked.sleep ..
  | sched =>
    rw [Machine.runSleep] at step
    have inv₁ : (s.setTable (s.proc.set q fun r => { r with chan := none })).Inv :=
      inv.setFields (ProcTable.set_field _ Proc.state rfl)
    split at step
    next htable =>
      cases step
      refine inv₁.stay here (inv₁.fits_leave quiet) rfl rfl rfl fun l => ?_
      change l ∈ (s.thread q).leave.locks ↔ l ∈ (s.thread q).locks
      rw [Thread.locks_leave quiet, hcall, hold, htable]
      rfl
    next htable =>
      obtain ⟨-, rfl⟩ := release_some.mp step
      refine inv₁.release here (inv₁.fits_sleep quiet hcall fun _ => htable) rfl rfl rfl
        fun k => ?_
      change k ∈ ((s.thread q).enter (.sleep .relock chan lk)).locks ↔ _ ∧ k ∈ (s.thread q).locks
      rw [Thread.locks_enter quiet, hold]
      simp [Inner.locks, SleepPc.locks]
  | relock =>
    obtain ⟨hfree, rfl⟩ := acquire_some.mp step
    refine inv.acquire here hfree (inv.fits_leave quiet) rfl rfl rfl fun k => ?_
    rw [Thread.locks_leave quiet, hcall, hold]
    exact List.mem_cons

theorem Inv.runInner (inv : s.Inv) (here : (s.cpus c).place = .process q)
    (quiet : (s.thread q).yielding = none) {i : Inner} (place : (s.thread q).inner = some i)
    (step : s.runInner c q q i = some t) : t.Inv := by
  have hold := Thread.locks_inner quiet place
  cases i with
  | sleep pc chan lk => exact inv.runSleep here quiet place step
  | sleepOnCond switched cond mutex =>
    have hcall := (inv.threads q).sleepOnCond switched cond mutex place
    cases switched with
    | false =>
      obtain ⟨hfree, step⟩ := acquire_bind.mp step
      exact inv.sched here (fun r => { r with condAddr := cond, state := .SLEEPING }) step
        (inv.fits_sleepOnCond quiet hcall) rfl rfl (Or.inr ⟨hfree, rfl⟩) fun _ => by
          rw [Thread.enter, quiet]
          exact Thread.Parked.sleepOnCond ..
    | true =>
      obtain ⟨-, rfl⟩ := release_some.mp step
      refine inv.release here (inv.fits_leave quiet) rfl rfl rfl fun k => ?_
      rw [Thread.locks_leave quiet, hcall, hold]
      simp [Inner.locks]
  | mutexLock m =>
    have hcall := (inv.threads q).mutexLock m place
    rw [Machine.runInner] at step
    split at step
    next =>
      cases step
      exact inv.stay here (inv.fits (inv.threads q) (Or.inr rfl) fun _ _ h => h) rfl
        (Function.update_eq_self q _).symm rfl fun _ => Iff.rfl
    next =>
      cases step
      refine inv.stay here (inv.fits_leave quiet) rfl rfl rfl fun l => ?_
      rw [Thread.locks_leave quiet, hcall, hold]
      rfl

end Segments

section Calls

variable {s t : Machine} {c : CpuId} {q : ProcId} {f f₀ : Frame} {l : LockId}

/-- A CPU runs the code of the call that a process has made. -/
structure InCall (s : Machine) (c : CpuId) (q : ProcId) (f : Frame) : Prop where
  here : (s.cpus c).place = .process q
  quiet : (s.thread q).yielding = none
  noInner : (s.thread q).inner = none
  call : (s.thread q).call = some f

theorem InCall.setTable (h : s.InCall c q f) (table : ProcTable) :
    (s.setTable table).InCall c q f := ⟨h.here, h.quiet, h.noInner, h.call⟩

theorem InCall.locks (h : s.InCall c q f) : (s.thread q).locks = f.locks :=
  Thread.locks_call h.quiet h.noInner h.call

theorem InCall.callLocks (h : s.InCall c q f) : (s.thread q).callLocks = f.locks := by
  rw [Thread.callLocks, h.call]
  rfl

/-- The call goes on with the locks it has. -/
theorem Inv.next (inv : s.Inv) (h : s.InCall c q f₀) (table : t.proc = s.proc)
    (thread : t.thread = Function.update s.thread q ((s.thread q).goto f))
    (cpus : t.cpus = s.cpus) (embryo : f.embryo = none ∨ f.embryo = f₀.embryo)
    (ready : ∀ b np, f ≠ .fork b (.ready np)) (locks : f.locks = f₀.locks) : t.Inv :=
  inv.stay h.here (inv.fits_goto h.quiet h.call embryo ready) table thread cpus fun l => by
    rw [Thread.locks_goto h.quiet, h.locks, locks]

/-- The call acquires its only lock. -/
theorem Inv.lockNext (inv : s.Inv) (h : s.InCall c q f₀) (free : s.Free l)
    (table : t.proc = s.proc)
    (thread : t.thread = Function.update s.thread q ((s.thread q).goto f))
    (cpus : t.cpus = (s.lock c l).cpus) (embryo : f.embryo = none ∨ f.embryo = f₀.embryo)
    (ready : ∀ b np, f ≠ .fork b (.ready np)) (before : f₀.locks = []) (after : f.locks = [l]) :
    t.Inv :=
  inv.acquire h.here free (inv.fits_goto h.quiet h.call embryo ready) table thread cpus
    fun k => by
      rw [Thread.locks_goto h.quiet, h.locks, before, after]
      exact List.mem_cons

/-- The call releases its only lock. -/
theorem Inv.unlockNext (inv : s.Inv) (h : s.InCall c q f₀) (table : t.proc = s.proc)
    (thread : t.thread = Function.update s.thread q ((s.thread q).goto f))
    (cpus : t.cpus = (s.unlock c l).cpus) (embryo : f.embryo = none ∨ f.embryo = f₀.embryo)
    (ready : ∀ b np, f ≠ .fork b (.ready np)) (before : f₀.locks = [l]) (after : f.locks = []) :
    t.Inv :=
  inv.release h.here (inv.fits_goto h.quiet h.call embryo ready) table thread cpus
    fun k => by
      rw [Thread.locks_goto h.quiet, h.locks, before, after]
      simp

/-- The call returns. -/
theorem Inv.done (inv : s.Inv) (h : s.InCall c q f₀) {eax : Int} (table : t.proc = s.proc)
    (thread : t.thread = Function.update s.thread q (Thread.user eax)) (cpus : t.cpus = s.cpus)
    (locks : f₀.locks = []) : t.Inv :=
  inv.stay h.here (inv.fits_finish eax) table thread cpus fun l => by
    rw [h.locks, locks]
    rfl

/-- The call releases its only lock and returns. -/
theorem Inv.unlockDone (inv : s.Inv) (h : s.InCall c q f₀) {eax : Int} (table : t.proc = s.proc)
    (thread : t.thread = Function.update s.thread q (Thread.user eax))
    (cpus : t.cpus = (s.unlock c l).cpus) (before : f₀.locks = [l]) : t.Inv :=
  inv.release h.here (inv.fits_finish eax) table thread cpus fun k => by
    rw [h.locks, before]
    simp

/-- The call calls `sleep` with the lock it holds. -/
theorem Inv.callSleep (inv : s.Inv) (h : s.InCall c q f₀) (locks : f₀.locks = [l]) :
    (s.enter q (.sleep .start chan l)).Inv := by
  refine inv.stay h.here (inv.fits_sleep h.quiet (h.callLocks.trans locks) (by simp)) rfl rfl rfl
    fun k => ?_
  rw [Thread.locks_enter h.quiet, h.locks, locks]
  rfl

theorem Inv.runWaiter (inv : s.Inv) {pc : WaiterPc} {a chan : Nat} {take : Bool}
    (h : s.InCall c q (.waiter pc a chan lk take))
    (step : s.runWaiter c q a chan lk take pc = some t) : t.Inv := by
  cases pc with
  | start =>
    obtain ⟨hfree, rfl⟩ := acquire_some.mp step
    exact inv.lockNext h hfree rfl rfl rfl (Or.inl rfl) (by simp) rfl rfl
  | test =>
    rw [Machine.runWaiter] at step
    split at step
    next =>
      obtain ⟨-, rfl⟩ := release_some.mp step
      cases take with
      | false | true => exact inv.unlockDone h rfl rfl rfl rfl
    next =>
      cases step
      exact inv.callSleep h rfl

theorem Inv.runWaker (inv : s.Inv) {pc : WakerPc} {a chan : Nat} {early : Bool}
    (h : s.InCall c q (.waker pc a chan lk early))
    (step : s.runWaker c q a chan lk early pc = some t) : t.Inv := by
  cases pc with
  | start =>
    obtain ⟨hfree, rfl⟩ := acquire_some.mp step
    exact inv.lockNext h hfree rfl rfl rfl (Or.inl rfl) (by simp) rfl rfl
  | set =>
    cases step
    refine inv.next h rfl rfl rfl (Or.inl rfl) (by simp) ?_
    cases early <;> rfl
  | wakeLocked =>
    obtain ⟨-, rfl⟩ := critical_eq_some.mp step
    exact (inv.wake (ProcTable.wakeup1_wakes _)).next (h.setTable _) rfl rfl rfl (Or.inl rfl)
      (by simp) rfl
  | unlockLast =>
    obtain ⟨-, rfl⟩ := release_some.mp step
    exact inv.unlockDone h rfl rfl rfl rfl
  | unlockFirst =>
    obtain ⟨-, rfl⟩ := release_some.mp step
    exact inv.unlockNext h rfl rfl rfl (Or.inl rfl) (by simp) rfl rfl
  | wake =>
    obtain ⟨-, rfl⟩ := critical_eq_some.mp step
    exact (inv.wake (ProcTable.wakeup1_wakes _)).done (h.setTable _) rfl rfl rfl rfl

theorem Inv.runWait (inv : s.Inv) {pc : WaitPc} (h : s.InCall c q (.wait pc))
    (step : s.runWait c q q pc = some t) : t.Inv := by
  cases pc with
  | start =>
    obtain ⟨hfree, rfl⟩ := acquire_some.mp step
    exact inv.lockNext h hfree rfl rfl rfl (Or.inl rfl) (by simp) rfl rfl
  | scan =>
    rw [Machine.runWait] at step
    split at step
    next p hp =>
      obtain ⟨-, rfl⟩ := release_some.mp step
      have hzombie := (s.proc.zombieChild_eq_some hp).2
      have inv₁ : (s.setTable (s.proc.reap p)).Inv :=
        inv.setState _ (by rw [hzombie]; decide) (by simp) (by simp)
          fun r hr => by rw [inv.embryo r p hr] at hzombie; cases hzombie
      exact inv₁.unlockDone (h.setTable _) rfl rfl rfl rfl
    next =>
      split at step
      next =>
        obtain ⟨-, rfl⟩ := release_some.mp step
        exact inv.unlockDone h rfl rfl rfl rfl
      next =>
        cases step
        exact inv.callSleep h rfl

/-- Others are woken, and then the process becomes a zombie. -/
theorem Inv.die (inv : s.Inv) (h : s.InCall c q (.exit .pass)) (wakes : s.proc.Wakes table)
    (step : ((s.setTable (table.set q fun r => { r with killed := false, state := .ZOMBIE })).goto
      q (.exit .dead)).sched c q = some t) : t.Inv := by
  have inv₁ := inv.wake wakes
  have h₁ := h.setTable table
  have hfits : (s.setTable table).Fits q ((s.thread q).goto (.exit .dead)) :=
    inv₁.fits_goto h₁.quiet h₁.call (Or.inl rfl) (by simp)
  exact inv₁.sched h₁.here (fun r => { r with killed := false, state := .ZOMBIE }) step hfits
    rfl rfl (Or.inl rfl) (by simp)

theorem Inv.runExit (inv : s.Inv) {pc : ExitPc} (h : s.InCall c q (.exit pc))
    (step : s.runExit c q q ans pc = some t) : t.Inv := by
  cases pc with
  | start | load _ | sub _ _ | files =>
    cases step
    exact inv.next h rfl rfl rfl (Or.inl rfl) (by simp) rfl
  | check isThread =>
    rw [Machine.runExit] at step
    split at step
    next => cases step
    next =>
      cases step
      cases isThread with
      | false | true => exact inv.next h rfl rfl rfl (Or.inl rfl) (by simp) rfl
  | busy chan lk =>
    rw [Machine.runExit] at step
    split at step
    next =>
      obtain ⟨-, rfl⟩ := release_some.mp step
      exact inv.unlockNext h rfl rfl rfl (Or.inl rfl) (by simp) rfl rfl
    next =>
      cases step
      exact inv.callSleep h rfl
  | lock =>
    obtain ⟨hfree, rfl⟩ := acquire_some.mp step
    exact inv.lockNext h hfree rfl rfl rfl (Or.inl rfl) (by simp) rfl rfl
  | pass =>
    rw [Machine.runExit, ProcTable.exit] at step
    exact inv.die h (s.proc.handOver_wakes s.initproc q) step
  | dead => cases step

/-- A slot that nobody runs gets the context of a new process. -/
theorem Inv.context (inv : s.Inv) {np : ProcId} (embryo : (s.proc np).state = .EMBRYO) :
    (s.setThread np Thread.fresh).Inv := by
  have hother : ∀ p, p ≠ np → (s.setThread np Thread.fresh).thread p = s.thread p :=
    fun p hp => Function.update_of_ne hp ..
  have hself : (s.setThread np Thread.fresh).thread np = Thread.fresh := Function.update_self ..
  refine { inv with locks := fun c l => ?_, parked := fun p hp => ?_, threads := fun p => ?_,
                    embryo := fun p r hp => ?_, forker := fun p p' r hp hp' => ?_,
                    ready := fun p b r hp => ?_ }
  · have hcpus : (s.setThread np Thread.fresh).cpus = s.cpus := rfl
    rw [locksAt, hcpus, inv.locks, locksAt]
    cases hplace : (s.cpus c).place with
    | idle => rfl
    | back => rfl
    | process p =>
      have hp : p ≠ np := fun e => by
        have hrun := inv.state_running hplace
        rw [e, embryo] at hrun
        cases hrun
      dsimp only
      rw [hother p hp]
  · have hpn : p ≠ np := fun e => by
      rw [e] at hp
      change (s.proc np).state = _ ∨ (s.proc np).state = _ at hp
      rw [embryo] at hp
      rcases hp with hp | hp <;> cases hp
    rw [hother p hpn]
    exact inv.parked p hp
  · by_cases hp : p = np
    · rw [hp, hself]
      exact Thread.fresh_ok
    · rw [hother p hp]
      exact inv.threads p
  · by_cases hpn : p = np
    · rw [hpn, hself] at hp
      cases hp
    · rw [hother p hpn] at hp
      exact inv.embryo p r hp
  · by_cases hpn : p = np
    · rw [hpn, hself] at hp
      cases hp
    · by_cases hpn' : p' = np
      · rw [hpn', hself] at hp'
        cases hp'
      · rw [hother p hpn] at hp
        rw [hother p' hpn'] at hp'
        exact inv.forker p p' r hp hp'
  · by_cases hpn : p = np
    · rw [hpn, hself] at hp
      cases hp
    · rw [hother p hpn] at hp
      by_cases hr : r = np
      · rw [hr, hself]
      · rw [hother r hr]
        exact inv.ready p b r hp

/-- A process stops filling a slot. -/
theorem Inv.nobody (inv : s.Inv) {np : ProcId} (mine : (s.thread q).embryo = some np)
    {th : Thread} (gone : th.embryo = none) (r : ProcId) :
    (Function.update s.thread q th r).embryo ≠ some np := by
  intro hr
  by_cases h : r = q
  · rw [h, Function.update_self, gone] at hr
    cases hr
  · rw [Function.update_of_ne h] at hr
    exact h (inv.forker r q np hr mine)

theorem Inv.runFork (inv : s.Inv) {thread : Bool} {pc : ForkPc}
    (h : s.InCall c q (.fork thread pc)) (step : s.runFork c q q thread ans pc = some t) :
    t.Inv := by
  have hmine : ∀ np, Frame.embryo (.fork thread pc) = some np →
      (s.thread q).embryo = some np := fun np hnp => by rw [Thread.embryo, h.call]; exact hnp
  cases pc with
  | start =>
    rw [Machine.runFork] at step
    split at step
    next =>
      obtain ⟨-, rfl⟩ := critical_eq_some.mp step
      exact inv.done h rfl rfl rfl rfl
    next np hnp =>
      obtain ⟨hfree, rfl⟩ := acquire_some.mp step
      have hunused := s.proc.unused_eq_some hnp
      have hnobody : ∀ r, (s.thread r).embryo ≠ some np := fun r hr => by
        rw [inv.embryo r np hr] at hunused
        cases hunused
      have inv₁ : (s.setTable (s.proc.embryo np s.nextpid)).Inv :=
        inv.setState _ (by rw [hunused]; decide) (by simp) (by simp) hnobody
      have hembryo : (s.proc.embryo np s.nextpid np).state = .EMBRYO := by
        rw [ProcTable.embryo, ProcTable.set_self]
      have hfits : (s.setTable (s.proc.embryo np s.nextpid)).Fits q
          ((s.thread q).goto (.fork thread (.load np))) :=
        { ok := Thread.goto_ok h.quiet _
          embryo := fun r hr => by
            obtain rfl := Option.some.inj hr
            exact ⟨hembryo, fun r' hr' => absurd hr' (hnobody r')⟩
          ready := fun _ _ hr => by cases hr }
      refine inv₁.acquire h.here hfree hfits rfl rfl rfl fun k => ?_
      change _ ↔ k = _ ∨ k ∈ (s.thread q).locks
      rw [Thread.locks_goto h.quiet, h.locks]
      exact List.mem_cons
  | load np =>
    cases step
    exact inv.next h rfl rfl rfl (Or.inr rfl) (by simp) rfl
  | count np total =>
    obtain ⟨-, rfl⟩ := release_some.mp step
    exact inv.unlockNext h rfl rfl rfl (Or.inr rfl) (by simp) rfl rfl
  | kstack np =>
    cases step
    split
    · exact inv.next h rfl rfl rfl (Or.inr rfl) (by simp) rfl
    · exact inv.next h rfl rfl rfl (Or.inr rfl) (by simp) rfl
  | giveUp np =>
    cases step
    have hembryo := inv.embryo q np (hmine np rfl)
    have inv₁ : (s.finish q (-1)).Inv := inv.done h rfl rfl rfl rfl
    exact inv₁.setState (fun r => { r with state := .UNUSED })
      (by change (s.proc np).state ≠ _; rw [hembryo]; decide) (by simp) (by simp)
      (inv.nobody (hmine np rfl) rfl)
  | parent np =>
    cases step
    have inv₁ : (s.setTable (s.proc.set np fun r => { r with parent := some q })).Inv :=
      inv.setFields (ProcTable.set_field _ Proc.state rfl)
    exact inv₁.next (h.setTable _) rfl rfl rfl (Or.inr rfl) (by simp) rfl
  | image np =>
    rw [Machine.runFork] at step
    have inv₁ : ∀ m, (s.setTable (s.proc.set np fun r => { r with mem := m })).Inv :=
      fun m => inv.setFields (ProcTable.set_field _ Proc.state rfl)
    split at step
    next =>
      cases step
      exact (inv₁ _).next (h.setTable _) rfl rfl rfl (Or.inr rfl) (by simp) rfl
    next =>
      split at step
      next =>
        cases step
        exact (inv₁ _).next (h.setTable _) rfl rfl rfl (Or.inr rfl) (by simp) rfl
      next =>
        cases step
        exact (inv₁ _).next (h.setTable _) rfl rfl rfl (Or.inr rfl) (by simp) rfl
  | drop np =>
    cases step
    have hembryo := inv.embryo q np (hmine np rfl)
    have inv₁ : (s.goto q (.fork thread (.clear np))).Inv :=
      inv.next h rfl rfl rfl (Or.inl rfl) (by simp) rfl
    exact inv₁.setState (fun r => { r with state := .UNUSED })
      (by change (s.proc np).state ≠ _; rw [hembryo]; decide) (by simp) (by simp)
      (inv.nobody (hmine np rfl) rfl)
  | clear np =>
    cases step
    have inv₁ : (s.setTable (s.proc.set np fun r => { r with parent := none })).Inv :=
      inv.setFields (ProcTable.set_field _ Proc.state rfl)
    exact inv₁.done (h.setTable _) rfl rfl rfl rfl
  | context np =>
    cases step
    have hembryo := inv.embryo q np (hmine np rfl)
    have hne : q ≠ np := fun e => by
      have hrun := inv.state_running h.here
      rw [e, hembryo] at hrun
      cases hrun
    have inv₁ := inv.context hembryo
    have hq : (s.setThread np Thread.fresh).thread q = s.thread q := Function.update_of_ne hne ..
    have hfits : (s.setThread np Thread.fresh).Fits q
        (((s.setThread np Thread.fresh).thread q).goto (.fork thread (.ready np))) :=
      { ok := Thread.goto_ok (by rw [hq, h.quiet]) _
        embryo := fun r hr => by
          obtain rfl := Option.some.inj hr
          refine ⟨hembryo, fun r' hr' => inv₁.forker r' q np hr' ?_⟩
          rw [hq]
          exact hmine np rfl
        ready := fun b r hr => by
          obtain ⟨-, rfl⟩ : thread = b ∧ np = r := by simpa [Thread.goto] using hr
          exact Function.update_self .. }
    refine inv₁.stay h.here hfits rfl rfl rfl fun l => ?_
    rw [hq, Thread.locks_goto h.quiet, h.locks]
    rfl
  | ready np =>
    cases step
    have hembryo := inv.embryo q np (hmine np rfl)
    have hne : np ≠ q := fun e => by
      have hrun := inv.state_running h.here
      rw [← e, hembryo] at hrun
      cases hrun
    have inv₁ : (s.finish q (s.proc np).pid).Inv := inv.done h rfl rfl rfl rfl
    refine inv₁.setState (fun r => { r with state := .RUNNABLE })
      (by change (s.proc np).state ≠ _; rw [hembryo]; decide) (by simp) (fun _ => ?_)
      (inv.nobody (hmine np rfl) rfl)
    change (Function.update s.thread q _ np).Parked
    rw [Function.update_of_ne hne, inv.ready q thread np h.call]
    exact Thread.Parked.forkret 0

theorem Inv.runProcTickets (inv : s.Inv) {pc : TicketsPc} {n : Int}
    (h : s.InCall c q (.procTickets pc n)) (step : s.runProcTickets c q q n pc = some t) :
    t.Inv := by
  cases pc with
  | start =>
    rw [Machine.runProcTickets] at step
    split at step
    next =>
      obtain ⟨hfree, rfl⟩ := acquire_some.mp step
      exact inv.lockNext h hfree rfl rfl rfl (Or.inl rfl) (by simp) rfl rfl
    next =>
      cases step
      exact inv.done h rfl rfl rfl rfl
  | load | sub _ | reload | add _ =>
    cases step
    exact inv.next h rfl rfl rfl (Or.inl rfl) (by simp) rfl
  | set =>
    cases step
    have inv₁ : (s.setTable (s.proc.set q fun r => { r with tctcnt := n })).Inv :=
      inv.setFields (ProcTable.set_field _ Proc.state rfl)
    exact inv₁.next (h.setTable _) rfl rfl rfl (Or.inl rfl) (by simp) rfl
  | unlock =>
    obtain ⟨-, rfl⟩ := release_some.mp step
    exact inv.unlockDone h rfl rfl rfl rfl

/-- User code without locks calls a function. -/
theorem Inv.callThen (inv : s.Inv) (h : s.InCall c q f₀) {i : Inner} (before : f₀.locks = [])
    (after : f.locks = []) (embryo : f.embryo = none) (inner : i.locks = [])
    (noSleep : ∀ pc chan lk, i ≠ .sleep pc chan lk) : (s.callThen q i f).Inv := by
  have hready : ∀ b np, f ≠ .fork b (.ready np) := by
    rintro b np rfl
    cases embryo
  have hcall : (((s.thread q).goto f).enter i).callLocks = [] := after
  have hok : (((s.thread q).goto f).enter i).Ok :=
    { yield := fun hy => absurd h.quiet hy
      sleep := fun pc chan lk hi => absurd (Option.some.inj hi) (noSleep pc chan lk)
      sleepOnCond := fun _ _ _ _ => hcall
      mutexLock := fun _ _ => hcall }
  have hquiet : ((s.thread q).goto f).yielding = none := h.quiet
  refine inv.stay h.here (inv.fits hok (Or.inl embryo) fun b np hf => ?_) rfl rfl rfl fun l => ?_
  · exact absurd (Option.some.inj hf) (hready b np)
  · rw [Thread.locks_enter hquiet, h.locks, before, inner]

theorem Inv.runCondWaiter (inv : s.Inv) {pc : CondWaiterPc} {pred : Int} {take : Bool}
    (h : s.InCall c q (.condWaiter pc pred cond mutex take))
    (step : s.runCondWaiter q q pred cond mutex take pc = some t) : t.Inv := by
  cases pc with
  | start | relock =>
    cases step
    exact inv.callThen h rfl rfl rfl rfl (by simp)
  | test =>
    rw [Machine.runCondWaiter] at step
    split at step
    next =>
      cases step
      exact inv.callThen h rfl rfl rfl rfl (by simp)
    next =>
      cases step
      cases take with
      | false | true => exact inv.done h rfl rfl rfl rfl

theorem Inv.runSignaller (inv : s.Inv) {pc : SignallerPc} {pred : Int}
    (h : s.InCall c q (.signaller pc pred cond mutex))
    (step : s.runSignaller q q pred cond mutex pc = some t) : t.Inv := by
  cases pc with
  | start =>
    cases step
    exact inv.callThen h rfl rfl rfl rfl (by simp)
  | set =>
    cases step
    exact inv.next h rfl rfl rfl (Or.inl rfl) (by simp) rfl
  | signal =>
    obtain ⟨-, rfl⟩ := critical_eq_some.mp step
    exact (inv.wake (ProcTable.wakeOnCond_wakes _ _)).next (h.setTable _) rfl rfl rfl
      (Or.inl rfl) (by simp) rfl
  | unlock =>
    cases step
    exact inv.done h rfl rfl rfl rfl

theorem Inv.runFrame (inv : s.Inv) (h : s.InCall c q f)
    (step : s.runFrame c q q ans f = some t) : t.Inv := by
  cases f with
  | forkret =>
    obtain ⟨-, rfl⟩ := release_some.mp step
    exact inv.unlockDone h rfl rfl rfl rfl
  | waiter pc a chan lk take => exact inv.runWaiter h step
  | waker pc a chan lk early => exact inv.runWaker h step
  | kill pid =>
    obtain ⟨-, rfl⟩ := critical_eq_some.mp step
    exact (inv.wake (ProcTable.kill_wakes pid)).done (h.setTable _) rfl rfl rfl rfl
  | wait pc => exact inv.runWait h step
  | exit pc => exact inv.runExit h step
  | fork thread pc => exact inv.runFork h step
  | procTickets pc n => exact inv.runProcTickets h step
  | wakeOnCond cond =>
    obtain ⟨-, rfl⟩ := critical_eq_some.mp step
    exact (inv.wake (ProcTable.wakeOnCond_wakes _ _)).done (h.setTable _) rfl rfl rfl rfl
  | sleepOnCond =>
    cases step
    exact inv.done h rfl rfl rfl rfl
  | condWaiter pc pred cond mutex take => exact inv.runCondWaiter h step
  | signaller pc pred cond mutex => exact inv.runSignaller h step

end Calls

section Steps

variable {s t : Machine} {a : Act} {c : CpuId} {q : ProcId}

theorem Inv.runProcess (inv : s.Inv)
    (here : (s.cpus c).place = .process q) (step : s.runProcess c q q ans = some t) : t.Inv := by
  cases hy : (s.thread q).yielding with
  | some pc =>
    simp only [Machine.runProcess, hy] at step
    exact inv.runYield here hy step
  | none =>
    cases hi : (s.thread q).inner with
    | some i =>
      simp only [Machine.runProcess, hy, hi] at step
      exact inv.runInner here hy hi step
    | none =>
      cases hf : (s.thread q).call with
      | some f =>
        simp only [Machine.runProcess, hy, hi, hf] at step
        exact inv.runFrame ⟨here, hy, hi, hf⟩ step
      | none => simp [Machine.runProcess, hy, hi, hf] at step

theorem pick_runnable {random curtct : Nat} {ps : List ProcId} {p : ProcId}
    (found : table.pick random ps curtct = some p) : (table p).state = .RUNNABLE := by
  induction ps generalizing curtct with
  | nil => cases found
  | cons r ps ih =>
    rw [ProcTable.pick] at found
    split at found
    next => exact ih found
    next =>
      dsimp only at found
      split at found
      next =>
        split at found
        next h =>
          obtain rfl := Option.some.inj found
          exact h
        next => cases found
      next => exact ih found

theorem Inv.runIdle (inv : s.Inv) (here : (s.cpus c).place = .idle)
    (step : s.runIdle c ans = some t) : t.Inv := by
  rw [Machine.runIdle] at step
  split at step
  next h =>
    split at step
    next p hp =>
      cases step
      exact inv.dispatch here h.1 (pick_runnable hp)
    next =>
      cases step
      exact inv
  next => cases step

/-- A process in user space makes a call. -/
theorem Inv.make (inv : s.Inv) (here : (s.cpus c).place = .process q)
    (user : (s.thread q).InUser) (k : ProcCall) : (s.setThread q ((s.thread q).make k)).Inv := by
  obtain ⟨hcall, hinner, hy⟩ := user
  have hlocks : k.begin.locks = [] := by cases k <;> rfl
  have hembryo : k.begin.embryo = none := by cases k <;> rfl
  have hsleep : ∀ pc chan lk, k.inner ≠ some (.sleep pc chan lk) := by
    cases k <;> simp [ProcCall.inner]
  have hinnerLocks : ∀ i, k.inner = some i → i.locks = [] := by
    cases k <;> simp [ProcCall.inner, Inner.locks]
  have hold : (s.thread q).locks = [] := by
    rw [Thread.locks, hy, Thread.baseLocks, hinner, Thread.callLocks, hcall]
    rfl
  have hnew : ((s.thread q).make k).locks = [] := by
    rw [Thread.locks, Thread.make, hy, Thread.baseLocks]
    cases hi : k.inner with
    | none => exact hlocks
    | some i => exact hinnerLocks i hi
  have hok : ((s.thread q).make k).Ok :=
    { yield := fun h => absurd hy h
      sleep := fun pc chan lk h => absurd h (hsleep pc chan lk)
      sleepOnCond := fun _ _ _ _ => hlocks
      mutexLock := fun _ _ => hlocks }
  refine inv.stay here (inv.fits hok (Or.inl hembryo) fun b np hf => ?_) rfl rfl rfl fun l => ?_
  · rw [Option.some.inj hf] at hembryo
    cases hembryo
  · rw [hnew, hold]

/-- A timer interrupt comes while no lock is held. -/
theorem Inv.timer (inv : s.Inv) (here : (s.cpus c).place = .process q)
    (enabled : s.Interruptible c) (quiet : (s.thread q).yielding = none) :
    (s.setThread q ((s.thread q).yield (some .start))).Inv := by
  have hnone : ∀ l, l ∉ (s.thread q).locks := fun l hl => by
    rw [← inv.mem_held here, show (s.cpus c).held = [] from enabled] at hl
    cases hl
  have hbase : (s.thread q).baseLocks = [] := by
    rw [List.eq_nil_iff_forall_not_mem]
    intro l hl
    refine hnone l ?_
    rw [Thread.locks, quiet]
    exact hl
  exact inv.stay here (inv.fits_yield hbase _) rfl rfl rfl fun l =>
    iff_of_false List.not_mem_nil (hnone l)

/-- Every action keeps the invariant. -/
theorem Inv.step (inv : s.Inv) (step : Step a s t) : t.Inv := by
  cases a with
  | call c k =>
    obtain ⟨q, here, step⟩ := onProcess_eq_some.mp step
    split at step
    next h =>
      cases step
      exact inv.make here h k
    next => cases step
  | step c ans =>
    change s.runCpu c ans = some t at step
    rw [runCpu] at step
    split at step
    next here => exact inv.runIdle here step
    next here => exact inv.runBack here step
    next q here =>
      rw [inv.curproc here] at step
      exact inv.runProcess here step
  | timer c =>
    obtain ⟨q, here, step⟩ := onProcess_eq_some.mp step
    split at step
    next h =>
      cases step
      exact inv.timer here h.1 h.2
    next => cases step
  | intr c chan =>
    change (if _ then _ else none) = some t at step
    split at step
    next =>
      obtain ⟨-, rfl⟩ := critical_eq_some.mp step
      exact inv.wake (ProcTable.wakeup1_wakes _)
    next => cases step
  | block c chan lk =>
    obtain ⟨q, here, step⟩ := onProcess_eq_some.mp step
    split at step
    next h =>
      obtain ⟨hfree, rfl⟩ := acquire_some.mp step
      have hcall : s.InCall c q (.exit .files) := ⟨here, h.2.2, h.2.1, h.1⟩
      exact inv.lockNext hcall hfree rfl rfl rfl (Or.inl rfl) (by simp) rfl rfl
    next => cases step

end Steps

end Machine

end Xv6
