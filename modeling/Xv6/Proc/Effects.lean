/-
# What an action does

The invariants of later modules each speak about a few fields of the machine. Here every
action is read once: what it does to the shared variables, and how the code of the
process that runs goes on.
-/

import Xv6.Proc.Scheduling

namespace Xv6

namespace Machine

/-- The variables that processes share. -/
structure Shared where
  proc : ProcTable
  ttltcts : Int
  initproc : ProcId
  cond : Nat → Bool
  word : Nat → Int → Int

variable (s : Machine) (q : ProcId)

/-- The shared variables of the machine. -/
def shared : Shared := ⟨s.proc, s.ttltcts, s.initproc, s.cond, s.word⟩

/-- The shared variables after a change of the table. -/
def withTable (table : ProcTable) : Shared := { s.shared with proc := table }

/-- The shared variables after a store to `ttltcts`. -/
def withTotal (total : Int) : Shared := { s.shared with ttltcts := total.bmod (2 ^ 32) }

/-- The shared variables after a segment of `sleep`. -/
def sleepShared (chan : Chan) : SleepPc → Shared
  | .doze => s.withTable (s.proc.set q fun r => { r with chan := some chan, state := .SLEEPING })
  | .sched => s.withTable (s.proc.set q fun r => { r with chan := none })
  | _ => s.shared

/-- The shared variables after a segment of a function that a call has called. -/
def innerShared : Inner → Shared
  | .sleep pc chan _ => s.sleepShared q chan pc
  | .sleepOnCond false cond mutex =>
    { s.withTable (s.proc.set q fun r => { r with condAddr := cond, state := .SLEEPING }) with
      word := (s.store q mutex 0).word }
  | .sleepOnCond true _ _ => s.shared
  | .mutexLock m => { s.shared with word := (s.store q m 1).word }

/-- The shared variables after a segment of `fork`. -/
def forkShared (thread : Bool) (ans : Nat) : ForkPc → Shared
  | .start =>
    match s.proc.unused with
    | none => s.shared
    | some np => s.withTable (s.proc.embryo np s.nextpid)
  | .count _ t => s.withTotal (t + 100)
  | .giveUp np => s.withTable (s.proc.setState np .UNUSED)
  | .parent np => s.withTable (s.proc.set np fun r => { r with parent := some q })
  | .image np =>
    if thread then s.withTable (s.proc.set np fun r => { r with mem := (s.proc q).mem })
    else if ans = 0 then s.withTable (s.proc.set np fun r => { r with mem := 0 })
    else
      { s.withTable (s.proc.set np fun r => { r with mem := ans }) with
        word := Function.update s.word ans (s.word (s.proc q).mem) }
  | .drop np => s.withTable (s.proc.setState np .UNUSED)
  | .clear np => s.withTable (s.proc.set np fun r => { r with parent := none })
  | .ready np => s.withTable (s.proc.setState np .RUNNABLE)
  | _ => s.shared

/-- The shared variables after a segment of a call. -/
def frameShared (ans : Nat) : Frame → Shared
  | .waiter .test a _ _ true =>
    if s.cond a then { s.shared with cond := Function.update s.cond a false } else s.shared
  | .waker .set a _ _ _ => { s.shared with cond := Function.update s.cond a true }
  | .waker .wakeLocked _ chan _ _ => s.withTable (s.proc.wakeup1 (some (.object chan)))
  | .waker .wake _ chan _ _ => s.withTable (s.proc.wakeup1 (some (.object chan)))
  | .kill pid => s.withTable (s.proc.kill pid).1
  | .wait .scan =>
    match s.proc.zombieChild q with
    | some p => s.withTable (s.proc.reap p)
    | none => s.shared
  | .exit (.sub _ t) => s.withTotal (t - (s.proc q).tctcnt)
  | .exit .pass => s.withTable (s.proc.exit s.initproc q)
  | .fork thread pc => s.forkShared q thread ans pc
  | .procTickets (.sub t) _ => s.withTotal (t - (s.proc q).tctcnt)
  | .procTickets .set n => s.withTable (s.proc.set q fun r => { r with tctcnt := n })
  | .procTickets (.add t) _ => s.withTotal (t + (s.proc q).tctcnt)
  | .wakeOnCond cond => s.withTable (s.proc.wakeOnCond (s.proc q).mem cond)
  | .condWaiter .test pred _ mutex take =>
    if s.load q pred = 0 then s.shared
    else
      { s.shared with
        word := ((if take then s.store q pred 0 else s).store q mutex 0).word }
  | .signaller .set pred _ _ => { s.shared with word := (s.store q pred 1).word }
  | .signaller .signal _ cond _ => s.withTable (s.proc.wakeOnCond (s.proc q).mem cond)
  | .signaller .unlock _ _ mutex => { s.shared with word := (s.store q mutex 0).word }
  | _ => s.shared

/-- The shared variables after a segment of a process. -/
def processShared (ans : Nat) : Shared :=
  match (s.thread q).yielding, (s.thread q).inner, (s.thread q).call with
  | some .start, _, _ => s.withTable (s.proc.setState q .RUNNABLE)
  | none, some i, _ => s.innerShared q i
  | none, none, some f => s.frameShared q ans f
  | _, _, _ => s.shared

/-- The shared variables after an action. -/
def sharedAfter : Act → Shared
  | .step c ans =>
    match (s.cpus c).place with
    | .idle =>
      match s.draw ans with
      | some p => s.withTable (s.proc.setState p .RUNNING)
      | none => s.shared
    | .back => s.shared
    | .process q => s.processShared q ans
  | .intr _ chan => s.withTable (s.proc.wakeup1 (some (.object chan)))
  | _ => s.shared

/-- The code of a process after a segment of `sleep`. -/
def sleepThread (chan : Chan) (lk : LockId) : SleepPc → Thread
  | .start =>
    (s.thread q).enter (.sleep (if lk = .procTable then .doze else .unlock) chan lk)
  | .unlock => (s.thread q).enter (.sleep .doze chan lk)
  | .doze => (s.thread q).enter (.sleep .sched chan lk)
  | .sched =>
    if lk = .procTable then (s.thread q).leave else (s.thread q).enter (.sleep .relock chan lk)
  | .relock => (s.thread q).leave

/-- The code of a process after a segment of a function that its call has called. -/
def innerThread : Inner → Thread
  | .sleep pc chan lk => s.sleepThread q chan lk pc
  | .sleepOnCond false cond mutex => (s.thread q).enter (.sleepOnCond true cond mutex)
  | .sleepOnCond true _ _ => (s.thread q).leave
  | .mutexLock m => if s.load q m = 1 then s.thread q else (s.thread q).leave

/-- The code of a process after a segment of `exit`. -/
def exitThread (ans : Nat) : ExitPc → Thread
  | .start =>
    let parentMem := (s.proc q).parent.elim ans fun p => (s.proc p).mem
    (s.thread q).goto (.exit (.load (parentMem = (s.proc q).mem)))
  | .load isThread => (s.thread q).goto (.exit (.sub isThread s.ttltcts))
  | .sub isThread _ => (s.thread q).goto (.exit (.check isThread))
  | .check isThread => (s.thread q).goto (.exit (if isThread then .lock else .files))
  | .files => (s.thread q).goto (.exit .lock)
  | .busy chan lk =>
    if ans = 0 then (s.thread q).goto (.exit .files)
    else (s.thread q).enter (.sleep .start (.object chan) lk)
  | .lock => (s.thread q).goto (.exit .pass)
  | .pass => (s.thread q).goto (.exit .dead)
  | .dead => s.thread q

/-- The code of a process after a segment of `fork`. -/
def forkThread (thread : Bool) (ans : Nat) : ForkPc → Thread
  | .start =>
    match s.proc.unused with
    | none => .user (-1)
    | some np => (s.thread q).goto (.fork thread (.load np))
  | .load np => (s.thread q).goto (.fork thread (.count np s.ttltcts))
  | .count np _ => (s.thread q).goto (.fork thread (.kstack np))
  | .kstack np =>
    (s.thread q).goto (.fork thread (if ans = 0 then .giveUp np else .parent np))
  | .giveUp _ => .user (-1)
  | .parent np => (s.thread q).goto (.fork thread (.image np))
  | .image np =>
    (s.thread q).goto (.fork thread (if !thread && ans = 0 then .drop np else .context np))
  | .drop np => (s.thread q).goto (.fork thread (.clear np))
  | .clear _ => .user (-1)
  | .context np => (s.thread q).goto (.fork thread (.ready np))
  | .ready np => .user (s.proc np).pid

/-- The code of a process after a segment of `sys_proc_tickets`. -/
def ticketsThread (n : Int) : TicketsPc → Thread
  | .start =>
    if 0 < n then (s.thread q).goto (.procTickets .load n)
    else .user (if n < 0 then -1 else (s.proc q).tctcnt)
  | .load => (s.thread q).goto (.procTickets (.sub s.ttltcts) n)
  | .sub _ => (s.thread q).goto (.procTickets .set n)
  | .set => (s.thread q).goto (.procTickets .reload n)
  | .reload => (s.thread q).goto (.procTickets (.add s.ttltcts) n)
  | .add _ => (s.thread q).goto (.procTickets .unlock n)
  | .unlock => .user (s.proc q).tctcnt

/-- The code of a process after a segment of its call. -/
def frameThread (ans : Nat) : Frame → Thread
  | .forkret => .user (s.thread q).eax
  | .waiter .start a chan lk take => (s.thread q).goto (.waiter .test a chan lk take)
  | .waiter .test a chan lk _ =>
    if s.cond a then .user 0 else (s.thread q).enter (.sleep .start (.object chan) lk)
  | .waker .start a chan lk early => (s.thread q).goto (.waker .set a chan lk early)
  | .waker .set a chan lk early =>
    (s.thread q).goto (.waker (if early then .wakeLocked else .unlockFirst) a chan lk early)
  | .waker .wakeLocked a chan lk early => (s.thread q).goto (.waker .unlockLast a chan lk early)
  | .waker .unlockLast _ _ _ _ => .user 0
  | .waker .unlockFirst a chan lk early => (s.thread q).goto (.waker .wake a chan lk early)
  | .waker .wake _ _ _ _ => .user 0
  | .kill pid => .user (s.proc.kill pid).2
  | .wait .start => (s.thread q).goto (.wait .scan)
  | .wait .scan =>
    match s.proc.zombieChild q with
    | some p => .user (s.proc p).pid
    | none =>
      if s.proc.haveKids q = false ∨ (s.proc q).killed = true then .user (-1)
      else (s.thread q).enter (.sleep .start (.proc q) .procTable)
  | .exit pc => s.exitThread q ans pc
  | .fork thread pc => s.forkThread q thread ans pc
  | .procTickets pc n => s.ticketsThread q n pc
  | .wakeOnCond _ => .user 0
  | .sleepOnCond => .user 0
  | .condWaiter .test pred cond mutex take =>
    if s.load q pred = 0 then
      ((s.thread q).goto (.condWaiter .relock pred cond mutex take)).enter
        (.sleepOnCond false cond mutex)
    else .user 0
  | .condWaiter _ pred cond mutex take =>
    ((s.thread q).goto (.condWaiter .test pred cond mutex take)).enter (.mutexLock mutex)
  | .signaller .start pred cond mutex =>
    ((s.thread q).goto (.signaller .set pred cond mutex)).enter (.mutexLock mutex)
  | .signaller .set pred cond mutex => (s.thread q).goto (.signaller .signal pred cond mutex)
  | .signaller .signal pred cond mutex => (s.thread q).goto (.signaller .unlock pred cond mutex)
  | .signaller .unlock _ _ _ => .user 0

/-- The process on CPU `c` runs a function that its call has called. -/
structure InInner (s : Machine) (c : CpuId) (p : ProcId) (i : Inner) : Prop where
  here : (s.cpus c).place = .process p
  quiet : (s.thread p).yielding = none
  place : (s.thread p).inner = some i

/-- How the code of process `p` goes on in an action. -/
inductive Goes (s : Machine) (a : Act) (t : Machine) (p : ProcId) : Prop
  /-- The process does not run. -/
  | same (thread : t.thread p = s.thread p)
  /-- The process makes a call. -/
  | make (c : CpuId) (k : ProcCall) (act : a = .call c k) (here : (s.cpus c).place = .process p)
      (user : (s.thread p).InUser) (thread : t.thread p = (s.thread p).make k)
  /-- An interrupt makes the process yield. -/
  | timer (c : CpuId) (act : a = .timer c) (here : (s.cpus c).place = .process p)
      (enabled : s.Interruptible c) (thread : t.thread p = (s.thread p).yield (some .start))
  /-- The process runs `yield`. -/
  | yield (c : CpuId) (ans : Nat) (pc : YieldPc) (act : a = .step c ans)
      (here : (s.cpus c).place = .process p) (place : (s.thread p).yielding = some pc)
      (thread : t.thread p = (s.thread p).yield (if pc = .start then some .sched else none))
  /-- The process runs a function that its call has called. -/
  | inner (c : CpuId) (ans : Nat) (i : Inner) (act : a = .step c ans)
      (here : s.InInner c p i) (thread : t.thread p = s.innerThread p i)
  /-- The process runs its call. -/
  | frame (c : CpuId) (ans : Nat) (f : Frame) (act : a = .step c ans) (here : s.InCall c p f)
      (run : s.runFrame c p p ans f = some t) (thread : t.thread p = s.frameThread p ans f)
  /-- The code that closes files in `exit` takes a lock. -/
  | block (c : CpuId) (chan : Nat) (lk : LockId) (act : a = .block c chan lk)
      (here : s.InCall c p (.exit .files))
      (thread : t.thread p = (s.thread p).goto (.exit (.busy chan lk)))
  /-- Another process sets up the context of a new one. -/
  | fresh (q : ProcId) (thread : Bool) (other : q ≠ p)
      (place : (s.thread q).call = some (.fork thread (.context p)))
      (fresh : t.thread p = Thread.fresh)

section Effects

variable {s t : Machine} {c : CpuId} {q : ProcId} {a : Act}

theorem runYield_effect {pc : YieldPc} (step : s.runYield c q q pc = some t) :
    (t.shared = match pc with
      | .start => s.withTable (s.proc.setState q .RUNNABLE)
      | .sched => s.shared) ∧
    t.thread = Function.update s.thread q
      ((s.thread q).yield (if pc = .start then some .sched else none)) := by
  cases pc with
  | start =>
    obtain ⟨-, step⟩ := acquire_bind.mp step
    obtain ⟨-, rfl⟩ := sched_eq_some.mp step
    exact ⟨rfl, rfl⟩
  | sched =>
    obtain ⟨-, rfl⟩ := release_some.mp step
    exact ⟨rfl, rfl⟩

variable {lk : LockId}

theorem runSleep_effect {pc : SleepPc} {chan : Chan} (step : s.runSleep c q q chan lk pc = some t) :
    t.shared = s.sleepShared q chan pc ∧
    t.thread = Function.update s.thread q (s.sleepThread q chan lk pc) := by
  cases pc with
  | start =>
    rw [runSleep] at step
    rw [sleepThread]
    split at step
    next hlk =>
      cases step
      exact ⟨rfl, by rw [if_pos hlk]; rfl⟩
    next hlk =>
      obtain ⟨-, rfl⟩ := acquire_some.mp step
      exact ⟨rfl, by rw [if_neg hlk]; rfl⟩
  | unlock =>
    obtain ⟨-, rfl⟩ := release_some.mp step
    exact ⟨rfl, rfl⟩
  | doze =>
    obtain ⟨-, rfl⟩ := sched_eq_some.mp step
    exact ⟨rfl, rfl⟩
  | sched =>
    rw [runSleep] at step
    rw [sleepThread]
    split at step
    next hlk =>
      cases step
      exact ⟨rfl, by rw [if_pos hlk]; rfl⟩
    next hlk =>
      obtain ⟨-, rfl⟩ := release_some.mp step
      exact ⟨rfl, by rw [if_neg hlk]; rfl⟩
  | relock =>
    obtain ⟨-, rfl⟩ := acquire_some.mp step
    exact ⟨rfl, rfl⟩

theorem runInner_effect {i : Inner} (step : s.runInner c q q i = some t) :
    t.shared = s.innerShared q i ∧
    t.thread = Function.update s.thread q (s.innerThread q i) := by
  cases i with
  | sleep pc chan lk => exact runSleep_effect step
  | sleepOnCond switched cond mutex =>
    cases switched with
    | false =>
      obtain ⟨-, step⟩ := acquire_bind.mp step
      obtain ⟨-, rfl⟩ := sched_eq_some.mp step
      refine ⟨?_, rfl⟩
      -- the image is the same after the stores to the table
      have hmem : (s.proc.set q (fun r => { r with condAddr := cond, state := .SLEEPING }) q).mem =
          (s.proc q).mem := by rw [ProcTable.set_self]
      simp only [shared, innerShared, withTable, setCpu, enter, setThread, store, setTable, lock,
        hmem]
    | true =>
      obtain ⟨-, rfl⟩ := release_some.mp step
      exact ⟨rfl, rfl⟩
  | mutexLock m =>
    rw [runInner] at step
    rw [innerThread]
    split at step
    next hm =>
      cases step
      exact ⟨rfl, by rw [if_pos hm, Function.update_eq_self]; rfl⟩
    next hm =>
      cases step
      exact ⟨rfl, by rw [if_neg hm]; rfl⟩

/-- What a segment of the call `f` does. -/
structure Effect (s : Machine) (q : ProcId) (ans : Nat) (f : Frame) (t : Machine) : Prop where
  shared : t.shared = s.frameShared q ans f
  thread : t.thread = Function.update s.thread q (s.frameThread q ans f)

variable {f : Frame} {ans : Nat}

theorem runWaiter_effect {pc : WaiterPc} {a chan : Nat} {take : Bool}
    (step : s.runWaiter c q a chan lk take pc = some t) :
    Effect s q ans (.waiter pc a chan lk take) t := by
  cases pc with
  | start =>
    obtain ⟨-, rfl⟩ := acquire_some.mp step
    exact ⟨rfl, rfl⟩
  | test =>
    rw [runWaiter] at step
    split at step
    next hcond =>
      obtain ⟨-, rfl⟩ := release_some.mp step
      cases take with
      | false => exact ⟨rfl, by rw [frameThread, if_pos hcond]; rfl⟩
      | true =>
        exact ⟨by rw [frameShared, if_pos hcond]; rfl, by rw [frameThread, if_pos hcond]; rfl⟩
    next hcond =>
      cases step
      have hthread : _ = s.frameThread q ans (.waiter .test a chan lk take) :=
        (if_neg hcond).symm
      cases take with
      | false => exact ⟨rfl, by rw [← hthread]; rfl⟩
      | true => exact ⟨by rw [frameShared, if_neg hcond]; rfl, by rw [← hthread]; rfl⟩

theorem runWaker_effect {pc : WakerPc} {a chan : Nat} {early : Bool}
    (step : s.runWaker c q a chan lk early pc = some t) :
    Effect s q ans (.waker pc a chan lk early) t := by
  cases pc with
  | start =>
    obtain ⟨-, rfl⟩ := acquire_some.mp step
    exact ⟨rfl, rfl⟩
  | set =>
    cases step
    exact ⟨rfl, rfl⟩
  | wakeLocked | wake =>
    obtain ⟨-, rfl⟩ := critical_eq_some.mp step
    exact ⟨rfl, rfl⟩
  | unlockLast | unlockFirst =>
    obtain ⟨-, rfl⟩ := release_some.mp step
    exact ⟨rfl, rfl⟩

theorem runWait_effect {pc : WaitPc} (step : s.runWait c q q pc = some t) :
    Effect s q ans (.wait pc) t := by
  cases pc with
  | start =>
    obtain ⟨-, rfl⟩ := acquire_some.mp step
    exact ⟨rfl, rfl⟩
  | scan =>
    rw [runWait] at step
    split at step
    next p hp =>
      obtain ⟨-, rfl⟩ := release_some.mp step
      exact ⟨by rw [frameShared, hp]; rfl, by rw [frameThread, hp]; rfl⟩
    next hp =>
      split at step
      next hkids =>
        obtain ⟨-, rfl⟩ := release_some.mp step
        exact ⟨by rw [frameShared, hp]; rfl, by simp only [frameThread, hp, if_pos hkids]; rfl⟩
      next hkids =>
        cases step
        exact ⟨by rw [frameShared, hp]; rfl, by simp only [frameThread, hp, if_neg hkids]; rfl⟩

theorem runExit_effect {pc : ExitPc} (step : s.runExit c q q ans pc = some t) :
    Effect s q ans (.exit pc) t := by
  cases pc with
  | start | load _ | sub _ _ | files =>
    cases step
    exact ⟨rfl, rfl⟩
  | check isThread =>
    rw [runExit] at step
    split at step
    next => cases step
    next =>
      cases step
      exact ⟨rfl, rfl⟩
  | busy chan lk =>
    rw [runExit] at step
    split at step
    next hans =>
      obtain ⟨-, rfl⟩ := release_some.mp step
      exact ⟨rfl, by rw [frameThread, exitThread, if_pos hans]; rfl⟩
    next hans =>
      cases step
      exact ⟨rfl, by rw [frameThread, exitThread, if_neg hans]; rfl⟩
  | lock =>
    obtain ⟨-, rfl⟩ := acquire_some.mp step
    exact ⟨rfl, rfl⟩
  | pass =>
    obtain ⟨-, rfl⟩ := sched_eq_some.mp step
    exact ⟨rfl, rfl⟩
  | dead => cases step

theorem runFork_effect {thread : Bool} {pc : ForkPc} (other : ∀ np, pc ≠ .context np)
    (step : s.runFork c q q thread ans pc = some t) : Effect s q ans (.fork thread pc) t := by
  cases pc with
  | start =>
    rw [runFork] at step
    split at step
    next hnp =>
      obtain ⟨-, rfl⟩ := critical_eq_some.mp step
      exact ⟨by rw [frameShared, forkShared, hnp]; rfl, by rw [frameThread, forkThread, hnp]; rfl⟩
    next np hnp =>
      obtain ⟨-, rfl⟩ := acquire_some.mp step
      exact ⟨by rw [frameShared, forkShared, hnp]; rfl, by rw [frameThread, forkThread, hnp]; rfl⟩
  | load _ | kstack _ | giveUp _ | parent _ | drop _ | clear _ | ready _ =>
    cases step
    exact ⟨rfl, rfl⟩
  | count np total =>
    obtain ⟨-, rfl⟩ := release_some.mp step
    exact ⟨rfl, rfl⟩
  | image np =>
    rw [runFork] at step
    split at step
    next hthread =>
      cases step
      exact ⟨by rw [frameShared, forkShared, if_pos hthread]; rfl, by subst hthread; rfl⟩
    next hthread =>
      obtain rfl : thread = false := Bool.not_eq_true _ ▸ hthread
      split at step
      next hans =>
        cases step
        subst hans
        exact ⟨rfl, rfl⟩
      next hans =>
        cases step
        refine ⟨by rw [frameShared, forkShared, if_neg hthread, if_neg hans]; rfl, ?_⟩
        rw [frameThread, forkThread, if_neg (by simpa using hans)]
        rfl
  | context np => exact absurd rfl (other np)

theorem runProcTickets_effect {pc : TicketsPc} {n : Int}
    (step : s.runProcTickets c q q n pc = some t) : Effect s q ans (.procTickets pc n) t := by
  cases pc with
  | start =>
    rw [runProcTickets] at step
    split at step
    next hn =>
      obtain ⟨-, rfl⟩ := acquire_some.mp step
      exact ⟨rfl, by rw [frameThread, ticketsThread, if_pos hn]; rfl⟩
    next hn =>
      cases step
      exact ⟨rfl, by rw [frameThread, ticketsThread, if_neg hn]; rfl⟩
  | load | sub _ | set | reload | add _ =>
    cases step
    exact ⟨rfl, rfl⟩
  | unlock =>
    obtain ⟨-, rfl⟩ := release_some.mp step
    exact ⟨rfl, rfl⟩

theorem runCondWaiter_effect {pc : CondWaiterPc} {pred cond mutex : Int} {take : Bool}
    (step : s.runCondWaiter q q pred cond mutex take pc = some t) :
    Effect s q ans (.condWaiter pc pred cond mutex take) t := by
  cases pc with
  | start | relock =>
    cases step
    exact ⟨rfl, rfl⟩
  | test =>
    rw [runCondWaiter] at step
    split at step
    next hpred =>
      cases step
      exact ⟨by rw [frameShared, if_pos hpred]; rfl, by rw [frameThread, if_pos hpred]; rfl⟩
    next hpred =>
      cases step
      refine ⟨by rw [frameShared, if_neg hpred]; cases take <;> rfl, ?_⟩
      rw [frameThread, if_neg hpred]
      cases take <;> rfl

theorem runSignaller_effect {pc : SignallerPc} {pred cond mutex : Int}
    (step : s.runSignaller q q pred cond mutex pc = some t) :
    Effect s q ans (.signaller pc pred cond mutex) t := by
  cases pc with
  | start | set | unlock =>
    cases step
    exact ⟨rfl, rfl⟩
  | signal =>
    obtain ⟨-, rfl⟩ := critical_eq_some.mp step
    exact ⟨rfl, rfl⟩

/-- Every segment of a call, except the one that sets up a context. -/
theorem runFrame_effect (other : ∀ b np, f ≠ .fork b (.context np))
    (step : s.runFrame c q q ans f = some t) :
    Effect s q ans f t := by
  cases f with
  | forkret =>
    obtain ⟨-, rfl⟩ := release_some.mp step
    exact ⟨rfl, rfl⟩
  | waiter pc a chan lk take => exact runWaiter_effect step
  | waker pc a chan lk early => exact runWaker_effect step
  | kill _ | wakeOnCond _ =>
    obtain ⟨-, rfl⟩ := critical_eq_some.mp step
    exact ⟨rfl, rfl⟩
  | wait pc => exact runWait_effect step
  | exit pc => exact runExit_effect step
  | fork thread pc => exact runFork_effect (fun np h => other thread np (h ▸ rfl)) step
  | procTickets pc n => exact runProcTickets_effect step
  | sleepOnCond =>
    cases step
    exact ⟨rfl, rfl⟩
  | condWaiter pc pred cond mutex take => exact runCondWaiter_effect step
  | signaller pc pred cond mutex => exact runSignaller_effect step

end Effects

section Actions

variable {s t : Machine} {a : Act} {c : CpuId} {ans : Nat} {p : ProcId}

/-- A segment of a process, by the place of its code. -/
theorem runProcess_cases {q : ProcId} (step : s.runProcess c q q ans = some t) :
    (∃ pc, (s.thread q).yielding = some pc ∧ s.runYield c q q pc = some t) ∨
    (∃ i, (s.thread q).yielding = none ∧ (s.thread q).inner = some i ∧
      s.runInner c q q i = some t) ∨
    (∃ f, (s.thread q).yielding = none ∧ (s.thread q).inner = none ∧
      (s.thread q).call = some f ∧ s.runFrame c q q ans f = some t) := by
  cases hy : (s.thread q).yielding with
  | some pc =>
    simp only [runProcess, hy] at step
    exact Or.inl ⟨pc, rfl, step⟩
  | none =>
    cases hi : (s.thread q).inner with
    | some i =>
      simp only [runProcess, hy, hi] at step
      exact Or.inr (Or.inl ⟨i, rfl, rfl, step⟩)
    | none =>
      cases hf : (s.thread q).call with
      | some f =>
        simp only [runProcess, hy, hi, hf] at step
        exact Or.inr (Or.inr ⟨f, rfl, rfl, rfl, step⟩)
      | none => simp [runProcess, hy, hi, hf] at step

/-- The segment of a function that its call has called. -/
theorem Step.runInner {i : Inner} (inv : s.Inv)
    (step : Step (.step c ans) s t) (here : s.InInner c p i) : s.runInner c p p i = some t := by
  have run : s.runCpu c ans = some t := step
  simp only [runCpu, here.here, inv.curproc here.here, Option.bind_some, runProcess, here.quiet,
    here.place] at run
  exact run

/-- The segment of a call. -/
theorem Step.runFrame {f : Frame} (inv : s.Inv)
    (step : Step (.step c ans) s t) (here : s.InCall c p f) : s.runFrame c p p ans f = some t := by
  have run : s.runCpu c ans = some t := step
  simp only [runCpu, here.here, inv.curproc here.here, Option.bind_some, runProcess, here.quiet,
    here.noInner, here.call] at run
  exact run

/-- The code of the process after a segment of its call. -/
theorem runFrame_thread {f : Frame} (inv : s.Inv)
    (here : s.InCall c p f) (run : s.runFrame c p p ans f = some t) :
    t.thread p = s.frameThread p ans f := by
  by_cases hctx : ∃ b np, f = .fork b (.context np)
  · obtain ⟨b, np, rfl⟩ := hctx
    cases run
    -- the new process is not the one that runs
    have hne : p ≠ np := by
      rintro rfl
      have h := inv.embryo p p (by rw [Thread.embryo, here.call]; rfl)
      rw [inv.state_running here.here] at h
      cases h
    rw [goto, setThread_self, setThread_of_ne hne]
    rfl
  · rw [(runFrame_effect (fun b np h => hctx ⟨b, np, h⟩) run).thread, Function.update_self]

/-- What an action does to the shared variables. -/
theorem Step.shared (inv : s.Inv) (step : Step a s t) : t.shared = s.sharedAfter a := by
  cases a with
  | call _ _ | timer _ =>
    obtain ⟨q, here, step⟩ := onProcess_eq_some.mp step
    split at step
    next =>
      cases step
      rfl
    next => cases step
  | step c ans =>
    change s.runCpu c ans = some t at step
    rw [runCpu] at step
    rw [sharedAfter]
    cases hplace : (s.cpus c).place with
    | idle =>
      rw [hplace] at step
      simp only [runIdle] at step
      split at step
      next =>
        cases hdraw : s.draw ans with
        | some _ | none =>
          rw [hdraw] at step
          cases step
          rfl
      next => cases step
    | back =>
      rw [hplace] at step
      simp only [runBack, release] at step
      split at step
      next =>
        cases step
        rfl
      next => cases step
    | process q =>
      rw [hplace, inv.curproc hplace] at step
      rcases runProcess_cases step with ⟨pc, hy, step⟩ | ⟨i, hy, hi, step⟩ | ⟨f, hy, hi, hf, step⟩
      · have h := (runYield_effect step).1
        cases pc with
        | start | sched => simp only [processShared, hy, h]
      · simp only [processShared, hy, hi, (runInner_effect step).1]
      · simp only [processShared, hy, hi, hf]
        by_cases hctx : ∃ b np, f = .fork b (.context np)
        · obtain ⟨b, np, rfl⟩ := hctx
          cases step
          rfl
        · exact (runFrame_effect (fun b np h => hctx ⟨b, np, h⟩) step).shared
  | intr c chan =>
    change (if _ then _ else none) = some t at step
    split at step
    next =>
      obtain ⟨-, rfl⟩ := critical_eq_some.mp step
      rfl
    next => cases step
  | block c chan lk =>
    obtain ⟨q, here, step⟩ := onProcess_eq_some.mp step
    split at step
    next =>
      obtain ⟨-, rfl⟩ := acquire_some.mp step
      rfl
    next => cases step

/-- Which code changes the shared variables other than the table. -/
inductive SharedMove (s : Machine) (a : Act) (t : Machine) : Prop
  | table (ttltcts : t.ttltcts = s.ttltcts) (cond : t.cond = s.cond) (word : t.word = s.word)
  | inner (c : CpuId) (ans : Nat) (q : ProcId) (i : Inner) (act : a = .step c ans)
      (here : s.InInner c q i) (shared : t.shared = s.innerShared q i)
  | frame (c : CpuId) (ans : Nat) (q : ProcId) (f : Frame) (act : a = .step c ans)
      (here : s.InCall c q f) (shared : t.shared = s.frameShared q ans f)

theorem Step.shared_move (inv : s.Inv) (step : Step a s t) : SharedMove s a t := by
  have hshared := step.shared inv
  have htable : ∀ table, t.shared = s.withTable table → SharedMove s a t := fun table h =>
    .table (congrArg Shared.ttltcts h) (congrArg Shared.cond h) (congrArg Shared.word h)
  cases a with
  | call _ _ | timer _ | block _ _ _ | intr _ _ => exact htable _ hshared
  | step c ans =>
    rw [sharedAfter] at hshared
    cases hplace : (s.cpus c).place with
    | idle =>
      simp only [hplace] at hshared
      split at hshared <;> exact htable _ hshared
    | back =>
      simp only [hplace] at hshared
      exact htable _ hshared
    | process q =>
      simp only [hplace, processShared] at hshared
      cases hy : (s.thread q).yielding with
      | some pc =>
        simp only [hy] at hshared
        cases pc <;> exact htable _ hshared
      | none =>
        cases hi : (s.thread q).inner with
        | some i =>
          simp only [hy, hi] at hshared
          exact .inner c ans q i rfl ⟨hplace, hy, hi⟩ hshared
        | none =>
          cases hf : (s.thread q).call with
          | some f =>
            simp only [hy, hi, hf] at hshared
            exact .frame c ans q f rfl ⟨hplace, hy, hi, hf⟩ hshared
          | none =>
            simp only [hy, hi, hf] at hshared
            exact htable _ hshared

/-- `initproc` does not change. -/
theorem Step.initproc (inv : s.Inv) (step : Step a s t) : t.initproc = s.initproc := by
  have h : t.initproc = (s.sharedAfter a).initproc :=
    congrArg Shared.initproc (step.shared inv)
  rw [h]
  unfold sharedAfter processShared innerShared sleepShared frameShared forkShared
  repeat' split
  all_goals rfl

/-- How the code of every process goes on. -/
theorem Step.goes (inv : s.Inv) (step : Step a s t) (p : ProcId) : Goes s a t p := by
  -- an action that changes the code of `q` only
  have hone : ∀ q th, t.thread = Function.update s.thread q th →
      (t.thread q = th → Goes s a t q) → Goes s a t p := by
    intro q th hthread hq
    by_cases h : p = q
    · rw [h]
      exact hq (by rw [hthread, Function.update_self])
    · exact .same (by rw [hthread, Function.update_of_ne h])
  cases a with
  | call c k =>
    obtain ⟨q, here, step⟩ := onProcess_eq_some.mp step
    split at step
    next hu =>
      cases step
      exact hone q _ rfl fun h => .make c k rfl here hu h
    next => cases step
  | step c ans =>
    have run : s.runCpu c ans = some t := step
    rw [runCpu] at run
    cases hplace : (s.cpus c).place with
    | idle =>
      rw [hplace] at run
      simp only [runIdle] at run
      split at run
      next =>
        split at run
        · cases run
          exact .same rfl
        · cases run
          exact .same rfl
      next => cases run
    | back =>
      rw [hplace] at run
      simp only [runBack, release] at run
      split at run
      next =>
        cases run
        exact .same rfl
      next => cases run
    | process q =>
      rw [hplace, inv.curproc hplace] at run
      rcases runProcess_cases run with ⟨pc, hy, run⟩ | ⟨i, hy, hi, run⟩ | ⟨f, hy, hi, hf, run⟩
      · exact hone q _ (runYield_effect run).2 fun h => .yield c ans pc rfl hplace hy h
      · exact hone q _ (runInner_effect run).2 fun h => .inner c ans i rfl ⟨hplace, hy, hi⟩ h
      · by_cases hctx : ∃ b np, f = .fork b (.context np)
        · obtain ⟨b, np, rfl⟩ := hctx
          by_cases hq : p = q
          · rw [hq]
            have here : s.InCall c q _ := ⟨hplace, hy, hi, hf⟩
            exact .frame c ans _ rfl here run (runFrame_thread inv here run)
          · by_cases hnp : p = np
            · refine .fresh q b (fun e => hq e.symm) (hnp ▸ hf) ?_
              cases run
              rw [goto, setThread_of_ne hq, hnp, setThread_self]
            · cases run
              refine .same ?_
              rw [goto, setThread_of_ne hq, setThread_of_ne hnp]
        · exact hone q _ (runFrame_effect (fun b np h => hctx ⟨b, np, h⟩) run).thread fun h =>
            .frame c ans f rfl ⟨hplace, hy, hi, hf⟩ run h
  | timer c =>
    obtain ⟨q, here, step⟩ := onProcess_eq_some.mp step
    split at step
    next h =>
      cases step
      exact hone q _ rfl fun h' => .timer c rfl here h.1 h'
    next => cases step
  | intr c chan =>
    change (if _ then _ else none) = some t at step
    split at step
    next =>
      obtain ⟨-, rfl⟩ := critical_eq_some.mp step
      exact .same rfl
    next => cases step
  | block c chan lk =>
    obtain ⟨q, here, step⟩ := onProcess_eq_some.mp step
    split at step
    next h =>
      obtain ⟨-, rfl⟩ := acquire_some.mp step
      exact hone q _ rfl fun h' => .block c chan lk rfl ⟨here, h.2.2, h.2.1, h.1⟩ h'
    next => cases step

end Actions

end Machine

end Xv6
