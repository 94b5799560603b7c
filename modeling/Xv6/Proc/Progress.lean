/-
# The kernel goes on

A CPU without a next segment has stopped in a panic or in front of a lock. The code of a process
stops in front of locks only: it releases only locks that it holds, switches stacks with the table
lock alone, and does not come back from `exit`. Some holder of a lock can always go on.

The locks are those of the machine: the table lock, the ticket lock and the locks of code that
sleeps. What `exit`, `wait` and `fork` call outside of `proc.c` is taken to return: `fileclose`,
`iput`, `kalloc` and `kfree`, with their own panics and with the lock that `kalloc` and `kfree` take
and give back inside.
-/

import Xv6.Proc.States

namespace Xv6

open Math

/-- The lock that the next segment of a called function acquires. -/
def Inner.wants : Inner → Option LockId
  | .sleep .start _ lk => if lk = .procTable then none else some .procTable
  | .sleep .relock _ lk => some lk
  | .sleepOnCond false _ _ => some .procTable
  | _ => none

/-- The lock that the next segment of a call acquires. -/
def Frame.wants : Frame → Option LockId
  | .waiter .start _ _ lk _ => some lk
  | .waker .start _ _ lk _ => some lk
  | .waker pc _ _ _ _ => if pc = .wakeLocked ∨ pc = .wake then some .procTable else none
  | .procTickets .start n => if 0 < n then some .tickets else none
  | .wait .start | .exit .lock | .fork _ .start | .kill _ | .wakeOnCond _ => some .procTable
  | .signaller .signal _ _ _ => some .procTable
  | _ => none

/-- The code is about to call `wakeup` with the table lock in hands. -/
def Frame.wakesLocked : Frame → Bool
  | .waker .wakeLocked _ _ .procTable _ => true
  | _ => false

section Order

variable {l k : LockId}

theorem Inner.wants_of_locks {i : Inner} (wants : i.wants = some l) (holds : k ∈ i.locks) :
    l = .procTable ∧ k ≠ .procTable := by
  cases i with
  | sleep pc _ _ => cases pc <;> grind [Inner.wants, Inner.locks, SleepPc.locks]
  | sleepOnCond switched _ _ => cases switched <;> simp_all [Inner.wants, Inner.locks]
  | mutexLock _ => cases wants

theorem Frame.wants_of_locks {f : Frame} (wants : f.wants = some l) (holds : k ∈ f.locks) :
    l = .procTable ∧ (k = .procTable → f.wakesLocked) := by
  cases f with
  | waker pc _ _ _ _ => cases pc <;> grind [Frame.wants, Frame.locks, wakesLocked]
  | waiter pc _ _ _ _ | procTickets pc _ | wait pc | exit pc | fork _ pc =>
    cases pc <;> simp_all [Frame.wants, Frame.locks]
  | _ => simp_all [Frame.wants, Frame.locks]

/-- The lock that the next segment of a process acquires. -/
def Thread.wants (th : Thread) : Option LockId :=
  match th.yielding with
  | some .start => some .procTable
  | some .sched => none
  | none => th.inner.elim (th.call.bind Frame.wants) Inner.wants

/-- With one of these locks in hands, code asks for the table lock only, and not even for that with
the table lock itself. -/
theorem Thread.wants_of_locks {th : Thread} (wants : th.wants = some l) (holds : k ∈ th.locks) :
    l = .procTable ∧ (k = .procTable → th.call.any Frame.wakesLocked) := by
  obtain ⟨call, inner, yielding, eax⟩ := th
  rcases yielding with _ | _ | _
  · rcases inner with _ | i
    · rcases call with _ | f
      · cases wants
      · exact Frame.wants_of_locks wants holds
    · obtain ⟨hl, hk⟩ := Inner.wants_of_locks wants holds
      exact ⟨hl, fun h => absurd h hk⟩
  · cases holds
  · cases wants

end Order

namespace Machine

variable {s t : Machine} {c : CpuId} {q : ProcId} {ans : Nat}

theorem Inv.held_of_locks (inv : s.Inv) (here : (s.cpus c).place = .process q) {ls : List LockId}
    (locks : (s.thread q).locks = ls) :
    (∀ l, l ∈ (s.cpus c).held ↔ l ∈ ls) ∧ (ls.Nodup → (s.cpus c).held.Perm ls) := by
  subst locks
  refine ⟨fun l => inv.mem_held here, fun nodup => ?_⟩
  exact (List.perm_ext_iff_of_nodup (inv.nodup c) nodup).mpr fun l => inv.mem_held here

/-! ### Each function goes on when the lock it asks for is free -/

section Ready

variable {l : LockId} {f : Machine → Option Machine}

@[simp] theorem isSome_acquire_bind :
    ((s.acquire c l).bind f).isSome ↔ s.Free l ∧ (f (s.lock c l)).isSome := by
  rw [acquire]
  split <;> simp_all

@[simp] theorem isSome_release_bind :
    ((s.release c l).bind f).isSome ↔ l ∈ (s.cpus c).held ∧ (f (s.unlock c l)).isSome := by
  rw [release]
  split <;> simp_all

@[simp] theorem isSome_critical : (s.critical t).isSome ↔ s.Free .procTable := by
  rw [critical]
  split <;> simp_all

@[simp] theorem isSome_sched :
    (s.sched c q).isSome ↔ (s.proc q).state ≠ .RUNNING ∧ (s.cpus c).held = [.procTable] := by
  rw [sched]
  split <;> simp_all

end Ready

attribute [local simp] runYield runInner runSleep runSleepOnCond runFrame runWaiter runWaker
  runWait runExit runFork runProcTickets runCondWaiter runSignaller setTable setThread enter goto
  store lock setCpu Inner.wants Inner.locks SleepPc.locks Frame.wants Frame.locks ProcTable.set

theorem runYield_isSome (inv : s.Inv) (here : (s.cpus c).place = .process q) {pc : YieldPc}
    (yielding : (s.thread q).yielding = some pc) (free : pc = .start → s.Free .procTable) :
    (s.runYield c q q pc).isSome := by
  cases pc with
  | start =>
    have hlocks : (s.thread q).locks = [] := by rw [Thread.locks, yielding]
    have hheld := inv.held_of_locks here hlocks
    simp_all [ProcTable.setState]
  | sched => simp [inv.mem_held here, Thread.locks, yielding]

theorem runInner_isSome (inv : s.Inv) (here : (s.cpus c).place = .process q)
    (quiet : (s.thread q).yielding = none) {i : Inner} (place : (s.thread q).inner = some i)
    (free : ∀ l, i.wants = some l → s.Free l) : (s.runInner c q q i).isSome := by
  obtain ⟨hheld, hperm⟩ := inv.held_of_locks here (Thread.locks_inner quiet place)
  cases i with
  | sleep pc chan lk =>
    by_cases hlk : lk = .procTable
    all_goals cases pc <;> simp_all
  | sleepOnCond switched cond mutex => cases switched <;> simp_all
  | mutexLock m => by_cases hm : s.load q m = 1 <;> simp [hm]

theorem runFrame_isSome (inv : s.Inv) {f : Frame} (h : s.InCall c q f)
    (free : ∀ l, f.wants = some l → s.Free l) (alive : f ≠ .exit .dead)
    (init : ∀ b, f = .exit (.check b) → q ≠ s.initproc) :
    (s.runFrame c q q ans f).isSome := by
  obtain ⟨hheld, hperm⟩ := inv.held_of_locks h.here h.locks
  cases f with
  | waiter pc a chan lk take =>
    cases pc with
    | start => simp [free _ rfl]
    | test => cases hc : s.cond a <;> cases take <;> simp [hc, hheld]
  | wait pc =>
    cases pc with
    | start => simp [free _ rfl]
    | scan => cases hz : s.proc.zombieChild q <;> simp [hz, hheld]; split <;> simp [hheld]
  | exit pc =>
    cases pc with
    | busy chan lk => by_cases ha : ans = 0 <;> simp [ha, hheld]
    | _ => simp_all [ProcTable.exit_self]
  | fork thread pc =>
    cases pc with
    | start => cases hu : s.proc.unused <;> simp [hu, free _ rfl]
    | image np => cases thread <;> by_cases ha : ans = 0 <;> simp [ha]
    | _ => simp_all
  | procTickets pc n =>
    cases pc with
    | start => by_cases hn : 0 < n <;> simp [hn, free]
    | _ => simp_all
  | condWaiter pc pred cond mutex take =>
    cases pc with
    | test => by_cases hp : s.load q pred = 0 <;> simp [hp]
    | _ => simp
  | waker pc _ _ _ _ | signaller pc _ _ _ => cases pc <;> simp_all
  | _ => simp_all

theorem runProcess_isSome (inv : s.Inv) (here : (s.cpus c).place = .process q)
    (free : ∀ l, (s.thread q).wants = some l → s.Free l) (kernel : ¬ (s.thread q).InUser)
    (alive : ¬ s.InCall c q (.exit .dead))
    (init : ∀ b, s.InCall c q (.exit (.check b)) → q ≠ s.initproc) :
    (s.runCpu c ans).isSome := by
  simp only [runCpu, here, inv.curproc here, Option.bind_some, runProcess]
  unfold Thread.wants at free
  cases hy : (s.thread q).yielding with
  | some pc =>
    refine runYield_isSome inv here hy fun start => free _ ?_
    rw [hy, start]
  | none =>
    cases hi : (s.thread q).inner with
    | some i => exact runInner_isSome inv here hy hi (by simpa [hy, hi] using free)
    | none =>
      cases hf : (s.thread q).call with
      | some f =>
        refine runFrame_isSome inv ⟨here, hy, hi, hf⟩ (by simpa [hy, hi, hf] using free) ?_ ?_
        · rintro rfl
          exact alive ⟨here, hy, hi, hf⟩
        · rintro b rfl
          exact init b ⟨here, hy, hi, hf⟩
      | none => exact absurd ⟨hf, hi, hy⟩ kernel

/-! ### Nobody comes back from `exit` -/

/-- A process that has exited stays in `exit` and does not run. -/
def Resting (s : Machine) (p : ProcId) : Prop :=
  (s.thread p).call = some (.exit .dead) →
    ((s.thread p).inner = none ∧ (s.thread p).yielding = none) ∧ (s.proc p).state ≠ .RUNNING

theorem Step.resting {a : Act} (inv : s.Inv) (step : Step a s t) {p : ProcId}
    (rest : s.Resting p) : t.Resting p := by
  intro dead
  -- a process that runs was not dead before
  have hruns : ∀ c, (s.cpus c).place = .process p → (s.thread p).call ≠ some (.exit .dead) :=
    fun c here hdead => (rest hdead).2 (inv.state_running here)
  cases step.goes inv p with
  | same thread =>
    rw [thread] at dead ⊢
    obtain ⟨⟨noInner, quiet⟩, idle⟩ := rest dead
    refine ⟨⟨noInner, quiet⟩, fun running => ?_⟩
    rcases (step.state inv p).running running with h | h
    · exact idle h
    · -- the scheduler picks processes that are switched away in `sched`
      have hlocks := (inv.parked p (Or.inl h)).locks
      rw [Thread.locks_call quiet noInner dead] at hlocks
      cases hlocks
  | make c k act here user thread =>
    rw [thread] at dead
    cases k <;> cases dead
  | timer c _ here _ thread | yield c _ _ _ here _ thread =>
    rw [thread] at dead
    exact absurd dead (hruns c here)
  | inner c ans i act here thread =>
    rw [thread, innerThread_call] at dead
    exact absurd dead (hruns c here.here)
  | frame c ans f act here run thread =>
    rw [thread] at dead ⊢
    have hcall := frameThread_call here.call dead
    cases f with
    | exit pc =>
      cases pc with
      | pass =>
        obtain ⟨⟨hstate, -⟩, rfl⟩ := sched_eq_some.mp run
        exact ⟨⟨rfl, here.quiet⟩, hstate⟩
      | dead => exact absurd here.call (hruns c here.here)
      | check b => cases b <;> cases dead
      | busy chan lk => grind [frameThread, exitThread, Thread.goto, Thread.enter, here.call]
      | _ => cases dead
    | _ => cases hcall
  | block c _ _ _ _ thread | fresh c _ _ _ thread =>
    rw [thread] at dead
    cases dead

theorem goes_on (inv : s.Inv) {l : LockId} (held : l ∈ (s.cpus c).held)
    (free : ∀ p, (s.cpus c).place = .process p → ∀ l, (s.thread p).wants = some l → s.Free l) :
    ∃ t, Step (.step c ans) s t := by
  apply Option.isSome_iff_exists.mp
  have hat := (inv.locks c l).mp held
  change (s.runCpu c ans).isSome
  cases hplace : (s.cpus c).place with
  | idle =>
    rw [locksAt, hplace] at hat
    cases hat
  | back =>
    have htable : LockId.procTable ∈ (s.cpus c).held := by simp [inv.locks, locksAt, hplace]
    simp [runCpu, runBack, hplace, release, htable]
  | process p =>
    rw [locksAt, hplace] at hat
    refine runProcess_isSome inv hplace (free p hplace) ?_ ?_ ?_
    · rintro ⟨hcall, hinner, hyield⟩
      simp [Thread.locks, Thread.baseLocks, Thread.callLocks, hcall, hinner, hyield] at hat
    · intro h
      simp [h.locks] at hat
    · intro b h
      simp [h.locks] at hat

section Runs

variable {mem : Nat} {cond : Nat → Bool} {word : Nat → Int → Int} {as : List Act}

theorem resting_of_run (run : Run Step (boot mem cond word) as s) (p : ProcId) : s.Resting p := by
  induction run with
  | start =>
    intro dead
    cases dead
  | snoc run step ih => exact step.resting (Inv.of_run run) ih

/-- CPU 1 stops in front of the table lock, which CPU 0 holds. -/
def contended (s : Machine) : Bool :=
  decide ((s.cpus 1).place = .process 1 ∧ ¬ (s.thread 1).InUser ∧ 1 ≠ s.initproc ∧
    (s.act (.step 1 0)).isNone ∧ LockId.procTable ∈ (s.cpus 0).held ∧
    ∀ p, (s.thread p).call.any Frame.wakesLocked = false)

/-- Init and its child call `wait`. -/
theorem contended_run :
    ∃ as s, Run Step (boot 4096 (fun _ => false) fun _ _ => 0) as s ∧ s.contended := by
  have hdone : (execute act (boot 4096 (fun _ => false) fun _ _ => 0)
      (twoProcesses ++ [.call 0 .wait, .step 0 0, .call 1 .wait])).any contended := by
    decide +kernel
  obtain ⟨s, hs, hstate⟩ := (Option.any_eq_true ..).mp hdone
  exact ⟨_, s, run_of_execute hs, hstate⟩

end Runs

end Machine

end Xv6
