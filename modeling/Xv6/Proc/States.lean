/-
# The process state machine

Whenever the table lock is free, the processes that are `RUNNING` are those that the CPUs
run, one each. Only three kinds of processes become `RUNNABLE`, each by its own functions.
-/

import Xv6.Proc.Places

namespace Xv6

open Math

/-- A function that makes a process `RUNNABLE`. -/
inductive ReadyBy where
  | wakeup1
  | kill
  | wakeOnCond
  | yield
  | fork
  deriving DecidableEq, Repr

/-- The state in which such a function finds the process. -/
def ReadyBy.source : ReadyBy → ProcState
  | .wakeup1 | .kill | .wakeOnCond => .SLEEPING
  | .yield => .RUNNING
  | .fork => .EMBRYO

/-- The function of this kind in the next segment of a call. -/
def Frame.readies : Frame → Option ReadyBy
  | .waker .wakeLocked _ _ _ _ => some .wakeup1
  | .waker .wake _ _ _ _ => some .wakeup1
  | .exit .pass => some .wakeup1
  | .kill _ => some .kill
  | .wakeOnCond _ => some .wakeOnCond
  | .signaller .signal _ _ _ => some .wakeOnCond
  | .fork _ (.ready _) => some .fork
  | _ => none

/-- The function of this kind in the next segment of a process. -/
def Thread.readies (th : Thread) : Option ReadyBy :=
  match th.yielding, th.inner, th.call with
  | some .start, _, _ => some .yield
  | none, none, some f => f.readies
  | _, _, _ => none

namespace Machine

/-- The function of this kind that an action runs. -/
def readies (s : Machine) : Act → Option ReadyBy
  | .step c _ =>
    match (s.cpus c).place with
    | .process q => (s.thread q).readies
    | _ => none
  | .intr _ _ => some .wakeup1
  | _ => none

section Readies

variable {s t : Machine} {q p : ProcId} {a : Act} {table : ProcTable}

/-- The table after a step makes `p` runnable only by the function `r`, from the state in
which `r` finds its processes. -/
def Readies (s : Machine) (table : ProcTable) (r : Option ReadyBy) : Prop :=
  ∀ p, (s.proc p).state ≠ .RUNNABLE → (table p).state = .RUNNABLE →
    ∃ via, r = some via ∧ (s.proc p).state = via.source

variable {r : Option ReadyBy} {via : ReadyBy} {np : ProcId} {change : Proc → Proc} {ans : Nat}

theorem Readies.of_same (same : ∀ p, (table p).state = (s.proc p).state) :
    s.Readies table r := fun p before after => absurd ((same p).symm.trans after) before

theorem Readies.of_wakes (wakes : s.proc.Wakes table)
    (source : via.source = .SLEEPING) : s.Readies table (some via) := by
  intro p before after
  rcases wakes p with h | ⟨h, -⟩
  · exact absurd (h.symm.trans after) before
  · exact ⟨via, rfl, by rw [h, source]⟩

/-- One slot gets a state other than `RUNNABLE`. -/
theorem Readies.of_set
    (other : (change (s.proc np)).state ≠ .RUNNABLE) : s.Readies (s.proc.set np change) r := by
  intro p before after
  by_cases h : p = np
  · rw [h, ProcTable.set_self] at after
    exact absurd after other
  · rw [ProcTable.set_of_ne _ h] at after
    exact absurd after before

/-- One slot becomes runnable. -/
theorem Readies.of_ready (source : (s.proc np).state = via.source) :
    s.Readies (s.proc.setState np .RUNNABLE) (some via) := by
  intro p before after
  by_cases h : p = np
  · exact ⟨via, rfl, h ▸ source⟩
  · rw [ProcTable.setState, ProcTable.set_of_ne _ h] at after
    exact absurd after before

/-- One field other than the state changes in one slot. -/
theorem Readies.of_field (same : (change (s.proc np)).state = (s.proc np).state) :
    s.Readies (s.proc.set np change) r := .of_same (s.proc.set_field Proc.state same)

theorem innerShared_readies (i : Inner) : s.Readies (s.innerShared q i).proc none := by
  cases i with
  | sleep pc chan lk =>
    cases pc with
    | doze => exact .of_set (by simp)
    | sched => exact .of_field rfl
    | start | unlock | relock => exact .of_same fun _ => rfl
  | sleepOnCond switched cond mutex =>
    cases switched with
    | false => exact .of_set (by simp)
    | true => exact .of_same fun _ => rfl
  | mutexLock m => exact .of_same fun _ => rfl

theorem forkShared_readies (inv : s.Inv) {b : Bool} {pc : ForkPc}
    (place : (s.thread q).call = some (.fork b pc)) :
    s.Readies (s.forkShared q b ans pc).proc (Frame.readies (.fork b pc)) := by
  cases pc with
  | start =>
    rw [forkShared]
    cases s.proc.unused with
    | none => exact .of_same fun _ => rfl
    | some np => exact .of_set (by simp)
  | giveUp _ | drop _ => exact .of_set (by simp)
  | parent np => exact .of_field rfl
  | image np =>
    rw [forkShared]
    split
    · exact .of_field rfl
    · split
      · exact .of_field rfl
      · exact .of_field rfl
  | clear np => exact .of_field rfl
  | ready np => exact .of_ready (inv.embryo q np (by rw [Thread.embryo, place]; rfl))
  | load np | count np _ | kstack np | context np => exact .of_same fun _ => rfl

theorem frameShared_readies (inv : s.Inv) {f : Frame}
    (place : (s.thread q).call = some f) : s.Readies (s.frameShared q ans f).proc f.readies := by
  cases f with
  | waiter pc a chan lk take =>
    have hsame : (s.frameShared q ans (.waiter pc a chan lk take)).proc = s.proc := by
      cases pc with
      | start => rfl
      | test =>
        cases take with
        | false => rfl
        | true =>
          rw [frameShared]
          split <;> rfl
    exact .of_same fun p => by rw [hsame]
  | waker pc a chan lk early =>
    cases pc with
    | wakeLocked | wake => exact .of_wakes (ProcTable.wakeup1_wakes _) rfl
    | start | set | unlockLast | unlockFirst => exact .of_same fun _ => rfl
  | kill pid => exact .of_wakes (ProcTable.kill_wakes pid) rfl
  | wait pc =>
    cases pc with
    | start => exact .of_same fun _ => rfl
    | scan =>
      rw [frameShared]
      split
      · exact .of_set (by simp)
      · exact .of_same fun _ => rfl
  | exit pc =>
    cases pc with
    | pass =>
      -- the process itself becomes a zombie, the others are woken
      intro p before after
      rw [frameShared, withTable] at after
      dsimp only at after
      by_cases h : p = q
      · rw [h, ProcTable.exit_self] at after
        cases after
      · rw [ProcTable.exit_of_ne _ h] at after
        exact Readies.of_wakes (s.proc.handOver_wakes s.initproc q) rfl p before after
    | start | load | sub | check | files | busy | lock | dead => exact .of_same fun _ => rfl
  | fork b pc => exact forkShared_readies inv place
  | procTickets pc n =>
    cases pc with
    | set => exact .of_field rfl
    | start | load | sub | reload | add | unlock => exact .of_same fun _ => rfl
  | wakeOnCond cond => exact .of_wakes (ProcTable.wakeOnCond_wakes _ _) rfl
  | condWaiter pc pred cond mutex take =>
    have hsame : (s.frameShared q ans (.condWaiter pc pred cond mutex take)).proc = s.proc := by
      cases pc with
      | start | relock => rfl
      | test =>
        rw [frameShared]
        split <;> rfl
    exact .of_same fun p => by rw [hsame]
  | signaller pc pred cond mutex =>
    cases pc with
    | signal => exact .of_wakes (ProcTable.wakeOnCond_wakes _ _) rfl
    | start | set | unlock => exact .of_same fun _ => rfl
  | forkret | sleepOnCond => exact .of_same fun _ => rfl

/-- Only these functions make a process runnable. -/
theorem Step.readies (inv : s.Inv) (step : Step a s t) : s.Readies t.proc (s.readies a) := by
  have hproc : t.proc = (s.sharedAfter a).proc := congrArg Shared.proc (step.shared inv)
  rw [hproc]
  cases a with
  | call _ _ | timer _ | block _ _ _ => exact .of_same fun _ => rfl
  | intr c chan => exact .of_wakes (ProcTable.wakeup1_wakes _) rfl
  | step c ans =>
    rw [sharedAfter, Machine.readies]
    cases hplace : (s.cpus c).place with
    | idle =>
      dsimp only
      cases s.draw ans with
      | none => exact .of_same fun _ => rfl
      | some r => exact .of_set (by simp)
    | back => exact .of_same fun _ => rfl
    | process q =>
      dsimp only
      rw [processShared, Thread.readies]
      cases hy : (s.thread q).yielding with
      | some pc =>
        cases pc with
        | start => exact .of_ready (inv.state_running hplace)
        | sched => exact .of_same fun _ => rfl
      | none =>
        cases hi : (s.thread q).inner with
        | some i => exact innerShared_readies i
        | none =>
          cases hf : (s.thread q).call with
          | some f => exact frameShared_readies inv hf
          | none => exact .of_same fun _ => rfl

end Readies

section Main

variable {mem : Nat} {cond : Nat → Bool} {word : Nat → Int → Int} {as : List Act} {s : Machine}

theorem Inv.of_run (run : Run Step (boot mem cond word) as s) : s.Inv :=
  run.invariant (motive := fun _ s => s.Inv) (boot_inv mem cond word)
    fun _ _ _ _ inv step => inv.step step

theorem run_of_execute {s₀ : Machine} (done : execute act s₀ as = some s) : Run Step s₀ as s :=
  Run.of_execute (fun _ _ _ h => h) done

/-- While the table lock is free, the process of a CPU is running. -/
theorem Inv.curproc_running (inv : s.Inv) (free : s.Free .procTable) {c : CpuId} {p : ProcId}
    (cur : (s.cpus c).curproc = some p) : (s.proc p).state = .RUNNING := by
  have hc := inv.cpu c
  rw [CpuOk] at hc
  cases hplace : (s.cpus c).place with
  | idle =>
    rw [hplace] at hc
    cases hc.symm.trans cur
  | back =>
    refine absurd ((inv.locks c .procTable).mpr ?_) (free c)
    rw [locksAt, hplace]
    exact List.mem_singleton_self _
  | process r =>
    rw [hplace] at hc
    obtain rfl : r = p := Option.some.inj (hc.1.symm.trans cur)
    exact hc.2

/-- A process that runs `fork` on CPU `c` up to the copy of the image, which lies at `image`. -/
def forkToImage (c : CpuId) (image : Nat) : List Act :=
  [.call c (.fork false), .step c 0, .step c 0, .step c 0, .step c 1, .step c 0, .step c image]

/-- Init forks a child, which then runs on CPU 1. -/
def twoProcesses : List Act :=
  List.flatten [[.step 0 7, .step 0 0], forkToImage 0 8192,
    [.step 0 0, .step 0 0, .step 1 150, .step 1 0]]

end Main

end Machine

end Xv6
