/-
# Processes on many CPUs

`proc.c`, the process calls of `sysproc.c` and the user locks of `userthreads.c`, on up to
`NCPU` CPUs. A CPU runs code in segments. A segment ends where the code takes or gives
back a spin lock, switches stacks, or has touched shared memory without a lock; a section
that takes and gives back `proc_table_lock` without a switch in between is one segment.
Between two segments any other CPU may run. A `panic`, and a lock that is not free, leave
a CPU without a next segment.

Kernel code outside of `proc.c` shows up where it sleeps and where it wakes others: as a
loop that waits for a condition under a lock, and as code that makes a condition true.
-/

import Xv6.Proc.Table

namespace Xv6

/-- A spin lock. -/
inductive LockId where
  | procTable
  | tickets
  | object (a : Nat)
  deriving DecidableEq, Repr

/-- Where a process is in `yield`. -/
inductive YieldPc where
  /-- About to acquire the table lock. -/
  | start
  /-- Switched away in `sched`. -/
  | sched
  deriving DecidableEq, Repr

/-- Where a process is in `sleep`. -/
inductive SleepPc where
  | start
  /-- Has the table lock, and is about to release `lk`. -/
  | unlock
  /-- About to store `chan` and `SLEEPING`. -/
  | doze
  /-- Switched away in `sched`. -/
  | sched
  /-- About to acquire `lk` again. -/
  | relock
  deriving DecidableEq, Repr

/-- A function that the code of a call has called. -/
inductive Inner where
  | sleep (pc : SleepPc) (chan : Chan) (lk : LockId)
  /-- `sleep_on_cond`, before its section or switched away in `sched`. -/
  | sleepOnCond (switched : Bool) (cond mutex : Int)
  /-- `mutex_lock` in user space. -/
  | mutexLock (m : Int)
  deriving DecidableEq, Repr

/-- Where kernel code is that waits for a condition. -/
inductive WaiterPc where
  | start
  /-- At the test of the loop, with the lock. -/
  | test
  deriving DecidableEq, Repr

/-- Where kernel code is that makes a condition true. It calls `wakeup` with the lock
still held, or after releasing it. -/
inductive WakerPc where
  | start
  | set
  | wakeLocked
  | unlockLast
  | unlockFirst
  | wake
  deriving DecidableEq, Repr

/-- Where a process is in `wait`. -/
inductive WaitPc where
  | start
  /-- At the head of the loop, with the table lock. -/
  | scan
  deriving DecidableEq, Repr

/-- Where a process is in `exit`. -/
inductive ExitPc where
  | start
  /-- About to read `ttltcts`. -/
  | load (isThread : Bool)
  /-- About to store `ttltcts`, which it has read. -/
  | sub (isThread : Bool) (ttltcts : Int)
  | check (isThread : Bool)
  /-- Closing files and putting back the working directory. -/
  | files
  /-- The same, with a lock that this code took to sleep on a channel. -/
  | busy (chan : Nat) (lk : LockId)
  | lock
  | pass
  | dead
  deriving DecidableEq, Repr

/-- Where a process is in `sys_fork` or `sys_thread_fork`, with the new slot. -/
inductive ForkPc where
  | start
  /-- In `allocproc`, about to read `ttltcts`. -/
  | load (np : ProcId)
  | count (np : ProcId) (ttltcts : Int)
  | kstack (np : ProcId)
  /-- No stack. -/
  | giveUp (np : ProcId)
  | parent (np : ProcId)
  | image (np : ProcId)
  /-- No memory: about to store `UNUSED`. -/
  | drop (np : ProcId)
  /-- No memory: about to store `parent = 0`. -/
  | clear (np : ProcId)
  | context (np : ProcId)
  | ready (np : ProcId)
  deriving DecidableEq, Repr

/-- Where a process is in `sys_proc_tickets`. -/
inductive TicketsPc where
  | start
  | load
  | sub (ttltcts : Int)
  | set
  | reload
  | add (ttltcts : Int)
  | unlock
  deriving DecidableEq, Repr

/-- Where a thread is that waits for a predicate with `cond_wait`. -/
inductive CondWaiterPc where
  | start
  /-- At the test of the loop, with the mutex. -/
  | test
  /-- Back from `cond_sleep_and_unlock_mutex`. -/
  | relock
  deriving DecidableEq, Repr

/-- Where a thread is that makes a predicate true and signals it. -/
inductive SignallerPc where
  | start
  | set
  | signal
  | unlock
  deriving DecidableEq, Repr

/-- The function that a process runs for a call, and where it is. -/
inductive Frame where
  | forkret
  /-- `acquire(lk); while(!a) sleep(chan, lk); …; release(lk)`; the code after the loop
  may take the condition. -/
  | waiter (pc : WaiterPc) (a chan : Nat) (lk : LockId) (take : Bool)
  /-- `acquire(lk); a = 1; release(lk); wakeup(chan)`, or with the last two exchanged. -/
  | waker (pc : WakerPc) (a chan : Nat) (lk : LockId) (early : Bool)
  | kill (pid : Int)
  | wait (pc : WaitPc)
  | exit (pc : ExitPc)
  | fork (thread : Bool) (pc : ForkPc)
  | procTickets (pc : TicketsPc) (n : Int)
  | wakeOnCond (cond : Int)
  | sleepOnCond
  | condWaiter (pc : CondWaiterPc) (pred cond mutex : Int) (take : Bool)
  | signaller (pc : SignallerPc) (pred cond mutex : Int)
  deriving DecidableEq, Repr

/-- The code that a process runs: `yield` from an interrupt comes first, then a function
that the call has called, then the call. Without a call the process is in user space. -/
structure Thread where
  call : Option Frame
  inner : Option Inner
  yielding : Option YieldPc
  /-- The result of the last call. -/
  eax : Int
  deriving DecidableEq, Repr

namespace Thread

/-- The context that `copyproc` sets up. -/
def fresh : Thread := ⟨some .forkret, none, none, 0⟩

/-- In user space, with the result of the last call. -/
def user (eax : Int) : Thread := ⟨none, none, none, eax⟩

/-- Go on in the code of the call. -/
def goto (th : Thread) (f : Frame) : Thread := { th with call := some f, inner := none }

/-- Call a function. -/
def enter (th : Thread) (i : Inner) : Thread := { th with inner := some i }

/-- Return from a function. -/
def leave (th : Thread) : Thread := { th with inner := none }

/-- Go on in `yield`, or return from it. -/
def yield (th : Thread) (pc : Option YieldPc) : Thread := { th with yielding := pc }

end Thread

/-- What a CPU runs. -/
inductive CpuPlace where
  /-- The head of the loop in `lottery_scheduler`. -/
  | idle
  /-- The code of a process. -/
  | process (p : ProcId)
  /-- The scheduler, back from `swtch`. -/
  | back
  deriving DecidableEq, Repr

/-- `struct cpu`. The length of `held` is `ncli`. -/
structure Cpu where
  curproc : Option ProcId
  place : CpuPlace
  held : List LockId
  deriving DecidableEq, Repr

/-- The kernel. -/
structure Machine where
  proc : ProcTable
  thread : ProcId → Thread
  cpus : CpuId → Cpu
  nextpid : Int
  ttltcts : Int
  initproc : ProcId
  /-- The conditions that kernel code waits for. -/
  cond : Nat → Bool
  /-- The words of the process images. -/
  word : Nat → Int → Int

namespace Machine

variable (s : Machine)

/-- The machine when the schedulers start: `userinit` has set up the first process. -/
def boot (mem : Nat) (cond : Nat → Bool) (word : Nat → Int → Int) : Machine where
  proc := Function.update (fun _ => Proc.zero) 0 ⟨mem, .RUNNABLE, 1, none, none, false, 100, 0⟩
  thread := fun _ => Thread.fresh
  cpus := fun _ => ⟨none, .idle, []⟩
  nextpid := 2
  ttltcts := 100
  initproc := 0
  cond := cond
  word := word

/-! ### Locks, threads and switches -/

/-- No CPU holds the lock. -/
def Free (l : LockId) : Prop := ∀ c, l ∉ (s.cpus c).held

instance (l : LockId) : Decidable (s.Free l) :=
  inferInstanceAs (Decidable (∀ c, l ∉ (s.cpus c).held))

/-- Change the state of a CPU. -/
def setCpu (c : CpuId) (change : Cpu → Cpu) : Machine :=
  { s with cpus := Function.update s.cpus c (change (s.cpus c)) }

/-- `acquire` of a free lock. -/
def lock (c : CpuId) (l : LockId) : Machine := s.setCpu c fun r => { r with held := l :: r.held }

/-- `release` of a lock that the CPU holds. -/
def unlock (c : CpuId) (l : LockId) : Machine :=
  s.setCpu c fun r => { r with held := r.held.erase l }

/-- `acquire`. -/
def acquire (c : CpuId) (l : LockId) : Option Machine :=
  if s.Free l then some (s.lock c l) else none

/-- `release`. -/
def release (c : CpuId) (l : LockId) : Option Machine :=
  if l ∈ (s.cpus c).held then some (s.unlock c l) else none

/-- Change the process table. -/
def setTable (t : ProcTable) : Machine := { s with proc := t }

/-- A process goes on somewhere else. -/
def setThread (q : ProcId) (th : Thread) : Machine :=
  { s with thread := Function.update s.thread q th }

/-- Go on in the code of the call. -/
def goto (q : ProcId) (f : Frame) : Machine := s.setThread q ((s.thread q).goto f)

/-- Call a function. -/
def enter (q : ProcId) (i : Inner) : Machine := s.setThread q ((s.thread q).enter i)

/-- Call a function, and go on at `f` when it returns. -/
def callThen (q : ProcId) (i : Inner) (f : Frame) : Machine :=
  s.setThread q (((s.thread q).goto f).enter i)

/-- Return from a function. -/
def leave (q : ProcId) : Machine := s.setThread q (s.thread q).leave

/-- Return from the call. -/
def finish (q : ProcId) (eax : Int) : Machine := s.setThread q (Thread.user eax)

/-- `sched()`. -/
def sched (c : CpuId) (cp : ProcId) : Option Machine :=
  if (s.proc cp).state ≠ .RUNNING ∧ (s.cpus c).held = [.procTable] then
    some (s.setCpu c fun r => { r with place := .back })
  else none

/-- `lottery_scheduler` draws a ticket: the process it switches to. The total is not 0. -/
def draw (fastrand : Nat) : Option ProcId :=
  s.proc.pick (fastrand % (s.ttltcts % 2 ^ 32).toNat) (List.finRange NPROC) 0

/-- `lottery_scheduler` up to its `swtch`, or to the end of a round without one. -/
def runIdle (c : CpuId) (fastrand : Nat) : Option Machine :=
  if s.Free .procTable ∧ s.ttltcts % 2 ^ 32 ≠ 0 then
    match s.draw fastrand with
    | some p =>
      some ((s.setTable (s.proc.setState p .RUNNING)).setCpu c fun _ =>
        ⟨some p, .process p, [.procTable]⟩)
    | none => some s
  else none

/-- `lottery_scheduler` after its `swtch`. -/
def runBack (c : CpuId) : Option Machine :=
  (s.setCpu c fun r => { r with curproc := none, place := .idle }).release c .procTable

/-! ### The code of a process

`q` is the process whose code runs, and `cp` what `curproc()` returns to it. -/

variable (c : CpuId) (q cp : ProcId)

/-- `yield`. -/
def runYield : YieldPc → Option Machine
  | .start => do
    let s ← s.acquire c .procTable
    let s := s.setTable (s.proc.setState cp .RUNNABLE)
    (s.setThread q ((s.thread q).yield (some .sched))).sched c cp
  | .sched => do
    let s ← s.release c .procTable
    some (s.setThread q ((s.thread q).yield none))

/-- `sleep(chan, lk)`. -/
def runSleep (chan : Chan) (lk : LockId) : SleepPc → Option Machine
  | .start =>
    if lk = .procTable then some (s.enter q (.sleep .doze chan lk))
    else do
      let s ← s.acquire c .procTable
      some (s.enter q (.sleep .unlock chan lk))
  | .unlock => do
    let s ← s.release c lk
    some (s.enter q (.sleep .doze chan lk))
  | .doze =>
    let s := s.setTable (s.proc.set cp fun r => { r with chan := some chan, state := .SLEEPING })
    (s.enter q (.sleep .sched chan lk)).sched c cp
  | .sched =>
    let s := s.setTable (s.proc.set cp fun r => { r with chan := none })
    if lk = .procTable then some (s.leave q)
    else do
      let s ← s.release c .procTable
      some (s.enter q (.sleep .relock chan lk))
  | .relock => do
    let s ← s.acquire c lk
    some (s.leave q)

/-- A store to a word of the image of `cp`. -/
def store (a v : Int) : Machine :=
  let image := Function.update (s.word (s.proc cp).mem) a v
  { s with word := Function.update s.word (s.proc cp).mem image }

/-- A word of the image of `cp`. -/
def load (a : Int) : Int := s.word (s.proc cp).mem a

/-- `sleep_on_cond(cond, mutex)`. -/
def runSleepOnCond (cond mutex : Int) : Bool → Option Machine
  | false => do
    let s ← s.acquire c .procTable
    let s := s.setTable (s.proc.set cp fun r => { r with condAddr := cond, state := .SLEEPING })
    let s := s.store cp mutex 0
    (s.enter q (.sleepOnCond true cond mutex)).sched c cp
  | true => do
    let s ← s.release c .procTable
    some (s.leave q)

/-- The functions that a call calls. A `mutex_lock` that reads 1 tries again. -/
def runInner : Inner → Option Machine
  | .sleep pc chan lk => s.runSleep c q cp chan lk pc
  | .sleepOnCond switched cond mutex => s.runSleepOnCond c q cp cond mutex switched
  | .mutexLock m =>
    if s.load cp m = 1 then some (s.store cp m 1) else some ((s.store cp m 1).leave q)

/-- Kernel code that waits for a condition. -/
def runWaiter (a chan : Nat) (lk : LockId) (take : Bool) : WaiterPc → Option Machine
  | .start => do
    let s ← s.acquire c lk
    some (s.goto q (.waiter .test a chan lk take))
  | .test =>
    if s.cond a then do
      let s := if take then { s with cond := Function.update s.cond a false } else s
      let s ← s.release c lk
      some (s.finish q 0)
    else some (s.enter q (.sleep .start (.object chan) lk))

/-- Run a section of the table lock. -/
def critical (after : Machine) : Option Machine := if s.Free .procTable then some after else none

/-- Kernel code that makes a condition true. -/
def runWaker (a chan : Nat) (lk : LockId) (early : Bool) : WakerPc → Option Machine
  | .start => do
    let s ← s.acquire c lk
    some (s.goto q (.waker .set a chan lk early))
  | .set =>
    let s := { s with cond := Function.update s.cond a true }
    some (s.goto q (.waker (if early then .wakeLocked else .unlockFirst) a chan lk early))
  | .wakeLocked =>
    s.critical ((s.setTable (s.proc.wakeup1 (some (.object chan)))).goto q
      (.waker .unlockLast a chan lk early))
  | .unlockLast => do
    let s ← s.release c lk
    some (s.finish q 0)
  | .unlockFirst => do
    let s ← s.release c lk
    some (s.goto q (.waker .wake a chan lk early))
  | .wake => s.critical ((s.setTable (s.proc.wakeup1 (some (.object chan)))).finish q 0)

/-- `wait`. The `kfree`s of the image and the stack are taken to return. -/
def runWait : WaitPc → Option Machine
  | .start => do
    let s ← s.acquire c .procTable
    some (s.goto q (.wait .scan))
  | .scan =>
    match s.proc.zombieChild cp with
    | some p => do
      let s' ← (s.setTable (s.proc.reap p)).release c .procTable
      some (s'.finish q (s.proc p).pid)
    | none =>
      if s.proc.haveKids cp = false ∨ (s.proc cp).killed = true then do
        let s ← s.release c .procTable
        some (s.finish q (-1))
      else some (s.enter q (.sleep .start (.proc cp) .procTable))

/-- `exit`. What stands at address 0 is read through a null parent. `fileclose` and `iput` are taken
to return. -/
def runExit (ans : Nat) : ExitPc → Option Machine
  | .start =>
    let parentMem := (s.proc cp).parent.elim ans fun p => (s.proc p).mem
    some (s.goto q (.exit (.load (parentMem = (s.proc cp).mem))))
  | .load isThread => some (s.goto q (.exit (.sub isThread s.ttltcts)))
  | .sub isThread t =>
    let s := { s with ttltcts := (t - (s.proc cp).tctcnt).bmod (2 ^ 32) }
    some (s.goto q (.exit (.check isThread)))
  | .check isThread =>
    if cp = s.initproc then none
    else some (s.goto q (.exit (if isThread then .lock else .files)))
  | .files => some (s.goto q (.exit .lock))
  | .busy chan lk =>
    if ans = 0 then do
      let s ← s.release c lk
      some (s.goto q (.exit .files))
    else some (s.enter q (.sleep .start (.object chan) lk))
  | .lock => do
    let s ← s.acquire c .procTable
    some (s.goto q (.exit .pass))
  | .pass => ((s.setTable (s.proc.exit s.initproc cp)).goto q (.exit .dead)).sched c cp
  | .dead => none

/-- `sys_fork` with `copyproc`, or `sys_thread_fork` with `copyproc_thread`; `ans` is what
`kalloc` returns. -/
def runFork (thread : Bool) (ans : Nat) : ForkPc → Option Machine
  | .start =>
    match s.proc.unused with
    | none => s.critical (s.finish q (-1))
    | some np => do
      let s ← s.acquire c .procTable
      let s := s.setTable (s.proc.embryo np s.nextpid)
      let s := { s with nextpid := (s.nextpid + 1).bmod (2 ^ 32) }
      some (s.goto q (.fork thread (.load np)))
  | .load np => some (s.goto q (.fork thread (.count np s.ttltcts)))
  | .count np t => do
    let s := { s with ttltcts := (t + 100).bmod (2 ^ 32) }
    let s ← s.release c .procTable
    some (s.goto q (.fork thread (.kstack np)))
  | .kstack np => some (s.goto q (.fork thread (if ans = 0 then .giveUp np else .parent np)))
  | .giveUp np => some ((s.setTable (s.proc.setState np .UNUSED)).finish q (-1))
  | .parent np =>
    let s := s.setTable (s.proc.set np fun r => { r with parent := some cp })
    some (s.goto q (.fork thread (.image np)))
  | .image np =>
    if thread then
      let s := s.setTable (s.proc.set np fun r => { r with mem := (s.proc cp).mem })
      some (s.goto q (.fork thread (.context np)))
    else if ans = 0 then
      let s := s.setTable (s.proc.set np fun r => { r with mem := 0 })
      some (s.goto q (.fork thread (.drop np)))
    else
      let s := { s with word := Function.update s.word ans (s.word (s.proc cp).mem) }
      let s := s.setTable (s.proc.set np fun r => { r with mem := ans })
      some (s.goto q (.fork thread (.context np)))
  | .drop np =>
    some ((s.setTable (s.proc.setState np .UNUSED)).goto q (.fork thread (.clear np)))
  | .clear np =>
    some ((s.setTable (s.proc.set np fun r => { r with parent := none })).finish q (-1))
  | .context np => some ((s.setThread np Thread.fresh).goto q (.fork thread (.ready np)))
  | .ready np =>
    some ((s.setTable (s.proc.setState np .RUNNABLE)).finish q (s.proc np).pid)

/-- `sys_proc_tickets` of `n`. -/
def runProcTickets (n : Int) : TicketsPc → Option Machine
  | .start =>
    if 0 < n then do
      let s ← s.acquire c .tickets
      some (s.goto q (.procTickets .load n))
    else some (s.finish q (if n < 0 then -1 else (s.proc cp).tctcnt))
  | .load => some (s.goto q (.procTickets (.sub s.ttltcts) n))
  | .sub t =>
    let s := { s with ttltcts := (t - (s.proc cp).tctcnt).bmod (2 ^ 32) }
    some (s.goto q (.procTickets .set n))
  | .set =>
    let s := s.setTable (s.proc.set cp fun r => { r with tctcnt := n })
    some (s.goto q (.procTickets .reload n))
  | .reload => some (s.goto q (.procTickets (.add s.ttltcts) n))
  | .add t =>
    let s := { s with ttltcts := (t + (s.proc cp).tctcnt).bmod (2 ^ 32) }
    some (s.goto q (.procTickets .unlock n))
  | .unlock => do
    let s ← s.release c .tickets
    some (s.finish q (s.proc cp).tctcnt)

/-- A thread that waits for a predicate:
`mutex_lock(m); while(!pred) cond_wait(c, m); …; mutex_unlock(m)`. -/
def runCondWaiter (pred cond mutex : Int) (take : Bool) : CondWaiterPc → Option Machine
  | .start => some (s.callThen q (.mutexLock mutex) (.condWaiter .test pred cond mutex take))
  | .test =>
    if s.load cp pred = 0 then
      some (s.callThen q (.sleepOnCond false cond mutex)
        (.condWaiter .relock pred cond mutex take))
    else
      let s := if take then s.store cp pred 0 else s
      some ((s.store cp mutex 0).finish q 0)
  | .relock => some (s.callThen q (.mutexLock mutex) (.condWaiter .test pred cond mutex take))

/-- A thread that makes a predicate true:
`mutex_lock(m); pred = 1; cond_signal(c); mutex_unlock(m)`. -/
def runSignaller (pred cond mutex : Int) : SignallerPc → Option Machine
  | .start => some (s.callThen q (.mutexLock mutex) (.signaller .set pred cond mutex))
  | .set => some ((s.store cp pred 1).goto q (.signaller .signal pred cond mutex))
  | .signal =>
    s.critical ((s.setTable (s.proc.wakeOnCond (s.proc cp).mem cond)).goto q
      (.signaller .unlock pred cond mutex))
  | .unlock => some ((s.store cp mutex 0).finish q 0)

/-- The code of a call. -/
def runFrame (ans : Nat) : Frame → Option Machine
  | .forkret => do
    let s ← s.release c .procTable
    some (s.finish q (s.thread q).eax)
  | .waiter pc a chan lk take => s.runWaiter c q a chan lk take pc
  | .waker pc a chan lk early => s.runWaker c q a chan lk early pc
  | .kill pid => s.critical ((s.setTable (s.proc.kill pid).1).finish q (s.proc.kill pid).2)
  | .wait pc => s.runWait c q cp pc
  | .exit pc => s.runExit c q cp ans pc
  | .fork thread pc => s.runFork c q cp thread ans pc
  | .procTickets pc n => s.runProcTickets c q cp n pc
  | .wakeOnCond cond =>
    s.critical ((s.setTable (s.proc.wakeOnCond (s.proc cp).mem cond)).finish q 0)
  | .sleepOnCond => some (s.finish q 0)
  | .condWaiter pc pred cond mutex take => s.runCondWaiter q cp pred cond mutex take pc
  | .signaller pc pred cond mutex => s.runSignaller q cp pred cond mutex pc

/-- The next segment of a process. In user space there is none. -/
def runProcess (ans : Nat) : Option Machine :=
  match (s.thread q).yielding, (s.thread q).inner, (s.thread q).call with
  | some pc, _, _ => s.runYield c q cp pc
  | none, some i, _ => s.runInner c q cp i
  | none, none, some f => s.runFrame c q cp ans f
  | none, none, none => none

/-- The next segment of a CPU. -/
def runCpu (ans : Nat) : Option Machine :=
  match (s.cpus c).place with
  | .idle => s.runIdle c ans
  | .back => s.runBack c
  | .process q => (s.cpus c).curproc.bind fun cp => s.runProcess c q cp ans

end Machine

/-- A call that a process can make. -/
inductive ProcCall where
  | waiter (a chan : Nat) (lk : LockId) (take : Bool)
  | waker (a chan : Nat) (lk : LockId) (early : Bool)
  | kill (pid : Int)
  | wait
  | exit
  | fork (thread : Bool)
  | procTickets (n : Int)
  | wakeOnCond (cond : Int)
  | sleepOnCond (cond mutex : Int)
  | condWaiter (pred cond mutex : Int) (take : Bool)
  | signaller (pred cond mutex : Int)
  deriving DecidableEq, Repr

/-- Where the code of a call begins. -/
def ProcCall.begin : ProcCall → Frame
  | .waiter a chan lk take => .waiter .start a chan lk take
  | .waker a chan lk early => .waker .start a chan lk early
  | .kill pid => .kill pid
  | .wait => .wait .start
  | .exit => .exit .start
  | .fork thread => .fork thread .start
  | .procTickets n => .procTickets .start n
  | .wakeOnCond cond => .wakeOnCond cond
  | .sleepOnCond _ _ => .sleepOnCond
  | .condWaiter pred cond mutex take => .condWaiter .start pred cond mutex take
  | .signaller pred cond mutex => .signaller .start pred cond mutex

/-- The function that a call is in when it begins. -/
def ProcCall.inner : ProcCall → Option Inner
  | .sleepOnCond cond mutex => some (.sleepOnCond false cond mutex)
  | _ => none

namespace Thread

/-- The process is in user space. -/
def InUser (th : Thread) : Prop := th.call = none ∧ th.inner = none ∧ th.yielding = none

instance (th : Thread) : Decidable th.InUser := inferInstanceAs (Decidable (_ ∧ _ ∧ _))

/-- The process makes a call. -/
def make (th : Thread) (k : ProcCall) : Thread := { th with call := some k.begin, inner := k.inner }

end Thread

/-- What can happen next. -/
inductive Act where
  /-- The process on a CPU makes a call. -/
  | call (c : CpuId) (k : ProcCall)
  /-- A CPU runs its next segment; `ans` is what `kalloc` or `fastrand` returns in it. -/
  | step (c : CpuId) (ans : Nat)
  /-- A timer interrupt makes the process on a CPU yield. -/
  | timer (c : CpuId)
  /-- An interrupt handler on a CPU calls `wakeup`. -/
  | intr (c : CpuId) (chan : Nat)
  /-- The code that closes files in `exit` takes a lock to sleep on a channel. -/
  | block (c : CpuId) (chan : Nat) (lk : LockId)
  deriving DecidableEq, Repr

namespace Machine

/-- Interrupts are enabled on a CPU that holds no lock. -/
def Interruptible (s : Machine) (c : CpuId) : Prop := (s.cpus c).held = []

instance (s : Machine) (c : CpuId) : Decidable (s.Interruptible c) :=
  inferInstanceAs (Decidable (_ = _))

/-- The effect of an action on the process that a CPU runs. -/
def onProcess (s : Machine) (c : CpuId) (f : ProcId → Option Machine) : Option Machine :=
  match (s.cpus c).place with
  | .process q => f q
  | _ => none

/-- The effect of an action. -/
def act (s : Machine) : Act → Option Machine
  | .call c k => s.onProcess c fun q =>
    if (s.thread q).InUser then some (s.setThread q ((s.thread q).make k)) else none
  | .step c ans => s.runCpu c ans
  | .timer c => s.onProcess c fun q =>
    if s.Interruptible c ∧ (s.thread q).yielding = none then
      some (s.setThread q ((s.thread q).yield (some .start)))
    else none
  | .intr c chan =>
    if s.Interruptible c then
      s.critical (s.setTable (s.proc.wakeup1 (some (.object chan))))
    else none
  | .block c chan lk => s.onProcess c fun q =>
    if (s.thread q).call = some (.exit .files) ∧ (s.thread q).inner = none ∧
        (s.thread q).yielding = none then do
      let s ← s.acquire c lk
      some (s.goto q (.exit (.busy chan lk)))
    else none

/-! ### Reading segments -/

section Read

variable {s t : Machine} {c : CpuId} {cp : ProcId} {l : LockId}

theorem acquire_bind {f : Machine → Option Machine} :
    s.acquire c l >>= f = some t ↔ s.Free l ∧ f (s.lock c l) = some t := by
  rw [acquire]
  split <;> simp_all

theorem release_bind {f : Machine → Option Machine} :
    s.release c l >>= f = some t ↔ l ∈ (s.cpus c).held ∧ f (s.unlock c l) = some t := by
  rw [release]
  split <;> simp_all

theorem acquire_some {f : Machine → Machine} :
    (s.acquire c l >>= fun u => some (f u)) = some t ↔ s.Free l ∧ f (s.lock c l) = t := by
  rw [acquire_bind, Option.some_inj]

theorem release_some {f : Machine → Machine} :
    (s.release c l >>= fun u => some (f u)) = some t ↔
      l ∈ (s.cpus c).held ∧ f (s.unlock c l) = t := by
  rw [release_bind, Option.some_inj]

theorem setThread_self (q : ProcId) (th : Thread) : (s.setThread q th).thread q = th :=
  Function.update_self ..

theorem setThread_of_ne {p q : ProcId} (h : p ≠ q) (th : Thread) :
    (s.setThread q th).thread p = s.thread p := Function.update_of_ne h ..

theorem critical_eq_some {after : Machine} :
    s.critical after = some t ↔ s.Free .procTable ∧ after = t := by
  rw [critical]
  split <;> simp_all

theorem sched_eq_some :
    s.sched c cp = some t ↔ ((s.proc cp).state ≠ .RUNNING ∧ (s.cpus c).held = [.procTable]) ∧
      (s.setCpu c fun r => { r with place := .back }) = t := by
  rw [sched]
  split <;> simp_all

theorem onProcess_eq_some {f : ProcId → Option Machine} :
    s.onProcess c f = some t ↔ ∃ q, (s.cpus c).place = .process q ∧ f q = some t := by
  rw [onProcess]
  cases (s.cpus c).place <;> simp

end Read

/-- One action. -/
def Step (a : Act) (s t : Machine) : Prop := s.act a = some t

end Machine

end Xv6
