/-
# Pipes

`pipewrite`, `piperead` and the locked part of `pipeclose` of `pipe.c`, for any number of
processes. A process runs one iteration of a loop at a time while it holds the lock of the
pipe; where the code calls `sleep` it gives the lock away, and a wakeup sends it back to
acquire the lock. The bytes stored and taken so far are kept as a history.
-/

import Xv6.Math.RingBuffer

namespace Xv6

open Math

/-- Size of the ring of a pipe. -/
def PIPESIZE : Nat := 512

/-- `struct pipe`; `writep` and `readp` are `uint` counters that wrap around. -/
structure Pipe extends RingBuffer PIPESIZE (2 ^ 32) UInt8 where
  readopen : Bool
  writeopen : Bool

/-- Where a process is in `pipewrite`. -/
inductive WritePc where
  /-- About to acquire the lock. -/
  | start
  /-- At the head of the `for` loop, with the lock. -/
  | loop
  /-- In `sleep(&p->writep, &p->lock)`. -/
  | asleep
  deriving DecidableEq, Repr

/-- Where a process is in `piperead`. -/
inductive ReadPc where
  /-- About to acquire the lock. -/
  | start
  /-- At the test of the `while` loop, with the lock. -/
  | test
  /-- In `sleep(&p->readp, &p->lock)`. -/
  | asleep
  /-- At the head of the `for` loop with the counter `i`, with the lock. -/
  | loop (i : Nat)
  deriving DecidableEq, Repr

/-- A process that uses the pipe. -/
inductive PipeThread where
  | idle
  /-- `pipewrite` with the bytes still to store, after `i` stored ones. -/
  | write (pc : WritePc) (todo : List UInt8) (i : Nat)
  /-- `piperead` of `n` bytes. -/
  | read (pc : ReadPc) (n : Int)
  deriving DecidableEq, Repr

/-- What `wakeup(&p->readp)` does to a process. -/
def PipeThread.wakeReader : PipeThread → PipeThread
  | .read .asleep n => .read .start n
  | t => t

/-- What `wakeup(&p->writep)` does to a process. -/
def PipeThread.wakeWriter : PipeThread → PipeThread
  | .write .asleep todo i => .write .start todo i
  | t => t

/-- A pipe and its users. -/
structure PipeSystem where
  pipe : Pipe
  lock : Option Nat
  threads : Nat → PipeThread
  killed : Nat → Bool
  /-- History: the bytes stored by writes, in order. -/
  stored : List UInt8
  /-- History: the bytes copied out by reads, in order. -/
  taken : List UInt8

namespace PipeSystem

/-- The pipe that `pipealloc` sets up in a page with the given contents. -/
def fresh (data : Nat → UInt8) : PipeSystem where
  pipe := ⟨⟨0, 0, data⟩, true, true⟩
  lock := none
  threads _ := .idle
  killed _ := false
  stored := []
  taken := []

/-- A process goes on at another place. -/
def goto (s : PipeSystem) (p : Nat) (t : PipeThread) : PipeSystem :=
  { s with threads := Function.update s.threads p t }

/-- `acquire(&p->lock)`. -/
def acquire (s : PipeSystem) (p : Nat) : PipeSystem := { s with lock := some p }

/-- `release(&p->lock)`. -/
def release (s : PipeSystem) : PipeSystem := { s with lock := none }

/-- `wakeup(&p->readp)`. -/
def wakeReaders (s : PipeSystem) : PipeSystem :=
  { s with threads := fun p => (s.threads p).wakeReader }

/-- `wakeup(&p->writep)`. -/
def wakeWriters (s : PipeSystem) : PipeSystem :=
  { s with threads := fun p => (s.threads p).wakeWriter }

/-- `p->data[p->writep++ % PIPESIZE] = c`. -/
def store (s : PipeSystem) (c : UInt8) : PipeSystem :=
  { s with pipe := { s.pipe with toRingBuffer := s.pipe.put c }, stored := s.stored ++ [c] }

/-- `addr[i] = p->data[p->readp++ % PIPESIZE]`. -/
def take (s : PipeSystem) : PipeSystem :=
  { s with
    pipe := { s.pipe with toRingBuffer := s.pipe.drop }, taken := s.taken ++ [s.pipe.front] }

/-- The next step of `pipewrite`, and what it returns if it does. -/
def runWrite (s : PipeSystem) (p : Nat) (todo : List UInt8) (i : Nat) :
    WritePc → Option (PipeSystem × Option Int)
  | .start =>
    if s.lock = none then some ((s.acquire p).goto p (.write .loop todo i), none) else none
  | .loop =>
    match todo with
    | [] => some ((s.wakeReaders.goto p .idle).release, some i)
    | c :: cs =>
      if s.pipe.writep = (s.pipe.readp + PIPESIZE) % 2 ^ 32 then
        if s.pipe.readopen = false ∨ s.killed p = true then
          some ((s.goto p .idle).release, some (-1))
        else some ((s.wakeReaders.goto p (.write .asleep todo i)).release, none)
      else some ((s.store c).goto p (.write .loop cs (i + 1)), none)
  | .asleep => none

/-- The next step of `piperead`, and what it returns if it does. -/
def runRead (s : PipeSystem) (p : Nat) (n : Int) : ReadPc → Option (PipeSystem × Option Int)
  | .start =>
    if s.lock = none then some ((s.acquire p).goto p (.read .test n), none) else none
  | .test =>
    if s.pipe.readp = s.pipe.writep ∧ s.pipe.writeopen = true then
      if s.killed p = true then some ((s.goto p .idle).release, some (-1))
      else some ((s.goto p (.read .asleep n)).release, none)
    else some (s.goto p (.read (.loop 0) n), none)
  | .loop i =>
    if i < n ∧ s.pipe.readp ≠ s.pipe.writep then
      some (s.take.goto p (.read (.loop (i + 1)) n), none)
    else some ((s.wakeWriters.goto p .idle).release, some i)
  | .asleep => none

/-- The next step of a process. -/
def run (s : PipeSystem) (p : Nat) : Option (PipeSystem × Option Int) :=
  match s.threads p with
  | .idle => none
  | .write pc todo i => s.runWrite p todo i pc
  | .read pc n => s.runRead p n pc

/-- `pipeclose` up to the release of the lock. -/
def close (s : PipeSystem) (writable : Bool) : PipeSystem :=
  if writable then { s.wakeReaders with pipe := { s.pipe with writeopen := false } }
  else { s.wakeWriters with pipe := { s.pipe with readopen := false } }

end PipeSystem

/-- What can happen to a pipe. -/
inductive PipeAct where
  /-- A process calls `pipewrite`. -/
  | write (p : Nat) (bytes : List UInt8)
  /-- A process calls `piperead`. -/
  | read (p : Nat) (n : Int)
  /-- A process makes its next step. -/
  | run (p : Nat)
  /-- The last descriptor of one end is closed. -/
  | close (writable : Bool)
  /-- A process is killed, and woken if it sleeps. -/
  | kill (p : Nat)
  deriving DecidableEq, Repr

namespace PipeSystem

/-- The effect of an action, with what a call returns in it. -/
def act (s : PipeSystem) : PipeAct → Option (PipeSystem × Option Int)
  | .write p bytes =>
    if s.threads p = .idle then some (s.goto p (.write .start bytes 0), none) else none
  | .read p n => if s.threads p = .idle then some (s.goto p (.read .start n), none) else none
  | .run p => s.run p
  | .close writable => if s.lock = none then some (s.close writable, none) else none
  | .kill p =>
    some ({ s.goto p (s.threads p).wakeReader.wakeWriter with
      killed := Function.update s.killed p true }, none)

/-- One action of the system. -/
def Step (a : PipeAct) (s t : PipeSystem) : Prop := ∃ r, s.act a = some (t, r)

end PipeSystem

end Xv6
