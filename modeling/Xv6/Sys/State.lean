/-
# The kernel between two system calls

The state that the system calls on descriptors and names work on: the file system with its
transactions, the page allocator, the descriptors of each process, the table of open files and the
pipes. The calls are executed one after another, each by the process `cp`. Contents of user memory
are left out: what a call reads from there is an argument of the call.
-/

import Xv6.Kalloc.Model
import Xv6.Pipe.Model
import Xv6.Proc.Table
import Xv6.Tx.Calls
import Xv6.User.Copy

namespace Xv6

open Math

/-- Open files per process. -/
def NOFILE : Nat := 16

/-- Open files per system. -/
def NFILE : Nat := 100

instance : NeZero NOFILE := ⟨by decide⟩

instance : NeZero NFILE := ⟨by decide⟩

/-- A slot of the array `file`. -/
abbrev FileId := Fin NFILE

/-- A file descriptor. -/
abbrev Fd := Fin NOFILE

/-- `struct file`. -/
structure File where
  type : FileType
  ref : Int
  readable : Bool
  writable : Bool
  /-- The address of a `struct pipe`. -/
  pipe : Nat
  ip : Option InodeId
  /-- A `uint`. -/
  off : Nat

/-- A slot that was never used. -/
def File.unused : File := ⟨.FD_CLOSED, 0, false, false, 0, none, 0⟩

/-- The fields of `struct proc` for the files of a process. -/
structure Own where
  ofile : Fd → Option FileId
  cwd : Option InodeId

/-- `ofile[fd] = f`. -/
def Own.setOfile (o : Own) (fd : Fd) (f : Option FileId) : Own :=
  { o with ofile := Function.update o.ofile fd f }

@[simp] theorem Own.setOfile_self (o : Own) (fd : Fd) (f : Option FileId) :
    (o.setOfile fd f).ofile fd = f := Function.update_self ..

theorem Own.setOfile_of_ne (o : Own) {fd fd' : Fd} (f : Option FileId) (ne : fd' ≠ fd) :
    (o.setOfile fd f).ofile fd' = o.ofile fd' := Function.update_of_ne ne ..

/-- Why a system call does not return. -/
inductive SysStop where
  /-- File system code stops. -/
  | fs (e : FsStop)
  /-- The page allocator stops. -/
  | kmem (e : Halt)
  /-- `panic(msg)`. -/
  | panic (msg : String)
  /-- A null pointer is followed. -/
  | fault
  deriving DecidableEq, Repr

/-- The state of the kernel. -/
structure Sys where
  tx : Tx
  kmem : Kmem
  own : ProcId → Own
  file : FileId → File
  /-- The `struct pipe` at an address. -/
  pipe : Nat → Pipe

/-- Kernel code. -/
abbrev SysM := EStateM SysStop Sys

namespace Sys

/-- The process that makes the call. -/
def cp (s : Sys) : ProcId := s.tx.cp

/-- Code of the file system. -/
def onTx {α : Type} (x : TxM α) : SysM α := zoom Sys.tx (fun s t => { s with tx := t }) SysStop.fs x

/-- Code of the page allocator. -/
def onKmem {α : Type} (x : KmemM α) : SysM α :=
  zoom Sys.kmem (fun s t => { s with kmem := t }) SysStop.kmem x

theorem onTx_run_of_ok {α : Type} {x : TxM α} {s : Sys} {t : Tx} {a : α}
    (run : x.run s.tx = .ok a t) :
    (onTx x).run s = .ok a { s with tx := t } := zoom_run_of_ok run

theorem onKmem_run_of_ok {α : Type} {x : KmemM α} {s : Sys} {t : Kmem} {a : α}
    (run : x.run s.kmem = .ok a t) : (onKmem x).run s = .ok a { s with kmem := t } :=
  zoom_run_of_ok run

/-- Change a slot of the file table. -/
def setFile (s : Sys) (f : FileId) (change : File → File) : Sys :=
  { s with file := Function.update s.file f (change (s.file f)) }

/-- Change the resources of a process. -/
def setOwn (s : Sys) (p : ProcId) (change : Own → Own) : Sys :=
  { s with own := Function.update s.own p (change (s.own p)) }

/-- Change a pipe. -/
def setPipe (s : Sys) (p : Nat) (change : Pipe → Pipe) : Sys :=
  { s with pipe := Function.update s.pipe p (change (s.pipe p)) }

section Set

variable (s : Sys) {f g : FileId} {p q : ProcId}

@[simp] theorem setFile_self (change : File → File) :
    (s.setFile f change).file f = change (s.file f) := Function.update_self ..

theorem setFile_of_ne (change : File → File) (ne : g ≠ f) :
    (s.setFile f change).file g = s.file g := Function.update_of_ne ne ..

@[simp] theorem setOwn_self (change : Own → Own) :
    (s.setOwn p change).own p = change (s.own p) := Function.update_self ..

@[simp] theorem setPipe_self (a : Nat) (change : Pipe → Pipe) :
    (s.setPipe a change).pipe a = change (s.pipe a) := Function.update_self ..

end Set

/-- Change a slot of the file table. -/
def modifyFile (f : FileId) (change : File → File) : SysM Unit := modify fun s => s.setFile f change

/-- Change the resources of a process. -/
def modifyOwn (p : ProcId) (change : Own → Own) : SysM Unit := modify fun s => s.setOwn p change

/-- `p->ofile[fd] = f`. -/
def setOfile (p : ProcId) (fd : Fd) (f : Option FileId) : SysM Unit :=
  modifyOwn p fun o => o.setOfile fd f

/-- Change a pipe. -/
def modifyPipe (p : Nat) (change : Pipe → Pipe) : SysM Unit := modify fun s => s.setPipe p change

/-- `*f`. -/
def loadFile (f : FileId) : SysM File := do
  let s ← get
  pure (s.file f)

/-- `*cp`, as far as its resources are concerned. -/
def loadOwn : SysM Own := do
  let s ← get
  pure (s.own s.cp)

/-- A pointer that the code follows. -/
def follow {α : Type} : Option α → SysM α
  | some a => pure a
  | none => throw .fault

end Sys

end Xv6
