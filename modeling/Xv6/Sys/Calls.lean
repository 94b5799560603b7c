/-
# System calls on descriptors

`open`, `pipe` and `check` of `sysfile.c`. Arguments are given as the kernel has fetched them;
`none` stands for an argument that `argint`, `argstr` or `argptr` refuses.
-/

import Xv6.Sys.File

namespace Xv6

open Math

/-- Open for writing only. -/
def O_WRONLY : UInt32 := 0x001

/-- Open for reading and writing. -/
def O_RDWR : UInt32 := 0x002

/-- Create the file if there is none. -/
def O_CREATE : UInt32 := 0x200

namespace Own

/-- The descriptor `n` and its file, if there is one. -/
def argfd (o : Own) (n : Int) : Option (Fd × FileId) :=
  if h : 0 ≤ n ∧ n < NOFILE then
    (o.ofile ⟨n.toNat, by omega⟩).map fun f => (⟨n.toNat, by omega⟩, f)
  else Option.none

/-- The descriptor that `fdalloc` finds. -/
def freeFd (o : Own) : Option Fd := (List.finRange NOFILE).find? fun fd => o.ofile fd = Option.none

end Own

namespace Sys

/-! ### Descriptors -/

/-- `argfd`: the descriptor and its file. -/
def argfd : Option Int → SysM (Option (Fd × FileId))
  | none => pure none
  | some n => do
    let o ← loadOwn
    pure (o.argfd n)

/-- Allocate a file descriptor for a file. -/
def fdalloc (f : FileId) : SysM (Option Fd) := do
  let s ← get
  match (s.own s.cp).freeFd with
  | none => pure none
  | some fd => do
    setOfile s.cp fd (some f)
    pure (some fd)

/-- `end_trans`. -/
def endTrans : SysM Unit := onTx Tx.endTrans

/-- End a call with a commit and a result. -/
def finish {α : Type} (v : α) : SysM α := do
  endTrans
  pure v

/-- `cp->cwd`. -/
def cwd : SysM (Option InodeId) := do
  let o ← loadOwn
  pure o.cwd

/-- `check(fd, offset)`. -/
def sysCheck (fd : Option Int) (offset : Option Int) : SysM Int := do
  match ← argfd fd, offset with
  | some (_, f), some offset => filecheck f offset
  | _, _ => pure (-1)

/-- The inode that `open` works on, locked. -/
def openInode (dir : Option InodeId) (path : List UInt8) (omode : UInt32) :
    TxM (Option InodeId) :=
  if omode &&& O_CREATE ≠ 0 then Tx.create dir path true T_FILE 0 0
  else do
    match ← Tx.namei dir path with
    | none => pure none
    | some ip => do
      Tx.ilock ip
      let r ← Tx.load ip
      if r.copy.type = T_DIR ∧ omode &&& (O_RDWR ||| O_WRONLY) ≠ 0 then do
        Tx.iunlockput ip
        pure none
      else pure (some ip)

/-- The exit of `open` when there is no file structure or no descriptor. -/
def openFails (ip : InodeId) : SysM Int := do
  onTx (Tx.iunlockput ip)
  finish (-1)

/-- `open(path, omode)`. -/
def sysOpen : Option (List UInt8) → Option UInt32 → SysM Int
  | some path, some omode => do
    let dir ← cwd
    match ← onTx (openInode dir path omode) with
    | none => finish (-1)
    | some ip =>
      match ← filealloc with
      | none => openFails ip
      | some f =>
        match ← fdalloc f with
        | none => do
          fileclose f
          openFails ip
        | some fd => do
          onTx (Tx.iunlock ip)
          modifyFile f fun r =>
            { r with
              type := .FD_INODE, ip := some ip, off := 0, readable := omode &&& O_WRONLY = 0,
              writable := omode &&& O_WRONLY ≠ 0 ∨ omode &&& O_RDWR ≠ 0 }
          finish (fd.val : Int)
  | _, _ => pure (-1)

/-- `pipe(fd)`; `ok` tells whether the pointer is accepted. -/
def sysPipe (ok : Bool) : SysM Int :=
  if ok = false then pure (-1)
  else do
    match ← pipealloc with
    | none => finish (-1)
    | some (rf, wf) =>
      match ← fdalloc rf with
      | none => do
        fileclose rf
        fileclose wf
        finish (-1)
      | some fd0 =>
        match ← fdalloc wf with
        | none => do
          let s ← get
          setOfile s.cp fd0 none
          fileclose rf
          fileclose wf
          finish (-1)
        | some _ => finish 0

end Sys

end Xv6
