/-
# Open files and pipes

The file table of `file.c`, and how `pipe.c` makes and closes a pipe.
-/

import Xv6.Sys.State

namespace Xv6

open Math

namespace Sys

/-- The slot that `filealloc` finds. -/
def closedFile (s : Sys) : Option FileId :=
  (List.finRange NFILE).find? fun f => (s.file f).type = .FD_CLOSED

/-- Allocate a file structure. -/
def filealloc : SysM (Option FileId) := do
  let s ← get
  match s.closedFile with
  | none => pure none
  | some f => do
    modifyFile f fun r => { r with type := .FD_NONE, ref := 1 }
    pure (some f)

/-! ### Pipes -/

/-- `pipeclose`. -/
def pipeclose (p : Nat) (writable : Bool) : SysM Unit := do
  modifyPipe p fun q =>
    if writable then { q with writeopen := false } else { q with readopen := false }
  let s ← get
  if (s.pipe p).readopen = false ∧ (s.pipe p).writeopen = false then onKmem (kfree p PAGE)
  else pure ()

/-! ### Files -/

/-- Close a file: drop a reference, and release what the file stands for with the last one. -/
def fileclose (f : FileId) : SysM Unit := do
  let r ← loadFile f
  if r.ref < 1 ∨ r.type = .FD_CLOSED then throw (.panic "fileclose")
  else if 0 < r.ref - 1 then modifyFile f fun r => { r with ref := r.ref - 1 }
  else do
    modifyFile f fun r => { r with ref := 0, type := .FD_CLOSED }
    match r.type with
    | .FD_PIPE => pipeclose r.pipe r.writable
    | .FD_INODE => do
      let ip ← follow r.ip
      onTx (Tx.iput ip)
    | .FD_NONE | .FD_CLOSED => throw (.panic "fileclose")

/-- `filecheck`. -/
def filecheck (f : FileId) (n : Int) : SysM Int := do
  let r ← loadFile f
  if r.readable = false ∧ r.writable = false then pure (-1)
  else
    match r.type with
    | .FD_PIPE => pure 0
    | .FD_INODE => do
      let ip ← follow r.ip
      onTx (Tx.ilock ip)
      let v ← onTx (Tx.checki ip n)
      onTx (Tx.iunlock ip)
      pure v
    | .FD_NONE | .FD_CLOSED => throw (.panic "filecheck")

/-- The exit `bad` of `pipealloc` for one of its files. -/
def discard (f : FileId) : SysM Unit := do
  modifyFile f fun r => { r with type := .FD_NONE }
  fileclose f

/-- A file that is one end of the pipe `p`. -/
def setEnd (f : FileId) (p : Nat) (writable : Bool) : SysM Unit :=
  modifyFile f fun r =>
    { r with type := .FD_PIPE, readable := !writable, writable := writable, pipe := p }

/-- `pipealloc`: the read end and the write end of a new pipe. -/
def pipealloc : SysM (Option (FileId × FileId)) := do
  match ← filealloc with
  | none => pure none
  | some f0 =>
    match ← filealloc with
    | none => do
      discard f0
      pure none
    | some f1 => do
      let p ← onKmem (kalloc PAGE)
      if p = 0 then do
        discard f0
        discard f1
        pure none
      else do
        modifyPipe p fun q =>
          { q with readopen := true, writeopen := true, writep := 0, readp := 0 }
        setEnd f0 p false
        setEnd f1 p true
        pure (some (f0, f1))

end Sys

end Xv6
