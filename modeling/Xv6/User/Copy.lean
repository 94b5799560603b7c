/-
# Copying to and from user memory

`sys_read` and `sys_write` down to the single bytes of the memory of the process: `argptr`,
`fileread`, `filewrite`, `readi`, `writei`, the console driver, `piperead` and `pipewrite`. The
addresses that the kernel accesses are kept as a history. Where the code sleeps, anything may
happen to the pipe before it goes on.
-/

import Xv6.Fs.Inode
import Xv6.Math.Part
import Xv6.Pipe.Model

namespace Xv6

open Math Fs

/-- `struct file`: its `type`. -/
inductive FileType where
  | FD_CLOSED
  | FD_NONE
  | FD_PIPE
  | FD_INODE
  deriving DecidableEq, Repr

/-- An open file, as `fileread` and `filewrite` see it. -/
structure OpenFile where
  type : FileType
  readable : Bool
  writable : Bool
  ip : InodeId
  /-- A `uint`. -/
  off : Nat

/-- Why a call does not return. -/
inductive CopyStop where
  /-- File system code stops. -/
  | fs (e : FsStop)
  /-- `panic(msg)`. -/
  | panic (msg : String)
  /-- Nobody wakes the process up. -/
  | asleep
  deriving DecidableEq, Repr

/-- What `sys_read` and `sys_write` work on. -/
structure Copying where
  fs : Fs
  file : OpenFile
  /-- `f->pipe`. -/
  pipe : Pipe
  /-- `cp->killed`. -/
  killed : Bool
  /-- The pipe and `cp->killed`, as the process finds them each time it wakes up. -/
  wakes : List (Pipe × Bool)
  /-- What `console_read` finds: a character, or `cp->killed` set while it waits for one. -/
  keys : List (Option UInt8)
  /-- The bytes from `cp->mem` on. -/
  mem : Nat → UInt8
  /-- History: the addresses relative to `cp->mem` that were accessed, the last one first. -/
  touched : List Nat

/-- Code that copies to or from user memory. -/
abbrev CopyM := EStateM CopyStop Copying

namespace Copying

/-- File system code that does not access user memory. -/
def lift {α : Type} (x : FsM α) : CopyM α := fun s =>
  match x.run s.fs with
  | .ok a t => .ok a { s with fs := t }
  | .error e t => .error (.fs e) { s with fs := t }

theorem lift_eq_zoom {α : Type} (x : FsM α) :
    lift x = zoom Copying.fs (fun s t => { s with fs := t }) CopyStop.fs x := by
  funext s
  unfold lift zoom
  cases x.run s.fs with
  | ok | error => rfl

theorem lift_run {α : Type} {x : FsM α} {s : Copying} {a : α} {t : Fs}
    (run : x.run s.fs = .ok a t) : (lift x).run s = .ok a { s with fs := t } := by
  rw [lift_eq_zoom]
  exact zoom_run_of_ok run

theorem lift_run_of_error {α : Type} {x : FsM α} {s : Copying} {e : FsStop} {t : Fs}
    (run : x.run s.fs = .error e t) : (lift x).run s = .error (.fs e) { s with fs := t } := by
  rw [lift_eq_zoom]
  exact zoom_run_of_error run

/-- Read the byte at `a`. -/
def peek (a : Nat) : CopyM UInt8 := do
  modify fun s => { s with touched := a :: s.touched }
  let s ← get
  pure (s.mem a)

/-- Store a byte at `a`. -/
def poke (a : Nat) (c : UInt8) : CopyM Unit :=
  modify fun s => { s with mem := Function.update s.mem a c, touched := a :: s.touched }

/-- `memmove` of the given bytes to user memory. -/
def copyOut (dst : Nat) : List UInt8 → CopyM Unit
  | [] => pure ()
  | c :: cs => do
    poke dst c
    copyOut (dst + 1) cs

/-- `memmove` of `m` bytes from user memory. -/
def copyIn (src : Nat) : Nat → CopyM (List UInt8)
  | 0 => pure []
  | m + 1 => do
    let c ← peek src
    let cs ← copyIn (src + 1) m
    pure (c :: cs)

/-! ### Inodes -/

/-- The loop of `readi` from `off` on, with `left` bytes to go; `fuel` is at least `left`. -/
def readiLoop (ip : InodeId) : Nat → Nat → Nat → Nat → CopyM Unit
  | 0, _, _, _ => pure ()
  | fuel + 1, dst, off, left =>
    if left = 0 then pure ()
    else do
      let r ← lift (load ip)
      let bno ← lift (bmap ip (off / BSIZE) false)
      let bp ← lift (Fs.bread r.dev bno.toNat)
      let m := min left (BSIZE - off % BSIZE)
      copyOut dst (bp.read (off % BSIZE) m)
      readiLoop ip fuel (dst + m) (off + m) (left - m)

/-- `C('D')`, the end of a file. -/
def ctrlD : UInt8 := 4

/-- `'\n'`. -/
def newline : UInt8 := 10

/-- The loop of `console_read` with the characters in `keys`, `got` bytes stored and `n` to go.
The result is the number of bytes stored, or none for a process that is killed. -/
def consoleReadLoop : List (Option UInt8) → Nat → Nat → Nat → CopyM (Option Nat)
  | _, _, got, 0 => pure (some got)
  | [], _, _, _ + 1 => throw .asleep
  | none :: keys, _, _, _ + 1 => do
    modify fun s => { s with keys := keys }
    pure none
  | some c :: keys, dst, got, n + 1 =>
    if c = ctrlD then do
      -- a ^D behind other bytes is left for the next call
      modify fun s => { s with keys := if 0 < got then some c :: keys else keys }
      pure (some got)
    else do
      modify fun s => { s with keys := keys }
      poke dst c
      if c = newline then pure (some (got + 1)) else consoleReadLoop keys (dst + 1) (got + 1) n

/-- `console_read`. -/
def consoleRead (ip : InodeId) (dst : Nat) (n : Int) : CopyM Int := do
  lift (iunlock ip)
  let s ← get
  let got ← consoleReadLoop s.keys dst 0 n.toNat
  lift (ilock ip)
  match got with
  | none => pure (-1)
  | some got => pure got

/-- `console_write`. -/
def consoleWrite (ip : InodeId) (src : Nat) (n : Int) : CopyM Int := do
  lift (iunlock ip)
  let _ ← copyIn src n.toNat
  lift (ilock ip)
  pure n

/-- Read `n` bytes at `off`, which are `uint`s. -/
def readi (ip : InodeId) (dst off n : Nat) : CopyM Int := do
  let r ← lift (load ip)
  let size := r.copy.size.toNat
  if r.copy.type = T_DEV then
    if hasDriver r.copy.major then consoleRead ip dst (int32 n) else pure (-1)
  else if size < off ∨ (off + n) % 2 ^ 32 < off then pure (-1)
  else do
    let n := if size < off + n then size - off else n
    readiLoop ip n dst off n
    pure (int32 n)

/-- The loop of `writei`, with `tot` of the `n` bytes written and `off` the place of the next
one; `fuel` is at least `n - tot`. The result is `off` after the loop. -/
def writeiLoop (ip : InodeId) (n : Nat) : Nat → Nat → Nat → Nat → CopyM Nat
  | 0, _, _, off => pure off
  | fuel + 1, src, tot, off =>
    if tot < n then do
      let r ← lift (load ip)
      let bno ← lift (bmap ip (off / BSIZE) true)
      let bp ← lift (Fs.bread r.dev bno.toNat)
      let m := min (n - tot) (BSIZE - off % BSIZE)
      let bytes ← copyIn src m
      lift (Fs.bwrite r.dev bno.toNat (bp.write (off % BSIZE) (fun i => bytes.getD i 0) m))
      writeiLoop ip n fuel (src + m) (tot + m) (off + m)
    else pure off

/-- Write `n` bytes at `off`, which are `uint`s. -/
def writei (ip : InodeId) (src off n : Nat) : CopyM Int := do
  let r ← lift (load ip)
  if r.copy.type = T_DEV then
    if hasDriver r.copy.major then consoleWrite ip src (int32 n) else pure (-1)
  else if (off + n) % 2 ^ 32 < off then pure (-1)
  else do
    let n := if MAXFILE * BSIZE < off + n then (MAXFILE * BSIZE + 2 ^ 32 - off) % 2 ^ 32 else n
    let off ← writeiLoop ip n n src 0 off
    let r ← lift (load ip)
    if 0 < n ∧ r.copy.size.toNat < off then do
      lift (modifyCopy ip fun d => { d with size := UInt32.ofNat off })
      lift (iupdate ip)
      pure (int32 n)
    else pure (int32 n)

/-! ### Pipes -/

/-- A `while` loop around `sleep`; `now` says how it ends, if it does not sleep. When the process
wakes up, the pipe and its flag `killed` are as it finds them. -/
def sleepUntil (now : Copying → Option Bool) : List (Pipe × Bool) → CopyM Bool
  | [] => do
    let s ← get
    match now s with
    | some goesOn => pure goesOn
    | none => throw .asleep
  | (pipe, killed) :: wakes => do
    let s ← get
    match now s with
    | some goesOn => pure goesOn
    | none => do
      modify fun s => { s with pipe := pipe, killed := killed, wakes := wakes }
      sleepUntil now wakes

/-- The `while` loop of `pipewrite`: whether there is room for a byte. -/
def waitRoom (s : Copying) : Option Bool :=
  if s.pipe.writep = (s.pipe.readp + PIPESIZE) % 2 ^ 32 then
    if s.pipe.readopen = false ∨ s.killed = true then some false else none
  else some true

/-- The `while` loop of `piperead`: whether the process goes on. -/
def waitData (s : Copying) : Option Bool :=
  if s.pipe.readp = s.pipe.writep ∧ s.pipe.writeopen = true then
    if s.killed = true then some false else none
  else some true

/-- The `for` loop of `pipewrite` with the counter `i` and `left` bytes to go. -/
def pipewriteLoop (addr : Nat) : Nat → Nat → CopyM Int
  | 0, i => pure i
  | left + 1, i => do
    let s ← get
    let room ← sleepUntil waitRoom s.wakes
    if room then do
      let c ← peek (addr + i)
      modify fun s => { s with pipe := { s.pipe with toRingBuffer := s.pipe.put c } }
      pipewriteLoop addr left (i + 1)
    else pure (-1)

/-- `pipewrite`. -/
def pipewrite (addr : Nat) (n : Int) : CopyM Int := pipewriteLoop addr n.toNat 0

/-- The `for` loop of `piperead` with the counter `i` and at most `left` bytes to go. -/
def pipereadLoop (addr : Nat) : Nat → Nat → CopyM Int
  | 0, i => pure i
  | left + 1, i => do
    let s ← get
    if s.pipe.readp = s.pipe.writep then pure i
    else do
      poke (addr + i) s.pipe.front
      modify fun s => { s with pipe := { s.pipe with toRingBuffer := s.pipe.drop } }
      pipereadLoop addr left (i + 1)

/-- `piperead`. -/
def piperead (addr : Nat) (n : Int) : CopyM Int := do
  let s ← get
  let more ← sleepUntil waitData s.wakes
  if more then pipereadLoop addr n.toNat 0 else pure (-1)

/-! ### Files -/

/-- `if(r > 0) f->off += r`. -/
def advance (r : Int) : CopyM Unit :=
  modify fun s =>
    if 0 < r then { s with file := { s.file with off := word32 (s.file.off + r) } } else s

/-- Read from a file. -/
def fileread (addr : Nat) (n : Int) : CopyM Int := do
  let s ← get
  let f := s.file
  if f.readable = false then pure (-1)
  else
    match f.type with
    | .FD_PIPE => piperead addr n
    | .FD_INODE => do
      lift (ilock f.ip)
      let r ← readi f.ip addr f.off (word32 n)
      advance r
      lift (iunlock f.ip)
      pure r
    | .FD_NONE | .FD_CLOSED => throw (.panic "fileread")

/-- Write to a file. -/
def filewrite (addr : Nat) (n : Int) : CopyM Int := do
  let s ← get
  let f := s.file
  if f.writable = false then pure (-1)
  else
    match f.type with
    | .FD_PIPE => pipewrite addr n
    | .FD_INODE => do
      lift (ilock f.ip)
      let r ← writei f.ip addr f.off (word32 n)
      advance r
      lift (iunlock f.ip)
      pure r
    | .FD_NONE | .FD_CLOSED => throw (.panic "filewrite")

end Copying

/-- `argptr` for the word `i` and a block of `size` bytes: the place of the block in the memory of
a process of size `sz`. The sum is a `uint`. -/
def argptr (sz i : UInt32) (size : Int32) : Option Nat :=
  if sz ≤ i ∨ sz.toNat ≤ word32 (i.toNat + size.toInt) then none else some i.toNat

namespace Copying

/-- `sys_read`, with the arguments fetched. -/
def sysRead (sz i : UInt32) (n : Int32) : CopyM Int :=
  match argptr sz i n with
  | none => pure (-1)
  | some p => fileread p n.toInt

/-- `sys_write`, with the arguments fetched. -/
def sysWrite (sz i : UInt32) (n : Int32) : CopyM Int :=
  match argptr sz i n with
  | none => pure (-1)
  | some p => filewrite p n.toInt

end Copying

end Xv6
