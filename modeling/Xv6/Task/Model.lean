/-
# The memory of a process

`growproc` of `proc.c` and `exec`, with the bytes of the memory that they fill. The image of a
process is a block from `kalloc`, in the same memory in which the free blocks keep their list, so
a store that misses the block can change the list. The kernel's own variables are not in that
memory.

Every store through a pointer into a new block is remembered together with the block. The
arguments of `exec` and its path are pointers to strings in the old image, which is read again
when they are copied.
-/

import Xv6.Fs.Names
import Xv6.User.Copy
import Xv6.Math.Copy
import Xv6.Kalloc.FreeList

namespace Xv6

open Math

/-- A store of `len` bytes from `start` on, through a pointer into `block`. -/
structure Store where
  block : Span
  start : Nat
  len : Nat
  deriving DecidableEq, Repr

/-- Every byte of the store is in the block. -/
def Store.Inside (w : Store) : Prop := wrapped w.start w.len ⊆ w.block.bytes

/-- Why the code does not return. -/
inductive TaskStop where
  | fs (e : FsStop)
  | kmem (e : Halt)
  deriving DecidableEq, Repr

/-- The current process: the file system and the memory that it works on, and the fields of
`struct proc` that `exec` and `growproc` use. -/
structure Task where
  fs : Fs
  kmem : Kmem
  cwd : Option InodeId
  mem : Nat
  sz : Nat
  name : List UInt8
  eip : Nat
  esp : Nat
  /-- The stores into new blocks, the last one first. -/
  stores : List Store

abbrev TaskM := EStateM TaskStop Task

/-- `struct proghdr`, without the fields that are not used. -/
structure Proghdr where
  type : Nat
  offset : Nat
  va : Nat
  filesz : Nat
  memsz : Nat
  deriving DecidableEq, Repr

/-- A `uint` in a structure given by its bytes. -/
def uintAt (bs : List UInt8) (o : Nat) : Nat :=
  (bs.getD o 0).toNat + 256 * (bs.getD (o + 1) 0).toNat + 65536 * (bs.getD (o + 2) 0).toNat +
    16777216 * (bs.getD (o + 3) 0).toNat

/-- A `ushort` in a structure given by its bytes. -/
def ushortAt (bs : List UInt8) (o : Nat) : Nat :=
  (bs.getD o 0).toNat + 256 * (bs.getD (o + 1) 0).toNat

/-- `sizeof(struct elfhdr)`. -/
def ELFHDR : Nat := 52

/-- `sizeof(struct proghdr)`. -/
def PROGHDR : Nat := 32

/-- `"\x7FELF"` in little endian. -/
def ELF_MAGIC : Nat := 0x464C457F

/-- The type of a segment that is loaded. -/
def ELF_PROG_LOAD : Nat := 1

/-- A program header given by its bytes. -/
def Proghdr.ofBytes (bs : List UInt8) : Proghdr where
  type := uintAt bs 0
  offset := uintAt bs 4
  va := uintAt bs 8
  filesz := uintAt bs 16
  memsz := uintAt bs 20

/-- What stands behind the last slash of a path. -/
def lastElem (path : List UInt8) : List UInt8 := (path.reverse.takeWhile (· ≠ slash)).reverse

/-- `sizeof(cp->name)`. -/
def NAMESIZE : Nat := 16

namespace Task

/-- Code of the file system. -/
def onFs {α : Type} : FsM α → TaskM α := zoom Task.fs (fun s t => { s with fs := t }) .fs

/-- Code of the page allocator. -/
def onKmem {α : Type} : KmemM α → TaskM α := zoom Task.kmem (fun s t => { s with kmem := t }) .kmem

/-- The bytes of the memory. -/
def bytes (s : Task) : ByteMem := s.kmem.mem

/-! ### Stores -/

/-- The state after a store. -/
def stored (s : Task) (block : Span) (a n : Nat) (src : Nat → UInt8) : Task :=
  { s with
    kmem := { s.kmem with mem := s.kmem.mem.blit (a % 2 ^ 32) n src }
    stores := ⟨block, a % 2 ^ 32, n⟩ :: s.stores }

/-- Store `n` bytes at the address `a`. -/
def store (block : Span) (a n : Nat) (src : Nat → UInt8) : TaskM Unit :=
  modify fun s => s.stored block a n src

/-- `memset(dst, c, n)`. -/
def memset (block : Span) (dst : Nat) (c : UInt8) (n : Nat) : TaskM Unit :=
  store block dst n fun _ => c

/-- `memmove(dst, src, n)`. -/
def memmove (block : Span) (dst src n : Nat) : TaskM Unit := do
  let s ← get
  store block dst n fun i => s.bytes ((src + i) % 2 ^ 32)

/-- `*(uint*)a = v`. -/
def storeWord (block : Span) (a v : Nat) : TaskM Unit :=
  store block a 4 fun i => UInt8.ofNat (v / 256 ^ i)

/-! ### `growproc` -/

/-- `growproc`. -/
def growproc (n : Int) : TaskM Int := do
  let s ← get
  let newmem ← onKmem (kalloc (int32 (word32 (s.sz + n))))
  if newmem = 0 then pure (-1)
  else do
    let block : Span := ⟨newmem, word32 (s.sz + n)⟩
    memmove block newmem s.mem s.sz
    memset block (newmem + s.sz) 0 (word32 n)
    onKmem (kfree s.mem (int32 s.sz))
    modify fun s => { s with mem := newmem, sz := word32 (s.sz + n) }
    pure (int32 s.sz)

/-- `sbrk(n)`. -/
def sysSbrk : Option Int → TaskM Int
  | none => pure (-1)
  | some n => do
    let addr ← growproc n
    pure (if addr < 0 then -1 else addr)

/-! ### `exec` -/

/-- The first loop of `exec` over the program headers: the size of the segments. `none` stands for
the jump to `bad`. -/
def segmentsSize (ip : InodeId) : Nat → Nat → Nat → FsM (Option Nat)
  | 0, _, sz => pure (some sz)
  | n + 1, off, sz => do
    let (got, bs) ← Fs.readi ip off PROGHDR
    let ph := Proghdr.ofBytes bs
    if got ≠ PROGHDR then pure none
    else if ph.type ≠ ELF_PROG_LOAD then segmentsSize ip n ((off + PROGHDR) % 2 ^ 32) sz
    else if ph.memsz < ph.filesz then pure none
    else segmentsSize ip n ((off + PROGHDR) % 2 ^ 32) ((sz + ph.memsz) % 2 ^ 32)

/-- The second loop of `exec` over the program headers, which loads the segments into the block.
`readi` stores what it has read even if it is less than `filesz`. -/
def loadSegments (ip : InodeId) (block : Span) : Nat → Nat → TaskM Bool
  | 0, _ => pure true
  | n + 1, off => do
    let (got, bs) ← onFs (Fs.readi ip off PROGHDR)
    let ph := Proghdr.ofBytes bs
    if got ≠ PROGHDR then pure false
    else if ph.type ≠ ELF_PROG_LOAD then
      loadSegments ip block n ((off + PROGHDR) % 2 ^ 32)
    else if block.len < (ph.va + ph.memsz) % 2 ^ 32 then pure false
    else do
      let (loaded, data) ← onFs (Fs.readi ip ph.offset ph.filesz)
      store block (block.start + ph.va) data.length fun i => data.getD i 0
      if word32 loaded ≠ ph.filesz then pure false
      else do
        memset block (block.start + ph.va + ph.filesz) 0 (word32 (ph.memsz - ph.filesz))
        loadSegments ip block n ((off + PROGHDR) % 2 ^ 32)

/-- The loop of `exec` that copies the arguments, the last one first: the strings go down from
`sp`, and their addresses into the array at `argp`. -/
def pushArgs (block : Span) (argp : Nat) : List Nat → Nat → TaskM Unit
  | [], _ => pure ()
  | arg :: args, sp => do
    let s ← get
    let len := (s.bytes.str arg).length + 1
    let sp := word32 (sp - len)
    memmove block (block.start + sp) arg len
    storeWord block (block.start + argp + 4 * args.length) sp
    pushArgs block argp args sp

/-- The bytes that the arguments take, each with its zero, rounded up to words. -/
def arglen (args : List (List UInt8)) : Nat :=
  ((args.map fun arg => arg.length + 1).sum + 3) / 4 * 4

/-- Where `exec` puts the array of arguments in an image of `sz` bytes. -/
def argpOf (sz : Nat) (args : List (List UInt8)) : Nat :=
  word32 (sz - arglen args - 4 * (args.length + 1))

/-- The size of the image for segments of `sz` bytes and the arguments `argv`. -/
def imageSize (sz : Nat) (argv : List (List UInt8)) : Nat :=
  let sz := sz + arglen argv + 4 * (argv.length + 1) + PAGE
  (sz + PAGE - 1) % 2 ^ 32 / PAGE * PAGE

/-- The part of `exec` that initialises the stack. -/
def initStack (block : Span) (argp : Nat) (argv : List Nat) : TaskM Unit := do
  storeWord block (block.start + argp + 4 * argv.length) 0
  pushArgs block argp argv.reverse block.len
  storeWord block (block.start + word32 (argp - 4)) argp
  storeWord block (block.start + word32 (argp - 8)) argv.length
  storeWord block (block.start + word32 (argp - 12)) 0xffffffff

/-- The part of `exec` that commits to the new image. -/
def commitImage (block : Span) (path entry sp : Nat) : TaskM Int := do
  let s ← get
  modify fun s => { s with name := (lastElem (s.bytes.str path)).take (NAMESIZE - 1) }
  onKmem (kfree s.mem (int32 s.sz))
  modify fun s => { s with mem := block.start, sz := block.len, eip := entry, esp := sp }
  pure 0

/-- The exit `bad` of `exec`. -/
def execFails (ip : InodeId) : TaskM Int := do
  onFs (Fs.iunlockput ip)
  pure (-1)

/-- The part of `exec` that allocates and fills the image, for segments of `size` bytes. -/
def execImage (ip : InodeId) (path : Nat) (argv : List Nat) (size phnum phoff entry : Nat) :
    TaskM Int := do
  let s ← get
  let args := argv.map s.bytes.str
  let sz := imageSize size args
  let mem ← onKmem (kalloc (int32 sz))
  if mem = 0 then execFails ip
  else do
    let block : Span := ⟨mem, sz⟩
    memset block mem 0 sz
    if ← loadSegments ip block phnum phoff then do
      onFs (Fs.iunlockput ip)
      let argp := argpOf sz args
      initStack block argp argv
      commitImage block path entry (word32 (argp - 12))
    else do
      onKmem (kfree mem (int32 sz))
      execFails ip

/-- `exec`; `stack` are the bytes of the variable `elf` before it is filled. The result of `readi`
is compared as an unsigned number. -/
def exec (path : Nat) (argv : List Nat) (stack : List UInt8) : TaskM Int := do
  let s ← get
  match ← onFs (Fs.namei s.cwd (s.bytes.str path)) with
  | none => pure (-1)
  | some ip => do
    onFs (Fs.ilock ip)
    let (got, bytes) ← onFs (Fs.readi ip 0 ELFHDR)
    let elf := bytes ++ stack.drop bytes.length
    if word32 got < ELFHDR ∨ uintAt elf 0 ≠ ELF_MAGIC then execFails ip
    else
      match ← onFs (segmentsSize ip (ushortAt elf 44) (uintAt elf 28) 0) with
      | none => execFails ip
      | some size =>
        execImage ip path argv size (ushortAt elf 44) (uintAt elf 28) (uintAt elf 24)

end Task

end Xv6
