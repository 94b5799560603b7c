/-
# Inodes

The inode layer of `fs.c`: the inode cache with its reference counts and locks, the block
map of an inode, and reading and writing its contents. `itrunc` tests the word behind the
array `addrs`, which is the field `dev` of the next slot of the inode cache.
-/

import Xv6.Fs.Blocks
import Xv6.Kalloc.Model

namespace Xv6

/-- Maximum major device number. -/
def NDEV : Nat := 10

/-- Major device number of the console, the only device with a driver. -/
def CONSOLE : Short := 1

/-- The bytes of a block from `pos` on. -/
def Block.read (d : Block) (pos m : Nat) : List UInt8 :=
  (List.range m).map fun i => d.byte (pos + i)

namespace Fs

/-- The slot that holds inode `inum` of `dev`. -/
def cached (s : Fs) (dev inum : Nat) : Option InodeId :=
  (List.finRange NINODE).find? fun ip =>
    0 < (s.inode ip).ref ∧ (s.inode ip).dev = dev ∧ (s.inode ip).inum = inum

/-- The first slot without references. -/
def empty (s : Fs) : Option InodeId :=
  (List.finRange NINODE).find? fun ip => (s.inode ip).ref = 0

/-- The word behind `ip->addrs`, which `itrunc` reads as `ip->addrs[NDIRECT+1]`. -/
def pastAddrs (s : Fs) (ip : InodeId) : UInt32 :=
  if h : ip.val + 1 < NINODE then UInt32.ofNat (s.inode ⟨ip.val + 1, h⟩).dev else s.pastIcache

/-- Change a slot of the inode cache. -/
def modifyInode (ip : InodeId) (change : Inode → Inode) : FsM Unit :=
  modify fun s => s.setInode ip change

/-- Change the copy of the disk inode in a slot. -/
def modifyCopy (ip : InodeId) (change : Dinode → Dinode) : FsM Unit :=
  modifyInode ip fun r => { r with copy := change r.copy }

/-- `*ip`. -/
def load (ip : InodeId) : FsM Inode := do
  let s ← get
  pure (s.inode ip)

/-! ### References and locks -/

/-- Find the inode with number `inum` on device `dev`. -/
def iget (dev inum : Nat) : FsM InodeId := do
  let s ← get
  match s.cached dev inum with
  | some ip => do
    modifyInode ip fun r => { r with ref := r.ref + 1 }
    pure ip
  | none =>
    match s.empty with
    | none => throw (.panic "iget: no inodes")
    | some ip => do
      modifyInode ip fun r =>
        { r with dev := dev, inum := inum, ref := 1, busy := false, valid := false }
      pure ip

/-- Increment the reference count. -/
def idup (ip : InodeId) : FsM InodeId := do
  modifyInode ip fun r => { r with ref := r.ref + 1 }
  pure ip

/-- Lock the given inode, and read it from disk if that was not done yet. -/
def ilock (ip : InodeId) : FsM Unit := do
  let r ← load ip
  if r.ref < 1 then throw (.panic "ilock")
  else if r.busy then throw (.sleep ip)
  else do
    modifyInode ip fun r => { r with busy := true }
    if r.valid then pure ()
    else do
      let bp ← bread r.dev (IBLOCK r.inum)
      let dip := bp.dinode (r.inum % IPB)
      modifyInode ip fun r => { r with copy := dip, valid := true }
      if dip.type = 0 then throw (.panic "ilock: no type") else pure ()

/-- Unlock the given inode. -/
def iunlock (ip : InodeId) : FsM Unit := do
  let r ← load ip
  if !r.busy ∨ r.ref < 1 then throw (.panic "iunlock")
  else modifyInode ip fun r => { r with busy := false }

/-- Copy an inode from memory to disk. -/
def iupdate (ip : InodeId) : FsM Unit := do
  let r ← load ip
  let bp ← bread r.dev (IBLOCK r.inum)
  bwrite r.dev (IBLOCK r.inum) (bp.setDinode (r.inum % IPB) r.copy)

/-! ### The block map -/

/-- The block address that `bmap` returns when there is no block. -/
def noBlock : UInt32 := 0xffffffff

/-- `ip->addrs[k]`, allocating a block if it is 0 and `alloc` is set. -/
def addrOrAlloc (ip : InodeId) (k : Fin NADDRS) (alloc : Bool) : FsM (Option UInt32) := do
  let r ← load ip
  let addr := r.copy.addrs k
  if addr ≠ 0 then pure (some addr)
  else if !alloc then pure none
  else do
    let addr ← balloc r.dev
    modifyCopy ip fun n => { n with addrs := Function.update n.addrs k addr }
    pure (some addr)

/-- Entry `i` of the block `table` of addresses, allocating a block if it is 0 and `alloc` is
set. The buffer with the table is held while the new block is allocated. -/
def entryOrAlloc (dev : Nat) (table : UInt32) (i : Nat) (alloc : Bool) :
    FsM (Option UInt32) := do
  let bp ← bread dev table.toNat
  let addr := bp.addr i
  if addr ≠ 0 then pure (some addr)
  else if !alloc then pure none
  else do
    let addr ← balloc dev
    bwrite dev table.toNat (bp.setAddr i addr)
    pure (some addr)

/-- The disk block address of the `bn`-th block of an inode. -/
def bmap (ip : InodeId) (bn : Nat) (alloc : Bool) : FsM UInt32 := do
  if h : bn < NDIRECT then do
    let addr ← addrOrAlloc ip ⟨bn, Nat.lt_succ_of_lt h⟩ alloc
    pure (addr.getD noBlock)
  else if bn - NDIRECT < NININDIRECT then do
    let r ← load ip
    match ← addrOrAlloc ip rootIndex alloc with
    | none => pure noBlock
    | some root =>
      match ← entryOrAlloc r.dev root ((bn - NDIRECT) / NADDRBLOCK) alloc with
      | none => pure noBlock
      | some table => do
        let addr ← entryOrAlloc r.dev table ((bn - NDIRECT) % NADDRBLOCK) alloc
        pure (addr.getD noBlock)
  else throw (.panic "bmap: out of range")

/-- The loop of `itrunc` over the entries of a second-level block, which frees every entry. -/
def freeEntries (dev : Nat) (table : Block) : FsM Unit :=
  (List.range NADDRBLOCK).forM fun k => bfree dev (table.addr k)

/-- The loop of `itrunc` over the entries of the double-indirect block. -/
def freeTables (dev : Nat) (root : Block) : FsM Unit :=
  (List.range NADDRBLOCK).forM fun j =>
    if root.addr j = 0 then pure ()
    else do
      let ibp ← bread dev (root.addr j).toNat
      freeEntries dev ibp
      bfree dev (root.addr j)

/-- One round of the loop of `itrunc` over the direct blocks. -/
def freeDirect (ip : InodeId) (i : Fin NDIRECT) : FsM Unit := do
  let r ← load ip
  let addr := r.copy.addrs i.castSucc
  if addr = 0 then pure ()
  else do
    bfree r.dev addr
    modifyCopy ip fun n => { n with addrs := Function.update n.addrs i.castSucc 0 }

/-- The part of `itrunc` behind the test of `ip->addrs[NDIRECT+1]`. -/
def freeIndirect (ip : InodeId) : FsM Unit := do
  let s ← get
  let r := s.inode ip
  if s.pastAddrs ip = 0 then pure ()
  else do
    let bp ← bread r.dev (r.copy.addrs rootIndex).toNat
    freeTables r.dev bp
    bfree r.dev (s.pastAddrs ip)
    modifyCopy ip fun n => { n with addrs := Function.update n.addrs rootIndex 0 }

/-- Truncate an inode. -/
def itrunc (ip : InodeId) : FsM Unit := do
  (List.finRange NDIRECT).forM (freeDirect ip)
  freeIndirect ip
  modifyCopy ip fun n => { n with size := 0 }
  iupdate ip

/-- The last step of `iput`. -/
def dropRef (ip : InodeId) : FsM Unit := modifyInode ip fun r => { r with ref := r.ref - 1 }

/-- Drop a reference; an inode without links and without other references is freed. -/
def iput (ip : InodeId) : FsM Unit := do
  let r ← load ip
  if r.ref = 1 ∧ r.valid ∧ r.copy.nlink = 0 then
    if r.busy then throw (.panic "iput busy")
    else do
      modifyInode ip fun r => { r with busy := true }
      itrunc ip
      modifyCopy ip fun n => { n with type := 0 }
      iupdate ip
      modifyInode ip fun r => { r with busy := false }
      dropRef ip
  else dropRef ip

/-- Unlock, then put. -/
def iunlockput (ip : InodeId) : FsM Unit := do
  iunlock ip
  iput ip

/-- The loop of `icreate` over the inodes: `n` of them are left, and `inum` is the next. -/
def icreateFrom (dev : Nat) (type major minor nlink : Short) : Nat → Nat → FsM InodeId
  | 0, _ => throw (.panic "ialloc: no inodes")
  | n + 1, inum => do
    let bp ← bread dev (IBLOCK inum)
    if (bp.dinode (inum % IPB)).type = 0 then do
      bwrite dev (IBLOCK inum)
        (bp.setDinode (inum % IPB) ⟨type, major, minor, nlink, 0, fun _ => 0⟩)
      iget dev inum
    else icreateFrom dev type major minor nlink n (inum + 1)

/-- Allocate a new inode with the given type on device `dev`. -/
def icreate (dev : Nat) (type major minor nlink : Short) : FsM InodeId := do
  let sb ← readsb dev
  icreateFrom dev type major minor nlink (sb.ninodes - 1) 1

/-! ### Contents -/

/-- `console_read(ip, dst, n)`. -/
def consoleRead (ip : InodeId) (n : Int) : FsM (Int × List UInt8) := do
  iunlock ip
  if n ≤ 0 then do
    ilock ip
    pure (0, [])
  else do
    let s ← get
    modify fun s => { s with reads := s.reads + 1 }
    ilock ip
    match s.typed s.reads with
    | none => pure (-1, [])
    | some line => pure (((line.take n.toNat).length : Int), line.take n.toNat)

/-- `console_write(ip, buf, n)`. -/
def consoleWrite (ip : InodeId) (n : Int) : FsM Int := do
  iunlock ip
  ilock ip
  pure n

/-- Whether `devsw[major]` has a driver. -/
def hasDriver (major : Short) : Bool := 0 ≤ major.toInt ∧ major.toInt < NDEV ∧ major = CONSOLE

/-- The loop of `readi` from `off` on, with `left` bytes to go; `fuel` is at least `left`. -/
def readiLoop (ip : InodeId) : Nat → Nat → Nat → FsM (List UInt8)
  | 0, _, _ => pure []
  | fuel + 1, off, left =>
    if left = 0 then pure []
    else do
      let r ← load ip
      let bno ← bmap ip (off / BSIZE) false
      let bp ← bread r.dev bno.toNat
      let m := min left (BSIZE - off % BSIZE)
      let rest ← readiLoop ip fuel (off + m) (left - m)
      pure (bp.read (off % BSIZE) m ++ rest)

/-- Read `n` bytes at `off`, which are `uint`s. -/
def readi (ip : InodeId) (off n : Nat) : FsM (Int × List UInt8) := do
  let r ← load ip
  let size := r.copy.size.toNat
  if r.copy.type = T_DEV then
    if hasDriver r.copy.major then consoleRead ip (int32 n) else pure (-1, [])
  else if size < off ∨ (off + n) % 2 ^ 32 < off then pure (-1, [])
  else do
    let n := if size < off + n then size - off else n
    let bytes ← readiLoop ip n off n
    pure (int32 n, bytes)

/-- The loop of `writei`, with `tot` of the `n` bytes written and `off` the place of the next
one; `fuel` is at least `n - tot`. The result is `off` after the loop. -/
def writeiLoop (ip : InodeId) (src : Nat → UInt8) (n : Nat) : Nat → Nat → Nat → FsM Nat
  | 0, _, off => pure off
  | fuel + 1, tot, off =>
    if tot < n then do
      let r ← load ip
      let bno ← bmap ip (off / BSIZE) true
      let bp ← bread r.dev bno.toNat
      let m := min (n - tot) (BSIZE - off % BSIZE)
      bwrite r.dev bno.toNat (bp.write (off % BSIZE) (fun i => src (tot + i)) m)
      writeiLoop ip src n fuel (tot + m) (off + m)
    else pure off

/-- Write `n` bytes of `src` at `off`, which are `uint`s. -/
def writei (ip : InodeId) (src : Nat → UInt8) (off n : Nat) : FsM Int := do
  let r ← load ip
  if r.copy.type = T_DEV then
    if hasDriver r.copy.major then consoleWrite ip (int32 n) else pure (-1)
  else if (off + n) % 2 ^ 32 < off then pure (-1)
  else do
    let n := if MAXFILE * BSIZE < off + n then (MAXFILE * BSIZE + 2 ^ 32 - off) % 2 ^ 32 else n
    let off ← writeiLoop ip src n n 0 off
    let r ← load ip
    if 0 < n ∧ r.copy.size.toNat < off then do
      modifyCopy ip fun d => { d with size := UInt32.ofNat off }
      iupdate ip
      pure (int32 n)
    else pure (int32 n)

end Fs

end Xv6
