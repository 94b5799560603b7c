/-
# The file system with its transactions

The block and inode layers of `fs.c` once more, with the calls that reach the journal. Each
process has a transaction, `p->ct`, to which `bwrite` adds a buffer and which `end_trans`
commits. The blocks are those of the sector map. Two histories are kept beside the state: the
transactions that were committed, and the blocks that a process asked `bget` for while their
buffers were part of its own transaction. `brelse` has no effect on this state: a buffer of the
transaction is held on to.
-/

import Xv6.Fs.Inode
import Xv6.Math.Part
import Xv6.Proc.Table

namespace Xv6

open Math

/-- The file system and the transactions of the processes. -/
@[ext]
structure Tx where
  fs : Fs
  /-- The process that runs. -/
  cp : ProcId
  /-- The buffers on the list `p->ct->bufs`, by their blocks. -/
  ct : ProcId → List BlockAddr
  /-- The buffers of committed transactions that were not flushed yet. -/
  pending : List BlockAddr
  /-- History: the transactions that `end_trans` has committed. -/
  ended : List (List BlockAddr)
  /-- History: the blocks of its own transaction that a process has asked `bget` for. -/
  waits : List BlockAddr

/-- Code of the file system and the journal. -/
abbrev TxM := EStateM FsStop Tx

namespace Tx

/-- Code that does not reach the buffer cache. -/
def onFs {α : Type} (x : FsM α) : TxM α := zoom Tx.fs (fun s t => { s with fs := t }) id x

/-- `curmt()->bufs`. -/
def curmt (s : Tx) : List BlockAddr := s.ct s.cp

/-- Change the transaction of the process that runs. -/
def setCurmt (s : Tx) (bufs : List BlockAddr) : Tx :=
  { s with ct := Function.update s.ct s.cp bufs }

/-- `bget` on behalf of the process that runs. -/
def bget (a : BlockAddr) : TxM Unit :=
  modify fun s => if a ∈ s.curmt then { s with waits := s.waits ++ [a] } else s

/-- `bread`, with the data of the buffer. -/
def bread (dev sector : Nat) : TxM Block := do
  bget ⟨dev, sector⟩
  onFs (Fs.bread dev sector)

/-- `bwrite` of a buffer that holds the block `d`. -/
def bwrite (dev sector : Nat) (d : Block) : TxM Unit := do
  modify fun s => s.setCurmt (⟨dev, sector⟩ :: s.curmt)
  onFs (Fs.bwrite dev sector d)

/-- The part of `end_trans` for a transaction that is not empty. -/
def commit (s : Tx) : Tx :=
  { s.setCurmt [] with pending := s.pending ++ s.curmt, ended := s.ended ++ [s.curmt] }

/-- `end_trans`. -/
def endTrans : TxM Unit := modify fun s => if 0 < s.curmt.length then s.commit else s

/-- `jfull_flush`. -/
def jfullFlush : TxM Unit := modify fun s => { s with pending := [] }

/-! ### Blocks -/

/-- Read the super block. -/
def readsb (dev : Nat) : TxM Superblock := do
  let bp ← bread dev 1
  pure bp.superblock

/-- Zero a block. -/
def bzero (dev bno : Nat) : TxM Unit := do
  let _ ← bread dev bno
  bwrite dev bno Block.zero

/-- The loop of `balloc` over the bitmap blocks. -/
def ballocFrom (dev : Nat) (sb : Superblock) : Nat → Nat → TxM UInt32
  | 0, _ => throw (.panic "balloc: out of blocks")
  | n + 1, b => do
    let bp ← bread dev (BBLOCK b sb.ninodes)
    match Fs.freeBit bp with
    | some bi => do
      bwrite dev (BBLOCK b sb.ninodes) (bp.setBit bi)
      endTrans
      jfullFlush
      if b + bi = 1 then throw (.panic "b+bi is 1")
      else pure (UInt32.ofNat (b + bi))
    | none => ballocFrom dev sb n (b + BPB)

/-- Allocate a disk block. -/
def balloc (dev : Nat) : TxM UInt32 := do
  let sb ← readsb dev
  ballocFrom dev sb ((sb.size + BPB - 1) / BPB) 0

/-- Free a disk block. -/
def bfree (dev : Nat) (b : UInt32) : TxM Unit := do
  bzero dev b.toNat
  let sb ← readsb dev
  let bp ← bread dev (BBLOCK b.toNat sb.ninodes)
  let bi := b.toNat % BPB
  if !bp.bit bi then throw (.panic "freeing free block")
  else do
    bwrite dev (BBLOCK b.toNat sb.ninodes) (bp.clearBit bi)
    endTrans
    jfullFlush

/-! ### Inodes -/

/-- `*ip`. -/
def load (ip : InodeId) : TxM Inode := onFs (Fs.load ip)

/-- Change a slot of the inode cache. -/
def modifyInode (ip : InodeId) (change : Inode → Inode) : TxM Unit :=
  onFs (Fs.modifyInode ip change)

/-- Change the copy of the disk inode in a slot. -/
def modifyCopy (ip : InodeId) (change : Dinode → Dinode) : TxM Unit :=
  onFs (Fs.modifyCopy ip change)

/-- Find the inode with number `inum` on device `dev`. -/
def iget (dev inum : Nat) : TxM InodeId := onFs (Fs.iget dev inum)

/-- Unlock the given inode. -/
def iunlock (ip : InodeId) : TxM Unit := onFs (Fs.iunlock ip)

/-- Lock the given inode, and read it from disk if that was not done yet. -/
def ilock (ip : InodeId) : TxM Unit := do
  let r ← load ip
  if r.ref < 1 then throw (.panic "ilock")
  else if r.busy then throw (.sleep ip)
  else do
    modifyInode ip fun r => { r with busy := true }
    if r.valid then pure ()
    else do
      let bp ← bread r.dev (IBLOCK r.inum)
      let dip := bp.dinode (r.inum % IPB)
      modifyInode ip fun r => { r with copy := dip, valid := true }
      if dip.type = 0 then throw (.panic "ilock: no type") else pure ()

/-- Copy an inode from memory to disk. -/
def iupdate (ip : InodeId) : TxM Unit := do
  let r ← load ip
  let bp ← bread r.dev (IBLOCK r.inum)
  bwrite r.dev (IBLOCK r.inum) (bp.setDinode (r.inum % IPB) r.copy)

/-- `ip->addrs[k]`, allocating a block if it is 0 and `alloc` is set. -/
def addrOrAlloc (ip : InodeId) (k : Fin NADDRS) (alloc : Bool) : TxM (Option UInt32) := do
  let r ← load ip
  let addr := r.copy.addrs k
  if addr ≠ 0 then pure (some addr)
  else if !alloc then pure none
  else do
    let addr ← balloc r.dev
    modifyCopy ip fun n => { n with addrs := Function.update n.addrs k addr }
    pure (some addr)

/-- Entry `i` of the block `table` of addresses, allocating a block if it is 0 and `alloc` is
set. -/
def entryOrAlloc (dev : Nat) (table : UInt32) (i : Nat) (alloc : Bool) :
    TxM (Option UInt32) := do
  let bp ← bread dev table.toNat
  let addr := bp.addr i
  if addr ≠ 0 then pure (some addr)
  else if !alloc then pure none
  else do
    let addr ← balloc dev
    bwrite dev table.toNat (bp.setAddr i addr)
    pure (some addr)

/-- The disk block address of the `bn`-th block of an inode. -/
def bmap (ip : InodeId) (bn : Nat) (alloc : Bool) : TxM UInt32 := do
  if h : bn < NDIRECT then do
    let addr ← addrOrAlloc ip ⟨bn, Nat.lt_succ_of_lt h⟩ alloc
    pure (addr.getD Fs.noBlock)
  else if bn - NDIRECT < NININDIRECT then do
    let r ← load ip
    match ← addrOrAlloc ip rootIndex alloc with
    | none => pure Fs.noBlock
    | some root =>
      match ← entryOrAlloc r.dev root ((bn - NDIRECT) / NADDRBLOCK) alloc with
      | none => pure Fs.noBlock
      | some table => do
        let addr ← entryOrAlloc r.dev table ((bn - NDIRECT) % NADDRBLOCK) alloc
        pure (addr.getD Fs.noBlock)
  else throw (.panic "bmap: out of range")

/-- The loop of `itrunc` over the entries of a second-level block. -/
def freeEntries (dev : Nat) (table : Block) : TxM Unit :=
  (List.range NADDRBLOCK).forM fun k => bfree dev (table.addr k)

/-- The loop of `itrunc` over the entries of the double-indirect block. -/
def freeTables (dev : Nat) (root : Block) : TxM Unit :=
  (List.range NADDRBLOCK).forM fun j =>
    if root.addr j = 0 then pure ()
    else do
      let ibp ← bread dev (root.addr j).toNat
      freeEntries dev ibp
      bfree dev (root.addr j)

/-- One round of the loop of `itrunc` over the direct blocks. -/
def freeDirect (ip : InodeId) (i : Fin NDIRECT) : TxM Unit := do
  let r ← load ip
  let addr := r.copy.addrs i.castSucc
  if addr = 0 then pure ()
  else do
    bfree r.dev addr
    modifyCopy ip fun n => { n with addrs := Function.update n.addrs i.castSucc 0 }

/-- `ip->addrs[NDIRECT+1]`. -/
def pastAddrs (ip : InodeId) : TxM UInt32 := onFs (do
  let s ← get
  pure (s.pastAddrs ip))

/-- The part of `itrunc` behind the test of `ip->addrs[NDIRECT+1]`. -/
def freeIndirect (ip : InodeId) : TxM Unit := do
  let past ← pastAddrs ip
  let r ← load ip
  if past = 0 then pure ()
  else do
    let bp ← bread r.dev (r.copy.addrs rootIndex).toNat
    freeTables r.dev bp
    bfree r.dev past
    modifyCopy ip fun n => { n with addrs := Function.update n.addrs rootIndex 0 }

/-- Truncate an inode. -/
def itrunc (ip : InodeId) : TxM Unit := do
  (List.finRange NDIRECT).forM (freeDirect ip)
  freeIndirect ip
  modifyCopy ip fun n => { n with size := 0 }
  iupdate ip

/-- The last step of `iput`. -/
def dropRef (ip : InodeId) : TxM Unit := onFs (Fs.dropRef ip)

/-- Drop a reference; an inode without links and without other references is freed. The update
that marks it as free comes after the commit. -/
def iput (ip : InodeId) : TxM Unit := do
  let r ← load ip
  if r.ref = 1 ∧ r.valid ∧ r.copy.nlink = 0 then
    if r.busy then throw (.panic "iput busy")
    else do
      modifyInode ip fun r => { r with busy := true }
      itrunc ip
      endTrans
      jfullFlush
      modifyCopy ip fun n => { n with type := 0 }
      iupdate ip
      modifyInode ip fun r => { r with busy := false }
      dropRef ip
  else dropRef ip

/-- Unlock, then put. -/
def iunlockput (ip : InodeId) : TxM Unit := do
  iunlock ip
  iput ip

/-- The loop of `icreate` over the inodes. -/
def icreateFrom (dev : Nat) (type major minor nlink : Short) : Nat → Nat → TxM InodeId
  | 0, _ => throw (.panic "ialloc: no inodes")
  | n + 1, inum => do
    let bp ← bread dev (IBLOCK inum)
    if (bp.dinode (inum % IPB)).type = 0 then do
      bwrite dev (IBLOCK inum)
        (bp.setDinode (inum % IPB) ⟨type, major, minor, nlink, 0, fun _ => 0⟩)
      endTrans
      jfullFlush
      iget dev inum
    else icreateFrom dev type major minor nlink n (inum + 1)

/-- Allocate a new inode with the given type on device `dev`. -/
def icreate (dev : Nat) (type major minor nlink : Short) : TxM InodeId := do
  let sb ← readsb dev
  icreateFrom dev type major minor nlink (sb.ninodes - 1) 1

/-! ### Contents -/

/-- `console_read(ip, dst, n)`. -/
def consoleRead (ip : InodeId) (n : Int) : TxM (Int × List UInt8) := do
  iunlock ip
  if n ≤ 0 then do
    ilock ip
    pure (0, [])
  else do
    let typed ← onFs (do
      let s ← get
      modify fun s => { s with reads := s.reads + 1 }
      pure (s.typed s.reads))
    ilock ip
    match typed with
    | none => pure (-1, [])
    | some line => pure (((line.take n.toNat).length : Int), line.take n.toNat)

/-- `console_write(ip, buf, n)`. -/
def consoleWrite (ip : InodeId) (n : Int) : TxM Int := do
  iunlock ip
  ilock ip
  pure n

/-- The loop of `readi`. -/
def readiLoop (ip : InodeId) : Nat → Nat → Nat → TxM (List UInt8)
  | 0, _, _ => pure []
  | fuel + 1, off, left =>
    if left = 0 then pure []
    else do
      let r ← load ip
      let bno ← bmap ip (off / BSIZE) false
      let bp ← bread r.dev bno.toNat
      let m := min left (BSIZE - off % BSIZE)
      let rest ← readiLoop ip fuel (off + m) (left - m)
      pure (bp.read (off % BSIZE) m ++ rest)

/-- Read `n` bytes at `off`, which are `uint`s. -/
def readi (ip : InodeId) (off n : Nat) : TxM (Int × List UInt8) := do
  let r ← load ip
  let size := r.copy.size.toNat
  if r.copy.type = T_DEV then
    if Fs.hasDriver r.copy.major then consoleRead ip (int32 n) else pure (-1, [])
  else if size < off ∨ (off + n) % 2 ^ 32 < off then pure (-1, [])
  else do
    let n := if size < off + n then size - off else n
    let bytes ← readiLoop ip n off n
    pure (int32 n, bytes)

/-- The loop of `writei`. -/
def writeiLoop (ip : InodeId) (src : Nat → UInt8) (n : Nat) : Nat → Nat → Nat → TxM Nat
  | 0, _, off => pure off
  | fuel + 1, tot, off =>
    if tot < n then do
      let r ← load ip
      let bno ← bmap ip (off / BSIZE) true
      let bp ← bread r.dev bno.toNat
      let m := min (n - tot) (BSIZE - off % BSIZE)
      bwrite r.dev bno.toNat (bp.write (off % BSIZE) (fun i => src (tot + i)) m)
      writeiLoop ip src n fuel (tot + m) (off + m)
    else pure off

/-- The end of `writei`: a file that has grown gets its new size. -/
def setSize (ip : InodeId) (n off : Nat) : TxM Int := do
  let r ← load ip
  if 0 < n ∧ r.copy.size.toNat < off then do
    modifyCopy ip fun d => { d with size := UInt32.ofNat off }
    iupdate ip
    pure (int32 n)
  else pure (int32 n)

/-- Write `n` bytes of `src` at `off`, which are `uint`s. -/
def writei (ip : InodeId) (src : Nat → UInt8) (off n : Nat) : TxM Int := do
  let r ← load ip
  if r.copy.type = T_DEV then
    if Fs.hasDriver r.copy.major then consoleWrite ip (int32 n) else pure (-1)
  else if (off + n) % 2 ^ 32 < off then pure (-1)
  else do
    let n := if MAXFILE * BSIZE < off + n then (MAXFILE * BSIZE + 2 ^ 32 - off) % 2 ^ 32 else n
    let off ← writeiLoop ip src n n 0 off
    setSize ip n off

/-- `checki`: whether the block with the byte at `off`, an `int`, is in the buffer cache. -/
def checki (ip : InodeId) (off : Int) : TxM Int := do
  let bno ← bmap ip (word32 (off.tdiv BSIZE)) false
  if 2 ^ 31 ≤ bno.toNat then pure 0
  else onFs (do
    let s ← get
    pure (if s.buffered ⟨(s.inode ip).dev, bno.toNat⟩ then 1 else 0))

end Tx

end Xv6
