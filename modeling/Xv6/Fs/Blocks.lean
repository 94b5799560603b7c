/-
# Disk blocks and the block allocator

The state the file system code works on, and the first layer of `fs.c`. The buffer cache is
taken as a map from sectors to blocks: `bread` gives the caller a copy of a block, `bwrite`
stores it, and `brelse`, `end_trans` and `jfull_flush` have no effect on the map.
-/

import Xv6.Fs.Layout
import Xv6.Math.Hoare

namespace Xv6

/-- Maximum number of active inodes. -/
def NINODE : Nat := 50

instance : NeZero NINODE := ⟨by decide⟩

/-- Device number of the file system root disk. -/
def ROOTDEV : Nat := 1

/-- A slot of `icache.inode`. -/
abbrev InodeId := Fin NINODE

/-- `struct inode`; the flags `I_BUSY` and `I_VALID` are separate fields, and the copy of the
disk inode is one record. -/
structure Inode where
  dev : Nat
  inum : Nat
  ref : Int
  busy : Bool
  valid : Bool
  copy : Dinode

/-- A slot of the zeroed inode cache. -/
def Inode.unused : Inode := ⟨0, 0, 0, false, false, Dinode.zero⟩

/-- Why file system code does not return. -/
inductive FsStop where
  /-- `panic(msg)`. -/
  | panic (msg : String)
  /-- `sleep(ip)` in `ilock`, waiting for a locked inode. -/
  | sleep (ip : InodeId)
  /-- A null pointer is followed. -/
  | fault
  deriving DecidableEq, Repr

/-- The state of the file system. -/
@[ext]
structure Fs where
  /-- The blocks as `bread` sees them. -/
  sector : BlockAddr → Block
  /-- `icache.inode`. -/
  inode : InodeId → Inode
  /-- The word of memory behind the last slot of `icache.inode`. -/
  pastIcache : UInt32
  /-- The blocks that `bcheck` finds in the buffer cache. -/
  buffered : BlockAddr → Bool
  /-- What the reads of the console will return, in order: the bytes typed, or `none` for a
  reader that is killed. -/
  typed : Nat → Option (List UInt8)
  /-- Number of reads of the console so far. -/
  reads : Nat

/-- File system code. -/
abbrev FsM := EStateM FsStop Fs

namespace Fs

/-- Store a block. -/
def setSector (s : Fs) (a : BlockAddr) (d : Block) : Fs :=
  { s with sector := Function.update s.sector a d }

/-- Change a slot of the inode cache. -/
def setInode (s : Fs) (ip : InodeId) (change : Inode → Inode) : Fs :=
  { s with inode := Function.update s.inode ip (change (s.inode ip)) }

/-- `bread`, with the data of the buffer. -/
def bread (dev sector : Nat) : FsM Block := do
  let s ← get
  pure (s.sector ⟨dev, sector⟩)

/-- `bwrite` of a buffer that holds the block `d`. -/
def bwrite (dev sector : Nat) (d : Block) : FsM Unit :=
  modify fun s => s.setSector ⟨dev, sector⟩ d

/-- Read the super block. -/
def readsb (dev : Nat) : FsM Superblock := do
  let bp ← bread dev 1
  pure bp.superblock

/-- Zero a block. -/
def bzero (dev bno : Nat) : FsM Unit := bwrite dev bno Block.zero

/-- The loop of `balloc` over the bits of one bitmap block. -/
@[irreducible]
def freeBit (bp : Block) : Option Nat := (List.range BPB).find? fun bi => !bp.bit bi

/-- The loop of `balloc` over the bitmap blocks: `n` of them are left, and the next one
describes the blocks from `b` on. -/
def ballocFrom (dev : Nat) (sb : Superblock) : Nat → Nat → FsM UInt32
  | 0, _ => throw (.panic "balloc: out of blocks")
  | n + 1, b => do
    let bp ← bread dev (BBLOCK b sb.ninodes)
    match freeBit bp with
    | some bi => do
      bwrite dev (BBLOCK b sb.ninodes) (bp.setBit bi)
      if b + bi = 1 then throw (.panic "b+bi is 1")
      else pure (UInt32.ofNat (b + bi))
    | none => ballocFrom dev sb n (b + BPB)

/-- Allocate a disk block. -/
def balloc (dev : Nat) : FsM UInt32 := do
  let sb ← readsb dev
  ballocFrom dev sb ((sb.size + BPB - 1) / BPB) 0

/-- Free a disk block. -/
def bfree (dev : Nat) (b : UInt32) : FsM Unit := do
  bzero dev b.toNat
  let sb ← readsb dev
  let bp ← bread dev (BBLOCK b.toNat sb.ninodes)
  let bi := b.toNat % BPB
  if !bp.bit bi then throw (.panic "freeing free block")
  else bwrite dev (BBLOCK b.toNat sb.ninodes) (bp.clearBit bi)

section Updates

variable (s : Fs) (a : BlockAddr) (d : Block) (ip : InodeId) (change : Inode → Inode)

@[simp] theorem setSector_self : (s.setSector a d).sector a = d := Function.update_self ..

theorem setSector_of_ne {b : BlockAddr} (h : b ≠ a) : (s.setSector a d).sector b = s.sector b :=
  Function.update_of_ne h ..

@[simp] theorem setSector_inode : (s.setSector a d).inode = s.inode := rfl

@[simp] theorem setInode_self : (s.setInode ip change).inode ip = change (s.inode ip) :=
  Function.update_self ..

theorem setInode_of_ne {jp : InodeId} (h : jp ≠ ip) :
    (s.setInode ip change).inode jp = s.inode jp := Function.update_of_ne h ..

/-- A change that keeps a field keeps it in the whole cache. -/
theorem setInode_field {α : Type} (field : Inode → α)
    (same : field (change (s.inode ip)) = field (s.inode ip)) (jp : InodeId) :
    field ((s.setInode ip change).inode jp) = field (s.inode jp) := by
  by_cases h : jp = ip
  · rw [h, setInode_self, same]
  · rw [setInode_of_ne s ip change h]

end Updates

/-- The bit that the loop of `balloc` finds is clear. -/
theorem freeBit_eq_some {bp : Block} {bi : Nat} (found : freeBit bp = some bi) :
    bi < BPB ∧ bp.bit bi = false := by
  unfold freeBit at found
  have hmem := List.mem_of_find?_eq_some found
  have hclear := List.find?_some found
  exact ⟨List.mem_range.mp hmem, by simpa using hclear⟩

end Fs

end Xv6
