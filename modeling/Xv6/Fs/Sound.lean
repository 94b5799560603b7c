/-
# Who owns a block

An inode exists up to twice: on disk, and in a slot of the inode cache. A file system is
sound if the blocks that these copies reach are allocated, are no metadata, and are reached
at one place of one inode, and if the free blocks are zero. Blocks may be allocated without
being reached.
-/

import Xv6.Fs.Inode
import Xv6.Fs.Tree

namespace Xv6

/-- The bitmap has a bit for the block. -/
def Superblock.Covers (sb : Superblock) (b : Nat) : Prop := b < BPB * ((sb.size + BPB - 1) / BPB)

/-- Blocks that do not belong to files: block 0, the super block, the journal, the inode
blocks and the bitmap blocks. -/
def Superblock.Metadata (sb : Superblock) (b : Nat) : Prop :=
  b < 2 + NJB ∨ (∃ i < sb.ninodes, b = IBLOCK i) ∨ ∃ c < sb.size, b = BBLOCK c sb.ninodes

/-- Where a copy of an inode is kept. -/
inductive Holder where
  | disk (i : Nat)
  | slot (ip : InodeId)
  deriving DecidableEq

namespace Fs

variable (s t : Fs) (dev : Nat)

/-- The blocks of a device. -/
def disk (n : Nat) : Block := s.sector ⟨dev, n⟩

/-- The super block. -/
def sb : Superblock := (s.disk dev 1).superblock

/-- Inode `i` on disk. -/
def dinode (i : Nat) : Dinode := (s.disk dev (IBLOCK i)).dinode (i % IPB)

/-- The bit of the bitmap for a block. -/
def used (b : Nat) : Bool := (s.disk dev (BBLOCK b (s.sb dev).ninodes)).bit (b % BPB)

/-- The copy of an inode that is kept there. -/
def copyOf : Holder → Dinode
  | .disk i => s.dinode dev i
  | .slot ip => (s.inode ip).copy

/-- The number of the inode that is kept there. -/
def inumOf : Holder → Nat
  | .disk i => i
  | .slot ip => (s.inode ip).inum

/-- There is a copy of an inode: an allocated inode on disk, or a valid slot in use. -/
def Live : Holder → Prop
  | .disk i => i < (s.sb dev).ninodes ∧ (s.dinode dev i).type ≠ 0
  | .slot ip => 0 < (s.inode ip).ref ∧ (s.inode ip).valid = true ∧ (s.inode ip).dev = dev

/-- The block that a copy of an inode has at a place of its tree, 0 if there is none. -/
def addrAt (h : Holder) (p : Pos) : Nat := (s.copyOf dev h).addrAt (s.disk dev) p

/-- The byte at offset `o` of the file. -/
def fileByte (h : Holder) (o : Nat) : UInt8 := (s.copyOf dev h).fileByte (s.disk dev) o

/-- Every block has at most one owner, and free blocks are zero. -/
structure Sound : Prop where
  metaUsed : ∀ b, (s.sb dev).Metadata b → (s.sb dev).Covers b → s.used dev b = true
  freeZero : ∀ b, (s.sb dev).Covers b → s.used dev b = false → s.disk dev b = Block.zero
  owned : ∀ h p, s.Live dev h → s.addrAt dev h p ≠ 0 →
    (s.sb dev).Covers (s.addrAt dev h p) ∧ s.used dev (s.addrAt dev h p) = true ∧
      ¬ (s.sb dev).Metadata (s.addrAt dev h p)
  unique : ∀ h h' p p', s.Live dev h → s.Live dev h' → s.addrAt dev h p ≠ 0 →
    s.addrAt dev h p = s.addrAt dev h' p' → s.inumOf h = s.inumOf h' ∧ p = p'
  inums : ∀ ip, 0 < (s.inode ip).ref → (s.inode ip).dev = dev →
    (s.inode ip).inum < (s.sb dev).ninodes

/-- An allocated block of zeros that nobody reaches yet. -/
structure Fresh (b : Nat) : Prop where
  covers : (s.sb dev).Covers b
  used : s.used dev b = true
  data : ¬ (s.sb dev).Metadata b
  zero : s.disk dev b = Block.zero
  unreached : ∀ h p, s.Live dev h → s.addrAt dev h p ≠ b

variable {s t dev}

/-! ### Single accesses -/

theorem bread_run (s : Fs) (dev n : Nat) : (bread dev n).run s = .ok (s.disk dev n) s := rfl

theorem bwrite_run (s : Fs) (dev n : Nat) (d : Block) :
    (bwrite dev n d).run s = .ok () (s.setSector ⟨dev, n⟩ d) := rfl

theorem readsb_run (s : Fs) (dev : Nat) : (readsb dev).run s = .ok (s.sb dev) s := rfl

theorem load_run (s : Fs) (ip : InodeId) : (load ip).run s = .ok (s.inode ip) s := rfl

theorem modifyInode_run (s : Fs) (ip : InodeId) (change : Inode → Inode) :
    (modifyInode ip change).run s = .ok () (s.setInode ip change) := rfl

/-! ### The regions of the disk -/

theorem metadata_zero (sb : Superblock) : sb.Metadata 0 := Or.inl (by decide)

theorem metadata_one (sb : Superblock) : sb.Metadata 1 := Or.inl (by decide)

theorem metadata_iblock {sb : Superblock} {i : Nat} (h : i < sb.ninodes) :
    sb.Metadata (IBLOCK i) := Or.inr (Or.inl ⟨i, h, rfl⟩)

/-- The bit of a covered block is in a bitmap block. -/
theorem metadata_bblock {sb : Superblock} {b : Nat} (h : sb.Covers b) :
    sb.Metadata (BBLOCK b sb.ninodes) := by
  refine Or.inr (Or.inr ⟨b / BPB * BPB, ?_, ?_⟩)
  · unfold Superblock.Covers at h
    have hpos : 0 < BPB := by decide
    have hdiv : b / BPB < (sb.size + BPB - 1) / BPB := Nat.div_lt_of_lt_mul h
    have hlt := (Nat.lt_div_iff_mul_lt hpos).mp hdiv
    omega
  · rw [BBLOCK, BBLOCK, Nat.mul_div_cancel _ (by decide)]

theorem one_ne_iblock (i : Nat) : 1 ≠ IBLOCK i := by
  unfold IBLOCK IPB
  omega

theorem one_ne_bblock (b n : Nat) : 1 ≠ BBLOCK b n := by
  unfold BBLOCK IPB BPB BSIZE
  omega

/-- No inode block is a bitmap block. -/
theorem iblock_ne_bblock {i n : Nat} (h : i < n) (b : Nat) : IBLOCK i ≠ BBLOCK b n := by
  have : i / IPB ≤ n / IPB := Nat.div_le_div_right h.le
  unfold IBLOCK BBLOCK IPB BPB BSIZE at *
  omega

/-! ### Changing one block -/

section SetSector

variable {n : Nat} {d : Block}

theorem disk_setSector_self : (s.setSector ⟨dev, n⟩ d).disk dev n = d := setSector_self ..

theorem disk_setSector_of_ne {m : Nat} (h : m ≠ n) :
    (s.setSector ⟨dev, n⟩ d).disk dev m = s.disk dev m :=
  setSector_of_ne s _ d fun h' => h (congrArg BlockAddr.sector h')

theorem disk_setSector_of_dev {dev' m : Nat} (h : dev ≠ dev') :
    (s.setSector ⟨dev', n⟩ d).disk dev m = s.disk dev m :=
  setSector_of_ne s _ d fun h' => h (congrArg BlockAddr.dev h')

theorem disk_setSector : (s.setSector ⟨dev, n⟩ d).disk dev = Function.update (s.disk dev) n d := by
  funext m
  by_cases h : m = n
  · rw [h, disk_setSector_self, Function.update_self]
  · rw [disk_setSector_of_ne h, Function.update_of_ne h]

theorem sb_setSector (h : n ≠ 1) : (s.setSector ⟨dev, n⟩ d).sb dev = s.sb dev := by
  rw [sb, sb, disk_setSector_of_ne h.symm]

theorem dinode_setSector {i : Nat} (h : n ≠ IBLOCK i) :
    (s.setSector ⟨dev, n⟩ d).dinode dev i = s.dinode dev i := by
  rw [dinode, dinode, disk_setSector_of_ne h.symm]

end SetSector

/-! ### Keeping a file system sound -/

/-- A free block is not reached. -/
theorem Sound.free_unreached (sound : s.Sound dev) {b : Nat} (free : s.used dev b = false)
    {h : Holder} {p : Pos} (live : s.Live dev h) (present : s.addrAt dev h p ≠ 0) :
    s.addrAt dev h p ≠ b := by
  rintro rfl
  rw [(sound.owned h p live present).2.1] at free
  cases free

/-- A file system stays sound if blocks are only allocated, free blocks are left alone, and
every block that is reached was reached at that place of that inode before, or is a fresh one
reached at a single place. -/
theorem Sound.of_reach (sound : s.Sound dev) (i : Nat) (q : Pos)
    (sameSb : t.sb dev = s.sb dev)
    (usedMono : ∀ b, (s.sb dev).Covers b → s.used dev b = true → t.used dev b = true)
    (freeSame : ∀ b, (s.sb dev).Covers b → t.used dev b = false →
      s.used dev b = false ∧ t.disk dev b = s.disk dev b)
    (reach : ∀ h p, t.Live dev h → t.addrAt dev h p ≠ 0 →
      (∃ h', s.Live dev h' ∧ s.inumOf h' = t.inumOf h ∧ s.addrAt dev h' p = t.addrAt dev h p) ∨
        t.inumOf h = i ∧ p = q ∧ s.Fresh dev (t.addrAt dev h p))
    (inums : ∀ ip, 0 < (t.inode ip).ref → (t.inode ip).dev = dev →
      (t.inode ip).inum < (s.sb dev).ninodes) : t.Sound dev where
  metaUsed b reserved covers := by
    rw [sameSb] at reserved covers
    exact usedMono b covers (sound.metaUsed b reserved covers)
  freeZero b covers free := by
    rw [sameSb] at covers
    obtain ⟨hfree, hsame⟩ := freeSame b covers free
    rw [hsame, sound.freeZero b covers hfree]
  owned h p live present := by
    rw [sameSb]
    rcases reach h p live present with ⟨h', hlive, -, haddr⟩ | ⟨-, -, hfresh⟩
    · rw [← haddr] at present ⊢
      obtain ⟨hcovers, hused, hdata⟩ := sound.owned h' p hlive present
      exact ⟨hcovers, usedMono _ hcovers hused, hdata⟩
    · exact ⟨hfresh.covers, usedMono _ hfresh.covers hfresh.used, hfresh.data⟩
  unique h₁ h₂ p₁ p₂ live₁ live₂ present same := by
    have present₂ : t.addrAt dev h₂ p₂ ≠ 0 := same ▸ present
    rcases reach h₁ p₁ live₁ present with ⟨g₁, hg₁, hi₁, ha₁⟩ | ⟨hi₁, hp₁, hfresh₁⟩ <;>
      rcases reach h₂ p₂ live₂ present₂ with ⟨g₂, hg₂, hi₂, ha₂⟩ | ⟨hi₂, hp₂, hfresh₂⟩
    · rw [← hi₁, ← hi₂]
      exact sound.unique g₁ g₂ p₁ p₂ hg₁ hg₂ (ha₁ ▸ present) (by rw [ha₁, ha₂, same])
    · exact absurd (ha₁.trans same) (hfresh₂.unreached g₁ p₁ hg₁)
    · exact absurd (ha₂.trans same.symm) (hfresh₁.unreached g₂ p₂ hg₂)
    · exact ⟨hi₁.trans hi₂.symm, hp₁.trans hp₂.symm⟩
  inums ip href hdev := by
    rw [sameSb]
    exact inums ip href hdev

end Fs

end Xv6
