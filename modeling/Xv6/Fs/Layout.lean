/-
# The on-disk layout of the file system

The structures of `fs.h` that the kernel lays over disk blocks: the super block, the inode
blocks and the bitmap. A block is read and written through little-endian words, so each
structure is given by the words it is made of.
-/

import Xv6.Bio.State
import Mathlib

namespace Xv6

/-- Number of direct block addresses in an inode. -/
def NDIRECT : Nat := 12

/-- Index of the double-indirect block address. -/
def INDIRECT : Nat := 12

/-- Number of block addresses in an inode. -/
def NADDRS : Nat := NDIRECT + 1

/-- The place of `addrs[INDIRECT]`. -/
def rootIndex : Fin NADDRS := ⟨INDIRECT, by decide⟩

/-- Number of addresses in a block. -/
def NADDRBLOCK : Nat := 128

/-- Number of blocks behind the double-indirect block. -/
def NININDIRECT : Nat := NADDRBLOCK * NADDRBLOCK

/-- Maximal number of blocks of a file. -/
def MAXFILE : Nat := NDIRECT + NININDIRECT

/-- Inodes per block. -/
def IPB : Nat := 8

/-- Bitmap bits per block. -/
def BPB : Nat := BSIZE * 8

/-- Block containing inode `i`. -/
def IBLOCK (i : Nat) : Nat := i / IPB + 2 + NJB

/-- Block containing the bit for block `b`. -/
def BBLOCK (b ninodes : Nat) : Nat := b / BPB + ninodes / IPB + 3 + NJB

/-- The C type `short`. -/
abbrev Short := BitVec 16

/-- Directory. -/
def T_DIR : Short := 1

/-- File. -/
def T_FILE : Short := 2

/-- Special device. -/
def T_DEV : Short := 3

/-- `struct superblock`. -/
structure Superblock where
  size : Nat
  nblocks : Nat
  ninodes : Nat
  deriving DecidableEq, Repr

/-- `struct dinode`. -/
@[ext]
structure Dinode where
  type : Short
  major : Short
  minor : Short
  nlink : Short
  size : UInt32
  addrs : Fin NADDRS → UInt32

namespace Dinode

/-- A zeroed inode. -/
def zero : Dinode := ⟨0, 0, 0, 0, 0, fun _ => 0⟩

/-- The words of the structure. -/
def word (n : Dinode) : Nat → Nat
  | 0 => n.type.toNat + 65536 * n.major.toNat
  | 1 => n.minor.toNat + 65536 * n.nlink.toNat
  | 2 => n.size.toNat
  | k + 3 => if h : k < NADDRS then (n.addrs ⟨k, h⟩).toNat else 0

theorem word_lt (n : Dinode) (i : Nat) : n.word i < 2 ^ 32 := by
  match i with
  | 0 =>
    have h₁ := n.type.isLt
    have h₂ := n.major.isLt
    rw [word]
    omega
  | 1 =>
    have h₁ := n.minor.isLt
    have h₂ := n.nlink.isLt
    rw [word]
    omega
  | 2 => exact n.size.toNat_lt
  | k + 3 =>
    rw [word]
    split
    · exact UInt32.toNat_lt _
    · decide

end Dinode

namespace Block

/-- `(struct superblock*)data`. -/
def superblock (d : Block) : Superblock := ⟨d.word 0, d.word 1, d.word 2⟩

/-- The `i`-th entry of `(uint*)data`. -/
def addr (d : Block) (i : Nat) : UInt32 := UInt32.ofNat (d.word i)

/-- Store an entry of `(uint*)data`. -/
def setAddr (d : Block) (i : Nat) (v : UInt32) : Block := d.setWord i v.toNat

/-- `(struct dinode*)data + k`. -/
def dinode (d : Block) (k : Nat) : Dinode where
  type := BitVec.ofNat 16 (d.word (16 * k))
  major := BitVec.ofNat 16 (d.word (16 * k) / 65536)
  minor := BitVec.ofNat 16 (d.word (16 * k + 1))
  nlink := BitVec.ofNat 16 (d.word (16 * k + 1) / 65536)
  size := UInt32.ofNat (d.word (16 * k + 2))
  addrs i := UInt32.ofNat (d.word (16 * k + 3 + i))

/-- Store the `k`-th inode of a block. -/
def setDinode (d : Block) (k : Nat) (n : Dinode) : Block := fun j =>
  if j.val / 64 = k then UInt8.ofNat (n.word (j.val % 64 / 4) / 256 ^ (j.val % 4)) else d j

/-- `1 << (bi % 8)`. -/
def bitMask (bi : Nat) : UInt8 := UInt8.ofNat (2 ^ (bi % 8))

/-- Whether bit `bi` of a bitmap block is set. -/
def bit (d : Block) (bi : Nat) : Bool := d.byte (bi / 8) &&& bitMask bi != 0

/-- Set bit `bi`. -/
def setBit (d : Block) (bi : Nat) : Block := fun j =>
  if j.val = bi / 8 then d j ||| bitMask bi else d j

/-- Clear bit `bi`. -/
def clearBit (d : Block) (bi : Nat) : Block := fun j =>
  if j.val = bi / 8 then d j &&& ~~~ bitMask bi else d j

/-- `memmove(data + pos, src, m)`. -/
def write (d : Block) (pos : Nat) (src : Nat → UInt8) (m : Nat) : Block := fun j =>
  if pos ≤ j.val ∧ j.val < pos + m then src (j.val - pos) else d j

/-! ### Words, addresses and inodes -/

variable {d d' : Block} {i k bi : Nat}

theorem word_congr (same : ∀ j, j / 4 = i → d'.byte j = d.byte j) : d'.word i = d.word i := by
  unfold word
  rw [same (4 * i) (by omega), same (4 * i + 1) (by omega), same (4 * i + 2) (by omega),
    same (4 * i + 3) (by omega)]

/-- A word is known from its bytes. -/
theorem word_eq_of_bytes {v : Nat} (small : v < 2 ^ 32)
    (bytes : ∀ r < 4, d.byte (4 * i + r) = UInt8.ofNat (v / 256 ^ r)) : d.word i = v := by
  have h0 := bytes 0 (by omega)
  have h1 := bytes 1 (by omega)
  have h2 := bytes 2 (by omega)
  have h3 := bytes 3 (by omega)
  unfold word
  rw [h1, h2, h3, show d.byte (4 * i) = _ from h0]
  simp only [UInt8.toNat_ofNat']
  omega

@[simp] theorem byte_zero (i : Nat) : zero.byte i = 0 := by
  unfold byte
  split <;> rfl

@[simp] theorem word_zero (i : Nat) : zero.word i = 0 := by
  simp [word]

@[simp] theorem addr_zero (i : Nat) : zero.addr i = 0 := by
  simp [addr]

theorem addr_setAddr_self (d : Block) (h : i < NADDRBLOCK) (v : UInt32) :
    (d.setAddr i v).addr i = v := by
  rw [addr, setAddr, word_setWord_of_lt d h v.toNat_lt, UInt32.ofNat_toNat]

theorem addr_setAddr_ne (d : Block) {j : Nat} (h : j ≠ i) (v : UInt32) :
    (d.setAddr i v).addr j = d.addr j := by
  rw [addr, addr, setAddr, word_setWord_ne d h]

theorem word_setDinode_self (d : Block) (hk : k < IPB) (hi : i < 16) (n : Dinode) :
    (d.setDinode k n).word (16 * k + i) = n.word i := by
  refine word_eq_of_bytes (n.word_lt i) fun r hr => ?_
  have hlt : 4 * (16 * k + i) + r < BSIZE := by
    unfold IPB at hk
    unfold BSIZE
    omega
  have hblock : (4 * (16 * k + i) + r) / 64 = k := by omega
  have hword : (4 * (16 * k + i) + r) % 64 / 4 = i := by omega
  have hbyte : (4 * (16 * k + i) + r) % 4 = r := by omega
  rw [byte_of_lt _ hlt]
  simp only [setDinode, hblock, hword, hbyte, if_true]

theorem word_setDinode_ne (d : Block) (h : i / 16 ≠ k) (n : Dinode) :
    (d.setDinode k n).word i = d.word i := by
  refine word_congr fun j hj => ?_
  by_cases hlt : j < BSIZE
  · rw [byte_of_lt _ hlt, byte_of_lt _ hlt]
    exact if_neg (by dsimp only; omega)
  · rw [byte, byte, dif_neg hlt, dif_neg hlt]

/-- A stored inode is read back. -/
theorem dinode_setDinode_self (d : Block) (hk : k < IPB) (n : Dinode) :
    (d.setDinode k n).dinode k = n := by
  have hword (i : Nat) (hi : i < 16) := word_setDinode_self d hk hi n
  have h0 := hword 0 (by omega)
  have hlow (a b : Short) : BitVec.ofNat 16 (a.toNat + 65536 * b.toNat) = a := by
    apply BitVec.eq_of_toNat_eq
    have := a.isLt
    rw [BitVec.toNat_ofNat]
    omega
  have hhigh (a b : Short) : BitVec.ofNat 16 ((a.toNat + 65536 * b.toNat) / 65536) = b := by
    apply BitVec.eq_of_toNat_eq
    have := a.isLt
    have := b.isLt
    rw [BitVec.toNat_ofNat]
    omega
  rw [Nat.add_zero] at h0
  unfold dinode
  rw [h0, hword 1 (by omega), hword 2 (by omega)]
  ext1
  · exact hlow _ _
  · exact hhigh _ _
  · exact hlow _ _
  · exact hhigh _ _
  · exact UInt32.ofNat_toNat
  · funext i
    have hi := i.isLt
    have h := hword (i + 3) (by unfold NADDRS NDIRECT at hi; omega)
    rw [show 16 * k + (i.val + 3) = 16 * k + 3 + i.val by omega] at h
    dsimp only
    rw [h, Dinode.word, dif_pos hi, UInt32.ofNat_toNat]

theorem dinode_setDinode_ne (d : Block) {l : Nat} (h : l ≠ k) (n : Dinode) :
    (d.setDinode k n).dinode l = d.dinode l := by
  have hword (i : Nat) (hi : i < 16) : (d.setDinode k n).word (16 * l + i) = d.word (16 * l + i) :=
    word_setDinode_ne d (by omega) n
  have h0 := hword 0 (by omega)
  rw [Nat.add_zero] at h0
  unfold dinode
  rw [h0, hword 1 (by omega), hword 2 (by omega)]
  congr 1
  funext i
  have hi := i.isLt
  unfold NADDRS NDIRECT at hi
  rw [Nat.add_assoc, hword (3 + i) (by omega)]

theorem dinode_zero (k : Nat) : zero.dinode k = Dinode.zero := by
  ext1 <;> simp [dinode, Dinode.zero]

/-! ### Bits -/

theorem toNat_bitMask (bi : Nat) : (bitMask bi).toNat = 2 ^ (bi % 8) := by
  rw [bitMask, UInt8.toNat_ofNat', Nat.mod_eq_of_lt]
  exact Nat.pow_lt_pow_right (by decide) (Nat.mod_lt _ (by decide))

/-- The test of `balloc` and `bfree` looks at one bit of the byte. -/
theorem and_bitMask_bne_zero (a : UInt8) (bi : Nat) :
    (a &&& bitMask bi != 0) = a.toNat.testBit (bi % 8) := by
  have hand : (a &&& bitMask bi).toNat = (a.toNat.testBit (bi % 8)).toNat * 2 ^ (bi % 8) := by
    rw [UInt8.toNat_and, toNat_bitMask, Nat.and_two_pow]
  cases h : a.toNat.testBit (bi % 8) with
  | false =>
    rw [h] at hand
    have hzero : a &&& bitMask bi = 0 := UInt8.toNat_inj.mp (by simpa using hand)
    simp [hzero]
  | true =>
    rw [h, Bool.toNat_true, Nat.one_mul] at hand
    rw [bne_iff_ne]
    intro hzero
    rw [hzero] at hand
    exact absurd hand.symm (Nat.two_pow_pos _).ne'

theorem bit_eq_testBit (d : Block) (bi : Nat) :
    d.bit bi = (d.byte (bi / 8)).toNat.testBit (bi % 8) :=
  and_bitMask_bne_zero _ _

@[simp] theorem bit_zero (bi : Nat) : zero.bit bi = false := by
  simp [bit_eq_testBit]

theorem byte_setBit (d : Block) (hi : bi < BPB) (j : Nat) :
    (d.setBit bi).byte j = if j = bi / 8 then d.byte j ||| bitMask bi else d.byte j := by
  unfold BPB BSIZE at hi
  by_cases hj : j < BSIZE
  · rw [byte_of_lt _ hj, byte_of_lt _ hj]
    rfl
  · have hne : j ≠ bi / 8 := by
      unfold BSIZE at hj
      omega
    rw [if_neg hne, byte, byte, dif_neg hj, dif_neg hj]

theorem byte_clearBit (d : Block) (hi : bi < BPB) (j : Nat) :
    (d.clearBit bi).byte j = if j = bi / 8 then d.byte j &&& ~~~ bitMask bi else d.byte j := by
  unfold BPB BSIZE at hi
  by_cases hj : j < BSIZE
  · rw [byte_of_lt _ hj, byte_of_lt _ hj]
    rfl
  · have hne : j ≠ bi / 8 := by
      unfold BSIZE at hj
      omega
    rw [if_neg hne, byte, byte, dif_neg hj, dif_neg hj]

/-- Setting a bit changes no other bit. -/
theorem bit_setBit (d : Block) (hi : bi < BPB) (bj : Nat) :
    (d.setBit bi).bit bj = (d.bit bj || decide (bj = bi)) := by
  rw [bit_eq_testBit, bit_eq_testBit, byte_setBit d hi]
  by_cases hbyte : bj / 8 = bi / 8
  · have hsame : bi % 8 = bj % 8 ↔ bj = bi := by omega
    rw [if_pos hbyte, UInt8.toNat_or, toNat_bitMask, Nat.testBit_or, Nat.testBit_two_pow]
    simp only [hsame]
  · have hne : bj ≠ bi := fun h => hbyte (by rw [h])
    simp [hbyte, hne]

/-- Clearing a bit changes no other bit. -/
theorem bit_clearBit (d : Block) (hi : bi < BPB) (bj : Nat) :
    (d.clearBit bi).bit bj = (d.bit bj && decide (bj ≠ bi)) := by
  rw [bit_eq_testBit, bit_eq_testBit, byte_clearBit d hi]
  by_cases hbyte : bj / 8 = bi / 8
  · have hsame : bi % 8 = bj % 8 ↔ bj = bi := by omega
    have hsmall : 2 ^ (bi % 8) < 2 ^ 8 :=
      Nat.pow_lt_pow_right (by decide) (Nat.mod_lt _ (by decide))
    have hnot : (~~~ bitMask bi).toNat = 2 ^ 8 - (2 ^ (bi % 8) + 1) := by
      rw [UInt8.toNat_not, toNat_bitMask, UInt8.size, Nat.sub_sub, Nat.add_comm]
      norm_num
    rw [if_pos hbyte, UInt8.toNat_and, hnot, Nat.testBit_and,
      Nat.testBit_two_pow_sub_succ hsmall, Nat.testBit_two_pow]
    simp [hsame, Nat.mod_lt]
  · have hne : bj ≠ bi := fun h => hbyte (by rw [h])
    simp [hbyte, hne]

end Block

end Xv6
