/-
# The regions of an image

`mkfs.c` computes the start of each region of the disk from the number of inodes and the size of
the image, and the kernel computes it once more with the macros of `fs.h`. `Mkfs` has the program
at its own number of inodes; here the layout is one of any number of inodes and any size.
-/

import Xv6.Mkfs.Model

namespace Xv6.Mkfs

/-- Both programs look for an inode in the same block. -/
theorem toNat_i2b {inum : UInt32} (small : inum.toNat < 2 ^ 31) :
    (i2b inum).toNat = IBLOCK inum.toNat := by
  rw [i2b, UInt32.toNat_add, UInt32.toNat_add, UInt32.toNat_div, IBLOCK]
  change (((inum.toNat / 8) + 2) % 2 ^ 32 + 201) % 2 ^ 32 = inum.toNat / 8 + 2 + 201
  omega

/-- What the layout of an image is computed from: two numbers of type `int`, which count inodes
and blocks. -/
structure Geometry where
  ninodes : Nat
  /-- Number of blocks of the image. -/
  size : Nat
  ninodes_pos : 1 ≤ ninodes
  ninodes_lt : ninodes < 2 ^ 31
  size_lt : size < 2 ^ 31

namespace Geometry

/-! ### What the image builder computes -/

/-- `usedblocks`, before the first file is written. -/
def usedblocks (g : Geometry) : UInt32 :=
  UInt32.ofNat (g.ninodes / IPB + 3 + bitblocks g.size + NJB)

/-- Address of the first free block. -/
def freeblock (g : Geometry) : UInt32 := g.usedblocks

/-- The sector that `balloc` writes the bitmap to. -/
def bitmapSector (g : Geometry) : UInt32 := UInt32.ofNat (g.ninodes / IPB + NJB + 3)

/-! ### The regions, as the kernel finds them -/

/-- Sectors of the journal. -/
def journal : Set Nat := Set.Icc 2 (NJB + 1)

/-- The blocks with the inodes. -/
def inodeBlocks (g : Geometry) : Set Nat := Set.Icc (IBLOCK 0) (IBLOCK (g.ninodes - 1))

/-- The blocks with the bits of the blocks of the image. -/
def bitmapBlocks (g : Geometry) : Set Nat :=
  Set.Icc (BBLOCK 0 g.ninodes) (BBLOCK (g.size - 1) g.ninodes)

/-- The blocks of the files. -/
def dataBlocks (g : Geometry) : Set Nat := Set.Ico g.freeblock.toNat g.size

/-- The super block, the journal, the inodes, the bitmap and the files, as they follow each other
on the disk. -/
def regions (g : Geometry) : List (Set Nat) :=
  [{1}, journal, g.inodeBlocks, g.bitmapBlocks, g.dataBlocks]

variable (g : Geometry)

/-- Nothing is lost when the number of blocks in use becomes a `uint`. -/
theorem toNat_usedblocks :
    g.usedblocks.toNat = g.ninodes / IPB + 3 + bitblocks g.size + NJB := by
  have hinodes := g.ninodes_lt
  have hsize := g.size_lt
  refine UInt32.toNat_ofNat_of_lt ?_
  simp only [UInt32.size, IPB, bitblocks, NJB]
  omega

theorem toNat_bitmapSector : g.bitmapSector.toNat = g.ninodes / IPB + NJB + 3 := by
  have hinodes := g.ninodes_lt
  refine UInt32.toNat_ofNat_of_lt ?_
  simp only [UInt32.size, IPB, NJB]
  omega

/-- The last inode block stands before the bitmap. -/
theorem IBLOCK_lt_BBLOCK : IBLOCK (g.ninodes - 1) < BBLOCK 0 g.ninodes := by
  have hinodes := g.ninodes_pos
  simp only [IBLOCK, BBLOCK, IPB, BPB, BSIZE, NJB]
  omega

/-- The last bitmap block stands before the files. -/
theorem BBLOCK_lt_freeblock : BBLOCK (g.size - 1) g.ninodes < g.freeblock.toNat := by
  rw [freeblock, toNat_usedblocks]
  simp only [BBLOCK, IPB, BPB, BSIZE, NJB, bitblocks]
  omega

theorem BBLOCK_mono {b c : Nat} (le : b ≤ c) (ninodes : Nat) :
    BBLOCK b ninodes ≤ BBLOCK c ninodes := by
  have hdiv : b / BPB ≤ c / BPB := Nat.div_le_div_right le
  unfold BBLOCK
  omega

theorem IBLOCK_mono {i j : Nat} (le : i ≤ j) : IBLOCK i ≤ IBLOCK j := by
  have hdiv : i / IPB ≤ j / IPB := Nat.div_le_div_right le
  unfold IBLOCK
  omega

/-- Each region ends before the next one starts. -/
theorem regions_pairwise : g.regions.Pairwise Disjoint := by
  have hjournal : NJB + 1 < IBLOCK 0 := by decide
  have hinodes : IBLOCK 0 ≤ IBLOCK (g.ninodes - 1) := IBLOCK_mono (Nat.zero_le _)
  have hbefore := g.IBLOCK_lt_BBLOCK
  have hbitmap : BBLOCK 0 g.ninodes ≤ BBLOCK (g.size - 1) g.ninodes :=
    BBLOCK_mono (Nat.zero_le _) _
  have hfiles := g.BBLOCK_lt_freeblock
  simp only [regions, journal, inodeBlocks, bitmapBlocks, dataBlocks, List.pairwise_cons,
    List.mem_cons, List.not_mem_nil, or_false, forall_eq_or_imp, forall_eq, IsEmpty.forall_iff,
    implies_true, List.Pairwise.nil, and_true, Set.disjoint_left, Set.mem_singleton_iff,
    Set.mem_Icc, Set.mem_Ico]
  refine ⟨⟨?_, ?_, ?_, ?_⟩, ⟨?_, ?_, ?_⟩, ⟨?_, ?_⟩, ?_⟩ <;> omega

/-- The journal super block counts the sectors behind it. -/
theorem jinit_run (past : Block) (s : Mkfs) :
    ∃ s', (jinit past).run s = .ok () s' ∧ (s'.sector 2).word 0 = NJB - 1 := by
  refine ⟨_, rfl, ?_⟩
  change Block.word ((((past.setWord 0 (NJB - 1)).setWord 1 3).setWord 2 3).setWord 3 0) 0 = NJB - 1
  rw [Block.word_setWord_ne _ (by decide), Block.word_setWord_ne _ (by decide),
    Block.word_setWord_ne _ (by decide), Block.word_setWord_of_lt _ (by decide) (by decide)]

/-- Both programs agree on where the inodes and the bitmap are, the regions of the disk do not
overlap, and the sectors that the journal super block counts belong to the journal. This needs no
room for files: if the blocks in use fill the image, `dataBlocks` is empty. -/
theorem regions_agree :
    (∀ i < g.ninodes, (i2b (UInt32.ofNat i)).toNat = IBLOCK i) ∧
      g.bitmapSector.toNat = BBLOCK 0 g.ninodes ∧ g.regions.Pairwise Disjoint ∧
      ∀ past s, ∃ s', (jinit past).run s = .ok () s' ∧
        Set.Icc 3 ((s'.sector 2).word 0 + 2) ⊆ journal := by
  refine ⟨fun i hi => ?_, ?_, g.regions_pairwise, fun past s => ?_⟩
  · have hlt := hi.trans g.ninodes_lt
    have hinum : (UInt32.ofNat i).toNat = i :=
      UInt32.toNat_ofNat_of_lt' (by change i < 2 ^ 32; omega)
    rw [toNat_i2b (by rw [hinum]; exact hlt), hinum]
  · rw [toNat_bitmapSector, BBLOCK, Nat.zero_div]
    omega
  · obtain ⟨s', hrun, hsize⟩ := jinit_run past s
    refine ⟨s', hrun, ?_⟩
    rw [hsize]
    exact Set.Icc_subset_Icc (by decide) (by decide)

/-! ### At the image builder's own number of inodes -/

end Geometry

end Xv6.Mkfs
