/-
# The root directory and the bitmap of a finished image

The image builder rounds the size of the root directory up to more than the entries need, and
writes one bitmap block whatever the size of the image. The rounded root directory has all of its
blocks unless the entries fill their last block, and the bitmap is right as long as the blocks in
use fit into one bitmap block.
-/

import Xv6.Mkfs.Built

namespace Xv6

open Math

/-- Looking up a direct block. -/
theorem bmap_direct_run (s : Fs) (ip : InodeId) {k : Nat} (direct : k < NDIRECT) :
    (Fs.bmap ip k false).run s =
      .ok (if (s.inode ip).copy.addrs ⟨k, Nat.lt_succ_of_lt direct⟩ = 0 then Fs.noBlock
        else (s.inode ip).copy.addrs ⟨k, Nat.lt_succ_of_lt direct⟩) s := by
  rw [Fs.bmap, dif_pos direct]
  by_cases haddr : (s.inode ip).copy.addrs ⟨k, Nat.lt_succ_of_lt direct⟩ = 0
  · have habsent : (Fs.addrOrAlloc ip ⟨k, Nat.lt_succ_of_lt direct⟩ false).run s = .ok none s := by
      rw [Fs.addrOrAlloc, run_bind_of_ok (Fs.load_run ..), if_neg (not_not_intro haddr)]
      rfl
    rw [if_pos haddr, run_bind_of_ok habsent]
    rfl
  · have hpresent : (Fs.addrOrAlloc ip ⟨k, Nat.lt_succ_of_lt direct⟩ false).run s =
        .ok (some ((s.inode ip).copy.addrs ⟨k, Nat.lt_succ_of_lt direct⟩)) s := by
      rw [Fs.addrOrAlloc, run_bind_of_ok (Fs.load_run ..), if_pos haddr]
      rfl
    rw [if_neg haddr, run_bind_of_ok hpresent]
    rfl

namespace Mkfs

variable {kb : Int} {files : List InputFile} {pastSb pastJsb : Block} {t : Mkfs}

/-- Every block of the root directory has an address, so that the kernel gets no -1 for any part
of it. -/
structure RootReadable (first : Nat) (t : Mkfs) : Prop where
  mapped : ∀ k < (t.node 1).size.toNat / BSIZE,
    first ≤ (t.node 1).addrAt t.sector (.ofBlock k) ∧
      (t.node 1).addrAt t.sector (.ofBlock k) < t.freeblock.toNat
  lookup : ∀ (s : Fs) (ip : InodeId), (s.inode ip).copy = t.node 1 →
    ∀ off < (t.node 1).size.toNat,
      ∃ b, (Fs.bmap ip (off / BSIZE) false).run s = .ok b s ∧ b ≠ Fs.noBlock

/-- The bytes of its buffer that `balloc` writes. -/
def bitmapStores (used : Nat) : List Nat := (List.range used).map (· / 8)

/-- The bitmap of the image, as the kernel reads it, has the blocks below `freeblock`: those before
the first block of a file, and all blocks of files. `balloc` keeps to its buffer. -/
structure BitmapExact (size : Nat) (t : Mkfs) : Prop where
  bits : ∀ b < size, (t.sector (BBLOCK b ninodes)).bit (b % BPB) = decide (b < t.freeblock.toNat)
  metadata : firstblock size ≤ t.freeblock.toNat
  handedOut : ∀ i p, (t.node i).addrAt t.sector p < t.freeblock.toNat
  inside : ∀ i ∈ bitmapStores t.usedblocks.toNat, i < BSIZE

/-- The bits of the bitmap block. -/
theorem bit_bitmap {used : Nat} (one : used ≤ BPB) (bi : Nat) :
    (bitmap used).bit bi = decide (bi < used) := by
  induction used with
  | zero => exact Block.bit_zero bi
  | succ used ih =>
    have hset : bitmap (used + 1) = (bitmap used).setBit used := by
      rw [bitmap, bitmap, List.range_succ, List.foldl_append]
      rfl
    rw [hset, Block.bit_setBit _ one, ih (by omega), Bool.eq_iff_iff]
    simp only [Bool.or_eq_true, decide_eq_true_eq]
    omega

/-! ### The root directory -/

/-- The blocks up to the rounded size are those of the entries, and one more if these fill their
last block. -/
theorem rounded_blocks (n : Nat) :
    DIRENT * n / BSIZE + 1 = dataBlocks (DIRENT * n) + if n % 32 = 0 then 1 else 0 := by
  unfold dataBlocks DIRENT BSIZE
  split_ifs <;> omega

/-- The direct blocks of the root directory. -/
theorem Finished.direct {first n : Nat} {sb : Block} (finished : Finished first sb n files t)
    {k : Nat} (direct : k < NDIRECT) :
    (t.node 1).addrAt t.sector (.ofBlock k) ≠ 0 ↔
      k < dataBlocks (DIRENT * (files.length + 2)) := by
  rw [Pos.ofBlock, if_pos direct]
  exact finished.root (.direct k) direct

/-- The program finishes when there is room for all files. -/
theorem main_returns (kb : Int) (files : List InputFile) (pastSb pastJsb : Block)
    (few : files.length ≤ ninodes - 2) (low : 1 ≤ kb) (high : kb ≤ 32767)
    (good : ∀ f ∈ files, slash ∉ f.name ∧ f.bytes.length ≤ MAXFILE * BSIZE)
    (fits : blocksUsed (firstblock (kb.toNat * 1024 / BSIZE)) files ≤ kb.toNat * 1024 / BSIZE) :
    ∃ t, (main kb files pastSb pastJsb).run start = .ok () t ∧
      Finished (firstblock (kb.toNat * 1024 / BSIZE))
        (superblockOf (kb.toNat * 1024 / BSIZE) pastSb) (kb.toNat * 1024 / BSIZE) files t := by
  obtain ⟨_, t, hrun, hfinished, -⟩ := ((main_ensures kb few pastSb pastJsb).weaken
    (fun _ _ h => h) (by
      rintro _ (h | h | ⟨f, hf, h | h⟩ | h)
      · omega
      · omega
      · exact (good f hf).1 h
      · exact absurd (good f hf).2 h.not_ge
      · omega)).returns rfl
  exact ⟨t, hrun, hfinished⟩

end Mkfs

open Mkfs

/-- In an image that `mkfs` has finished, the root directory is readable to its end exactly if its
entries do not fill their last block: with `.` and `..` there are 32 entries in a block. -/
theorem root_readable_iff {kb : Int} {files : List InputFile} {pastSb pastJsb : Block} {t : Mkfs}
    (few : files.length ≤ ninodes - 2)
    (built : (main kb files pastSb pastJsb).run start = .ok () t) :
    RootReadable (firstblock (kb.toNat * 1024 / BSIZE)) t ↔ (files.length + 2) % 32 ≠ 0 := by
  obtain ⟨hfinished, hlimit⟩ := (main_ensures kb few pastSb pastJsb).of_ok rfl built
  generalize kb.toNat * 1024 / BSIZE = size at *
  have hfirst := firstblock_eq size
  have hsmall : dataBlocks (DIRENT * (files.length + 2)) < NDIRECT := by
    unfold ninodes at few
    unfold dataBlocks DIRENT BSIZE NDIRECT
    omega
  have hblocks : (t.node 1).size.toNat / BSIZE =
      dataBlocks (DIRENT * (files.length + 2)) + if (files.length + 2) % 32 = 0 then 1 else 0 := by
    rw [hfinished.size, Nat.mul_div_cancel _ (by decide), rounded_blocks]
  constructor
  · intro hreadable hfull
    -- the block behind the last entry has no address
    have hmapped := hreadable.mapped (dataBlocks (DIRENT * (files.length + 2)))
      (by rw [hblocks, if_pos hfull]; omega)
    have haddr : (t.node 1).addrAt t.sector
        (.ofBlock (dataBlocks (DIRENT * (files.length + 2)))) = 0 := by
      by_contra h
      exact absurd ((hfinished.direct hsmall).mp h) (lt_irrefl _)
    omega
  · intro hpartial
    rw [if_neg hpartial, Nat.add_zero] at hblocks
    have hmapped (k : Nat) (hk : k < (t.node 1).size.toNat / BSIZE) :
        firstblock size ≤ (t.node 1).addrAt t.sector (.ofBlock k) ∧
          (t.node 1).addrAt t.sector (.ofBlock k) < t.freeblock.toNat := by
      rw [hblocks] at hk
      exact hfinished.forest.inside 1 _ ((hfinished.direct (hk.trans hsmall)).mpr hk)
    refine ⟨hmapped, fun s ip hcopy off hoff => ?_⟩
    have hk : off / BSIZE < (t.node 1).size.toNat / BSIZE := by
      rw [hfinished.size] at hoff ⊢
      unfold BSIZE at hoff ⊢
      omega
    have hlt : off / BSIZE < NDIRECT := by omega
    obtain ⟨hle, hfree⟩ := hmapped _ hk
    have hroomy := hfinished.room
    rw [Pos.ofBlock, if_pos hlt, Dinode.addrAt, dif_pos hlt, ← hcopy] at hle hfree
    refine ⟨_, bmap_direct_run s ip hlt, ?_⟩
    have hpresent : (s.inode ip).copy.addrs ⟨off / BSIZE, Nat.lt_succ_of_lt hlt⟩ ≠ 0 := by
      intro h
      rw [h] at hle
      change firstblock size ≤ 0 at hle
      omega
    rw [if_neg hpresent]
    intro h
    rw [h] at hfree
    change 4294967295 < _ at hfree
    omega

/-- The root directory of an image with one file. -/
theorem root_readable_one_file :
    ∃ t, (main 120 [⟨[97], [[1, 2, 3]]⟩] Block.zero Block.zero).run start = .ok () t ∧
      RootReadable (firstblock 240) t := by
  obtain ⟨t, ht, -⟩ := main_returns 120 [⟨[97], [[1, 2, 3]]⟩] Block.zero
    Block.zero (by decide) (by decide) (by decide) (by decide) (by decide)
  exact ⟨t, ht, (root_readable_iff (by decide) ht).mpr (by decide)⟩

/-- Thirty empty files. -/
def thirtyFiles : List InputFile := (List.range 30).map fun i => ⟨[UInt8.ofNat (97 + i)], []⟩

/-- With thirty files the entries fill one block. The root directory has the size of two, and the
kernel finds no second one. -/
theorem root_unreadable_thirty_files :
    ∃ t, (main 1024 thirtyFiles Block.zero Block.zero).run start = .ok () t ∧
      ¬ RootReadable (firstblock 2048) t ∧ (t.node 1).size.toNat = 2 * BSIZE ∧
      ∀ (s : Fs) (ip : InodeId), (s.inode ip).copy = t.node 1 →
        (Fs.bmap ip 1 false).run s = .ok Fs.noBlock s := by
  obtain ⟨t, ht, hfinished⟩ := main_returns 1024 thirtyFiles Block.zero
    Block.zero (by decide) (by decide) (by decide) (by decide) (by decide)
  have habsent : (t.node 1).addrAt t.sector (.ofBlock 1) = 0 := by
    by_contra h
    exact absurd ((hfinished.direct (by decide)).mp h) (by decide)
  refine ⟨t, ht, fun hreadable => ?_, hfinished.size, fun s ip hcopy => ?_⟩
  · have hmapped := hreadable.mapped 1 (by rw [hfinished.size]; decide)
    rw [habsent] at hmapped
    exact absurd hmapped.1 (by decide)
  · have haddr : (s.inode ip).copy.addrs ⟨1, by decide⟩ = 0 := by
      rw [hcopy]
      exact UInt32.toNat_inj.mp habsent
    rw [bmap_direct_run s ip (by decide), if_pos haddr]

/-- The bitmap of a finished image is right exactly if the blocks in use fit into one bitmap
block. -/
theorem bitmap_exact_iff {kb : Int} {files : List InputFile} {pastSb pastJsb : Block} {t : Mkfs}
    (few : files.length ≤ ninodes - 2)
    (built : (main kb files pastSb pastJsb).run start = .ok () t) :
    BitmapExact (kb.toNat * 1024 / BSIZE) t ↔
      blocksUsed (firstblock (kb.toNat * 1024 / BSIZE)) files ≤ BPB := by
  obtain ⟨hfinished, hlimit⟩ := (main_ensures kb few pastSb pastJsb).of_ok rfl built
  generalize kb.toNat * 1024 / BSIZE = size at *
  have hfirst := firstblock_eq size
  rw [← hfinished.free]
  constructor
  · intro hexact
    by_contra h
    -- the store for block 4096 is the first one behind the buffer
    have hstore : BSIZE ∈ bitmapStores t.usedblocks.toNat := by
      refine List.mem_map.mpr ⟨BPB, List.mem_range.mpr ?_, rfl⟩
      rw [hfinished.used]
      exact Nat.lt_of_not_le h
    exact absurd (hexact.inside BSIZE hstore) (lt_irrefl _)
  · intro hone
    refine ⟨fun b hb => ?_, hfinished.le, fun i p => ?_, fun i hi => ?_⟩
    · have hblock : BBLOCK b ninodes = b / BPB + 229 := rfl
      by_cases hlow : b < BPB
      · rw [hblock, Nat.div_eq_of_lt hlow, Nat.zero_add, Nat.mod_eq_of_lt hlow, hfinished.bitmap,
          hfinished.used, bit_bitmap hone]
      · have hzero : t.sector (b / BPB + 229) = Block.zero := by
          refine hfinished.zero _ ?_ ?_
          · have := Nat.div_pos (Nat.le_of_not_lt hlow) (by decide)
            omega
          · change b / 4096 + 229 < _
            omega
        rw [hblock, hzero, Block.bit_zero, eq_comm, decide_eq_false_iff_not]
        omega
    · by_cases h : (t.node i).addrAt t.sector p = 0
      · have := hfinished.le
        omega
      · exact (hfinished.forest.inside i p h).2
    · obtain ⟨j, hj, rfl⟩ := List.mem_map.mp hi
      rw [List.mem_range, hfinished.used] at hj
      unfold BPB at hone
      unfold BSIZE at hone ⊢
      omega

/-- The bitmap of an image of 120 KB with one file. -/
theorem bitmap_exact_one_file :
    ∃ t, (main 120 [⟨[97], [[1, 2, 3]]⟩] Block.zero Block.zero).run start = .ok () t ∧
      BitmapExact 240 t := by
  obtain ⟨t, ht, -⟩ := main_returns 120 [⟨[97], [[1, 2, 3]]⟩] Block.zero
    Block.zero (by decide) (by decide) (by decide) (by decide) (by decide)
  exact ⟨t, ht, (bitmap_exact_iff (by decide) ht).mpr (by decide)⟩

/-- A file of 4000 blocks, read in blocks. -/
def largeFile : InputFile := ⟨[97], List.replicate 4000 (List.replicate 512 1)⟩

theorem length_largeFile : largeFile.bytes.length = 2048000 := by
  rw [InputFile.bytes, largeFile, List.length_flatten, List.map_replicate, List.sum_replicate,
    List.length_replicate]
  rfl

/-- With this file in an image of 4 MB, 4266 blocks are in use. `balloc` writes behind its buffer,
and the kernel takes block 4096 for a free one. -/
theorem bitmap_misses_large_file :
    ∃ t, (main 4096 [largeFile] Block.zero Block.zero).run start = .ok () t ∧
      ¬ BitmapExact 8192 t ∧ BSIZE ∈ bitmapStores t.usedblocks.toNat ∧
      4096 < t.freeblock.toNat ∧ (t.sector (BBLOCK 4096 ninodes)).bit (4096 % BPB) = false := by
  have hused : blocksUsed (firstblock 8192) [largeFile] = 4266 := by
    rw [blocksUsed, List.map_singleton, length_largeFile]
    rfl
  obtain ⟨t, ht, hfinished⟩ := main_returns 4096 [largeFile] Block.zero
    Block.zero (by decide) (by decide) (by decide) (by
      intro f hf
      rw [List.mem_singleton.mp hf, length_largeFile]
      exact ⟨by decide, by decide⟩) (by
      change blocksUsed (firstblock 8192) [largeFile] ≤ 8192
      omega)
  have hfree : t.freeblock.toNat = 4266 := hfinished.free.trans hused
  have hstore : BSIZE ∈ bitmapStores t.usedblocks.toNat := by
    rw [hfinished.used, hfree]
    exact List.mem_map.mpr ⟨4096, List.mem_range.mpr (by decide), rfl⟩
  refine ⟨t, ht, fun hexact => ?_, hstore, by omega, ?_⟩
  · exact absurd (hexact.inside BSIZE hstore) (lt_irrefl _)
  · have hzero : t.sector (BBLOCK 4096 ninodes) = Block.zero :=
      hfinished.zero 230 (by decide) (by decide)
    rw [hzero, Block.bit_zero]

end Xv6
