/-
# The kernel reads back what the image builder wrote

The kernel, which decodes inodes and follows block addresses the same way as the image builder,
reads the files of a finished image.
-/

import Xv6.Mkfs.Built
import Xv6.Fs.Contents

namespace Xv6

open Math

namespace Mkfs

/-- The metadata area ends before the first block of a file. -/
theorem not_metadata {size b : Nat} (small : size < 2 ^ 32) (past : Block)
    (le : firstblock size ≤ b) :
    ¬ (superblockOf size past).superblock.Metadata b := by
  have hsize : (superblockOf size past).superblock.size = size := by
    change Block.word _ 0 = _
    rw [superblockOf, Block.word_setWord_ne _ (by decide), Block.word_setWord_ne _ (by decide),
      Block.word_setWord_of_lt _ (by decide) small]
  have hninodes : (superblockOf size past).superblock.ninodes = ninodes := by
    change Block.word _ 2 = _
    rw [superblockOf, Block.word_setWord_of_lt _ (by decide) (by decide)]
  rw [firstblock_eq] at le
  rintro (h | ⟨i, hi, rfl⟩ | ⟨c, hc, rfl⟩)
  · change b < 2 + 201 at h
    omega
  · rw [hninodes] at hi
    have hlt := iblock_lt hi
    omega
  · rw [hsize] at hc
    rw [hninodes] at le
    change size / 4096 + 230 ≤ c / 4096 + 200 / 8 + 3 + 201 at le
    omega

end Mkfs

open Mkfs Fs in
/-- When `mkfs` finishes for a list of files, the kernel finds file `k` in inode `k + 2`, with its
size, and reads any part of it back; no block is used at two places, and none of the blocks of
files is metadata or lies behind the end of the file system. -/
theorem mkfs_reads_back {kb : Int} {files : List InputFile} {pastSb pastJsb : Block} {t : Mkfs}
    (few : files.length ≤ ninodes - 2)
    (built : (main kb files pastSb pastJsb).run start = .ok () t) (s : Fs) (dev : Nat)
    (disk : ∀ b < kb.toNat * 1024 / BSIZE, s.sector ⟨dev, b⟩ = t.sector b) :
    (∀ k f, files[k]? = some f → ∀ ip, (s.inode ip).dev = dev → (s.inode ip).inum = k + 2 →
      0 < (s.inode ip).ref → (s.inode ip).busy = false → (s.inode ip).valid = false →
      ∃ u, (ilock ip).run s = .ok () u ∧ (u.inode ip).copy.size.toNat = f.bytes.length ∧
        ∀ off n, off + n ≤ f.bytes.length →
          (readi ip off n).run u = .ok ((n : Int), (f.bytes.drop off).take n) u) ∧
    (∀ i j p q, i < ninodes → j < ninodes → s.addrAt dev (.disk i) p ≠ 0 →
      s.addrAt dev (.disk i) p = s.addrAt dev (.disk j) q → i = j ∧ p = q) ∧
    ∀ i p, i < ninodes → s.addrAt dev (.disk i) p ≠ 0 →
      ¬ (s.sb dev).Metadata (s.addrAt dev (.disk i) p) ∧
      s.addrAt dev (.disk i) p < kb.toNat * 1024 / BSIZE := by
  obtain ⟨hdone, hlimit⟩ := (main_ensures kb few pastSb pastJsb).of_ok rfl built
  set size := kb.toNat * 1024 / BSIZE with hsize_def
  have hfirst := firstblock_eq size
  have hle := hdone.le
  have hroom := hdone.room
  -- the kernel sees the image
  have hdisk (b : Nat) (hb : b < size) : s.disk dev b = t.sector b := disk b hb
  have hinside {i : Nat} {p : Pos} (h : (t.node i).addrAt t.sector p ≠ 0) :
      firstblock size ≤ (t.node i).addrAt t.sector p ∧ (t.node i).addrAt t.sector p < size := by
    obtain ⟨hle, hlt⟩ := hdone.forest.inside i p h
    omega
  have hnode (i : Nat) (hi : i < ninodes) : s.dinode dev i = t.node i := by
    have hlt := iblock_lt hi
    rw [Fs.dinode, hdisk _ (by omega), Mkfs.node, if_pos hi]
  have haddr (i : Nat) (p : Pos) :
      (t.node i).addrAt (s.disk dev) p = (t.node i).addrAt t.sector p :=
    Dinode.addrAt_congr (fun q _ hq => hdisk _ (hinside hq).2) p
  have hbyte (i o : Nat) : (t.node i).fileByte (s.disk dev) o = (t.node i).fileByte t.sector o :=
    Dinode.fileByte_congr (fun q hq => hdisk _ (hinside hq).2) o
  have htree (i : Nat) (hi : i < ninodes) (p : Pos) :
      s.addrAt dev (.disk i) p = (t.node i).addrAt t.sector p := by
    rw [Fs.addrAt, copyOf, hnode i hi, haddr]
  refine ⟨fun k f hf ip hdev hinum href hbusy hvalid => ?_, fun i j p q hi hj hne heq => ?_,
    fun i p hi hne => ?_⟩
  · have hk : k + 2 < ninodes := by
      have hlt := (List.getElem?_eq_some_iff.mp hf).1
      unfold ninodes at few ⊢
      omega
    obtain ⟨htype, hlength, hbound, hreads⟩ := hdone.holds k f hf
    set u : Fs := (s.setInode ip fun r => { r with busy := true }).setInode ip fun r =>
      { r with copy := t.node (k + 2), valid := true } with hu
    have hlock : (ilock ip).run s = .ok () u := by
      have hcopy : ((s.setInode ip fun r => { r with busy := true }).disk dev
          (IBLOCK (k + 2))).dinode ((k + 2) % IPB) = t.node (k + 2) := hnode _ hk
      rw [ilock, run_bind_of_ok (load_run ..), run_ite, if_neg (by omega), run_ite, hbusy,
        if_neg (by decide), run_bind_of_ok (modifyInode_run ..), run_ite, hvalid,
        if_neg (by decide), hdev, hinum, run_bind_of_ok (bread_run ..)]
      dsimp only
      rw [hcopy, run_bind_of_ok (modifyInode_run ..), run_ite, if_neg (by rw [htype]; decide)]
      rfl
    have hslot : u.inode ip = { s.inode ip with
        busy := true, copy := t.node (k + 2), valid := true } := by
      rw [hu, setInode_self, setInode_self]
    have hcopy : (u.inode ip).copy = t.node (k + 2) := by rw [hslot]
    refine ⟨u, hlock, by rw [hcopy]; exact hlength, fun off n hn => ?_⟩
    have hfile : (u.inode ip).copy.type ≠ T_DEV := by
      rw [hcopy, htype]
      decide
    have hmapped' : u.Mapped dev ip off n := by
      intro o _ ho
      change (u.inode ip).copy.addrAt (s.disk dev) _ ≠ 0
      rw [hcopy, haddr]
      have hblock : o / BSIZE < MAXFILE := Nat.div_lt_of_lt_mul (by rw [Nat.mul_comm]; omega)
      refine (hdone.filled (k + 2) (by omega) _ (Pos.ofBlock_inside hblock)).mpr
        (Pos.ofBlock_needed.mpr ?_)
      rw [hlength, dataBlocks]
      unfold BSIZE
      omega
    rw [readi_run (by rw [hslot]; exact hdev) hfile (by rw [hcopy, hlength]; exact hn) (by omega)
      hmapped']
    refine congrArg (fun bytes => EStateM.Result.ok ((n : Int), bytes) u) ?_
    refine List.ext_getElem ?_ fun i hi hi' => ?_
    · simp only [fileBytes, List.length_map, List.length_range, List.length_take,
        List.length_drop]
      omega
    · simp only [fileBytes, List.length_map, List.length_range] at hi
      rw [List.getElem_take, List.getElem_drop]
      simp only [fileBytes, List.getElem_map, List.getElem_range]
      change (u.inode ip).copy.fileByte (s.disk dev) (off + i) = _
      rw [hcopy, hbyte, hreads _ (by omega), List.getD_eq_getElem _ _ (by omega)]
  · rw [htree i hi] at hne heq
    rw [htree j hj] at heq
    exact hdone.forest.once i j p q hne heq
  · rw [htree i hi] at hne ⊢
    obtain ⟨hle, hlt⟩ := hinside hne
    have hsb : s.sb dev = (superblockOf size pastSb).superblock := by
      rw [Fs.sb, hdisk 1 (by omega), hdone.super]
    rw [hsb]
    exact ⟨not_metadata (by omega) pastSb hle, hlt⟩

/-- The kernel with an image as disk 1 and inode 2 of it in slot 5. -/
def mounted (image : Mkfs) : Fs where
  sector a := image.sector a.sector
  inode := Function.update (fun _ => Inode.unused) 5 ⟨1, 2, 1, false, false, Dinode.zero⟩
  pastIcache := 0
  buffered _ := false
  typed _ := none
  reads := 0

/-- An image of 120 KB with one file of four bytes. -/
theorem mkfs_reads_back_one :
    ∃ t, (Mkfs.main 120 [⟨[95, 97], [[1, 2, 3], [4]]⟩] Block.zero Block.zero).run Mkfs.start =
        .ok () t ∧
      ∃ u, (Fs.ilock 5).run (mounted t) = .ok () u ∧
        (Fs.readi 5 0 4).run u = .ok (4, [1, 2, 3, 4]) u := by
  have hdone : returned ((Mkfs.main 120 [⟨[95, 97], [[1, 2, 3], [4]]⟩] Block.zero
      Block.zero).run Mkfs.start) = true := by
    decide +kernel
  obtain ⟨t, ht⟩ : ∃ t, (Mkfs.main 120 [⟨[95, 97], [[1, 2, 3], [4]]⟩] Block.zero
      Block.zero).run Mkfs.start = .ok () t := ⟨_, eq_ok_of_returned hdone⟩
  refine ⟨t, ht, ?_⟩
  obtain ⟨hread, -⟩ := mkfs_reads_back (by decide) ht (mounted t) 1 fun _ _ => rfl
  obtain ⟨u, hlock, -, hbytes⟩ := hread 0 _ rfl 5 rfl rfl Int.one_pos rfl rfl
  exact ⟨u, hlock, hbytes 0 4 (by decide)⟩

end Xv6
