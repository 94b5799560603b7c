/-
# How many blocks a file needs

A file of `d` data blocks needs blocks of addresses too: one if it has more than the direct blocks,
and one for each second-level table that it reaches.
-/

import Xv6.Mkfs.Model

namespace Xv6

/-- A place that a block tree can have. -/
def Pos.Inside : Pos → Prop
  | .direct k => k < NDIRECT
  | .root => True
  | .second j => j < NADDRBLOCK
  | .data j k => j < NADDRBLOCK ∧ k < NADDRBLOCK

/-- The places of the block tree of a file with `d` data blocks. -/
def Pos.Needed (d : Nat) : Pos → Prop
  | .direct k => k < d
  | .root => NDIRECT < d
  | .second j => NDIRECT + NADDRBLOCK * j < d
  | .data j k => NDIRECT + NADDRBLOCK * j + k < d

/-- There are blocks at exactly the places of the tree that `d` data blocks need. -/
def Dinode.Filled (n : Dinode) (disk : Nat → Block) (d : Nat) : Prop :=
  ∀ p : Pos, p.Inside → (n.addrAt disk p ≠ 0 ↔ p.Needed d)

namespace Mkfs

/-- The number of blocks with the bytes of a file. -/
def dataBlocks (len : Nat) : Nat := (len + BSIZE - 1) / BSIZE

/-- The number of blocks of a file with `d` data blocks, with its blocks of addresses. -/
def treeBlocks (d : Nat) : Nat :=
  if d ≤ NDIRECT then d else d + 1 + (d - NDIRECT + NADDRBLOCK - 1) / NADDRBLOCK

/-- The number of new blocks for block `fbn` at the end of a file. -/
def newBlocks (fbn : Nat) : Nat :=
  if fbn < NDIRECT then 1
  else 1 + (if fbn = NDIRECT then 1 else 0) + if (fbn - NDIRECT) % NADDRBLOCK = 0 then 1 else 0

/-- The new blocks for block `fbn` of a file with `d` data blocks. -/
def cost (d fbn : Nat) : Nat := if fbn < d then 0 else newBlocks fbn

/-- The number of blocks in use when the files are in the image. -/
def blocksUsed (first : Nat) (files : List InputFile) : Nat :=
  first + treeBlocks (dataBlocks (DIRENT * (files.length + 2))) +
    (files.map fun f => treeBlocks (dataBlocks f.bytes.length)).sum

theorem treeBlocks_succ (d : Nat) : treeBlocks (d + 1) = treeBlocks d + newBlocks d := by
  unfold treeBlocks newBlocks NDIRECT NADDRBLOCK
  split_ifs <;> omega

theorem treeBlocks_mono {d d' : Nat} (le : d ≤ d') : treeBlocks d ≤ treeBlocks d' := by
  induction le with
  | refl => exact le_rfl
  | step _ ih =>
    rw [treeBlocks_succ]
    omega

/-- A longer file does not need less blocks. -/
theorem treeBlocks_dataBlocks_mono {a b : Nat} (le : a ≤ b) :
    treeBlocks (dataBlocks a) ≤ treeBlocks (dataBlocks b) := by
  refine treeBlocks_mono ?_
  unfold dataBlocks BSIZE
  omega

/-- One round takes a file of `d` data blocks to the block that it fills. -/
theorem dataBlocks_add {off m : Nat} (pos : 0 < m) (fits : off % BSIZE + m ≤ BSIZE) :
    off / BSIZE ≤ dataBlocks off ∧
      dataBlocks (off + m) = max (dataBlocks off) (off / BSIZE + 1) ∧
      treeBlocks (dataBlocks (off + m)) =
        treeBlocks (dataBlocks off) + cost (dataBlocks off) (off / BSIZE) := by
  have hle : off / BSIZE ≤ dataBlocks off := by
    unfold dataBlocks BSIZE
    omega
  have hmax : dataBlocks (off + m) = max (dataBlocks off) (off / BSIZE + 1) := by
    unfold dataBlocks BSIZE at *
    omega
  refine ⟨hle, hmax, ?_⟩
  rw [hmax, cost]
  split
  next h => rw [max_eq_left h, Nat.add_zero]
  next h =>
    have heq : off / BSIZE = dataBlocks off := le_antisymm hle (Nat.le_of_not_lt h)
    rw [max_eq_right (by omega), heq, treeBlocks_succ]

theorem blocksUsed_concat (first : Nat) (done : List InputFile) (f : InputFile) :
    blocksUsed first (done ++ [f]) + treeBlocks (dataBlocks (DIRENT * (done.length + 2))) =
      blocksUsed first done + treeBlocks (dataBlocks (DIRENT * (done.length + 2 + 1))) +
        treeBlocks (dataBlocks f.bytes.length) := by
  rw [blocksUsed, blocksUsed, List.map_append, List.sum_append, List.map_singleton,
    List.sum_singleton, List.length_append, List.length_singleton]
  change first + treeBlocks (dataBlocks (DIRENT * (done.length + 2 + 1))) + _ + _ = _
  omega

theorem blocksUsed_mono (first : Nat) (done files : List InputFile) :
    blocksUsed first done ≤ blocksUsed first (done ++ files) := by
  have hroot : treeBlocks (dataBlocks (DIRENT * (done.length + 2))) ≤
      treeBlocks (dataBlocks (DIRENT * ((done ++ files).length + 2))) :=
    treeBlocks_dataBlocks_mono (Nat.mul_le_mul_left _ (by rw [List.length_append]; omega))
  rw [blocksUsed, blocksUsed, List.map_append, List.sum_append]
  omega

end Mkfs

/-! ### Places -/

namespace Pos

variable {d fbn : Nat} {q : Pos}

/-- The places of a file with one more block. -/
theorem needed_direct (le : fbn ≤ d) (direct : fbn < NDIRECT) :
    (q.Needed d ∨ q = .direct fbn) ↔ q.Needed (max d (fbn + 1)) := by
  unfold NDIRECT at direct
  cases q <;> simp only [Pos.Needed, NDIRECT, NADDRBLOCK, Pos.direct.injEq, reduceCtorEq, or_false]
    <;> omega

theorem needed_indirect (le : fbn ≤ d) (indirect : ¬ fbn < NDIRECT) (inside : q.Inside) :
    (((q.Needed d ∨ q = .root) ∨ q = .second ((fbn - NDIRECT) / NADDRBLOCK)) ∨
      q = .data ((fbn - NDIRECT) / NADDRBLOCK) ((fbn - NDIRECT) % NADDRBLOCK)) ↔
      q.Needed (max d (fbn + 1)) := by
  unfold NDIRECT NADDRBLOCK at *
  cases q with
  | direct k =>
    simp only [Pos.Inside, NDIRECT] at inside
    simp only [Pos.Needed, reduceCtorEq, or_false]
    omega
  | root =>
    simp only [Pos.Needed, NDIRECT, reduceCtorEq, or_false, or_true, true_iff]
    omega
  | second j =>
    simp only [Pos.Needed, NDIRECT, NADDRBLOCK, Pos.second.injEq, reduceCtorEq, or_false]
    omega
  | data j k =>
    simp only [Pos.Inside, NADDRBLOCK] at inside
    simp only [Pos.Needed, NDIRECT, NADDRBLOCK, Pos.data.injEq, reduceCtorEq, or_false]
    omega

theorem ofBlock_inside (small : fbn < MAXFILE) : (ofBlock fbn).Inside := by
  rw [ofBlock]
  split
  next h => exact h
  next h =>
    refine ⟨Nat.div_lt_of_lt_mul ?_, Nat.mod_lt _ (by decide)⟩
    unfold MAXFILE NININDIRECT at small
    omega

theorem ofBlock_needed : (ofBlock fbn).Needed d ↔ fbn < d := by
  rw [ofBlock]
  split
  next => exact Iff.rfl
  next h =>
    unfold NDIRECT at h
    simp only [Needed, NDIRECT, NADDRBLOCK]
    omega

end Pos

namespace Dinode

variable {n : Dinode} {disk disk' : Nat → Block} {d : Nat}

theorem filled_of_empty (empty : ∀ k, n.addrs k = 0) (disk : Nat → Block) :
    n.Filled disk (Mkfs.dataBlocks 0) := by
  intro q _
  rw [addrAt_of_empty empty, ne_eq, eq_self, not_true_eq_false, false_iff]
  cases q <;> exact Nat.not_lt_zero _

theorem Filled.congr {m : Dinode} (filled : n.Filled disk d)
    (same : ∀ q, m.addrAt disk' q = n.addrAt disk q) : m.Filled disk' d := by
  intro q hq
  rw [same]
  exact filled q hq

end Dinode

end Xv6
