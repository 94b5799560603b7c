/-
# Freeing blocks

What a sequence of `bfree` calls on blocks of files leaves behind: the blocks are zero, their
bits are clear, and nothing else has changed.
-/

import Xv6.Fs.Balloc
import Xv6.Fs.Write

namespace Xv6

open Math

/-- The block holds bits of the bitmap. -/
def Superblock.Bitmap (sb : Superblock) (m : Nat) : Prop :=
  ∃ c, sb.Covers c ∧ m = BBLOCK c sb.ninodes

theorem Superblock.Bitmap.metadata {sb : Superblock} {m : Nat} (bitmap : sb.Bitmap m) :
    sb.Metadata m := by
  obtain ⟨c, hcovers, rfl⟩ := bitmap
  exact Fs.metadata_bblock hcovers

namespace Fs

/-- A block that may be freed: it is in use, and no metadata. -/
structure Freeable (s : Fs) (dev b : Nat) : Prop where
  covers : (s.sb dev).Covers b
  used : s.used dev b = true
  data : ¬ (s.sb dev).Metadata b

/-- The blocks `F` of `s` were freed. -/
structure Freed (dev : Nat) (s : Fs) (F : Set Nat) (t : Fs) : Prop where
  bits : ∀ c, (s.sb dev).Covers c → (t.used dev c = true ↔ s.used dev c = true ∧ c ∉ F)
  zero : ∀ m ∈ F, t.disk dev m = Block.zero
  same : ∀ m, m ∉ F → ¬ (s.sb dev).Bitmap m → t.disk dev m = s.disk dev m
  data : ∀ m ∈ F, s.Freeable dev m
  elsewhere : ∀ dev' m, dev' ≠ dev → t.disk dev' m = s.disk dev' m

section Freed

variable {s t : Fs} {dev : Nat} {F : Set Nat}

theorem Freed.nothing (s : Fs) (dev : Nat) : Freed dev s ∅ s where
  bits c _ := by simp
  zero m h := absurd h (Set.notMem_empty m)
  same m _ _ := rfl
  data m h := absurd h (Set.notMem_empty m)
  elsewhere dev' m _ := rfl

theorem not_bitmap_one (sb : Superblock) : ¬ sb.Bitmap 1 := by
  rintro ⟨c, -, h⟩
  exact one_ne_bblock _ _ h

theorem Freed.one_notMem (freed : Freed dev s F t) : 1 ∉ F := fun h =>
  (freed.data 1 h).data (metadata_one _)

theorem Freed.sb (freed : Freed dev s F t) : t.sb dev = s.sb dev := by
  rw [Fs.sb, Fs.sb, freed.same 1 freed.one_notMem (not_bitmap_one _)]

/-- A covered block has its bit in a bitmap block, which is not freed. -/
theorem Freeable.bblock_ne {b : Nat} (free : s.Freeable dev b) {c : Nat}
    (covers : (s.sb dev).Covers c) : BBLOCK c (s.sb dev).ninodes ≠ b := by
  rintro rfl
  exact free.data (metadata_bblock covers)

/-- `bfree` of one more block. -/
theorem bfree_freed (freed : Freed dev s F t) {b : UInt32} (free : s.Freeable dev b.toNat)
    (new : b.toNat ∉ F) :
    ∃ u, (bfree dev b).run t = .ok () u ∧ Freed dev s (insert b.toNat F) u ∧
      u.inode = t.inode ∧ u.pastIcache = t.pastIcache := by
  set z := t.setSector ⟨dev, b.toNat⟩ Block.zero with hz
  have hone : b.toNat ≠ 1 := fun h => free.data (h ▸ metadata_one _)
  have hsb : z.sb dev = s.sb dev := (sb_setSector hone).trans freed.sb
  have hblock : BBLOCK b.toNat (s.sb dev).ninodes ≠ b.toNat := free.bblock_ne free.covers
  have hbit : (z.disk dev (BBLOCK b.toNat (s.sb dev).ninodes)).bit (b.toNat % BPB) = true := by
    have h := (freed.bits b.toNat free.covers).mpr ⟨free.used, new⟩
    rwa [used, freed.sb, ← disk_setSector_of_ne hblock] at h
  set m := BBLOCK b.toNat (s.sb dev).ninodes with hm
  set u := z.setSector ⟨dev, m⟩ ((z.disk dev m).clearBit (b.toNat % BPB)) with hu
  have hrun : (bfree dev b).run t = .ok () u := by
    rw [bfree, bzero, run_bind_of_ok (bwrite_run ..), run_bind_of_ok (readsb_run ..), hsb,
      run_bind_of_ok (bread_run ..), run_ite, hbit]
    rfl
  have hmeta : (s.sb dev).Metadata m := metadata_bblock free.covers
  have hother (n : Nat) (h₁ : n ≠ m) (h₂ : n ≠ b.toNat) : u.disk dev n = t.disk dev n := by
    rw [hu, disk_setSector_of_ne h₁, hz, disk_setSector_of_ne h₂]
  have husb : u.sb dev = s.sb dev := (sb_setSector (one_ne_bblock _ _).symm).trans hsb
  refine ⟨u, hrun, ⟨fun c hc => ?_, fun n hn => ?_, fun n hn hbitmap => ?_, fun n hn => ?_,
    fun dev' n hdev => ?_⟩, rfl, rfl⟩
  · -- the bits
    rw [used, husb]
    by_cases hc' : BBLOCK c (s.sb dev).ninodes = m
    · rw [hc', hu, disk_setSector_self, Block.bit_clearBit _ (Nat.mod_lt _ (by decide)),
        hz, disk_setSector_of_ne hblock]
      have ht := freed.bits c hc
      rw [used, freed.sb, hc'] at ht
      rw [Bool.and_eq_true, ht, decide_eq_true_iff, ne_eq, bit_inj hc', Set.mem_insert_iff,
        not_or, and_assoc, and_comm (a := c ∉ F)]
    · have ht := freed.bits c hc
      have hne : c ≠ b.toNat := fun h => hc' (by rw [h])
      rw [used, freed.sb] at ht
      rw [hother _ hc' (free.bblock_ne hc), ht, Set.mem_insert_iff, not_or]
      simp [hne]
  · -- the blocks that were freed
    rcases hn with rfl | hn
    · rw [hu, disk_setSector_of_ne hblock.symm, hz, disk_setSector_self]
    · have hnm : n ≠ m := fun h => (freed.data n hn).data (h ▸ hmeta)
      rw [hother n hnm fun h => new (h ▸ hn), freed.zero n hn]
  · rw [Set.mem_insert_iff, not_or] at hn
    have hnm : n ≠ m := fun h => hbitmap ⟨b.toNat, free.covers, h⟩
    rw [hother n hnm hn.1, freed.same n hn.2 hbitmap]
  · rcases hn with rfl | hn
    · exact free
    · exact freed.data n hn
  · rw [hu, disk_setSector_of_dev hdev, hz, disk_setSector_of_dev hdev,
      freed.elsewhere dev' n hdev]

/-- The blocks of a list. -/
def blockSet (bs : List UInt32) : Set Nat := { m | ∃ b ∈ bs, b.toNat = m }

theorem mem_blockSet {bs : List UInt32} {b : UInt32} : b.toNat ∈ blockSet bs ↔ b ∈ bs := by
  constructor
  · rintro ⟨b', h, heq⟩
    exact UInt32.toNat_inj.mp heq ▸ h
  · exact fun h => ⟨b, h, rfl⟩

theorem blockSet_nil : blockSet [] = ∅ := by
  ext m
  simp [blockSet]

theorem blockSet_append_singleton (bs : List UInt32) (b : UInt32) :
    blockSet (bs ++ [b]) = insert b.toNat (blockSet bs) := by
  ext m
  simp only [blockSet, List.mem_append, List.mem_singleton, Set.mem_insert_iff, Set.mem_ofPred_eq]
  constructor
  · rintro ⟨b', h | rfl, rfl⟩
    · exact .inr ⟨b', h, rfl⟩
    · exact .inl rfl
  · rintro (rfl | ⟨b', h, rfl⟩)
    · exact ⟨b, .inr rfl, rfl⟩
    · exact ⟨b', .inl h, rfl⟩

/-- A loop of `bfree` calls on different blocks of files. -/
theorem bfrees_freed {acc bs : List UInt32} (freed : Freed dev s (blockSet acc) t)
    (free : ∀ b ∈ bs, s.Freeable dev b.toNat) (distinct : (acc ++ bs).Nodup) :
    ∃ u, (bs.forM (bfree dev)).run t = .ok () u ∧ Freed dev s (blockSet (acc ++ bs)) u ∧
      u.inode = t.inode ∧ u.pastIcache = t.pastIcache := by
  induction bs generalizing acc t with
  | nil =>
    rw [List.append_nil]
    exact ⟨t, rfl, freed, rfl, rfl⟩
  | cons b bs ih =>
    obtain ⟨hb, hbs⟩ := List.forall_mem_cons.mp free
    have hnew : b.toNat ∉ blockSet acc := by
      rw [mem_blockSet]
      exact fun h => (List.nodup_append.mp distinct).2.2 b h b List.mem_cons_self rfl
    obtain ⟨v, hrun, hfreed, hinode, hpast⟩ := bfree_freed freed hb hnew
    rw [← blockSet_append_singleton] at hfreed
    have hassoc : acc ++ b :: bs = acc ++ [b] ++ bs := by
      rw [List.append_assoc, List.singleton_append]
    rw [hassoc] at distinct ⊢
    obtain ⟨u, hrest, hfreed', hinode', hpast'⟩ := ih hfreed hbs distinct
    refine ⟨u, ?_, hfreed', hinode'.trans hinode, hpast'.trans hpast⟩
    rw [run_forM_cons, run_bind_of_ok hrun, hrest]

end Freed

end Fs

end Xv6
