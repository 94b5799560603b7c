/-
# Which block balloc returns

`balloc` looks at whole bitmap blocks, so it looks at bits behind the end of the disk when the
size of the disk is not a multiple of the bits in a block. This file says what it returns for
every super block and every bitmap.
-/

import Xv6.Fs.Sound

namespace Xv6

open Math

namespace Fs

/-- The bit of a block is set in the bitmap. -/
def marked (s : Fs) (dev x : Nat) : Fs :=
  s.setSector ⟨dev, BBLOCK x (s.sb dev).ninodes⟩
    ((s.disk dev (BBLOCK x (s.sb dev).ninodes)).setBit (x % BPB))

/-- What the property says about a call of `balloc`. -/
structure AllocatesOnDisk (s : Fs) (dev : Nat) : Prop where
  returns : ∀ b t, (balloc dev).run s = .ok b t →
    b.toNat < (s.sb dev).size ∧ s.used dev b.toNat = false ∧ t.used dev b.toNat = true ∧
      ∀ c, c ≠ b.toNat → t.used dev c = s.used dev c
  panics : (∃ t, (balloc dev).run s = .error (.panic "balloc: out of blocks") t) ↔
    ∀ b < (s.sb dev).size, s.used dev b = true

variable {b : Nat}

section Bits

variable {s : Fs} {dev : Nat}

theorem sb_marked (x : Nat) : (s.marked dev x).sb dev = s.sb dev :=
  sb_setSector (one_ne_bblock _ _).symm

variable {n bi k x : Nat} {bp : Block}

/-- Two blocks with their bits in one bitmap block differ in the place of the bit. -/
theorem bit_inj {c : Nat} (same : BBLOCK c n = BBLOCK b n) : c % BPB = b % BPB ↔ c = b := by
  unfold BBLOCK at same
  unfold BPB BSIZE at *
  omega

/-- One bit of the bitmap changes. -/
theorem used_marked (x c : Nat) :
    (s.marked dev x).used dev c = (s.used dev c || decide (c = x)) := by
  rw [used, used, sb_marked]
  by_cases hblock : BBLOCK c (s.sb dev).ninodes = BBLOCK x (s.sb dev).ninodes
  · rw [hblock, marked, disk_setSector_self, Block.bit_setBit _ (Nat.mod_lt _ (by decide))]
    simp only [bit_inj hblock]
  · have hne : c ≠ x := fun h => hblock (by rw [h])
    rw [marked, disk_setSector_of_ne hblock]
    simp [hne]

/-- The loop of `balloc` over the bits of a block finds the first clear one. -/
theorem freeBit_of_least (inside : bi < BPB) (clear : bp.bit bi = false)
    (least : ∀ bj < bi, bp.bit bj = true) : freeBit bp = some bi := by
  unfold freeBit
  rw [List.find?_range_eq_some]
  exact ⟨by simpa using clear, List.mem_range.mpr inside, fun bj hbj => by simpa using least bj hbj⟩

theorem freeBit_of_full (full : ∀ bi < BPB, bp.bit bi = true) : freeBit bp = none := by
  unfold freeBit
  rw [List.find?_eq_none]
  intro bi hbi
  simpa using full bi (List.mem_range.mp hbi)

theorem bblock_mul_add (n k : Nat) (inside : bi < BPB) :
    BBLOCK (BPB * k + bi) n = BBLOCK (BPB * k) n := by
  have hpos : 0 < BPB := by decide
  have hdiv : (BPB * k + bi) / BPB = BPB * k / BPB := by
    rw [Nat.mul_add_div hpos, Nat.div_eq_of_lt inside, Nat.mul_div_cancel_left _ hpos]
    rfl
  rw [BBLOCK, BBLOCK, hdiv]

/-- A bit of the bitmap block that the loop looks at. -/
theorem used_mul_add (inside : bi < BPB) :
    s.used dev (BPB * k + bi) = (s.disk dev (BBLOCK (BPB * k) (s.sb dev).ninodes)).bit bi := by
  rw [used, bblock_mul_add _ _ inside, Nat.mul_add_mod, Nat.mod_eq_of_lt inside]

/-- The loop over the bitmap blocks goes on when all bits of a block are set. -/
theorem ballocFrom_of_full (full : ∀ c, BPB * k ≤ c → c < BPB * (k + n) →
    s.used dev c = true) :
    (ballocFrom dev (s.sb dev) n (BPB * k)).run s =
      .error (.panic "balloc: out of blocks") s := by
  induction n generalizing k with
  | zero => rfl
  | succ n ih =>
    have hnone : freeBit (s.disk dev (BBLOCK (BPB * k) (s.sb dev).ninodes)) = none := by
      refine freeBit_of_full fun bi hbi => ?_
      rw [← used_mul_add hbi]
      refine full _ (Nat.le_add_right ..) ?_
      have hle : BPB * (k + 1) ≤ BPB * (k + (n + 1)) := Nat.mul_le_mul_left _ (by omega)
      rw [Nat.mul_succ] at hle
      omega
    rw [ballocFrom, run_bind_of_ok (bread_run ..), hnone]
    dsimp only
    rw [← Nat.mul_succ]
    refine ih fun c hlow hhigh => full c ?_ ?_
    · exact (Nat.mul_le_mul_left _ (Nat.le_succ k)).trans hlow
    · rwa [Nat.succ_add_eq_add_succ] at hhigh

/-- The loop over the bitmap blocks stops at the first clear bit. -/
theorem ballocFrom_of_least (low : BPB * k ≤ x) (high : x < BPB * (k + n))
    (clear : s.used dev x = false) (least : ∀ c, BPB * k ≤ c → c < x → s.used dev c = true) :
    (ballocFrom dev (s.sb dev) n (BPB * k)).run s =
      if x = 1 then .error (.panic "b+bi is 1") (s.marked dev x)
      else .ok (UInt32.ofNat x) (s.marked dev x) := by
  induction n generalizing k with
  | zero => exact absurd (low.trans_lt high) (lt_irrefl _)
  | succ n ih =>
    rw [ballocFrom, run_bind_of_ok (bread_run ..)]
    by_cases hhere : x < BPB * (k + 1)
    · -- the bit is in this block
      obtain ⟨bi, rfl⟩ := Nat.exists_eq_add_of_le low
      have hbi : bi < BPB := by
        rw [Nat.mul_succ] at hhere
        omega
      have hfound : freeBit (s.disk dev (BBLOCK (BPB * k) (s.sb dev).ninodes)) = some bi := by
        refine freeBit_of_least hbi (by rw [← used_mul_add hbi, clear]) fun bj hbj => ?_
        rw [← used_mul_add (hbj.trans hbi)]
        exact least _ (Nat.le_add_right ..) (Nat.add_lt_add_left hbj _)
      have hstate : s.setSector ⟨dev, BBLOCK (BPB * k) (s.sb dev).ninodes⟩
          ((s.disk dev (BBLOCK (BPB * k) (s.sb dev).ninodes)).setBit bi) =
            s.marked dev (BPB * k + bi) := by
        rw [marked, bblock_mul_add _ _ hbi, Nat.mul_add_mod, Nat.mod_eq_of_lt hbi]
      rw [hfound]
      dsimp only
      rw [run_bind_of_ok (bwrite_run ..), hstate, run_ite]
      rfl
    · -- all bits of this block are set
      have hnone : freeBit (s.disk dev (BBLOCK (BPB * k) (s.sb dev).ninodes)) = none := by
        refine freeBit_of_full fun bi hbi => ?_
        rw [← used_mul_add hbi]
        refine least _ (Nat.le_add_right ..) ?_
        rw [Nat.mul_succ] at hhere
        omega
      rw [hnone]
      dsimp only
      rw [← Nat.mul_succ]
      refine ih (Nat.le_of_not_lt hhere) ?_ fun c hlow hc => least c ?_ hc
      · rwa [Nat.succ_add_eq_add_succ]
      · exact (Nat.mul_le_mul_left _ (Nat.le_succ k)).trans hlow

theorem balloc_of_full (full : ∀ c, (s.sb dev).Covers c → s.used dev c = true) :
    (balloc dev).run s = .error (.panic "balloc: out of blocks") s := by
  rw [balloc, run_bind_of_ok (readsb_run ..)]
  refine ballocFrom_of_full (k := 0) fun c _ hc => full c ?_
  rwa [Nat.zero_add] at hc

theorem balloc_of_least (covers : (s.sb dev).Covers x) (clear : s.used dev x = false)
    (least : ∀ c < x, s.used dev c = true) :
    (balloc dev).run s =
      if x = 1 then .error (.panic "b+bi is 1") (s.marked dev x)
      else .ok (UInt32.ofNat x) (s.marked dev x) := by
  rw [balloc, run_bind_of_ok (readsb_run ..)]
  refine ballocFrom_of_least (k := 0) (Nat.zero_le x) ?_ clear fun c _ hc => least c hc
  rwa [Nat.zero_add]

theorem covers_of_lt {sb : Superblock} (inside : b < sb.size) : sb.Covers b := by
  unfold Superblock.Covers BPB BSIZE
  omega

/-- The number of a block that the bitmap covers fits in a `uint`. -/
theorem toNat_of_covers (covers : (s.sb dev).Covers x) : (UInt32.ofNat x).toNat = x := by
  have hsize : (s.sb dev).size < 2 ^ 32 := Block.word_lt _ _
  rw [UInt32.toNat_ofNat', Nat.mod_eq_of_lt]
  unfold Superblock.Covers BPB BSIZE at covers
  omega

/-- Either all bits that the bitmap has are set, or there is a first clear one. -/
theorem full_or_least (s : Fs) (dev : Nat) :
    (∀ c, (s.sb dev).Covers c → s.used dev c = true) ∨
      ∃ x, (s.sb dev).Covers x ∧ s.used dev x = false ∧ ∀ c < x, s.used dev c = true := by
  by_cases hfull : ∀ c, (s.sb dev).Covers c → s.used dev c = true
  · exact .inl hfull
  · right
    have hex : ∃ x, s.used dev x = false := by
      simp only [not_forall, Bool.not_eq_true] at hfull
      obtain ⟨x, -, hx⟩ := hfull
      exact ⟨x, hx⟩
    have hleast : ∀ c < Nat.find hex, s.used dev c = true := fun c hc => by
      simpa using Nat.find_min hex hc
    refine ⟨Nat.find hex, ?_, Nat.find_spec hex, hleast⟩
    simp only [not_forall, Bool.not_eq_true] at hfull
    obtain ⟨x, hcovers, hx⟩ := hfull
    exact (Nat.find_min' hex hx).trans_lt hcovers

end Bits

section Main

variable {s : Fs} {dev : Nat}

/-- Allocation stays on the disk when a block of the disk is free, or when all bits that the
bitmap has are set, those behind the end of the disk as well. -/
theorem balloc_on_disk_iff :
    s.AllocatesOnDisk dev ↔
      (∃ b < (s.sb dev).size, s.used dev b = false) ∨
        ∀ c, (s.sb dev).Covers c → s.used dev c = true := by
  rcases full_or_least s dev with hfull | ⟨x, hcovers, hclear, hleast⟩
  · refine iff_of_true ⟨fun b t hrun => ?_, ?_⟩ (.inr hfull)
    · rw [balloc_of_full hfull] at hrun
      cases hrun
    · exact iff_of_true ⟨s, balloc_of_full hfull⟩ fun b hb => hfull b (covers_of_lt hb)
  · have hrun := balloc_of_least hcovers hclear hleast
    have hnot : ¬ ∃ t, (balloc dev).run s = .error (.panic "balloc: out of blocks") t := by
      rintro ⟨t, ht⟩
      rw [hrun] at ht
      split at ht <;> simp at ht
    by_cases hdisk : x < (s.sb dev).size
    · refine iff_of_true ⟨fun b t hok => ?_, ?_⟩ (.inl ⟨x, hdisk, hclear⟩)
      · rw [hrun] at hok
        split at hok
        next => cases hok
        next =>
          obtain ⟨rfl, rfl⟩ := EStateM.Result.ok.inj hok
          rw [toNat_of_covers hcovers]
          refine ⟨hdisk, hclear, by simp [used_marked], fun c hc => ?_⟩
          simp [used_marked, hc]
      · refine iff_of_false hnot fun hall => ?_
        rw [hall x hdisk] at hclear
        cases hclear
    · -- the first clear bit is behind the end of the disk
      have hall : ∀ b < (s.sb dev).size, s.used dev b = true := fun b hb => hleast b (by omega)
      refine iff_of_false (fun holds => hnot (holds.panics.mpr hall)) ?_
      rintro (⟨b, hb, hfree⟩ | hfull)
      · rw [hall b hb] at hfree
        cases hfree
      · rw [hfull x hcovers] at hclear
        cases hclear

/-- A disk of 1024 blocks with 200 inodes, all of it in use. -/
def fullDisk : Fs where
  sector a :=
    if a.sector = 1 then ((Block.zero.setWord 0 1024).setWord 1 794).setWord 2 200
    else if a.sector = 229 then fun j => if j.val < 128 then 255 else 0
    else Block.zero
  inode _ := Inode.unused
  pastIcache := 0
  buffered _ := false
  typed _ := none
  reads := 0

theorem fullDisk_sb : fullDisk.sb ROOTDEV = ⟨1024, 794, 200⟩ := by decide +kernel

theorem fullDisk_used (covers : b < BPB) : fullDisk.used ROOTDEV b = decide (b < 1024) := by
  have hbyte : (fullDisk.disk ROOTDEV 229).byte (b / 8) = if b < 1024 then 255 else 0 := by
    unfold BPB BSIZE at covers
    rw [Block.byte_of_lt _ (by unfold BSIZE; omega)]
    change (if b / 8 < 128 then (255 : UInt8) else 0) = _
    have hiff : b / 8 < 128 ↔ b < 1024 := by omega
    simp only [hiff]
  rw [used, fullDisk_sb, BBLOCK, Nat.div_eq_of_lt covers, Nat.mod_eq_of_lt covers,
    Block.bit_eq_testBit]
  change ((fullDisk.disk ROOTDEV 229).byte (b / 8)).toNat.testBit (b % 8) = _
  rw [hbyte]
  by_cases hb : b < 1024
  · have h8 : b % 8 < 8 := Nat.mod_lt _ (by decide)
    rw [if_pos hb, decide_eq_true hb]
    change Nat.testBit 255 (b % 8) = true
    interval_cases b % 8 <;> rfl
  · rw [if_neg hb, decide_eq_false hb]
    exact Nat.zero_testBit _

/-- On a full disk of 1024 blocks `balloc` returns block 1024. -/
theorem balloc_behind_end :
    (fullDisk.sb ROOTDEV).size = 1024 ∧ (∀ b < 1024, fullDisk.used ROOTDEV b = true) ∧
      ∃ t, (balloc ROOTDEV).run fullDisk = .ok 1024 t := by
  have hused : ∀ b < 1024, fullDisk.used ROOTDEV b = true := fun b hb => by
    rw [fullDisk_used (by unfold BPB BSIZE; omega), decide_eq_true hb]
  refine ⟨by rw [fullDisk_sb], hused, fullDisk.marked ROOTDEV 1024, ?_⟩
  have hcovers : (fullDisk.sb ROOTDEV).Covers 1024 := by
    rw [fullDisk_sb]
    change 1024 < BPB * ((1024 + BPB - 1) / BPB)
    decide
  exact balloc_of_least hcovers (fullDisk_used (by decide)) hused

end Main

end Fs

end Xv6
