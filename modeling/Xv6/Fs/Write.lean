/-
# Writing to files

What `writei`, `iupdate` and `icreate` do to a sound file system. A write changes the bytes
of one file in one range; the blocks it needs are allocated as the file grows.
-/

import Xv6.Fs.Grow

namespace Xv6

open Math

theorem Block.byte_write (d : Block) {pos m : Nat} (src : Nat → UInt8) (fits : pos + m ≤ BSIZE)
    (j : Nat) :
    (d.write pos src m).byte j = if pos ≤ j ∧ j < pos + m then src (j - pos) else d.byte j := by
  by_cases hj : j < BSIZE
  · rw [byte_of_lt _ hj, byte_of_lt _ hj]
    rfl
  · rw [byte, byte, dif_neg hj, dif_neg hj, if_neg (by omega)]

namespace Fs

variable {s t u : Fs} {dev : Nat} {ip : InodeId}

/-! ### Storing data in a block of a file -/

section SetData

variable {h₀ : Holder} {p₀ : Pos} (sound : s.Sound dev) (live : s.Live dev h₀)
  (leaf : ¬ p₀.IsTable) (present : s.addrAt dev h₀ p₀ ≠ 0) (d : Block)

include sound live leaf present

/-- Data of one file is no block of addresses of another. -/
theorem Sound.addrAt_setData {h : Holder} (hlive : s.Live dev h) (p : Pos) :
    (s.setSector ⟨dev, s.addrAt dev h₀ p₀⟩ d).addrAt dev h p = s.addrAt dev h p := by
  obtain ⟨-, -, hdata⟩ := sound.owned h₀ p₀ live present
  have hcopy : (s.setSector ⟨dev, s.addrAt dev h₀ p₀⟩ d).copyOf dev h = s.copyOf dev h := by
    cases h with
    | disk i => exact dinode_setSector fun h' => hdata (h' ▸ metadata_iblock hlive.1)
    | slot jp => rfl
  rw [addrAt, hcopy]
  refine Dinode.addrAt_congr (fun q htable _ => disk_setSector_of_ne fun hq => leaf ?_) p
  have hsame : s.addrAt dev h q = s.addrAt dev h₀ p₀ := hq
  obtain ⟨-, rfl⟩ := sound.unique h h₀ q p₀ hlive live (hsame ▸ present) hsame
  exact htable

theorem Sound.extends_setData (ip : InodeId) :
    Extends dev ip s (s.setSector ⟨dev, s.addrAt dev h₀ p₀⟩ d) := by
  obtain ⟨hcovers, hused, hdata⟩ := sound.owned h₀ p₀ live present
  set a := s.addrAt dev h₀ p₀ with ha
  set t := s.setSector ⟨dev, a⟩ d with ht
  have hmeta (n : Nat) (h : (s.sb dev).Metadata n) : a ≠ n := fun h' => hdata (h' ▸ h)
  have hsb : t.sb dev = s.sb dev := sb_setSector (hmeta 1 (metadata_one _))
  have hdinode (i : Nat) (hi : i < (s.sb dev).ninodes) : t.dinode dev i = s.dinode dev i :=
    dinode_setSector (hmeta _ (metadata_iblock hi))
  have hbit (c : Nat) (hc : (s.sb dev).Covers c) : t.used dev c = s.used dev c := by
    rw [used, used, hsb, disk_setSector_of_ne (hmeta _ (metadata_bblock hc)).symm]
  have hslots : ∀ jp, jp ≠ ip → t.inode jp = s.inode jp := fun _ _ => rfl
  have hlive := live_iff_of_slot hslots ⟨_, rfl⟩ hsb hdinode
  have haddr (h : Holder) (p : Pos) (h' : s.Live dev h) : t.addrAt dev h p = s.addrAt dev h p :=
    sound.addrAt_setData live leaf present d h' p
  refine ⟨?_, hsb, hdinode, fun _ _ => rfl, ⟨_, rfl⟩, fun h p h' _ => haddr h p h',
    fun _ _ h => disk_setSector_of_dev h⟩
  refine sound.of_reach 0 .root hsb (fun c hc h => by rw [hbit c hc, h]) (fun c hc h => ?_)
    (fun h p h' _ => ?_) sound.inums
  · rw [hbit c hc] at h
    refine ⟨h, disk_setSector_of_ne ?_⟩
    rintro rfl
    rw [hused] at h
    cases h
  · have h'' := (hlive h).mp h'
    exact Or.inl ⟨h, h'', rfl, (haddr h p h'').symm⟩

/-- The bytes of a file after the data of one block was replaced. -/
theorem Sound.fileByte_setData {h : Holder} (hlive : s.Live dev h) (o : Nat) :
    (s.setSector ⟨dev, s.addrAt dev h₀ p₀⟩ d).fileByte dev h o =
      if s.addrAt dev h (.ofBlock (o / BSIZE)) = s.addrAt dev h₀ p₀ then d.byte (o % BSIZE)
      else s.fileByte dev h o := by
  have haddr := sound.addrAt_setData live leaf present d hlive (.ofBlock (o / BSIZE))
  set a := s.addrAt dev h₀ p₀ with ha
  set t := s.setSector ⟨dev, a⟩ d with ht
  change (if t.addrAt dev h _ = 0 then 0 else (t.disk dev (t.addrAt dev h _)).byte _) = _
  rw [haddr]
  by_cases hsame : s.addrAt dev h (.ofBlock (o / BSIZE)) = a
  · rw [if_pos hsame, hsame, if_neg present, disk_setSector_self]
  · rw [if_neg hsame, disk_setSector_of_ne hsame]
    rfl

end SetData

/-! ### Writing a range of a file -/

/-- The bytes `[off, off + n)` of the file in slot `ip` were replaced by those of `src`. -/
structure Wrote (dev : Nat) (ip : InodeId) (src : Nat → UInt8) (off n : Nat) (s t : Fs) : Prop
    extends Extends dev ip s t where
  others : ∀ h o, s.Live dev h → s.inumOf h ≠ (s.inode ip).inum →
    t.fileByte dev h o = s.fileByte dev h o
  own : ∀ o, t.fileByte dev (.slot ip) o =
    if off ≤ o ∧ o < off + n then src (o - off) else s.fileByte dev (.slot ip) o
  filled : ∀ o, off ≤ o → o < off + n → t.addrAt dev (.slot ip) (.ofBlock (o / BSIZE)) ≠ 0
  kept : (∀ o, off ≤ o → o < off + n → s.addrAt dev (.slot ip) (.ofBlock (o / BSIZE)) ≠ 0) →
    t.inode = s.inode

namespace Wrote

variable {src src' : Nat → UInt8} {off n m : Nat}

theorem nothing (sound : s.Sound dev) : Wrote dev ip src off 0 s s where
  toExtends := Extends.refl sound
  others _ _ _ _ := rfl
  own o := by rw [if_neg (by omega)]
  filled o h h' := by omega
  kept _ := rfl

theorem trans (live : s.Live dev (.slot ip)) (first : Wrote dev ip src off m s t)
    (second : Wrote dev ip (fun i => src (m + i)) (off + m) n t u) :
    Wrote dev ip src off (m + n) s u where
  toExtends := first.toExtends.trans second.toExtends
  others h o hlive hother := by
    rw [second.others h o ((first.live_iff h).mpr hlive), first.others h o hlive hother]
    have hip : (t.inode ip).inum = (s.inode ip).inum := first.inumOf (.slot ip)
    rw [first.inumOf, hip]
    exact hother
  own o := by
    rw [second.own, first.own]
    by_cases h₁ : off + m ≤ o ∧ o < off + m + n
    · rw [if_pos h₁, if_pos (by omega)]
      exact congrArg src (by omega)
    · rw [if_neg h₁]
      by_cases h₂ : off ≤ o ∧ o < off + m
      · rw [if_pos h₂, if_pos (by omega)]
      · rw [if_neg h₂, if_neg (by omega)]
  filled o h h' := by
    by_cases hm : o < off + m
    · have hfirst := first.filled o h hm
      rw [second.mapped _ _ ((first.live_iff _).mpr live) hfirst]
      exact hfirst
    · exact second.filled o (by omega) (by omega)
  kept present := by
    have hfirst := first.kept fun o h h' => present o h (by omega)
    have hsecond := second.kept fun o h h' => by
      have hold := present o (by omega) (by omega)
      rw [first.mapped _ _ live hold]
      exact hold
    rw [hsecond, hfirst]

/-- One block of a file was mapped and part of its data replaced. -/
theorem of_block (src : Nat → UInt8) (live : s.Live dev (.slot ip)) (grows : Grows dev ip s t)
    (present : t.addrAt dev (.slot ip) (.ofBlock (off / BSIZE)) ≠ 0)
    (fits : off % BSIZE + m ≤ BSIZE) (some : 0 < m)
    (same : s.addrAt dev (.slot ip) (.ofBlock (off / BSIZE)) ≠ 0 → t = s) :
    Wrote dev ip src off m s (t.setSector ⟨dev, t.addrAt dev (.slot ip) (.ofBlock (off / BSIZE))⟩
      ((t.disk dev (t.addrAt dev (.slot ip) (.ofBlock (off / BSIZE)))).write
        (off % BSIZE) src m)) := by
  have hlive := (grows.live_iff _).mpr live
  have hleaf := Pos.ofBlock_not_table (off / BSIZE)
  set a := t.addrAt dev (.slot ip) (.ofBlock (off / BSIZE)) with ha
  set d := (t.disk dev a).write (off % BSIZE) src m with hd
  have hpos : 0 < BSIZE := by decide
  refine ⟨grows.toExtends.trans (grows.sound.extends_setData hlive hleaf present d ip),
    fun h o h' hother => ?_, fun o => ?_, fun o h h' => ?_, fun h => ?_⟩
  · -- the block belongs to no other file
    rw [grows.sound.fileByte_setData hlive hleaf present d ((grows.live_iff h).mpr h'), if_neg,
      grows.bytes h o h']
    intro hsame
    have howner := grows.sound.unique _ _ _ _ ((grows.live_iff h).mpr h') hlive
      (hsame ▸ present) hsame
    rw [grows.inumOf, grows.inumOf] at howner
    exact hother howner.1
  · rw [grows.sound.fileByte_setData hlive hleaf present d hlive]
    by_cases hblock : o / BSIZE = off / BSIZE
    · have hiff : off % BSIZE ≤ o % BSIZE ∧ o % BSIZE < off % BSIZE + m ↔
          off ≤ o ∧ o < off + m := by
        have h₁ := Nat.div_add_mod o BSIZE
        have h₂ := Nat.div_add_mod off BSIZE
        rw [hblock] at h₁
        omega
      have hbytes : t.fileByte dev (.slot ip) o = (t.disk dev a).byte (o % BSIZE) := by
        change (if t.addrAt dev (.slot ip) _ = 0 then 0 else _) = _
        rw [hblock, ← ha, if_neg present]
        rfl
      rw [hblock, if_pos rfl, hd, Block.byte_write _ _ fits, ← hbytes, grows.bytes _ _ live]
      by_cases hin : off ≤ o ∧ o < off + m
      · rw [if_pos hin, if_pos (hiff.mpr hin)]
        have h₁ := Nat.div_add_mod o BSIZE
        have h₂ := Nat.div_add_mod off BSIZE
        rw [hblock] at h₁
        exact congrArg src (by omega)
      · rw [if_neg hin, if_neg fun h => hin (hiff.mp h)]
    · rw [if_neg, grows.bytes _ _ live, if_neg]
      · intro hin
        refine hblock (le_antisymm ?_ (Nat.div_le_div_right hin.1))
        have h₂ := Nat.div_add_mod off BSIZE
        refine Nat.le_of_lt_succ ((Nat.div_lt_iff_lt_mul hpos).mpr ?_)
        rw [Nat.succ_mul, Nat.mul_comm (off / BSIZE)]
        omega
      · intro hsame
        have hplace : t.addrAt dev (.slot ip) (.ofBlock (o / BSIZE)) = a := hsame
        obtain ⟨-, hp⟩ := grows.sound.unique _ _ _ _ hlive hlive (hplace ▸ present) hplace
        exact hblock (Pos.ofBlock_injective hp)
  · have hblock : o / BSIZE = off / BSIZE := by
      have h₂ := Nat.div_add_mod off BSIZE
      refine le_antisymm ?_ (Nat.div_le_div_right h)
      refine Nat.le_of_lt_succ ((Nat.div_lt_iff_lt_mul hpos).mpr ?_)
      rw [Nat.succ_mul, Nat.mul_comm (off / BSIZE)]
      omega
    rw [grows.sound.addrAt_setData hlive hleaf present d hlive, hblock]
    exact present
  · rw [setSector_inode, same (h off le_rfl (by omega))]

end Wrote

/-- The panic of `bmap`. -/
def outOfRange : FsStop := .panic "bmap: out of range"

/-- The loop of `writei` writes its bytes, unless the disk is full or the file too long. -/
theorem writeiLoop_ensures {stops : FsStop → Prop} (full : ∀ e, outOfBlocks e → stops e)
    {src : Nat → UInt8} {n fuel tot off : Nat} (sound : s.Sound dev)
    (live : s.Live dev (.slot ip)) (enough : n - tot ≤ fuel)
    (range : off + (n - tot) ≤ MAXFILE * BSIZE ∨ stops outOfRange) :
    Ensures (fun t => t = s) (writeiLoop ip src n fuel tot off)
      (fun off' t => off' = off + (n - tot) ∧
        Wrote dev ip (fun i => src (tot + i)) off (n - tot) s t) stops := by
  induction fuel generalizing s tot off with
  | zero =>
    have hdone : n - tot = 0 := by omega
    rw [hdone]
    refine Ensures.ret ?_
    exact ⟨rfl, Wrote.nothing sound⟩
  | succ fuel ih =>
    rw [writeiLoop]
    refine Ensures.ite (fun more => ?_) fun done => ?_
    · have hdev : (s.inode ip).dev = dev := live.2.2
      have hpos : off % BSIZE < BSIZE := Nat.mod_lt _ (by decide)
      refine Ensures.step (load_run ..) ?_
      rw [hdev]
      by_cases hbn : off / BSIZE < MAXFILE
      · refine ((bmap_ensures sound live hbn).weaken (fun _ _ h => h) full).bindAt ?_
        rintro bno t ⟨hgrows, hne, haddr, hsame⟩
        refine Ensures.step (bread_run ..) (Ensures.step (bwrite_run ..) ?_)
        set m := min (n - tot) (BSIZE - off % BSIZE) with hm
        have hblock := Wrote.of_block (fun i => src (tot + i)) (m := m) live hgrows
          (haddr ▸ toNat_ne_zero hne) (by omega) (by omega) hsame
        rw [haddr] at hblock
        have hrest : n - (tot + m) = n - tot - m := by omega
        refine (ih hblock.sound ((hblock.live_iff _).mpr live) (by omega) ?_).mono (fun _ h => h)
          (fun off' v h => ?_) fun _ h => h
        · rcases range with h | h
          · exact Or.inl (by omega)
          · exact Or.inr h
        · obtain ⟨hoff, hwrote⟩ := h
          have hsplit : n - tot = m + (n - (tot + m)) := by omega
          refine ⟨by omega, ?_⟩
          rw [hsplit]
          refine hblock.trans live ?_
          simpa only [Nat.add_assoc] using hwrote
      · rcases range with h | h
        · have : off < MAXFILE * BSIZE := by omega
          exact absurd ((Nat.div_lt_iff_lt_mul (by decide)).mpr this) hbn
        · have hstop : bmap ip (off / BSIZE) true = throw outOfRange := by
            unfold MAXFILE at hbn
            rw [bmap, dif_neg (by omega), if_neg (by omega)]
            rfl
          rw [hstop]
          have hnever : Ensures (fun t => t = s) (throw outOfRange : FsM UInt32)
            (fun _ _ => False) stops := Ensures.throw h
          exact hnever.bind fun _ _ h => h.elim
    · have hdone : n - tot = 0 := by omega
      rw [hdone]
      refine Ensures.ret ?_
      exact ⟨rfl, Wrote.nothing sound⟩

/-! ### Changing copies of inodes -/

/-- A file system stays sound if the slots of the inode cache only hold trees that existed
before. -/
theorem Sound.of_slots (sound : s.Sound dev) (sectors : t.sector = s.sector)
    (slots : ∀ jp, t.Live dev (.slot jp) → ∃ h, s.Live dev h ∧ s.inumOf h = (t.inode jp).inum ∧
      (s.copyOf dev h).addrs = (t.inode jp).copy.addrs)
    (inums : ∀ jp, 0 < (t.inode jp).ref → (t.inode jp).dev = dev →
      (t.inode jp).inum < (s.sb dev).ninodes) : t.Sound dev := by
  have hdisk : t.disk dev = s.disk dev := by
    funext n
    rw [disk, disk, sectors]
  have hsb : t.sb dev = s.sb dev := by rw [sb, sb, hdisk]
  have hused (b : Nat) : t.used dev b = s.used dev b := by rw [used, used, hsb, hdisk]
  have hdinode (i : Nat) : t.dinode dev i = s.dinode dev i := by rw [dinode, dinode, hdisk]
  refine sound.of_reach 0 .root hsb (fun b _ h => by rw [hused, h])
    (fun b _ h => ⟨by rw [← hused, h], by rw [hdisk]⟩) (fun h p live _ => Or.inl ?_) inums
  cases h with
  | disk i =>
    rw [Live, hsb, hdinode] at live
    refine ⟨.disk i, live, rfl, ?_⟩
    rw [addrAt, addrAt, copyOf, copyOf, hdinode, hdisk]
  | slot jp =>
    obtain ⟨h', hlive, hinum, haddrs⟩ := slots jp live
    refine ⟨h', hlive, hinum, ?_⟩
    rw [addrAt, addrAt, hdisk]
    exact Dinode.addrAt_of_addrs haddrs p

/-- A change of one slot that keeps its number, its addresses and its validity. -/
theorem Sound.setInode (sound : s.Sound dev) {change : Inode → Inode}
    (kept : 0 < (change (s.inode ip)).ref → 0 < (s.inode ip).ref)
    (valid : (change (s.inode ip)).valid = (s.inode ip).valid)
    (device : (change (s.inode ip)).dev = (s.inode ip).dev)
    (inum : (change (s.inode ip)).inum = (s.inode ip).inum)
    (addrs : (change (s.inode ip)).copy.addrs = (s.inode ip).copy.addrs) :
    (s.setInode ip change).Sound dev := by
  refine sound.of_slots rfl (fun jp live => ?_) fun jp href hdev => ?_
  · by_cases hjp : jp = ip
    · subst hjp
      rw [Live, setInode_self] at live
      obtain ⟨href, hvalid, hdev⟩ := live
      refine ⟨.slot jp, ⟨kept href, valid ▸ hvalid, device ▸ hdev⟩, ?_, ?_⟩
      · rw [setInode_self, inum]
        rfl
      · rw [setInode_self, addrs]
        rfl
    · rw [Live, setInode_of_ne _ _ _ hjp] at live
      refine ⟨.slot jp, live, ?_, ?_⟩ <;> rw [setInode_of_ne _ _ _ hjp] <;> rfl
  · by_cases hjp : jp = ip
    · subst hjp
      rw [setInode_self] at href hdev ⊢
      rw [inum]
      exact sound.inums jp (kept href) (device ▸ hdev)
    · rw [setInode_of_ne _ _ _ hjp] at href hdev ⊢
      exact sound.inums jp href hdev

section SetDinode

variable {i : Nat} (inside : i < (s.sb dev).ninodes) (n : Dinode)

/-- Inode `i` on disk is replaced. -/
def setDinode (s : Fs) (dev i : Nat) (n : Dinode) : Fs :=
  s.setSector ⟨dev, IBLOCK i⟩ ((s.disk dev (IBLOCK i)).setDinode (i % IPB) n)

theorem dinode_setDinode (j : Nat) :
    (s.setDinode dev i n).dinode dev j = if j = i then n else s.dinode dev j := by
  have hmod : i % IPB < IPB := Nat.mod_lt _ (by decide)
  by_cases hj : j = i
  · subst hj
    rw [if_pos rfl, dinode, setDinode, disk_setSector_self, Block.dinode_setDinode_self _ hmod]
  · rw [if_neg hj, dinode, dinode, setDinode]
    by_cases hblock : IBLOCK j = IBLOCK i
    · have hne : j % IPB ≠ i % IPB := by
        unfold IBLOCK IPB at *
        omega
      rw [hblock, disk_setSector_self, Block.dinode_setDinode_ne _ hne]
    · rw [disk_setSector_of_ne hblock]

theorem sb_setDinode : (s.setDinode dev i n).sb dev = s.sb dev :=
  sb_setSector (one_ne_iblock i).symm

theorem live_of_setDinode {h : Holder} (live : (s.setDinode dev i n).Live dev h)
    (other : h ≠ .disk i) : s.Live dev h := by
  cases h with
  | disk j =>
    rw [Live, sb_setDinode, dinode_setDinode, if_neg fun hj => other (by rw [hj])] at live
    exact live
  | slot jp => exact live

include inside

theorem used_setDinode (b : Nat) : (s.setDinode dev i n).used dev b = s.used dev b := by
  rw [used, used, sb_setDinode]
  rw [setDinode, disk_setSector_of_ne (iblock_ne_bblock inside b).symm]

/-- Blocks that are no metadata are not touched. -/
theorem disk_setDinode {b : Nat} (data : ¬ (s.sb dev).Metadata b) :
    (s.setDinode dev i n).disk dev b = s.disk dev b :=
  disk_setSector_of_ne fun h => data (h ▸ metadata_iblock inside)

/-- The trees of the other copies of inodes stay. -/
theorem Sound.addrAt_setDinode (sound : s.Sound dev) {h : Holder} (live : s.Live dev h)
    (other : h ≠ .disk i) (p : Pos) :
    (s.setDinode dev i n).addrAt dev h p = s.addrAt dev h p := by
  have hcopy : (s.setDinode dev i n).copyOf dev h = s.copyOf dev h := by
    cases h with
    | disk j =>
      rw [copyOf, dinode_setDinode, if_neg fun hj => other (by rw [hj])]
      rfl
    | slot jp => rfl
  rw [addrAt, hcopy]
  exact Dinode.addrAt_congr
    (fun q _ hq => disk_setDinode inside n (sound.owned h q live hq).2.2) p

theorem Sound.fileByte_setDinode (sound : s.Sound dev) {h : Holder} (live : s.Live dev h)
    (other : h ≠ .disk i) (o : Nat) :
    (s.setDinode dev i n).fileByte dev h o = s.fileByte dev h o := by
  have haddr := sound.addrAt_setDinode inside n live other (.ofBlock (o / BSIZE))
  set t := s.setDinode dev i n with ht
  change (if t.addrAt dev h _ = 0 then 0 else (t.disk dev (t.addrAt dev h _)).byte _) =
    if s.addrAt dev h _ = 0 then 0 else (s.disk dev (s.addrAt dev h _)).byte _
  rw [haddr]
  split
  · rfl
  next hne => rw [disk_setDinode inside n (sound.owned h _ live hne).2.2]

/-- A file system stays sound if an inode on disk gets the tree of a copy of it, or none. -/
theorem Sound.setDinode (sound : s.Sound dev)
    (tree : (∀ k, n.addrs k = 0) ∨
      ∃ h, s.Live dev h ∧ s.inumOf h = i ∧ (s.copyOf dev h).addrs = n.addrs) :
    (s.setDinode dev i n).Sound dev := by
  refine sound.of_reach 0 .root (sb_setDinode n) (fun b _ h => by rw [used_setDinode inside, h])
    (fun b hb h => ?_) (fun h p live present => Or.inl ?_) sound.inums
  · rw [used_setDinode inside] at h
    refine ⟨h, disk_setDinode inside n fun hmeta => ?_⟩
    rw [sound.metaUsed b hmeta hb] at h
    cases h
  · by_cases hi : h = .disk i
    · subst hi
      have hcopy : (s.setDinode dev i n).copyOf dev (.disk i) = n := by
        rw [copyOf, dinode_setDinode, if_pos rfl]
      rcases tree with hempty | ⟨h', hlive, hinum, haddrs⟩
      · refine absurd ?_ present
        rw [addrAt, hcopy]
        exact Dinode.addrAt_of_empty hempty p
      · refine ⟨h', hlive, hinum, ?_⟩
        rw [addrAt, addrAt, hcopy, Dinode.addrAt_of_addrs haddrs p]
        -- the blocks of addresses are no inode blocks
        refine (Dinode.addrAt_congr (fun q _ hq => disk_setDinode inside n ?_) p).symm
        have hq' : s.addrAt dev h' q ≠ 0 := by
          rw [addrAt, Dinode.addrAt_of_addrs haddrs q]
          exact hq
        have := (sound.owned h' q hlive hq').2.2
        rwa [addrAt, Dinode.addrAt_of_addrs haddrs q] at this
    · have hlive := live_of_setDinode n live hi
      exact ⟨h, hlive, by cases h <;> rfl, (sound.addrAt_setDinode inside n hlive hi p).symm⟩

end SetDinode

end Fs

end Xv6
