/-
# Files grow

What `balloc` and `bmap` do to the files of a device. While a file grows, blocks are
allocated and hung into its tree one at a time. Every such step keeps the file system sound,
leaves every block that was mapped where it is, and changes no byte of any file, because a
fresh block is zero and a missing block reads as zeros.
-/

import Xv6.Fs.Sound

namespace Xv6

open Math

/-- The only reason for which an allocation stops. -/
def outOfBlocks (e : FsStop) : Prop := e = .panic "balloc: out of blocks"

namespace Fs

variable {s t u : Fs} {dev : Nat} {ip : InodeId}

/-- The file in slot `ip` of the inode cache may have got more blocks. -/
structure Extends (dev : Nat) (ip : InodeId) (s t : Fs) : Prop where
  sound : t.Sound dev
  sb : t.sb dev = s.sb dev
  dinode : ∀ i < (s.sb dev).ninodes, t.dinode dev i = s.dinode dev i
  slots : ∀ jp, jp ≠ ip → t.inode jp = s.inode jp
  slot : ∃ addrs, t.inode ip = { s.inode ip with copy := { (s.inode ip).copy with addrs } }
  mapped : ∀ h p, s.Live dev h → s.addrAt dev h p ≠ 0 → t.addrAt dev h p = s.addrAt dev h p
  devices : ∀ dev' n, dev' ≠ dev → t.disk dev' n = s.disk dev' n

/-- The file in slot `ip` may have got more blocks, and no byte of any file has changed. -/
structure Grows (dev : Nat) (ip : InodeId) (s t : Fs) : Prop extends Extends dev ip s t where
  bytes : ∀ h o, s.Live dev h → t.fileByte dev h o = s.fileByte dev h o

section Slots

variable (slots : ∀ jp, jp ≠ ip → t.inode jp = s.inode jp)
variable (slot : ∃ addrs, t.inode ip = { s.inode ip with copy := { (s.inode ip).copy with addrs } })

include slots slot

/-- A change of one slot's addresses and of blocks other than inode blocks keeps the copies
that exist. -/
theorem live_iff_of_slot (sb : t.sb dev = s.sb dev)
    (dinode : ∀ i < (s.sb dev).ninodes, t.dinode dev i = s.dinode dev i) (h : Holder) :
    t.Live dev h ↔ s.Live dev h := by
  cases h with
  | disk i =>
    rw [Live, Live, sb]
    refine and_congr_right fun hi => ?_
    rw [dinode i hi]
  | slot jp =>
    rw [Live, Live]
    by_cases hjp : jp = ip
    · subst hjp
      obtain ⟨addrs, hslot⟩ := slot
      rw [hslot]
    · rw [slots jp hjp]

theorem inumOf_of_slot (h : Holder) : t.inumOf h = s.inumOf h := by
  cases h with
  | disk i => rfl
  | slot jp =>
    by_cases hjp : jp = ip
    · subst hjp
      obtain ⟨addrs, hslot⟩ := slot
      rw [inumOf, inumOf, hslot]
    · rw [inumOf, inumOf, slots jp hjp]

end Slots

namespace Extends

theorem refl (sound : s.Sound dev) : Extends dev ip s s :=
  ⟨sound, rfl, fun _ _ => rfl, fun _ _ => rfl, ⟨_, rfl⟩, fun _ _ _ _ => rfl, fun _ _ _ => rfl⟩

theorem live_iff (ext : Extends dev ip s t) (h : Holder) : t.Live dev h ↔ s.Live dev h :=
  live_iff_of_slot ext.slots ext.slot ext.sb ext.dinode h

theorem inumOf (ext : Extends dev ip s t) (h : Holder) : t.inumOf h = s.inumOf h :=
  inumOf_of_slot ext.slots ext.slot h

theorem trans (first : Extends dev ip s t) (second : Extends dev ip t u) : Extends dev ip s u where
  sound := second.sound
  sb := second.sb.trans first.sb
  dinode i hi := (second.dinode i (first.sb ▸ hi)).trans (first.dinode i hi)
  slots jp hjp := (second.slots jp hjp).trans (first.slots jp hjp)
  slot := by
    obtain ⟨a₁, h₁⟩ := first.slot
    obtain ⟨a₂, h₂⟩ := second.slot
    exact ⟨a₂, by rw [h₂, h₁]⟩
  mapped h p live present := by
    have hfirst := first.mapped h p live present
    rw [second.mapped h p ((first.live_iff h).mpr live) (hfirst ▸ present), hfirst]
  devices dev' n hdev := (second.devices dev' n hdev).trans (first.devices dev' n hdev)

end Extends

namespace Grows

theorem refl (sound : s.Sound dev) : Grows dev ip s s := ⟨Extends.refl sound, fun _ _ _ => rfl⟩

theorem trans (first : Grows dev ip s t) (second : Grows dev ip t u) : Grows dev ip s u where
  toExtends := first.toExtends.trans second.toExtends
  bytes h o live := by
    rw [second.bytes h o ((first.live_iff h).mpr live), first.bytes h o live]

/-- How one step makes a file grow: the addresses that the copies of inodes reach stay, but
for a fresh block of zeros that appears at place `q` of inode `i`. -/
theorem of_move (sound : s.Sound dev) (i : Nat) (q : Pos) (sb : t.sb dev = s.sb dev)
    (dinode : ∀ i < (s.sb dev).ninodes, t.dinode dev i = s.dinode dev i)
    (slots : ∀ jp, jp ≠ ip → t.inode jp = s.inode jp)
    (slot : ∃ addrs, t.inode ip = { s.inode ip with copy := { (s.inode ip).copy with addrs } })
    (devices : ∀ dev' n, dev' ≠ dev → t.disk dev' n = s.disk dev' n)
    (usedMono : ∀ b, (s.sb dev).Covers b → s.used dev b = true → t.used dev b = true)
    (freeSame : ∀ b, (s.sb dev).Covers b → t.used dev b = false →
      s.used dev b = false ∧ t.disk dev b = s.disk dev b)
    (leaves : ∀ h p, s.Live dev h → ¬ p.IsTable → s.addrAt dev h p ≠ 0 →
      t.disk dev (s.addrAt dev h p) = s.disk dev (s.addrAt dev h p))
    (reach : ∀ h p, s.Live dev h → t.addrAt dev h p = s.addrAt dev h p ∨
      s.addrAt dev h p = 0 ∧ s.inumOf h = i ∧ p = q ∧ s.Fresh dev (t.addrAt dev h p) ∧
        t.disk dev (t.addrAt dev h p) = Block.zero) : Grows dev ip s t := by
  have hlive := live_iff_of_slot slots slot sb dinode
  have hinum (h : Holder) : t.inumOf h = s.inumOf h := inumOf_of_slot slots slot h
  refine ⟨⟨?_, sb, dinode, slots, slot, ?_, devices⟩, ?_⟩
  · refine sound.of_reach i q sb usedMono freeSame (fun h p live present => ?_)
      fun jp href hdev => ?_
    · have hlive' := (hlive h).mp live
      rcases reach h p hlive' with hsame | ⟨-, hi, hp, hfresh, -⟩
      · exact Or.inl ⟨h, hlive', (hinum h).symm, hsame.symm⟩
      · exact Or.inr ⟨(hinum h).trans hi, hp, hfresh⟩
    · by_cases hjp : jp = ip
      · subst hjp
        obtain ⟨addrs, hslot⟩ := slot
        rw [hslot] at href hdev ⊢
        exact sound.inums jp href hdev
      · rw [slots jp hjp] at href hdev ⊢
        exact sound.inums jp href hdev
  · intro h p live present
    rcases reach h p live with hsame | ⟨habsent, -⟩
    · exact hsame
    · exact absurd habsent present
  · intro h o live
    have hleaf := leaves h _ live (Pos.ofBlock_not_table (o / BSIZE))
    change (if t.addrAt dev h _ = 0 then 0 else (t.disk dev (t.addrAt dev h _)).byte _) =
      if s.addrAt dev h _ = 0 then 0 else (s.disk dev (s.addrAt dev h _)).byte _
    rcases reach h (.ofBlock (o / BSIZE)) live with hsame | ⟨habsent, -, -, -, hzero⟩
    · rw [hsame]
      split
      · rfl
      next h => rw [hleaf h]
    · rw [habsent, if_pos rfl, hzero, Block.byte_zero, ite_self]

end Grows

/-! ### Allocating a block -/

/-- A block was allocated and is not used yet. -/
structure Allocates (dev : Nat) (s : Fs) (b : UInt32) (t : Fs) : Prop where
  grows : ∀ ip, Grows dev ip s t
  inode : t.inode = s.inode
  fresh : t.Fresh dev b.toNat
  data : ∀ n, ¬ (s.sb dev).Metadata n → t.disk dev n = s.disk dev n

variable {b a : UInt32} {k : Fin NADDRS} {q : Pos} {i bn : Nat}

/-- Setting the bit of a free block allocates it. -/
theorem Sound.allocates (sound : s.Sound dev) (covers : (s.sb dev).Covers b.toNat)
    (free : s.used dev b.toNat = false) :
    Allocates dev s b (s.setSector ⟨dev, BBLOCK b.toNat (s.sb dev).ninodes⟩
      ((s.disk dev (BBLOCK b.toNat (s.sb dev).ninodes)).setBit (b.toNat % BPB))) := by
  set sb := s.sb dev with hsb
  set m := BBLOCK b.toNat sb.ninodes with hm
  set t := s.setSector ⟨dev, m⟩ ((s.disk dev m).setBit (b.toNat % BPB)) with ht
  have hmeta : sb.Metadata m := metadata_bblock covers
  have hdata : ¬ sb.Metadata b.toNat := fun h => by
    rw [sound.metaUsed _ h covers] at free
    cases free
  have hother (n : Nat) (h : n ≠ m) : t.disk dev n = s.disk dev n := disk_setSector_of_ne h
  have hsame (n : Nat) (h : ¬ sb.Metadata n) : t.disk dev n = s.disk dev n :=
    hother n fun h' => h (h' ▸ hmeta)
  have hsb' : t.sb dev = sb := sb_setSector (one_ne_bblock _ _).symm
  have hdinode (i : Nat) (hi : i < sb.ninodes) : t.dinode dev i = s.dinode dev i :=
    dinode_setSector (iblock_ne_bblock hi _).symm
  -- the bitmap changes at one bit only
  have hused (c : Nat) : t.used dev c = (s.used dev c || decide (c = b.toNat)) := by
    rw [Fs.used, Fs.used, hsb', ← hsb]
    by_cases hc : BBLOCK c sb.ninodes = m
    · have hdiv : c / BPB = b.toNat / BPB := by
        unfold BBLOCK at hc hm
        omega
      have hiff : c % BPB = b.toNat % BPB ↔ c = b.toNat := by
        unfold BPB BSIZE at *
        omega
      rw [hc, disk_setSector_self, Block.bit_setBit _ (Nat.mod_lt _ (by decide))]
      simp only [hiff]
    · have hne : c ≠ b.toNat := fun h => hc (by rw [h])
      rw [hother _ hc]
      simp [hne]
  have hcopy (h : Holder) (live : s.Live dev h) : t.copyOf dev h = s.copyOf dev h := by
    cases h with
    | disk i => exact hdinode i live.1
    | slot jp => rfl
  have haddr (h : Holder) (p : Pos) (live : s.Live dev h) :
      t.addrAt dev h p = s.addrAt dev h p := by
    rw [addrAt, hcopy h live]
    exact Dinode.addrAt_congr (fun q _ hq => hsame _ (sound.owned h q live hq).2.2) p
  have hgrows (ip : InodeId) : Grows dev ip s t := by
    refine Grows.of_move sound 0 .root hsb' hdinode (fun _ _ => rfl) ⟨_, rfl⟩
      (fun _ n h => disk_setSector_of_dev h) (fun c _ h => by rw [hused, h, Bool.true_or])
      (fun c hc h => ?_) (fun h p live _ hp => hsame _ (sound.owned h p live hp).2.2)
      fun h p live => Or.inl (haddr h p live)
    rw [hused, Bool.or_eq_false_iff] at h
    refine ⟨h.1, hsame c fun hreserved => ?_⟩
    rw [sound.metaUsed c hreserved hc] at h
    cases h.1
  refine ⟨hgrows, rfl, ⟨?_, ?_, ?_, ?_, fun h p live => ?_⟩, hsame⟩
  · rw [hsb']
    exact covers
  · rw [hused]
    simp
  · rw [hsb']
    exact hdata
  · rw [hsame _ hdata, sound.freeZero _ covers free]
  · have hlive := ((hgrows ⟨0, by decide⟩).live_iff h).mp live
    rw [haddr h p hlive]
    by_cases hzero : s.addrAt dev h p = 0
    · rw [hzero]
      exact fun h0 => hdata (h0 ▸ metadata_zero sb)
    · exact sound.free_unreached free hlive hzero

/-- The loop of `balloc` finds a free block or runs out of blocks. -/
theorem ballocFrom_ensures (sound : s.Sound dev) {n k : Nat}
    (rest : k + n = ((s.sb dev).size + BPB - 1) / BPB) :
    Ensures (fun t => t = s) (ballocFrom dev (s.sb dev) n (BPB * k))
      (fun b t => Allocates dev s b t) outOfBlocks := by
  induction n generalizing k with
  | zero => exact Ensures.throw rfl
  | succ n ih =>
    have hpos : 0 < BPB := by decide
    rw [ballocFrom]
    refine Ensures.step (bread_run ..) ?_
    cases hfound : freeBit (s.disk dev (BBLOCK (BPB * k) (s.sb dev).ninodes)) with
    | none =>
      dsimp only
      rw [← Nat.mul_succ]
      exact ih (by omega)
    | some bi =>
      obtain ⟨hbi, hclear⟩ := freeBit_eq_some hfound
      -- block `BPB * k + bi` is covered by the bitmap, and its bit is clear
      have hdiv : (BPB * k + bi) / BPB = k := by
        rw [Nat.mul_add_div hpos, Nat.div_eq_of_lt hbi, Nat.add_zero]
      have hmod : (BPB * k + bi) % BPB = bi := by
        rw [Nat.mul_add_mod, Nat.mod_eq_of_lt hbi]
      have hblock : BBLOCK (BPB * k) (s.sb dev).ninodes =
          BBLOCK (BPB * k + bi) (s.sb dev).ninodes := by
        rw [BBLOCK, BBLOCK, hdiv, Nat.mul_div_cancel_left _ hpos]
      have hcovers : (s.sb dev).Covers (BPB * k + bi) := by
        rw [Superblock.Covers, ← rest, Nat.mul_comm BPB (k + (n + 1)),
          ← Nat.div_lt_iff_lt_mul hpos, hdiv]
        omega
      have hsmall : BPB * k + bi < 2 ^ 32 := by
        have hsize : (s.sb dev).size < 2 ^ 32 := Block.word_lt _ _
        unfold Superblock.Covers BPB BSIZE at *
        omega
      have hb : (UInt32.ofNat (BPB * k + bi)).toNat = BPB * k + bi := by
        rw [UInt32.toNat_ofNat', Nat.mod_eq_of_lt hsmall]
      have hfree : s.used dev (BPB * k + bi) = false := by
        rw [used, ← hblock, hmod, hclear]
      have halloc := sound.allocates (b := UInt32.ofNat (BPB * k + bi))
        (by rw [hb]; exact hcovers) (by rw [hb]; exact hfree)
      rw [hb, hmod, ← hblock] at halloc
      refine Ensures.step (bwrite_run ..) (Ensures.ite (fun hone => ?_) fun _ => ?_)
      · -- block 1 is the super block, which is in use
        rw [hone, sound.metaUsed 1 (metadata_one _) (hone ▸ hcovers)] at hfree
        cases hfree
      · refine Ensures.ret ?_
        exact halloc

/-- `balloc` allocates a block that nobody uses. -/
theorem balloc_ensures (sound : s.Sound dev) :
    Ensures (fun t => t = s) (balloc dev) (fun b t => Allocates dev s b t) outOfBlocks :=
  Ensures.step (readsb_run ..) (ballocFrom_ensures (k := 0) sound (Nat.zero_add _))

/-! ### Hanging a block into the tree -/

theorem Fresh.ne_zero {b : Nat} (fresh : s.Fresh dev b) : b ≠ 0 := fun h =>
  fresh.data (h ▸ metadata_zero _)

/-- A fresh block is entered into the copy of an inode. -/
theorem Fresh.attachAddr (sound : s.Sound dev) (fresh : s.Fresh dev b.toNat)
    (absent : (s.inode ip).copy.addrs k = 0) :
    Grows dev ip s (s.setInode ip fun r => { r with copy := r.copy.setAddr k b }) := by
  set t := s.setInode ip fun r => { r with copy := r.copy.setAddr k b } with ht
  have hslot : t.inode ip = { s.inode ip with copy := (s.inode ip).copy.setAddr k b } :=
    setInode_self ..
  have hslots (jp : InodeId) (h : jp ≠ ip) : t.inode jp = s.inode jp := setInode_of_ne _ _ _ h
  refine Grows.of_move sound (s.inode ip).inum (addrsPos k) rfl (fun _ _ => rfl) hslots
    ⟨_, hslot⟩ (fun _ _ _ => rfl) (fun _ _ h => h) (fun _ _ h => ⟨h, rfl⟩) (fun _ _ _ _ _ => rfl)
    fun h p live => ?_
  cases h with
  | disk i => exact Or.inl rfl
  | slot jp =>
    by_cases hjp : jp = ip
    · subst hjp
      have haddr : t.addrAt dev (.slot jp) p =
          if p = addrsPos k then b.toNat else s.addrAt dev (.slot jp) p := by
        rw [addrAt, copyOf, hslot]
        exact Dinode.addrAt_setAddr absent fresh.zero p
      by_cases hp : p = addrsPos k
      · rw [if_pos hp] at haddr
        rw [haddr]
        refine Or.inr ⟨?_, rfl, hp, fresh, fresh.zero⟩
        rw [hp, addrAt, Dinode.addrAt_addrsPos, copyOf, absent]
        rfl
      · rw [if_neg hp] at haddr
        exact Or.inl haddr
    · refine Or.inl ?_
      rw [addrAt, addrAt, copyOf, copyOf, hslots jp hjp]
      rfl

/-- A fresh block is entered into a block of addresses of a file. -/
theorem Fresh.attachEntry (sound : s.Sound dev) (fresh : s.Fresh dev b.toNat)
    {h₀ : Holder} (live : s.Live dev h₀) (table : q.IsTable)
    (inside : i < NADDRBLOCK) (present : s.addrAt dev h₀ q ≠ 0)
    (absent : (s.disk dev (s.addrAt dev h₀ q)).addr i = 0) (ip : InodeId) :
    Grows dev ip s (s.setSector ⟨dev, s.addrAt dev h₀ q⟩
      ((s.disk dev (s.addrAt dev h₀ q)).setAddr i b)) := by
  set a := s.addrAt dev h₀ q with ha
  set t := s.setSector ⟨dev, a⟩ ((s.disk dev a).setAddr i b) with ht
  obtain ⟨hcovers, hused, hdata⟩ := sound.owned h₀ q live present
  rw [← ha] at hcovers hused hdata
  have hother (n : Nat) (h : n ≠ a) : t.disk dev n = s.disk dev n := disk_setSector_of_ne h
  have hmeta (n : Nat) (h : (s.sb dev).Metadata n) : a ≠ n := fun h' => hdata (h' ▸ h)
  have hsb : t.sb dev = s.sb dev := sb_setSector (hmeta 1 (metadata_one _))
  have hdinode (j : Nat) (hj : j < (s.sb dev).ninodes) : t.dinode dev j = s.dinode dev j :=
    dinode_setSector (hmeta _ (metadata_iblock hj))
  have hbit (c : Nat) (hc : (s.sb dev).Covers c) : t.used dev c = s.used dev c := by
    rw [Fs.used, Fs.used, hsb, hother _ (hmeta _ (metadata_bblock hc)).symm]
  have hcopy (h : Holder) (hlive : s.Live dev h) : t.copyOf dev h = s.copyOf dev h := by
    cases h with
    | disk j => exact hdinode j hlive.1
    | slot jp => rfl
  -- the block of addresses has no other owner
  have howner (h : Holder) (p : Pos) (hlive : s.Live dev h) (hp : s.addrAt dev h p = a) :
      s.inumOf h = s.inumOf h₀ ∧ p = q :=
    sound.unique h h₀ p q hlive live (hp ▸ present) hp
  refine Grows.of_move sound (s.inumOf h₀) (q.child i) hsb hdinode (fun _ _ => rfl) ⟨_, rfl⟩
    (fun _ _ h => disk_setSector_of_dev h) (fun c hc h => by rw [hbit c hc, h])
    (fun c hc h => ?_) (fun h p hlive hleaf _ => hother _ fun hp => ?_) fun h p hlive => ?_
  · rw [hbit c hc] at h
    refine ⟨h, hother c ?_⟩
    rintro rfl
    rw [hused] at h
    cases h
  · exact hleaf ((howner h p hlive hp).2 ▸ table)
  · by_cases hthrough : s.addrAt dev h q = a
    · have hnew : b.toNat ≠ a := fun h' => fresh.unreached h₀ q live (ha.symm.trans h'.symm)
      have haddr : t.addrAt dev h p =
          if p = q.child i then b.toNat else s.addrAt dev h p := by
        rw [addrAt, hcopy h hlive, ht, disk_setSector, ← hthrough]
        refine Dinode.addrAt_setEntry table inside ?_ ?_ ?_ fresh.zero ?_ p
        · exact fun h0 => present (hthrough ▸ h0)
        · change (s.disk dev (s.addrAt dev h q)).addr i = 0
          rw [hthrough, absent]
        · exact fun p' _ hp' => (howner h p' hlive (hp'.trans hthrough)).2
        · exact fun p' => fresh.unreached h p' hlive
      by_cases hp : p = q.child i
      · rw [if_pos hp] at haddr
        rw [haddr]
        refine Or.inr ⟨?_, (howner h q hlive hthrough).1, hp, fresh, ?_⟩
        · rw [hp, addrAt, Dinode.addrAt_child table]
          change entry (s.disk dev) (s.addrAt dev h q) i = 0
          rw [hthrough, entry, if_neg present, absent]
          rfl
        · rw [hother _ hnew, fresh.zero]
      · rw [if_neg hp] at haddr
        exact Or.inl haddr
    · refine Or.inl ?_
      rw [addrAt, hcopy h hlive]
      refine Dinode.addrAt_congr (fun q' hq' _ => hother _ fun hp => ?_) p
      obtain rfl := (howner h q' hlive hp).2
      exact hthrough hp

/-! ### The block map -/

theorem toNat_ne_zero (h : a ≠ 0) : a.toNat ≠ 0 := fun h' =>
  h (UInt32.toNat_inj.mp h')

section Lookup

variable {alloc : Bool}

theorem addrOrAlloc_run (present : (s.inode ip).copy.addrs k ≠ 0) :
    (addrOrAlloc ip k alloc).run s = .ok (some ((s.inode ip).copy.addrs k)) s := by
  rw [addrOrAlloc, run_bind_of_ok (load_run ..), run_ite, if_pos present]
  rfl

theorem entryOrAlloc_run {table : UInt32} (present : (s.disk dev table.toNat).addr i ≠ 0) :
    (entryOrAlloc dev table i alloc).run s = .ok (some ((s.disk dev table.toNat).addr i)) s := by
  rw [entryOrAlloc, run_bind_of_ok (bread_run ..), run_ite, if_pos present]
  rfl

/-- `bmap` only looks up a block that is mapped. -/
theorem bmap_run (alloc : Bool) (device : (s.inode ip).dev = dev) (inside : bn < MAXFILE)
    (present : s.addrAt dev (.slot ip) (.ofBlock bn) ≠ 0) :
    ∃ b, (bmap ip bn alloc).run s = .ok b s ∧
      b.toNat = s.addrAt dev (.slot ip) (.ofBlock bn) := by
  have hentry {b i : Nat} (h : entry (s.disk dev) b i ≠ 0) :
      b ≠ 0 ∧ (s.disk dev b).addr i ≠ 0 := by
    unfold entry at h
    split at h
    · exact absurd rfl h
    next hb => exact ⟨hb, fun h' => h (by rw [h']; rfl)⟩
  have haddr {k : Fin NADDRS} (h : ((s.inode ip).copy.addrs k).toNat ≠ 0) :
      (s.inode ip).copy.addrs k ≠ 0 := fun h' => h (by rw [h']; rfl)
  rw [addrAt, Pos.ofBlock] at present ⊢
  rw [bmap]
  by_cases hdirect : bn < NDIRECT
  · rw [if_pos hdirect, copyOf, Dinode.addrAt, dif_pos hdirect] at present ⊢
    rw [dif_pos hdirect, run_bind_of_ok (addrOrAlloc_run (haddr present))]
    exact ⟨_, rfl, rfl⟩
  · have hbn : bn - NDIRECT < NININDIRECT := by
      unfold MAXFILE at inside
      omega
    rw [if_neg hdirect, copyOf, Dinode.addrAt] at present ⊢
    obtain ⟨hsecond, hdata⟩ := hentry present
    obtain ⟨hroot, htable⟩ := hentry hsecond
    rw [entry, if_neg hroot] at hdata
    rw [dif_neg hdirect, if_pos hbn, run_bind_of_ok (load_run ..), device,
      run_bind_of_ok (addrOrAlloc_run (haddr hroot))]
    dsimp only
    rw [run_bind_of_ok (entryOrAlloc_run htable)]
    dsimp only
    rw [run_bind_of_ok (entryOrAlloc_run hdata)]
    refine ⟨_, rfl, ?_⟩
    rw [entry, if_neg hsecond, entry, if_neg hroot]
    rfl

end Lookup

/-- `bmap` finds or allocates a block of the inode itself. -/
theorem addrOrAlloc_ensures (sound : s.Sound dev) (live : s.Live dev (.slot ip))
    (k : Fin NADDRS) :
    Ensures (fun t => t = s) (addrOrAlloc ip k true)
      (fun r t => ∃ b, r = some b ∧ Grows dev ip s t ∧ b ≠ 0 ∧
        t.addrAt dev (.slot ip) (addrsPos k) = b.toNat) outOfBlocks := by
  refine Ensures.step (load_run ..) (Ensures.ite (fun present => ?_) fun absent => ?_)
  · refine Ensures.ret ?_
    exact ⟨_, rfl, Grows.refl sound, present, Dinode.addrAt_addrsPos k⟩
  · have habsent : (s.inode ip).copy.addrs k = 0 := not_not.mp absent
    refine Ensures.ite (fun h => absurd h Bool.false_ne_true) fun _ => ?_
    have hdev : (s.inode ip).dev = dev := live.2.2
    rw [hdev]
    refine (balloc_ensures sound).bindAt fun b t alloc => ?_
    have habsent' : (t.inode ip).copy.addrs k = 0 := by rw [alloc.inode, habsent]
    refine Ensures.step (modifyInode_run ..) (Ensures.ret ?_)
    refine ⟨b, rfl, (alloc.grows ip).trans (alloc.fresh.attachAddr (alloc.grows ip).sound habsent'),
      fun h => alloc.fresh.ne_zero (by rw [h]; rfl), ?_⟩
    rw [addrAt, Dinode.addrAt_addrsPos, copyOf, setInode_self]
    exact congrArg UInt32.toNat (Dinode.setAddr_self (n := (t.inode ip).copy) k b)

/-- `bmap` finds or allocates a block in a block of addresses. -/
theorem entryOrAlloc_ensures (sound : s.Sound dev) (live : s.Live dev (.slot ip))
    (table : q.IsTable) (inside : i < NADDRBLOCK) (nonzero : a ≠ 0)
    (here : s.addrAt dev (.slot ip) q = a.toNat) :
    Ensures (fun t => t = s) (entryOrAlloc dev a i true)
      (fun r t => ∃ b, r = some b ∧ Grows dev ip s t ∧ b ≠ 0 ∧
        t.addrAt dev (.slot ip) (q.child i) = b.toNat) outOfBlocks := by
  have hpresent : s.addrAt dev (.slot ip) q ≠ 0 := here ▸ toNat_ne_zero nonzero
  have hchild (u : Fs) (hu : u.addrAt dev (.slot ip) q = a.toNat) :
      u.addrAt dev (.slot ip) (q.child i) = ((u.disk dev a.toNat).addr i).toNat := by
    rw [addrAt, Dinode.addrAt_child table]
    change entry (u.disk dev) (u.addrAt dev (.slot ip) q) i = _
    rw [hu, entry, if_neg (toNat_ne_zero nonzero)]
  refine Ensures.step (bread_run ..) (Ensures.ite (fun present => ?_) fun absent => ?_)
  · refine Ensures.ret ?_
    exact ⟨_, rfl, Grows.refl sound, present, hchild _ here⟩
  · refine Ensures.ite (fun h => absurd h Bool.false_ne_true) fun _ => ?_
    refine (balloc_ensures sound).bindAt fun b t alloc => ?_
    have hgrows := alloc.grows ip
    -- the table was read before the allocation, which did not change it
    have hhere : t.addrAt dev (.slot ip) q = a.toNat :=
      (hgrows.mapped _ q live hpresent).trans here
    have hblock : t.disk dev a.toNat = s.disk dev a.toNat :=
      alloc.data _ (here ▸ (sound.owned _ q live hpresent).2.2)
    have habsent : (t.disk dev (t.addrAt dev (.slot ip) q)).addr i = 0 := by
      rw [hhere, hblock]
      exact not_not.mp absent
    have hattach := alloc.fresh.attachEntry hgrows.sound ((hgrows.live_iff _).mpr live) table inside
      (hhere ▸ toNat_ne_zero nonzero) habsent ip
    rw [hhere, hblock] at hattach
    refine Ensures.step (bwrite_run ..) (Ensures.ret ?_)
    refine ⟨b, rfl, hgrows.trans hattach,
      fun h => alloc.fresh.ne_zero (by rw [h]; rfl), ?_⟩
    rw [hchild _ ((hattach.mapped _ q ((hgrows.live_iff _).mpr live)
      (hhere ▸ toNat_ne_zero nonzero)).trans hhere), disk_setSector_self,
      Block.addr_setAddr_self _ inside]

/-- `bmap` maps every block that a file can have, and changes nothing if it is mapped. -/
theorem bmap_ensures (sound : s.Sound dev) (live : s.Live dev (.slot ip)) (inside : bn < MAXFILE) :
    Ensures (fun t => t = s) (bmap ip bn true)
      (fun b t => Grows dev ip s t ∧ b ≠ 0 ∧ t.addrAt dev (.slot ip) (.ofBlock bn) = b.toNat ∧
        (s.addrAt dev (.slot ip) (.ofBlock bn) ≠ 0 → t = s)) outOfBlocks := by
  by_cases hmapped : s.addrAt dev (.slot ip) (.ofBlock bn) ≠ 0
  · obtain ⟨b, hrun, hb⟩ := bmap_run true live.2.2 inside hmapped
    rintro _ rfl
    rw [hrun]
    exact ⟨Grows.refl sound, fun h => hmapped (by rw [← hb, h]; rfl), hb.symm, fun _ => rfl⟩
  suffices hgrows : Ensures (fun t => t = s) (bmap ip bn true)
      (fun b t => Grows dev ip s t ∧ b ≠ 0 ∧ t.addrAt dev (.slot ip) (.ofBlock bn) = b.toNat)
      outOfBlocks from
    hgrows.mono (fun _ h => h)
      (fun b t h => ⟨h.1, h.2.1, h.2.2, fun h' => absurd h' hmapped⟩) fun _ h => h
  rw [bmap]
  split
  next hdirect =>
    refine (addrOrAlloc_ensures sound live _).bind fun r => Ensures.pure ?_
    rintro t ⟨b, rfl, hgrows, hne, haddr⟩
    have hpos : addrsPos ⟨bn, Nat.lt_succ_of_lt hdirect⟩ = .ofBlock bn := by
      rw [addrsPos, Pos.ofBlock, if_pos hdirect, if_pos hdirect]
    exact ⟨hgrows, hne, hpos ▸ haddr⟩
  next hindirect =>
    have hbn : bn - NDIRECT < NININDIRECT := by
      unfold MAXFILE at inside
      omega
    have hpos : 0 < NADDRBLOCK := by decide
    have hj : (bn - NDIRECT) / NADDRBLOCK < NADDRBLOCK := Nat.div_lt_of_lt_mul hbn
    have hk : (bn - NDIRECT) % NADDRBLOCK < NADDRBLOCK := Nat.mod_lt _ hpos
    have hdev : (s.inode ip).dev = dev := live.2.2
    rw [if_pos hbn]
    refine Ensures.step (load_run ..) ?_
    rw [hdev]
    -- the double-indirect block, a second-level block, the data block
    refine (addrOrAlloc_ensures sound live rootIndex).bindAt ?_
    rintro r t₁ ⟨root, rfl, hgrows₁, hne₁, haddr₁⟩
    refine (entryOrAlloc_ensures hgrows₁.sound ((hgrows₁.live_iff _).mpr live)
      (q := .root) trivial hj
      hne₁ haddr₁).bindAt ?_
    rintro r t₂ ⟨table, rfl, hgrows₂, hne₂, haddr₂⟩
    have hlive₂ := (hgrows₂.live_iff _).mpr ((hgrows₁.live_iff _).mpr live)
    refine (entryOrAlloc_ensures hgrows₂.sound hlive₂ (q := .second _) trivial hk
      hne₂ haddr₂).bind fun r => Ensures.pure ?_
    rintro t₃ ⟨b, rfl, hgrows₃, hne₃, haddr₃⟩
    refine ⟨(hgrows₁.trans hgrows₂).trans hgrows₃, hne₃, ?_⟩
    rw [Pos.ofBlock, if_neg hindirect]
    exact haddr₃

end Fs

end Xv6
