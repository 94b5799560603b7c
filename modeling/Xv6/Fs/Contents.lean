/-
# Reading undoes writing

`readi` returns the bytes of a file, and after `writei` these are the bytes written in the
range of the write and the old ones everywhere else. No other file changes.
-/

import Xv6.Fs.Balloc
import Xv6.Fs.Owners

namespace Xv6

open Math

namespace Fs

variable {s t : Fs} {dev : Nat} {ip : InodeId}

/-- The bytes `[off, off + n)` of the file in a slot. -/
def fileBytes (s : Fs) (dev : Nat) (ip : InodeId) (off n : Nat) : List UInt8 :=
  (List.range n).map fun i => s.fileByte dev (.slot ip) (off + i)

/-- All blocks of the file that hold a byte of `[off, off + n)` are mapped. -/
def Mapped (s : Fs) (dev : Nat) (ip : InodeId) (off n : Nat) : Prop :=
  ∀ o, off ≤ o → o < off + n → s.addrAt dev (.slot ip) (.ofBlock (o / BSIZE)) ≠ 0

theorem fileBytes_add (s : Fs) (dev : Nat) (ip : InodeId) (off m n : Nat) :
    s.fileBytes dev ip off (m + n) =
      s.fileBytes dev ip off m ++ s.fileBytes dev ip (off + m) n := by
  rw [fileBytes, fileBytes, fileBytes, List.range_add, List.map_append, List.map_map]
  simp only [Function.comp_def, Nat.add_assoc]

/-- The part of a file that lies in one block is read off that block. -/
theorem fileBytes_of_block {off m b : Nat} (fits : off % BSIZE + m ≤ BSIZE)
    (here : s.addrAt dev (.slot ip) (.ofBlock (off / BSIZE)) = b) (present : b ≠ 0) :
    s.fileBytes dev ip off m = (s.disk dev b).read (off % BSIZE) m := by
  refine List.map_congr_left fun i hi => ?_
  have hi' := List.mem_range.mp hi
  have hdiv : (off + i) / BSIZE = off / BSIZE := by
    unfold BSIZE at *
    omega
  have hmod : (off + i) % BSIZE = off % BSIZE + i := by
    unfold BSIZE at *
    omega
  change (if s.addrAt dev (.slot ip) _ = 0 then 0 else (s.disk dev (s.addrAt dev _ _)).byte _) = _
  rw [hdiv, hmod, here, if_neg present]

theorem readiLoop_run (device : (s.inode ip).dev = dev) {fuel off n : Nat} (enough : n ≤ fuel)
    (inside : off + n ≤ MAXFILE * BSIZE) (mapped : s.Mapped dev ip off n) :
    (readiLoop ip fuel off n).run s = .ok (s.fileBytes dev ip off n) s := by
  induction fuel generalizing off n with
  | zero =>
    obtain rfl : n = 0 := by omega
    rfl
  | succ fuel ih =>
    rw [readiLoop, run_ite]
    by_cases hn : n = 0
    · subst hn
      rfl
    · have hpos : off % BSIZE < BSIZE := Nat.mod_lt _ (by decide)
      have hbn : off / BSIZE < MAXFILE := (Nat.div_lt_iff_lt_mul (by decide)).mpr (by omega)
      have hpresent := mapped off le_rfl (by omega)
      obtain ⟨b, hbmap, hb⟩ := bmap_run false device hbn hpresent
      rw [if_neg hn, run_bind_of_ok (load_run ..), run_bind_of_ok hbmap,
        run_bind_of_ok (bread_run ..)]
      set m := min n (BSIZE - off % BSIZE) with hm
      have hrest := @ih (off + m) (n - m) (by omega) (by omega)
        fun o h h' => mapped o (by omega) (by omega)
      rw [run_bind_of_ok hrest, device]
      have hsplit : n = m + (n - m) := by omega
      have hblock := fileBytes_of_block (s := s) (m := m) (by omega) hb.symm
        (fun h => hpresent (hb.symm.trans h))
      rw [EStateM.run_pure, ← hblock, ← fileBytes_add, ← hsplit]

/-- `readi` returns the bytes of a file. -/
theorem readi_run (device : (s.inode ip).dev = dev) (file : (s.inode ip).copy.type ≠ T_DEV)
    {off n : Nat} (below : off + n ≤ (s.inode ip).copy.size.toNat)
    (inside : off + n ≤ MAXFILE * BSIZE) (mapped : s.Mapped dev ip off n) :
    (readi ip off n).run s = .ok ((n : Int), s.fileBytes dev ip off n) s := by
  have hsize := (s.inode ip).copy.size.toNat_lt
  have hwrap : ¬ ((s.inode ip).copy.size.toNat < off ∨ (off + n) % 2 ^ 32 < off) := by omega
  have hint : int32 n = n := by
    unfold MAXFILE NDIRECT NININDIRECT NADDRBLOCK BSIZE at inside
    rw [int32, if_pos (by omega)]
  rw [readi, run_bind_of_ok (load_run ..)]
  dsimp only
  rw [run_ite, if_neg file, run_ite, if_neg hwrap, if_neg (by omega),
    run_bind_of_ok (readiLoop_run device le_rfl inside mapped), EStateM.run_pure, hint]

/-! ### The effect of a write -/

/-- The size of a file after a write. -/
def sizeAfter (size off n : Nat) : Nat := if 0 < n ∧ size < off + n then off + n else size

/-- `writei` has replaced the bytes `[off, off + n)` of the file in slot `ip` by those of
`src`. -/
structure Written (dev : Nat) (ip : InodeId) (src : Nat → UInt8) (off n : Nat) (s t : Fs) :
    Prop where
  sound : t.Sound dev
  sb : t.sb dev = s.sb dev
  dinodes : ∀ i < (s.sb dev).ninodes, i ≠ (s.inode ip).inum → t.dinode dev i = s.dinode dev i
  slots : ∀ jp, jp ≠ ip → t.inode jp = s.inode jp
  slot : ∃ addrs, t.inode ip = { s.inode ip with copy := { (s.inode ip).copy with
    addrs, size := UInt32.ofNat (sizeAfter (s.inode ip).copy.size.toNat off n) } }
  others : ∀ h o, s.Live dev h → s.inumOf h ≠ (s.inode ip).inum →
    t.fileByte dev h o = s.fileByte dev h o
  own : ∀ o, t.fileByte dev (.slot ip) o =
    if off ≤ o ∧ o < off + n then src (o - off) else s.fileByte dev (.slot ip) o
  mapped : ∀ p, s.addrAt dev (.slot ip) p ≠ 0 →
    t.addrAt dev (.slot ip) p = s.addrAt dev (.slot ip) p
  filled : t.Mapped dev ip off n
  updated : 0 < n ∧ (s.inode ip).copy.size.toNat < off + n →
    t.dinode dev (s.inode ip).inum = (t.inode ip).copy
  kept : ¬ (0 < n ∧ (s.inode ip).copy.size.toNat < off + n) → s.Mapped dev ip off n →
    t.dinode dev (s.inode ip).inum = s.dinode dev (s.inode ip).inum ∧ t.inode ip = s.inode ip

section Resize

/-- `ip->size = size; iupdate(ip)`. -/
def resize (s : Fs) (dev : Nat) (ip : InodeId) (size : UInt32) : Fs :=
  let t := s.setInode ip fun r => { r with copy := { r.copy with size } }
  t.setDinode dev (t.inode ip).inum (t.inode ip).copy

variable {size : UInt32}

theorem resize_slot (s : Fs) (dev : Nat) (ip : InodeId) (size : UInt32) :
    (s.resize dev ip size).inode ip =
    { s.inode ip with copy := { (s.inode ip).copy with size } } :=
  setInode_self s ip fun r => { r with copy := { r.copy with size } }

theorem resize_slots {jp : InodeId} (h : jp ≠ ip) :
    (s.resize dev ip size).inode jp = s.inode jp :=
  setInode_of_ne s ip (fun r => { r with copy := { r.copy with size } }) h

theorem resize_dinode (i : Nat) : (s.resize dev ip size).dinode dev i =
    if i = (s.inode ip).inum then { (s.inode ip).copy with size } else s.dinode dev i := by
  have hslot : (s.setInode ip fun r => { r with copy := { r.copy with size } }).inode ip =
    { s.inode ip with copy := { (s.inode ip).copy with size } } := setInode_self ..
  unfold resize
  dsimp only
  rw [dinode_setDinode, hslot]
  rfl

/-- Apart from the inode on disk, a change of size changes no tree and no byte. -/
theorem Sound.resize_frame (size : UInt32) (sound : s.Sound dev) (live : s.Live dev (.slot ip))
    {h : Holder}
    (hlive : s.Live dev h) (other : h ≠ .disk (s.inode ip).inum) :
    (∀ p, (s.resize dev ip size).addrAt dev h p = s.addrAt dev h p) ∧
      ∀ o, (s.resize dev ip size).fileByte dev h o = s.fileByte dev h o := by
  set u := s.setInode ip fun r => { r with copy := { r.copy with size } } with hu
  have hslot : u.inode ip = { s.inode ip with copy := { (s.inode ip).copy with size } } :=
    setInode_self ..
  have hsound : u.Sound dev := sound.setInode id rfl rfl rfl rfl
  have hinum : (u.inode ip).inum = (s.inode ip).inum := by rw [hslot]
  have hinside : (u.inode ip).inum < (u.sb dev).ninodes := by
    rw [hinum]
    exact sound.inums ip live.1 live.2.2
  -- first the slot, then the inode on disk
  have haddrs : (u.copyOf dev h).addrs = (s.copyOf dev h).addrs := by
    cases h with
    | disk i => rfl
    | slot jp =>
      rw [copyOf, copyOf]
      exact setInode_field s ip _ (fun r => r.copy.addrs) rfl jp
  have hulive : u.Live dev h := by
    cases h with
    | disk i => exact hlive
    | slot jp =>
      have hfield := setInode_field s ip (fun r => { r with copy := { r.copy with size } })
        (fun r => (r.ref, r.valid, r.dev)) rfl jp
      simp only [Prod.mk.injEq] at hfield
      rw [Live, hu, hfield.1, hfield.2.1, hfield.2.2]
      exact hlive
  have hother : h ≠ .disk (u.inode ip).inum := by
    rw [hinum]
    exact other
  constructor
  · intro p
    change (u.setDinode dev (u.inode ip).inum (u.inode ip).copy).addrAt dev h p = _
    rw [hsound.addrAt_setDinode hinside _ hulive hother]
    exact Dinode.addrAt_of_addrs haddrs p
  · intro o
    change (u.setDinode dev (u.inode ip).inum (u.inode ip).copy).fileByte dev h o = _
    rw [hsound.fileByte_setDinode hinside _ hulive hother]
    exact Dinode.fileByte_of_addrs haddrs o

theorem Sound.resize (sound : s.Sound dev) (live : s.Live dev (.slot ip)) :
    (s.resize dev ip size).Sound dev := by
  set u := s.setInode ip fun r => { r with copy := { r.copy with size } } with hu
  have hslot : u.inode ip = { s.inode ip with copy := { (s.inode ip).copy with size } } :=
    setInode_self ..
  have hsound : u.Sound dev := sound.setInode id rfl rfl rfl rfl
  have hlive : u.Live dev (.slot ip) := by
    rw [Live, hslot]
    exact live
  exact hsound.setDinode (hsound.inums ip hlive.1 hlive.2.2) _ (Or.inr ⟨.slot ip, hlive, rfl, rfl⟩)

end Resize

/-- `writei` writes its bytes, unless the disk is full. -/
theorem writei_ensures (sound : s.Sound dev) (live : s.Live dev (.slot ip))
    (file : (s.inode ip).copy.type ≠ T_DEV) (src : Nat → UInt8) {off n : Nat}
    (inside : off + n ≤ MAXFILE * BSIZE) :
    Ensures (fun t => t = s) (writei ip src off n)
      (fun r t => r = n ∧ Written dev ip src off n s t) outOfBlocks := by
  have hmax : MAXFILE * BSIZE < 2 ^ 31 := by decide
  have hwrap : ¬ (off + n) % 2 ^ 32 < off := by omega
  have hint : int32 n = n := by rw [int32, if_pos (by omega)]
  refine Ensures.step (load_run ..) (Ensures.ite (fun h => absurd h file) fun _ => ?_)
  refine Ensures.ite (fun h => absurd h hwrap) fun _ => ?_
  dsimp only
  rw [if_neg (by omega)]
  refine (writeiLoop_ensures (fun _ h => h) sound live (by omega) (Or.inl (by omega))).bindAt ?_
  rintro off' t ⟨rfl, hwrote⟩
  simp only [Nat.sub_zero, Nat.zero_add] at hwrote ⊢
  obtain ⟨addrs, hslot⟩ := hwrote.slot
  have hlive := (hwrote.live_iff _).mpr live
  have hsize : (t.inode ip).copy.size = (s.inode ip).copy.size := by rw [hslot]
  have hinum : (t.inode ip).inum = (s.inode ip).inum := by rw [hslot]
  refine Ensures.step (load_run ..) (Ensures.ite (fun hgrew => ?_) fun hkept => ?_)
  · -- the file has grown, and the inode is written to disk
    refine Ensures.step (modifyInode_run ..) (Ensures.step (iupdate_run ..) (Ensures.ret ?_))
    rw [hsize] at hgrew
    have hframe {h : Holder} (hl : t.Live dev h) (hne : h ≠ .disk (t.inode ip).inum) :=
      hwrote.sound.resize_frame (UInt32.ofNat (off + n)) hlive hl hne
    have hslot' := resize_slot t dev ip (UInt32.ofNat (off + n))
    have hdev : ((t.setInode ip fun r =>
        { r with copy := { r.copy with size := UInt32.ofNat (off + n) } }).inode ip).dev = dev := by
      rw [setInode_self]
      exact hlive.2.2
    rw [hdev]
    change _ ∧ Written dev ip src off n s (t.resize dev ip (UInt32.ofNat (off + n)))
    refine ⟨hint, ⟨hwrote.sound.resize hlive, ?_, fun i hi hne => ?_, fun jp hjp => ?_,
      ⟨addrs, ?_⟩, fun h o hl hne => ?_, fun o => ?_, fun p hp => ?_, fun o h h' => ?_, fun _ => ?_,
      fun h => absurd hgrew h⟩⟩
    · exact (sb_setDinode _).trans hwrote.sb
    · rw [resize_dinode, hinum, if_neg hne, hwrote.dinode i hi]
    · rw [resize_slots hjp, hwrote.slots jp hjp]
    · rw [hslot', hslot, sizeAfter, if_pos hgrew]
    · have hne' : h ≠ .disk (t.inode ip).inum := by
        rintro rfl
        exact hne (by rw [hinum]; rfl)
      rw [(hframe ((hwrote.live_iff h).mpr hl) hne').2, hwrote.others h o hl hne]
    · rw [(hframe hlive nofun).2, hwrote.own]
    · rw [(hframe hlive nofun).1, hwrote.mapped _ p live hp]
    · rw [(hframe hlive nofun).1]
      exact hwrote.filled o h h'
    · rw [resize_dinode, hinum, if_pos rfl, hslot']
  · refine Ensures.ret ?_
    rw [hsize] at hkept
    have hafter : sizeAfter (s.inode ip).copy.size.toNat off n = (s.inode ip).copy.size.toNat :=
      if_neg hkept
    refine ⟨hint, ⟨hwrote.sound, hwrote.sb, fun i hi _ => hwrote.dinode i hi, hwrote.slots,
      ⟨addrs, ?_⟩, hwrote.others, hwrote.own, fun p hp => hwrote.mapped _ p live hp,
      hwrote.filled, fun h => absurd h hkept, fun _ hmapped => ⟨?_, ?_⟩⟩⟩
    · rw [hafter, UInt32.ofNat_toNat, hslot]
    · exact hwrote.dinode _ (sound.inums ip live.1 live.2.2)
    · rw [hwrote.kept hmapped]

/-! ### A write that stops -/

/-- All bits that the bitmap of a device has are set. -/
def DiskFull (s : Fs) (dev : Nat) : Prop := ∀ b, (s.sb dev).Covers b → s.used dev b = true

/-- Code that allocates on `dev` for the inode in slot `ip` runs out of blocks only when the disk is
full. -/
def AllocatesFor (dev : Nat) (ip : InodeId) {α : Type} (x : FsM α) : Prop :=
  StopsIn (fun s => (s.inode ip).dev = dev) x fun e t => outOfBlocks e → t.DiskFull dev

theorem allocates_balloc (dev : Nat) (ip : InodeId) : AllocatesFor dev ip (balloc dev) := by
  intro s hdev
  rcases full_or_least s dev with hfull | ⟨x, hcovers, hclear, hleast⟩
  · rw [balloc_of_full hfull]
    exact fun _ => hfull
  · rw [balloc_of_least hcovers hclear hleast]
    by_cases hx : x = 1
    · rw [if_pos hx]
      exact fun h => by simp [outOfBlocks] at h
    · rw [if_neg hx]
      exact hdev

theorem allocates_addrOrAlloc (dev : Nat) (ip : InodeId) (k : Fin NADDRS) (alloc : Bool) :
    AllocatesFor dev ip (addrOrAlloc ip k alloc) := by
  refine StopsIn.look (load_run · ip) fun s hdev => ?_
  refine StopsIn.ite (StopsIn.pure _) (StopsIn.ite (StopsIn.pure _) ?_)
  rw [hdev]
  refine (allocates_balloc dev ip).bind fun addr => StopsIn.bind ?_ fun _ => StopsIn.pure _
  refine StopsIn.modify fun t ht => ?_
  rw [setInode_self]
  exact ht

theorem allocates_entryOrAlloc (dev : Nat) (ip : InodeId) (table : UInt32) (i : Nat)
    (alloc : Bool) : AllocatesFor dev ip (entryOrAlloc dev table i alloc) := by
  refine StopsIn.look (bread_run · dev table.toNat) fun s hdev => ?_
  refine StopsIn.ite (StopsIn.pure _) (StopsIn.ite (StopsIn.pure _) ?_)
  refine (allocates_balloc dev ip).bind fun addr => StopsIn.bind ?_ fun _ => StopsIn.pure _
  exact StopsIn.modify fun t ht => ht

theorem allocates_bmap (dev : Nat) (ip : InodeId) (bn : Nat) (alloc : Bool) :
    AllocatesFor dev ip (bmap ip bn alloc) := by
  unfold bmap
  split
  next h => exact (allocates_addrOrAlloc dev ip _ alloc).bind fun _ => StopsIn.pure _
  next =>
    refine StopsIn.ite ?_ (StopsIn.throw fun _ _ h => by simp [outOfBlocks] at h)
    refine StopsIn.look (load_run · ip) fun s hdev => ?_
    rw [hdev]
    refine (allocates_addrOrAlloc dev ip _ alloc).bind fun root => ?_
    cases root with
    | none => exact StopsIn.pure _
    | some root =>
      refine (allocates_entryOrAlloc dev ip root _ alloc).bind fun table => ?_
      cases table with
      | none => exact StopsIn.pure _
      | some table =>
        exact (allocates_entryOrAlloc dev ip table _ alloc).bind fun _ => StopsIn.pure _

theorem allocates_writeiLoop (dev : Nat) (ip : InodeId) (src : Nat → UInt8) (n fuel tot off : Nat) :
    AllocatesFor dev ip (writeiLoop ip src n fuel tot off) := by
  induction fuel generalizing tot off with
  | zero => exact StopsIn.pure _
  | succ fuel ih =>
    refine StopsIn.ite ?_ (StopsIn.pure _)
    refine StopsIn.look (load_run · ip) fun s hdev => ?_
    refine (allocates_bmap dev ip _ true).bind fun bno => ?_
    refine StopsIn.look (bread_run · _ _) fun s hdev => ?_
    exact StopsIn.bind (StopsIn.modify fun t ht => ht) fun _ => ih _ _

/-- A write to a file runs out of blocks only when the disk is full. -/
theorem full_of_writei (file : (s.inode ip).copy.type ≠ T_DEV) {src : Nat → UInt8} {off n : Nat}
    (run : (writei ip src off n).run s = .error (.panic "balloc: out of blocks") t) :
    t.DiskFull (s.inode ip).dev := by
  rw [writei, run_bind_of_ok (load_run ..), if_neg file] at run
  refine StopsIn.of_error (show AllocatesFor (s.inode ip).dev ip _ from ?_) rfl run rfl
  refine StopsIn.ite (StopsIn.pure _) ?_
  refine (allocates_writeiLoop _ ip src _ _ 0 off).bind fun off' => ?_
  refine StopsIn.look (load_run · ip) fun u hdev => StopsIn.ite ?_ (StopsIn.pure _)
  refine StopsIn.bind (StopsIn.modify fun v hv => ?_) fun _ => ?_
  · rw [setInode_self]
    exact hv
  · refine StopsIn.bind ?_ fun _ => StopsIn.pure _
    refine StopsIn.look (load_run · ip) fun v hv => StopsIn.look (bread_run · _ _) fun w hw => ?_
    exact StopsIn.modify fun _ h => h

section Written

variable {src : Nat → UInt8} {off n : Nat} (written : Written dev ip src off n s t)

include written

/-- The size of a file after a write that starts inside. -/
theorem Written.size_eq (start : off ≤ (s.inode ip).copy.size.toNat)
    (size : (s.inode ip).copy.size.toNat ≤ MAXFILE * BSIZE) (inside : off + n ≤ MAXFILE * BSIZE) :
    (t.inode ip).copy.size.toNat = max (s.inode ip).copy.size.toNat (off + n) := by
  obtain ⟨addrs, hslot⟩ := written.slot
  have hmax : MAXFILE * BSIZE < 2 ^ 31 := by decide
  have hafter : sizeAfter (s.inode ip).copy.size.toNat off n =
      max (s.inode ip).copy.size.toNat (off + n) := by
    unfold sizeAfter
    split <;> omega
  rw [hslot, ← hafter]
  dsimp only
  rw [UInt32.toNat_ofNat', Nat.mod_eq_of_lt (by omega)]

/-- A write that starts inside leaves the blocks of the file mapped. -/
theorem Written.mapped_max {m : Nat} (start : off ≤ m) (mapped : s.Mapped dev ip 0 m) :
    t.Mapped dev ip 0 (max m (off + n)) := by
  intro o _ ho
  by_cases hin : off ≤ o ∧ o < off + n
  · exact written.filled o hin.1 hin.2
  · have hold := mapped o (Nat.zero_le _) (by omega)
    rw [written.mapped _ hold]
    exact hold

end Written

end Fs

open Fs in
/-- A write to a file whose blocks are mapped stops only because all blocks are in use. Otherwise it
returns the number of bytes, extends the file as far as necessary and leaves all its blocks
mapped; `readi` then returns the bytes written, and returns what it did before for every range
that the write did not touch; the inode on disk is the one in the cache if it was so before or the
file has grown, and only then; and no other inode and no byte of another file has changed. -/
theorem readi_undoes_writei {s : Fs} {dev : Nat} {ip : InodeId} (src : Nat → UInt8) {off n : Nat}
    (sound : s.Sound dev) (live : s.Live dev (.slot ip))
    (file : (s.inode ip).copy.type ≠ T_DEV)
    (mapped : s.Mapped dev ip 0 (s.inode ip).copy.size.toNat)
    (start : off ≤ (s.inode ip).copy.size.toNat)
    (size : (s.inode ip).copy.size.toNat ≤ MAXFILE * BSIZE) (inside : off + n ≤ MAXFILE * BSIZE) :
    (∃ t, (writei ip src off n).run s = .error (.panic "balloc: out of blocks") t ∧
      t.DiskFull dev) ∨
    ∃ t, (writei ip src off n).run s = .ok (n : Int) t ∧
      (t.inode ip).copy.size.toNat = max (s.inode ip).copy.size.toNat (off + n) ∧
      t.Mapped dev ip 0 (t.inode ip).copy.size.toNat ∧
      (readi ip off n).run t = .ok ((n : Int), (List.range n).map src) t ∧
      (∀ off' n', off' + n' ≤ (s.inode ip).copy.size.toNat →
        off' + n' ≤ off ∨ off + n ≤ off' →
        ∃ bytes, (readi ip off' n').run s = .ok ((n' : Int), bytes) s ∧
          (readi ip off' n').run t = .ok ((n' : Int), bytes) t) ∧
      (t.dinode dev (s.inode ip).inum = (t.inode ip).copy ↔
        s.dinode dev (s.inode ip).inum = (s.inode ip).copy ∨
          (s.inode ip).copy.size.toNat < off + n) ∧
      (∀ i < (s.sb dev).ninodes, i ≠ (s.inode ip).inum → t.dinode dev i = s.dinode dev i) ∧
      ∀ h, s.Live dev h → s.inumOf h ≠ (s.inode ip).inum →
        t.copyOf dev h = s.copyOf dev h ∧ ∀ o, t.fileByte dev h o = s.fileByte dev h o := by
  have hspec := writei_ensures sound live file src inside s rfl
  cases hrun : (writei ip src off n).run s with
  | error e t =>
    rw [hrun] at hspec
    obtain rfl : e = _ := hspec
    exact Or.inl ⟨t, rfl, live.2.2 ▸ full_of_writei file hrun⟩
  | ok r t =>
    rw [hrun] at hspec
    obtain ⟨rfl, w⟩ := hspec
    obtain ⟨addrs, hslot⟩ := w.slot
    have hsize := w.size_eq start size inside
    have hdev : (t.inode ip).dev = dev := by
      rw [hslot]
      exact live.2.2
    have hfile : (t.inode ip).copy.type ≠ T_DEV := by
      rw [hslot]
      exact file
    have hmapped : t.Mapped dev ip 0 (t.inode ip).copy.size.toNat := by
      rw [hsize]
      exact w.mapped_max start mapped
    refine Or.inr ⟨t, rfl, hsize, hmapped, ?_, fun off' n' hbelow hapart => ?_, ?_,
      w.dinodes, fun h hlive hne => ⟨?_, fun o => w.others h o hlive hne⟩⟩
    · rw [readi_run hdev hfile (by omega) inside w.filled]
      refine congrArg (fun bytes => EStateM.Result.ok ((n : Int), bytes) t) ?_
      refine List.map_congr_left fun i hi => ?_
      have hi' := List.mem_range.mp hi
      rw [w.own, if_pos (by omega), Nat.add_sub_cancel_left]
    · refine ⟨_, readi_run live.2.2 file hbelow (by omega)
        fun o h h' => mapped o (Nat.zero_le _) (by omega), ?_⟩
      rw [readi_run hdev hfile (by omega) (by omega)
        fun o h h' => hmapped o (Nat.zero_le _) (by omega)]
      refine congrArg (fun bytes => EStateM.Result.ok ((n' : Int), bytes) t) ?_
      refine List.map_congr_left fun i hi => ?_
      have hi' := List.mem_range.mp hi
      rw [w.own, if_neg (by omega)]
    · by_cases hgrew : (s.inode ip).copy.size.toNat < off + n
      · exact iff_of_true (w.updated ⟨by omega, hgrew⟩) (Or.inr hgrew)
      · obtain ⟨hdisk, hcache⟩ := w.kept (fun h => hgrew h.2)
          fun o _ h' => mapped o (Nat.zero_le _) (by omega)
        rw [hdisk, hcache, or_iff_left hgrew]
    · cases h with
      | disk i => exact w.dinodes i hlive.1 hne
      | slot jp =>
        have hjp : jp ≠ ip := fun h => hne (by rw [h]; rfl)
        rw [copyOf, copyOf, w.slots jp hjp]

open Fs in
/-- One byte written to a new file is read back. -/
theorem readi_undoes_writei_blank :
    ∃ s t, Run (FsCall.Step ROOTDEV) blankFs [.icreate T_FILE 0 0 1, .ilock 0] s ∧
      (writei 0 (fun _ => 7) 0 1).run s = .ok 1 t ∧ (readi 0 0 1).run t = .ok (1, [7]) t := by
  have hdone : ((execute (fun s c => FsCall.act ROOTDEV s c) blankFs
      [.icreate T_FILE 0 0 1, .ilock 0]).map fun s =>
        ((s.inode 0).ref, (s.inode 0).valid, (s.inode 0).dev, (s.inode 0).copy.type,
          (s.inode 0).copy.size, returned ((writei 0 (fun _ => 7) 0 1).run s))) =
      some (1, true, ROOTDEV, T_FILE, 0, true) := by
    decide +kernel
  obtain ⟨s, hexec, hcopy⟩ := Option.map_eq_some_iff.mp hdone
  simp only [Prod.mk.injEq] at hcopy
  obtain ⟨href, hvalid, hdev, htype, hsize, hreturns⟩ := hcopy
  have hrun := Run.of_execute FsCall.step_of_act hexec
  have hsound := blankFs_run hrun
  have hlive : s.Live ROOTDEV (.slot 0) := ⟨by rw [href]; decide, hvalid, hdev⟩
  rcases readi_undoes_writei (fun _ => 7) (n := 1) hsound hlive (by rw [htype]; decide)
      (by rw [hsize]; exact fun o _ h => absurd h (Nat.not_lt_zero o)) (Nat.zero_le _)
      (by rw [hsize]; decide) (by decide) with ⟨t, hfull, -⟩ | ⟨t, hwrite, _, _, hread, _⟩
  · rw [hfull] at hreturns
    cases hreturns
  · exact ⟨s, t, hrun, hwrite, hread⟩

open Fs in
/-- A file of one byte, with a link that is counted in the cache and not yet on disk: a write that
does not make the file longer leaves the inode on disk as it is. -/
theorem writei_leaves_old_inode_on_disk :
    ∃ s t, s.Sound ROOTDEV ∧ s.Live ROOTDEV (.slot 0) ∧ (s.inode 0).copy.type ≠ T_DEV ∧
      (s.inode 0).copy.size.toNat = 1 ∧ s.Mapped ROOTDEV 0 0 1 ∧
      (writei 0 (fun _ => 8) 0 1).run s = .ok 1 t ∧
      t.dinode ROOTDEV (s.inode 0).inum ≠ (t.inode 0).copy := by
  have hdone : ((execute (fun s c => FsCall.act ROOTDEV s c) blankFs
      [.icreate T_FILE 0 0 1, .ilock 0, .writei 0 (fun _ => 7) 0 1]).map fun u =>
        let s := u.setInode 0 fun r => { r with copy := { r.copy with nlink := 2 } }
        decide (((0 < (s.inode 0).ref ∧ (s.inode 0).valid = true ∧ (s.inode 0).dev = ROOTDEV) ∧
          (s.inode 0).copy.type ≠ T_DEV ∧ (s.inode 0).copy.size.toNat = 1 ∧
          s.addrAt ROOTDEV (.slot 0) (.ofBlock 0) ≠ 0) ∧
        returnedWith (fun r t => decide (r = 1 ∧
          (t.dinode ROOTDEV (s.inode 0).inum).nlink ≠ (t.inode 0).copy.nlink))
          ((writei 0 (fun _ => 8) 0 1).run s) = true)) = some true := by
    decide +kernel
  obtain ⟨u, hexec, hfacts⟩ := Option.map_eq_some_iff.mp hdone
  obtain ⟨⟨hlive, htype, hsize, hmapped⟩, hwrite⟩ := of_decide_eq_true hfacts
  obtain ⟨r, t, hwrite, htest⟩ := exists_of_returnedWith hwrite
  obtain ⟨rfl, hnlink⟩ := of_decide_eq_true htest
  have hsound := blankFs_run (Run.of_execute FsCall.step_of_act hexec)
  refine ⟨_, t, hsound.setInode id rfl rfl rfl rfl, hlive, htype, hsize, fun o _ ho => ?_, hwrite,
    fun hsame => hnlink (congrArg Dinode.nlink hsame)⟩
  obtain rfl : o = 0 := by omega
  exact hmapped

end Xv6
