/-
# No block has two owners

The calls by which files come into being and grow: `icreate` and `writei`, with the calls by
which their callers find, lock and release inodes. Whatever their order, the file system
stays sound.
-/

import Xv6.Fs.Write
import Xv6.Math.Runs

namespace Xv6

open Math

namespace Fs

variable {s t : Fs} {dev : Nat} {ip : InodeId}

/-! ### Single calls -/

theorem iupdate_run (s : Fs) (ip : InodeId) :
    (iupdate ip).run s =
      .ok () (s.setDinode (s.inode ip).dev (s.inode ip).inum (s.inode ip).copy) := rfl

theorem cached_eq_some {inum : Nat} (found : s.cached dev inum = some ip) :
    0 < (s.inode ip).ref ∧ (s.inode ip).dev = dev ∧ (s.inode ip).inum = inum := by
  simpa using List.find?_some found

theorem empty_eq_some (found : s.empty = some ip) : (s.inode ip).ref = 0 := by
  simpa using List.find?_some found

theorem iget_sound (sound : s.Sound dev) {inum : Nat} (inside : inum < (s.sb dev).ninodes) :
    Ensures (fun t => t = s) (iget dev inum) (fun _ t => t.Sound dev) anyStop := by
  refine Ensures.step (a := s) rfl ?_
  cases hfound : s.cached dev inum with
  | some ip =>
    obtain ⟨href, -⟩ := cached_eq_some hfound
    refine Ensures.step (modifyInode_run ..) (Ensures.ret ?_)
    exact sound.setInode (fun _ => href) rfl rfl rfl rfl
  | none =>
    cases hempty : s.empty with
    | none => exact Ensures.throw trivial
    | some ip =>
      refine Ensures.step (modifyInode_run ..) (Ensures.ret ?_)
      refine sound.of_slots rfl (fun jp live => ?_) fun jp href hdev => ?_
      · by_cases hjp : jp = ip
        · -- the new slot is not valid yet
          subst hjp
          rw [Live, setInode_self] at live
          cases live.2.1
        · rw [Live, setInode_of_ne _ _ _ hjp] at live
          refine ⟨.slot jp, live, ?_, ?_⟩ <;> rw [setInode_of_ne _ _ _ hjp] <;> rfl
      · by_cases hjp : jp = ip
        · subst hjp
          rw [setInode_self]
          exact inside
        · rw [setInode_of_ne _ _ _ hjp] at href hdev ⊢
          exact sound.inums jp href hdev

theorem ilock_sound (sound : s.Sound dev) (ip : InodeId) :
    Ensures (fun t => t = s) (ilock ip) (fun _ t => t.Sound dev) anyStop := by
  refine Ensures.step (load_run ..) (Ensures.ite (fun _ => Ensures.throw trivial) fun href => ?_)
  refine Ensures.ite (fun _ => Ensures.throw trivial) fun _ => ?_
  refine Ensures.step (modifyInode_run ..) (Ensures.ite (fun _ => Ensures.ret ?_) fun _ => ?_)
  · exact sound.setInode id rfl rfl rfl rfl
  · refine Ensures.step (bread_run ..) (Ensures.step (modifyInode_run ..) ?_)
    refine Ensures.ite (fun _ => Ensures.throw trivial) fun htype => Ensures.ret ?_
    -- the slot gets the tree of the inode on disk
    refine sound.of_slots rfl (fun jp live => ?_) fun jp hpos hdev => ?_
    · by_cases hjp : jp = ip
      · subst hjp
        rw [Live, setInode_self, setInode_self] at live
        have hdev : (s.inode jp).dev = dev := live.2.2
        have hinum := sound.inums jp live.1 hdev
        refine ⟨.disk (s.inode jp).inum, ⟨hinum, ?_⟩, ?_, ?_⟩
        · rw [← hdev]
          exact htype
        · rw [setInode_self, setInode_self]
          rfl
        · rw [setInode_self, setInode_self, ← hdev]
          rfl
      · rw [Live, setInode_of_ne _ _ _ hjp, setInode_of_ne _ _ _ hjp] at live
        refine ⟨.slot jp, live, ?_, ?_⟩ <;>
          rw [setInode_of_ne _ _ _ hjp, setInode_of_ne _ _ _ hjp] <;> rfl
    · by_cases hjp : jp = ip
      · subst hjp
        rw [setInode_self, setInode_self] at hpos hdev ⊢
        exact sound.inums jp hpos hdev
      · rw [setInode_of_ne _ _ _ hjp, setInode_of_ne _ _ _ hjp] at hpos hdev ⊢
        exact sound.inums jp hpos hdev

theorem iunlock_sound (sound : s.Sound dev) (ip : InodeId) :
    Ensures (fun t => t = s) (iunlock ip) (fun _ t => t.Sound dev) anyStop := by
  refine Ensures.step (load_run ..) (Ensures.ite (fun _ => Ensures.throw trivial) fun _ => ?_)
  refine Ensures.modify ?_
  rintro _ rfl
  exact sound.setInode id rfl rfl rfl rfl

theorem icreateFrom_sound (sound : s.Sound dev) {type major minor nlink : Short} {n inum : Nat}
    (inside : inum + n ≤ (s.sb dev).ninodes) :
    Ensures (fun t => t = s) (icreateFrom dev type major minor nlink n inum)
      (fun _ t => t.Sound dev) anyStop := by
  induction n generalizing inum with
  | zero => exact Ensures.throw trivial
  | succ n ih =>
    rw [icreateFrom]
    refine Ensures.step (bread_run ..) (Ensures.ite (fun _ => ?_) fun _ => ih (by omega))
    have hinum : inum < (s.sb dev).ninodes := by omega
    have hnew := sound.setDinode hinum ⟨type, major, minor, nlink, 0, fun _ => 0⟩
      (Or.inl fun _ => rfl)
    refine Ensures.step (bwrite_run ..) (iget_sound hnew ?_)
    rw [sb_setDinode]
    exact hinum

theorem icreate_sound (sound : s.Sound dev) (type major minor nlink : Short) :
    Ensures (fun t => t = s) (icreate dev type major minor nlink) (fun _ t => t.Sound dev)
      anyStop := by
  refine Ensures.step (readsb_run ..) ?_
  by_cases h : 1 ≤ (s.sb dev).ninodes
  · exact icreateFrom_sound sound (by omega)
  · rw [show (s.sb dev).ninodes - 1 = 0 by omega]
    exact Ensures.throw trivial

theorem writei_sound (sound : s.Sound dev) (live : s.Live dev (.slot ip)) (src : Nat → UInt8)
    (off n : Nat) :
    Ensures (fun t => t = s) (writei ip src off n) (fun _ t => t.Sound dev) anyStop := by
  refine Ensures.step (load_run ..) (Ensures.ite (fun _ => ?_) fun _ => ?_)
  · refine Ensures.ite (fun _ => ?_) fun _ => Ensures.pure (by rintro _ rfl; exact sound)
    refine (iunlock_sound sound ip).bindAt fun _ t sound' => ?_
    exact (ilock_sound sound' ip).bind fun _ => Ensures.pure fun _ h => h
  · refine Ensures.ite (fun _ => Ensures.pure (by rintro _ rfl; exact sound)) fun _ => ?_
    refine (writeiLoop_ensures (fun _ _ => trivial) sound live (by omega)
      (Or.inr trivial)).bindAt ?_
    rintro off' t ⟨-, hwrote⟩
    refine Ensures.step (load_run ..) (Ensures.ite (fun _ => ?_) fun _ => Ensures.pure ?_)
    · have hlive := (hwrote.live_iff _).mpr live
      refine Ensures.step (modifyInode_run ..) ?_
      set u := t.setInode ip fun r =>
        { r with copy := { r.copy with size := UInt32.ofNat off' } } with hu
      have hslot : u.inode ip =
          { t.inode ip with copy := { (t.inode ip).copy with size := UInt32.ofNat off' } } :=
        setInode_self ..
      have hsound : u.Sound dev := hwrote.sound.setInode id rfl rfl rfl rfl
      have hlive' : u.Live dev (.slot ip) := by
        rw [Live, hslot]
        exact hlive
      have hdev : (u.inode ip).dev = dev := hlive'.2.2
      refine Ensures.step (iupdate_run u ip) (Ensures.ret ?_)
      rw [hdev]
      exact hsound.setDinode (hsound.inums ip hlive'.1 hdev) _ (Or.inr ⟨.slot ip, hlive', rfl, rfl⟩)
    · rintro _ rfl
      exact hwrote.sound

/-! ### Runs -/

end Fs

/-- Calls of the inode layer, with the numbers of the inodes or the slots they work on. -/
inductive FsCall where
  | icreate (type major minor nlink : Short)
  | writei (ip : InodeId) (src : Nat → UInt8) (off n : UInt32)
  | iget (inum : Nat)
  | idup (ip : InodeId)
  | ilock (ip : InodeId)
  | iunlock (ip : InodeId)
  | iput (ip : InodeId)

namespace FsCall

/-- The code of a call on device `dev`. -/
def code (dev : Nat) : FsCall → FsM Unit
  | icreate type major minor nlink => discard (Fs.icreate dev type major minor nlink)
  | writei ip src off n => discard (Fs.writei ip src off.toNat n.toNat)
  | iget inum => discard (Fs.iget dev inum)
  | idup ip => discard (Fs.idup ip)
  | ilock ip => Fs.ilock ip
  | iunlock ip => Fs.iunlock ip
  | iput ip => Fs.iput ip

/-- What the callers see to: a write goes to a locked inode of the device and does not start
behind its end, an inode number is one of the file system, a duplicated or dropped reference
is held, and no inode is freed. -/
def Allowed (dev : Nat) (s : Fs) : FsCall → Prop
  | icreate .. => True
  | writei ip _ off _ => 0 < (s.inode ip).ref ∧ (s.inode ip).busy = true ∧
      (s.inode ip).valid = true ∧ (s.inode ip).dev = dev ∧ off ≤ (s.inode ip).copy.size
  | iget inum => inum < (s.sb dev).ninodes
  | idup ip => 0 < (s.inode ip).ref
  | ilock _ => True
  | iunlock _ => True
  | iput ip => 0 < (s.inode ip).ref ∧ ¬ ((s.inode ip).ref = 1 ∧ (s.inode ip).valid = true ∧
      (s.inode ip).copy.nlink = 0)

instance (dev : Nat) (s : Fs) : (c : FsCall) → Decidable (c.Allowed dev s)
  | icreate .. => inferInstanceAs (Decidable True)
  | writei .. => inferInstanceAs (Decidable (_ ∧ _))
  | iget _ => inferInstanceAs (Decidable (_ < _))
  | idup _ => inferInstanceAs (Decidable (_ < _))
  | ilock _ => inferInstanceAs (Decidable True)
  | iunlock _ => inferInstanceAs (Decidable True)
  | iput _ => inferInstanceAs (Decidable (_ ∧ _))

/-- A call that returns. -/
def Step (dev : Nat) (c : FsCall) (s t : Fs) : Prop :=
  c.Allowed dev s ∧ (c.code dev).run s = .ok () t

/-- Execute a call. -/
def act (dev : Nat) (s : Fs) (c : FsCall) : Option Fs :=
  if c.Allowed dev s then
    match (c.code dev).run s with
    | .ok _ t => some t
    | .error _ _ => none
  else none

theorem step_of_act {dev : Nat} (c : FsCall) (s t : Fs) (done : c.act dev s = some t) :
    c.Step dev s t := by
  unfold act at done
  split at done
  next hallowed =>
    split at done
    next hrun =>
      obtain rfl := Option.some.inj done
      exact ⟨hallowed, hrun⟩
    next => cases done
  next => cases done

/-- Every call keeps the file system sound. -/
theorem Step.sound {dev : Nat} {c : FsCall} {s t : Fs} (step : c.Step dev s t)
    (sound : s.Sound dev) : t.Sound dev := by
  obtain ⟨hallowed, hrun⟩ := step
  have hcode : Ensures (fun u => u = s) (c.code dev) (fun _ u => u.Sound dev) anyStop := by
    cases c with
    | icreate type major minor nlink =>
      exact (Fs.icreate_sound sound type major minor nlink).bind fun _ => Ensures.pure fun _ h => h
    | writei ip src off n =>
      obtain ⟨href, -, hvalid, hdev, -⟩ := hallowed
      exact (Fs.writei_sound sound ⟨href, hvalid, hdev⟩ src _ _).bind
        fun _ => Ensures.pure fun _ h => h
    | iget inum =>
      exact (Fs.iget_sound sound hallowed).bind fun _ => Ensures.pure fun _ h => h
    | idup ip =>
      refine Ensures.step (Fs.modifyInode_run ..) (Ensures.ret ?_)
      exact sound.setInode (fun _ => hallowed) rfl rfl rfl rfl
    | ilock ip => exact Fs.ilock_sound sound ip
    | iunlock ip => exact Fs.iunlock_sound sound ip
    | iput ip =>
      refine Ensures.step (Fs.load_run ..) (Ensures.ite (fun h => absurd h hallowed.2) fun _ => ?_)
      refine Ensures.modify ?_
      rintro _ rfl
      exact sound.setInode (fun _ => hallowed.1) rfl rfl rfl rfl
  exact hcode.of_ok rfl hrun

end FsCall

/-- Starting from a sound file system, every sequence of calls leaves a sound one: every block
that an inode reaches is reached at one place of one inode, is marked used and is no metadata
block, and every free block is zero. -/
theorem no_block_has_two_owners {dev : Nat} {s₀ s : Fs} {cs : List FsCall}
    (start : s₀.Sound dev) (run : Run (FsCall.Step dev) s₀ cs s) : s.Sound dev :=
  run.invariant (motive := fun _ s => s.Sound dev) start fun _ _ _ _ sound step => step.sound sound

/-! ### A disk without files -/

/-- The blocks of a disk with 16 inodes and no files: the super block and a bitmap in which
the metadata blocks are marked. -/
def blankBlock (n : Nat) : Block :=
  if n = 1 then ((Block.zero.setWord 0 1000).setWord 1 793).setWord 2 16
  else if n = 206 then fun j => if j.val < 25 then 255 else if j.val = 25 then 127 else 0
  else Block.zero

/-- A file system on such a disk, with an empty inode cache. -/
def blankFs : Fs where
  sector a := blankBlock a.sector
  inode _ := Inode.unused
  pastIcache := 0
  buffered _ := false
  typed _ := none
  reads := 0

theorem blankFs_sb (dev : Nat) : blankFs.sb dev = ⟨1000, 793, 16⟩ := by
  change (blankBlock 1).superblock = _
  decide +kernel

theorem blankFs_disk {dev n : Nat} (h₁ : n ≠ 1) (h₂ : n ≠ 206) :
    blankFs.disk dev n = Block.zero := by
  change blankBlock n = Block.zero
  rw [blankBlock, if_neg h₁, if_neg h₂]

theorem blankFs_sound (dev : Nat) : blankFs.Sound dev := by
  have hmarked : ∀ b < 207, (blankBlock 206).bit b = true := by decide +kernel
  have hused (b : Nat) (hb : b < 207) : blankFs.used dev b = true := by
    have hblock : BBLOCK b 16 = 206 := by
      unfold BBLOCK BPB BSIZE IPB NJB
      omega
    rw [Fs.used, blankFs_sb, hblock, Nat.mod_eq_of_lt (by unfold BPB BSIZE; omega)]
    exact hmarked b hb
  have hdead (h : Holder) : ¬ blankFs.Live dev h := by
    cases h with
    | disk i =>
      rintro ⟨hi, htype⟩
      rw [blankFs_sb] at hi
      refine htype ?_
      have hzero : blankFs.disk dev (IBLOCK i) = Block.zero :=
        blankFs_disk (Fs.one_ne_iblock i).symm (by unfold IBLOCK IPB NJB; dsimp only at hi; omega)
      rw [Fs.dinode, hzero, Block.dinode_zero]
      rfl
    | slot ip => exact fun live => absurd live.1 (lt_irrefl 0)
  refine ⟨fun b hmeta _ => hused b ?_, fun b _ hfree => blankFs_disk ?_ ?_,
    fun h _ live => absurd live (hdead h), fun h _ _ _ live => absurd live (hdead h),
    fun ip href => absurd href (lt_irrefl 0)⟩
  · rw [blankFs_sb] at hmeta
    rcases hmeta with h | ⟨i, hi, rfl⟩ | ⟨c, hc, rfl⟩
    · unfold NJB at h
      omega
    · unfold IBLOCK IPB NJB
      dsimp only at hi
      omega
    · unfold BBLOCK BPB BSIZE IPB NJB
      dsimp only at hc ⊢
      omega
  · rintro rfl
    rw [hused 1 (by omega)] at hfree
    cases hfree
  · rintro rfl
    rw [hused 206 (by omega)] at hfree
    cases hfree

/-- Calls on the empty disk leave it sound. -/
theorem blankFs_run {cs : List FsCall} {s : Fs} (run : Run (FsCall.Step ROOTDEV) blankFs cs s) :
    s.Sound ROOTDEV :=
  run.invariant (motive := fun _ s => s.Sound ROOTDEV) (blankFs_sound ROOTDEV)
    fun _ _ _ _ sound step => step.sound sound

/-- A file is created and written; its first block is the first free one. -/
theorem no_block_has_two_owners_blank :
    ∃ s, Run (FsCall.Step ROOTDEV) blankFs
        [.icreate T_FILE 0 0 1, .ilock 0, .writei 0 (fun _ => 7) 0 1] s ∧
      s.addrAt ROOTDEV (.slot 0) (.direct 0) = 207 ∧ s.Sound ROOTDEV := by
  have hdone : ((execute (fun s c => FsCall.act ROOTDEV s c) blankFs
      [.icreate T_FILE 0 0 1, .ilock 0, .writei 0 (fun _ => 7) 0 1]).map fun s =>
        s.addrAt ROOTDEV (.slot 0) (.direct 0)) = some 207 := by
    decide +kernel
  obtain ⟨s, hexec, haddr⟩ := Option.map_eq_some_iff.mp hdone
  have hrun := Run.of_execute FsCall.step_of_act hexec
  exact ⟨s, hrun, haddr, no_block_has_two_owners (blankFs_sound ROOTDEV) hrun⟩

end Xv6
