/-
# Reading returns

Whatever its offset and its number of bytes, `readi` of a locked inode returns and leaves the inode
locked. A console is unlocked while its reader waits, and then locked again.
-/

import Xv6.Fs.Sound

namespace Xv6

open Math

namespace Fs

variable {s t : Fs} {ip : InodeId}

/-- The inode in a slot is locked and in memory, it has a link, and its size is one that a file can
have. -/
structure Opened (s : Fs) (ip : InodeId) : Prop where
  busy : (s.inode ip).busy = true
  held : 0 < (s.inode ip).ref
  valid : (s.inode ip).valid = true
  linked : (s.inode ip).copy.nlink ≠ 0
  size : (s.inode ip).copy.type ≠ T_DEV → (s.inode ip).copy.size.toNat ≤ MAXFILE * BSIZE

/-! ### Files -/

theorem addrOrAlloc_false_run (s : Fs) (ip : InodeId) (k : Fin NADDRS) :
    ∃ b, (addrOrAlloc ip k false).run s = .ok b s := by
  rw [addrOrAlloc, run_bind_of_ok (load_run ..)]
  by_cases haddr : (s.inode ip).copy.addrs k ≠ 0
  · exact ⟨_, by rw [if_pos haddr]; rfl⟩
  · exact ⟨_, by rw [if_neg haddr]; rfl⟩

theorem entryOrAlloc_false_run (s : Fs) (dev : Nat) (table : UInt32) (i : Nat) :
    ∃ b, (entryOrAlloc dev table i false).run s = .ok b s := by
  rw [entryOrAlloc, run_bind_of_ok (bread_run ..)]
  by_cases haddr : (s.disk dev table.toNat).addr i ≠ 0
  · exact ⟨_, by rw [if_pos haddr]; rfl⟩
  · exact ⟨_, by rw [if_neg haddr]; rfl⟩

/-- Looking up a block number that a file can have. -/
theorem bmap_false_run (s : Fs) (ip : InodeId) {bn : Nat} (inside : bn < MAXFILE) :
    ∃ b, (bmap ip bn false).run s = .ok b s := by
  rw [bmap]
  by_cases hdirect : bn < NDIRECT
  · obtain ⟨addr, haddr⟩ := addrOrAlloc_false_run s ip ⟨bn, Nat.lt_succ_of_lt hdirect⟩
    rw [dif_pos hdirect, run_bind_of_ok haddr]
    exact ⟨_, rfl⟩
  · have hbn : bn - NDIRECT < NININDIRECT := by
      unfold MAXFILE at inside
      omega
    obtain ⟨root, hroot⟩ := addrOrAlloc_false_run s ip rootIndex
    rw [dif_neg hdirect, if_pos hbn, run_bind_of_ok (load_run ..), run_bind_of_ok hroot]
    cases root with
    | none => exact ⟨_, rfl⟩
    | some root =>
      obtain ⟨table, htable⟩ := entryOrAlloc_false_run s (s.inode ip).dev root
        ((bn - NDIRECT) / NADDRBLOCK)
      dsimp only
      rw [run_bind_of_ok htable]
      cases table with
      | none => exact ⟨_, rfl⟩
      | some table =>
        obtain ⟨addr, haddr⟩ := entryOrAlloc_false_run s (s.inode ip).dev table
          ((bn - NDIRECT) % NADDRBLOCK)
        dsimp only
        rw [run_bind_of_ok haddr]
        exact ⟨_, rfl⟩

theorem readiLoop_returns (s : Fs) (ip : InodeId) (fuel : Nat) {off n : Nat}
    (inside : off + n ≤ MAXFILE * BSIZE) :
    ∃ bytes, (readiLoop ip fuel off n).run s = .ok bytes s := by
  induction fuel generalizing off n with
  | zero => exact ⟨_, rfl⟩
  | succ fuel ih =>
    rw [readiLoop, run_ite]
    by_cases hn : n = 0
    · exact ⟨_, by rw [if_pos hn]; rfl⟩
    · have hbn : off / BSIZE < MAXFILE := (Nat.div_lt_iff_lt_mul (by decide)).mpr (by omega)
      obtain ⟨b, hbmap⟩ := bmap_false_run s ip hbn
      obtain ⟨rest, hrest⟩ := @ih (off + min n (BSIZE - off % BSIZE))
        (n - min n (BSIZE - off % BSIZE)) (by omega)
      rw [if_neg hn, run_bind_of_ok (load_run ..), run_bind_of_ok hbmap,
        run_bind_of_ok (bread_run ..), run_bind_of_ok hrest]
      exact ⟨_, rfl⟩

/-- A file is read without any change. -/
theorem readi_file_run (file : (s.inode ip).copy.type ≠ T_DEV)
    (small : (s.inode ip).copy.size.toNat ≤ MAXFILE * BSIZE) (off n : Nat) :
    ∃ r, (readi ip off n).run s = .ok r s := by
  rw [readi, run_bind_of_ok (load_run ..)]
  dsimp only
  rw [run_ite, if_neg file, run_ite]
  by_cases hoff : (s.inode ip).copy.size.toNat < off ∨ (off + n) % 2 ^ 32 < off
  · rw [if_pos hoff]
    exact ⟨_, rfl⟩
  · rw [if_neg hoff]
    set m := if (s.inode ip).copy.size.toNat < off + n then (s.inode ip).copy.size.toNat - off
      else n with hm
    have hinside : off + m ≤ MAXFILE * BSIZE := by
      rw [hm]
      split <;> omega
    obtain ⟨bytes, hloop⟩ := readiLoop_returns s ip m hinside
    rw [run_bind_of_ok hloop]
    exact ⟨_, rfl⟩

/-! ### Devices -/

/-- Unlocking an inode that is locked. -/
theorem iunlock_run (busy : (s.inode ip).busy = true) (held : 0 < (s.inode ip).ref) :
    (iunlock ip).run s = .ok () (s.setInode ip fun r => { r with busy := false }) := by
  rw [iunlock, run_bind_of_ok (load_run ..), if_neg]
  · rfl
  · rw [busy]
    rintro (h | h)
    · exact absurd h (by decide)
    · omega

/-- Locking an inode in memory that is not locked. -/
theorem ilock_run (free : (s.inode ip).busy = false) (held : 0 < (s.inode ip).ref)
    (valid : (s.inode ip).valid = true) :
    (ilock ip).run s = .ok () (s.setInode ip fun r => { r with busy := true }) := by
  rw [ilock, run_bind_of_ok (load_run ..), if_neg (by omega), free, if_neg (by decide),
    run_bind_of_ok (modifyInode_run ..), if_pos valid]
  rfl

/-- `Opened` depends on the slot only. -/
theorem Opened.of_inode (opened : s.Opened ip) (same : t.inode ip = s.inode ip) : t.Opened ip := by
  obtain ⟨hbusy, hheld, hvalid, hlinked, hsize⟩ := opened
  rw [← same] at hbusy hheld hvalid hlinked hsize
  exact ⟨hbusy, hheld, hvalid, hlinked, hsize⟩

theorem Opened.consoleRead (opened : s.Opened ip) (n : Int) :
    ∃ r t, (consoleRead ip n).run s = .ok r t ∧ t.Opened ip := by
  set unlocked := s.setInode ip fun r => { r with busy := false } with hunlocked
  have hrelock {u : Fs} (same : u.inode = unlocked.inode) :
      ∃ t, (ilock ip).run u = .ok () t ∧ t.Opened ip := by
    have hslot : u.inode ip = { s.inode ip with busy := false } := by
      rw [same, hunlocked, setInode_self]
    refine ⟨_, ilock_run ?_ ?_ ?_, opened.of_inode ?_⟩
    · rw [hslot]
    · rw [hslot]
      exact opened.held
    · rw [hslot]
      exact opened.valid
    · rw [setInode_self, hslot, ← opened.busy]
  rw [Fs.consoleRead, run_bind_of_ok (iunlock_run opened.busy opened.held)]
  by_cases hn : n ≤ 0
  · obtain ⟨t, hlock, hopened⟩ := hrelock rfl
    rw [if_pos hn]
    exact ⟨_, t, run_bind_of_ok hlock, hopened⟩
  · obtain ⟨t, hlock, hopened⟩ :=
      hrelock (u := { unlocked with reads := unlocked.reads + 1 }) rfl
    rw [if_neg hn, run_get_bind, run_modify_bind, run_bind_of_ok hlock]
    cases unlocked.typed unlocked.reads with
    | none | some _ => exact ⟨_, t, rfl, hopened⟩

/-- `readi` returns. -/
theorem Opened.readi (opened : s.Opened ip) (off n : Nat) :
    ∃ r t, (readi ip off n).run s = .ok r t ∧ t.Opened ip := by
  by_cases hdev : (s.inode ip).copy.type = T_DEV
  · rw [Fs.readi, run_bind_of_ok (load_run ..)]
    dsimp only
    rw [run_ite, if_pos hdev, run_ite]
    by_cases hdriver : hasDriver (s.inode ip).copy.major = true
    · rw [if_pos hdriver]
      exact opened.consoleRead _
    · rw [if_neg hdriver]
      exact ⟨_, s, rfl, opened⟩
  · obtain ⟨r, hread⟩ := readi_file_run hdev (opened.size hdev) off n
    exact ⟨r, s, hread, opened⟩

/-- Putting a locked inode with links only drops the reference. -/
theorem iunlockput_linked (busy : (s.inode ip).busy = true) (held : 0 < (s.inode ip).ref)
    (linked : (s.inode ip).copy.nlink ≠ 0) : ∃ t, (iunlockput ip).run s = .ok () t := by
  rw [iunlockput, run_bind_of_ok (iunlock_run busy held), iput, run_bind_of_ok (load_run ..),
    if_neg]
  · exact ⟨_, rfl⟩
  · rw [setInode_self]
    exact fun h => linked h.2.2

end Fs

end Xv6
