/-
# A directory is a map

With its names in different slots, a directory is a map from names to inode numbers. `dirlookup`
looks a name up, `dirlink` enters a name that is not there, and clearing an entry, as `sys_unlink`
does, removes its name. The file system has to be sound: a new block of the directory is not
cleared by `balloc`, so a free block has to be zero already, or it would come with entries.
-/

import Xv6.Fs.Dirents
import Xv6.Fs.Trunc

namespace Xv6

open Math

/-- A `struct dirent` of zeros. -/
def noDirent : Nat → UInt8 := fun _ => 0

namespace Fs

variable {s t u : Fs} {dev : Nat} {dp ip : InodeId}

/-! ### Writing in one block -/

section OneBlock

variable (src : Nat → UInt8) {off n b : Nat}

theorem writeiLoop_block_run (device : (s.inode ip).dev = dev) (some : 0 < n)
    (fits : off % BSIZE + n ≤ BSIZE) (inside : off / BSIZE < MAXFILE)
    (here : s.addrAt dev (.slot ip) (.ofBlock (off / BSIZE)) = b) (present : b ≠ 0) :
    (writeiLoop ip src n n 0 off).run s =
      .ok (off + n) (s.setSector ⟨dev, b⟩ ((s.disk dev b).write (off % BSIZE) src n)) := by
  obtain ⟨a, hbmap, ha⟩ := bmap_run true device inside (here.trans_ne present)
  have hlen : min (n - 0) (BSIZE - off % BSIZE) = n := by omega
  have hdone (t : Fs) (fuel : Nat) : (writeiLoop ip src n fuel (0 + n) (off + n)).run t =
      .ok (off + n) t := by
    cases fuel with
    | zero => rfl
    | succ fuel =>
      rw [writeiLoop, if_neg (by omega)]
      rfl
  obtain ⟨m, rfl⟩ : ∃ m, n = m + 1 := ⟨n - 1, by omega⟩
  rw [writeiLoop, if_pos some, run_bind_of_ok (load_run ..), run_bind_of_ok hbmap,
    run_bind_of_ok (bread_run ..), run_bind_of_ok (bwrite_run ..), hlen, hdone, device, ha, here]
  simp only [Nat.zero_add]

section

variable (device : (s.inode ip).dev = dev) (file : (s.inode ip).copy.type ≠ T_DEV) (some : 0 < n)
  (fits : off % BSIZE + n ≤ BSIZE) (inside : off + n ≤ MAXFILE * BSIZE)
  (here : s.addrAt dev (.slot ip) (.ofBlock (off / BSIZE)) = b) (present : b ≠ 0)

include device file some fits inside here present

/-- A write in a block that the file has stores its bytes there; then the size is looked at. -/
theorem writei_block_eq : (writei ip src off n).run s =
    EStateM.run (do
      let r ← load ip
      if 0 < n ∧ r.copy.size.toNat < off + n then do
        modifyCopy ip fun d => { d with size := UInt32.ofNat (off + n) }
        iupdate ip
        pure (n : Int)
      else pure (n : Int))
    (s.setSector ⟨dev, b⟩ ((s.disk dev b).write (off % BSIZE) src n)) := by
  have hmax : MAXFILE * BSIZE < 2 ^ 31 := by decide
  have hint : int32 n = n := by rw [int32, if_pos (by omega)]
  have hblock : off / BSIZE < MAXFILE := (Nat.div_lt_iff_lt_mul (by decide)).mpr (by omega)
  have hloop := writeiLoop_block_run src device some fits hblock here present
  rw [writei, run_bind_of_ok (load_run ..), if_neg file, if_neg (by omega)]
  dsimp only
  rw [if_neg (by omega), run_bind_of_ok hloop, hint]

/-- A write to a part of a file that lies in one of its blocks. -/
theorem writei_block_run (below : off + n ≤ (s.inode ip).copy.size.toNat) :
    (writei ip src off n).run s =
      .ok (n : Int) (s.setSector ⟨dev, b⟩ ((s.disk dev b).write (off % BSIZE) src n)) := by
  rw [writei_block_eq src device file some fits inside here present, run_bind_of_ok (load_run ..),
    setSector_inode, if_neg (by omega)]
  rfl

/-- A write in a block that the file has returns. -/
theorem writei_block_returns : ∃ t, (writei ip src off n).run s = .ok (n : Int) t := by
  rw [writei_block_eq src device file some fits inside here present, run_bind_of_ok (load_run ..),
    run_ite]
  split
  · exact ⟨_, rfl⟩
  · exact ⟨_, rfl⟩

end

/-- Behind the greatest size of a file nothing is written. -/
theorem writei_full_run (file : (s.inode ip).copy.type ≠ T_DEV) (small : n < 2 ^ 31) :
    (writei ip src (MAXFILE * BSIZE) n).run s = .ok 0 s := by
  have hmax : MAXFILE * BSIZE < 2 ^ 31 := by decide
  rw [writei, run_bind_of_ok (load_run ..), if_neg file, if_neg (by omega)]
  dsimp only
  have hnone : (if MAXFILE * BSIZE < MAXFILE * BSIZE + n then
      (MAXFILE * BSIZE + 2 ^ 32 - MAXFILE * BSIZE) % 2 ^ 32 else n) = 0 := by
    split <;> omega
  rw [hnone]
  rfl

end OneBlock

/-! ### Getting an inode -/

/-- `iget` has taken the slot `ip` for inode `inum`: one that holds the inode already, or the first
one that is not in use. -/
inductive Got (dev inum : Nat) (s : Fs) (ip : InodeId) : Fs → Prop
  | again (found : s.cached dev inum = some ip) :
    Got dev inum s ip (s.setInode ip fun r => { r with ref := r.ref + 1 })
  | fresh (missing : s.cached dev inum = none) (unused : s.empty = some ip) :
    Got dev inum s ip (s.setInode ip fun r =>
      { r with dev := dev, inum := inum, ref := 1, busy := false, valid := false })

theorem iget_got (s : Fs) (dev inum : Nat) :
    Ensures (fun t => t = s) (iget dev inum) (fun ip t => Got dev inum s ip t)
      fun e => e = .panic "iget: no inodes" := by
  refine Ensures.step (a := s) rfl ?_
  cases hfound : s.cached dev inum with
  | some ip =>
    refine Ensures.step (modifyInode_run ..) (Ensures.ret ?_)
    exact .again hfound
  | none =>
    cases hempty : s.empty with
    | none => exact Ensures.throw rfl
    | some ip =>
      refine Ensures.step (modifyInode_run ..) (Ensures.ret ?_)
      exact .fresh hfound hempty

/-- Nothing has changed but slots that are not in use. -/
structure Unchanged (s t : Fs) : Prop where
  rest : t = { s with inode := t.inode }
  slots : ∀ ip, t.inode ip = s.inode ip ∨ (s.inode ip).ref = 0 ∧ (t.inode ip).ref = 0

namespace Got

variable {inum : Nat} (got : Got dev inum s ip t)

include got

theorem sector : t.sector = s.sector := by
  cases got <;> rfl

/-- A slot in use keeps all but its count. -/
theorem slot (held : 0 < (s.inode dp).ref) :
    ∃ r, 0 < r ∧ t.inode dp = { s.inode dp with ref := r } := by
  by_cases h : dp = ip
  · subst h
    cases got with
    | again => exact ⟨_, by omega, setInode_self ..⟩
    | fresh _ unused =>
      have := empty_eq_some unused
      omega
  · refine ⟨_, held, ?_⟩
    cases got <;> rw [setInode_of_ne _ _ _ h]

/-- Putting the inode back frees nothing. -/
theorem iput_run :
    (iput ip).run t = .ok () (t.setInode ip fun r => { r with ref := r.ref - 1 }) := by
  have hkept : ¬ ((t.inode ip).ref = 1 ∧ (t.inode ip).valid ∧ (t.inode ip).copy.nlink = 0) := by
    cases got with
    | again found =>
      have := (cached_eq_some found).1
      rw [setInode_self]
      exact fun h => absurd h.1 (by dsimp only; omega)
    | fresh =>
      rw [setInode_self]
      exact fun h => Bool.false_ne_true h.2.1
  rw [iput, run_bind_of_ok (load_run ..), if_neg hkept]
  rfl

theorem unchanged : Unchanged s (t.setInode ip fun r => { r with ref := r.ref - 1 }) := by
  refine ⟨by cases got <;> rfl, fun jp => ?_⟩
  by_cases h : jp = ip
  · subst h
    cases got with
    | again =>
      rw [setInode_self, setInode_self]
      exact .inl (by rw [Int.add_sub_cancel])
    | fresh _ unused =>
      rw [setInode_self, setInode_self]
      exact .inr ⟨empty_eq_some unused, rfl⟩
  · cases got <;> exact .inl (by rw [setInode_of_ne _ _ _ h, setInode_of_ne _ _ _ h])

end Got

/-! ### Directories -/

/-- The slot `dp` holds a directory of whole entries, with its blocks mapped, with zeros behind
its end, and with every name in one entry only. -/
structure Directory (s : Fs) (dev : Nat) (dp : InodeId) : Prop where
  live : s.Live dev (.slot dp)
  isDir : (s.inode dp).copy.type = T_DIR
  whole : DIRENT ∣ (s.inode dp).copy.size.toNat
  small : (s.inode dp).copy.size.toNat ≤ MAXFILE * BSIZE
  mapped : s.Mapped dev dp 0 (s.inode dp).copy.size.toNat
  padded : ∀ o, (s.inode dp).copy.size.toNat ≤ o → s.fileByte dev (.slot dp) o = 0
  distinct : (s.table dev dp).Distinct

/-- The entry with the name and the inode number in it. -/
def entryFor (s : Fs) (dev : Nat) (dp : InodeId) (name : List UInt8) : Option (Nat × Nat) :=
  (s.table dev dp).find (key name)

/-- `dirlookup` gives what the table says. -/
def Answers (s : Fs) (dev : Nat) (dp : InodeId) : Prop :=
  ∀ name, (dirlookup dp name).run s =
    match s.entryFor dev dp name with
    | none => .ok none s
    | some (i, ino) => (reply dev ino (DIRENT * i)).run s

namespace Directory

/-- A directory without blocks. -/
theorem of_empty (live : s.Live dev (.slot dp)) (isDir : (s.inode dp).copy.type = T_DIR)
    (size : (s.inode dp).copy.size = 0) (addrs : ∀ k, (s.inode dp).copy.addrs k = 0) :
    s.Directory dev dp where
  live := live
  isDir := isDir
  whole := by rw [size]; exact dvd_zero _
  small := by rw [size]; exact Nat.zero_le _
  mapped o _ h := by
    rw [size] at h
    exact absurd h (Nat.not_lt_zero _)
  padded o _ := if_pos (Dinode.addrAt_of_empty addrs _)
  distinct i j k v w h := by
    have hlen : (s.table dev dp).len = 0 := by
      rw [table, size]
      rfl
    have := h.1
    omega

section

variable (dir : s.Directory dev dp)

include dir

theorem size_eq : (s.inode dp).copy.size.toNat = DIRENT * (s.table dev dp).len :=
  (Nat.mul_div_cancel' dir.whole).symm

theorem notDevice : (s.inode dp).copy.type ≠ T_DEV := by
  rw [dir.isDir]
  decide

/-- `dirlookup` searches whole blocks, but there are no entries behind the end. -/
theorem answers : s.Answers dev dp := by
  intro name
  have hlen := dir.size_eq
  set blocks := ((s.inode dp).copy.size.toNat + BSIZE - 1) / BSIZE with hblocks
  have hbehind {i ino : Nat} (hslot : (s.table dev dp).slot i = some (key name, ino)) :
      i < (s.table dev dp).len := by
    by_contra hge
    rw [direntOf_zeros fun o ho => dir.padded o ?_] at hslot
    · cases hslot
    · unfold DIRENT at *
      omega
  have hsmall := dir.small
  have hmapped (bn : Nat) (hbn : bn < blocks) :
      s.addrAt dev (.slot dp) (.ofBlock bn) ≠ 0 := by
    have h := dir.mapped (BSIZE * bn) (Nat.zero_le _) (by unfold BSIZE at *; omega)
    rwa [Nat.mul_div_cancel_left _ (by decide)] at h
  rw [dirlookup, run_bind_of_ok (load_run ..), if_neg (not_not.mpr dir.isDir)]
  rcases dirlookupFrom_run (n := blocks) (j := 0) name dir.live.2.2 (by unfold BSIZE at *; omega)
    (fun bn _ h => hmapped bn (by omega)) with ⟨i, ino, -, hslot, hrun⟩ | ⟨hmissing, hrun⟩
  · rw [entryFor, dir.distinct.find_eq_some.mpr ⟨hbehind hslot, hslot⟩]
    exact hrun
  · rw [entryFor, Table.find_eq_none.mpr fun i ino h => hmissing i (Nat.zero_le _) ?_ ino h.2]
    · exact hrun
    · have := h.1
      unfold BSIZE DIRENT at *
      omega

/-- The inode and its bytes say everything about a directory. -/
theorem congr {jp : InodeId} (live : t.Live dev (.slot jp))
    (copy : (t.inode jp).copy = (s.inode dp).copy)
    (addr : ∀ p, t.addrAt dev (.slot jp) p = s.addrAt dev (.slot dp) p)
    (bytes : ∀ o, t.fileByte dev (.slot jp) o = s.fileByte dev (.slot dp) o) :
    t.Directory dev jp ∧ t.table dev jp = s.table dev dp := by
  have htable : t.table dev jp = s.table dev dp := by
    unfold table fileBytes
    simp only [copy, bytes]
  refine ⟨⟨live, ?_, ?_, ?_, ?_, ?_, ?_⟩, htable⟩
  · rw [copy]
    exact dir.isDir
  · rw [copy]
    exact dir.whole
  · rw [copy]
    exact dir.small
  · intro o h h'
    rw [addr]
    rw [copy] at h'
    exact dir.mapped o h h'
  · intro o h
    rw [bytes]
    rw [copy] at h
    exact dir.padded o h
  · rw [htable]
    exact dir.distinct

/-- The blocks and the copy of the inode say everything about a directory. -/
theorem of_copy (sector : t.sector = s.sector) (live : t.Live dev (.slot dp))
    (copy : (t.inode dp).copy = (s.inode dp).copy) :
    t.Directory dev dp ∧ t.table dev dp = s.table dev dp := by
  have hdisk : t.disk dev = s.disk dev := funext fun n => congrFun sector ⟨dev, n⟩
  refine dir.congr live copy (fun p => ?_) fun o => ?_
  · rw [addrAt, addrAt, copyOf, copyOf, copy, hdisk]
  · rw [fileByte, fileByte, copyOf, copyOf, copy, hdisk]

/-- Writing an entry sets it in the table. -/
theorem written {src : Nat → UInt8} {i : Nat}
    (written : Written dev dp src (DIRENT * i) DIRENT s t)
    (inside : i ≤ (s.table dev dp).len) (fits : DIRENT * i + DIRENT ≤ MAXFILE * BSIZE)
    (distinct : ((s.table dev dp).set i (direntOf ((List.range DIRENT).map src))).Distinct) :
    t.Directory dev dp ∧
      t.table dev dp = (s.table dev dp).set i (direntOf ((List.range DIRENT).map src)) := by
  have hlen := dir.size_eq
  have hstart : DIRENT * i ≤ (s.inode dp).copy.size.toNat := by
    unfold DIRENT at *
    omega
  have hsize := written.size_eq hstart dir.small fits
  obtain ⟨addrs, hslot⟩ := written.slot
  have htable : t.table dev dp =
      (s.table dev dp).set i (direntOf ((List.range DIRENT).map src)) := by
    have hslots (j : Nat) : (t.table dev dp).slot j =
        ((s.table dev dp).set i (direntOf ((List.range DIRENT).map src))).slot j := by
      change direntOf (t.fileBytes dev dp (DIRENT * j) DIRENT) = _
      by_cases hj : j = i
      · subst hj
        rw [Table.slot_set_self]
        refine congrArg direntOf (List.map_congr_left fun o ho => ?_)
        have ho' := List.mem_range.mp ho
        rw [written.own, if_pos (by omega), Nat.add_sub_cancel_left]
      · rw [Table.slot_set_of_ne hj]
        refine congrArg direntOf (List.map_congr_left fun o ho => ?_)
        have ho' := List.mem_range.mp ho
        rw [written.own, if_neg (by unfold DIRENT at *; omega)]
    have hlen' : (t.table dev dp).len = max (s.table dev dp).len (i + 1) := by
      change (t.inode dp).copy.size.toNat / DIRENT = _
      rw [hsize, hlen]
      unfold DIRENT
      omega
    exact Table.ext hlen' (funext hslots)
  refine ⟨⟨?_, ?_, ?_, ?_, ?_, fun o ho => ?_, ?_⟩, htable⟩
  · rw [Live, hslot]
    exact dir.live
  · rw [hslot]
    exact dir.isDir
  · rw [hsize, hlen]
    exact ⟨max (s.table dev dp).len (i + 1), by unfold DIRENT; omega⟩
  · rw [hsize]
    exact max_le dir.small fits
  · rw [hsize]
    exact written.mapped_max hstart dir.mapped
  · rw [hsize] at ho
    rw [written.own, if_neg (by omega)]
    exact dir.padded o (by omega)
  · rw [htable]
    exact distinct

/-- The block with an entry, which the directory has already unless the entry is at its end and
the end at the end of a block. -/
theorem block_of_entry {i : Nat} (inside : i ≤ (s.table dev dp).len)
    (room : i < (s.table dev dp).len ∨ ¬ BSIZE ∣ (s.inode dp).copy.size.toNat) :
    s.addrAt dev (.slot dp) (.ofBlock (DIRENT * i / BSIZE)) ≠ 0 := by
  have hlen := dir.size_eq
  rcases room with h | h
  · exact dir.mapped _ (Nat.zero_le _) (by unfold DIRENT at *; omega)
  · have hsame : DIRENT * i / BSIZE = ((s.inode dp).copy.size.toNat - 1) / BSIZE ∨
        i < (s.table dev dp).len := by
      unfold DIRENT BSIZE at *
      omega
    rcases hsame with hsame | hlt
    · rw [hsame]
      exact dir.mapped _ (Nat.zero_le _) (by unfold DIRENT BSIZE at *; omega)
    · exact dir.mapped _ (Nat.zero_le _) (by unfold DIRENT at *; omega)

end

end Directory

/-- The entry that `dirlink` writes. -/
theorem direntOf_written {ino : Nat} (name : List UInt8) (pos : 1 ≤ ino) (small : ino ≤ 65535) :
    direntOf ((List.range DIRENT).map fun i => (direntBytes ino name).getD i 0) =
      some (key name, ino) := by
  have hlength : (direntBytes ino name).length = DIRENT := by
    rw [direntBytes, List.length_cons, List.length_cons, length_strncpy]
    rfl
  rw [← direntOf_direntBytes name pos small]
  refine congrArg direntOf (List.ext_getElem ?_ fun i h h' => ?_)
  · rw [List.length_map, List.length_range, hlength]
  · rw [List.getElem_map, List.getElem_range, List.getD_eq_getElem _ _ h']

/-- The entry that `sys_unlink` writes. -/
theorem direntOf_noDirent : direntOf ((List.range DIRENT).map noDirent) = none := by
  decide

/-- An entry lies in one block. -/
theorem entry_fits (i : Nat) : DIRENT * i % BSIZE + DIRENT ≤ BSIZE := by
  unfold DIRENT BSIZE
  omega

section Link

variable {name : List UInt8} {ino : Nat}

/-- `dirlink` enters a name that is not there, in a hole or at the end. There is no room if every
entry is in use, and either the directory has the greatest size of a file, or it needs a block and
there is none. -/
theorem dirlink_new (sound : s.Sound dev) (dir : s.Directory dev dp)
    (missing : s.entryFor dev dp name = none) (pos : 1 ≤ ino) (small : ino ≤ 65535) :
    (∃ t k, (dirlink dp name ino).run s = .ok 0 t ∧ t.Sound dev ∧ t.Directory dev dp ∧
        k ≤ (s.table dev dp).len ∧ (k < (s.table dev dp).len → (s.table dev dp).slot k = none) ∧
        t.table dev dp = (s.table dev dp).set k (some (key name, ino))) ∨
      (s.table dev dp).Full ∧
        (BSIZE ∣ (s.inode dp).copy.size.toNat ∧
            (∃ t, (dirlink dp name ino).run s = .error (.panic "balloc: out of blocks") t ∧
              t.DiskFull dev) ∨
          (s.inode dp).copy.size.toNat = MAXFILE * BSIZE ∧
            (dirlink dp name ino).run s = .error (.panic "dirlink") s) := by
  have hlen := dir.size_eq
  have hlookup := dir.answers name
  rw [missing] at hlookup
  have hcount : ((s.inode dp).copy.size.toNat + DIRENT - 1) / DIRENT = (s.table dev dp).len := by
    rw [hlen]
    unfold DIRENT
    omega
  obtain ⟨k, -, hk, hempty, hhole, hpassed⟩ := emptyDirent_run (n := (s.table dev dp).len) (i := 0)
    dir.live.2.2 dir.isDir dir.small dir.mapped (by rw [Nat.zero_add, hlen])
  rw [Nat.zero_add] at hk hhole
  rw [Nat.mul_zero] at hempty
  have hfull (hend : ¬ k < (s.table dev dp).len) : (s.table dev dp).Full :=
    fun j hj => hpassed j (Nat.zero_le _) (by omega)
  have hlink : (dirlink dp name ino).run s = EStateM.run (do
      let wrote ← writei dp (fun i => (direntBytes ino name).getD i 0) (DIRENT * k) DIRENT
      if wrote ≠ DIRENT then throw (.panic "dirlink") else pure 0) s := by
    rw [dirlink, run_bind_of_ok hlookup]
    dsimp only
    rw [run_bind_of_ok (load_run ..), hcount, run_bind_of_ok hempty]
  rw [hlink]
  have hsmall := dir.small
  have hmax : DIRENT ∣ MAXFILE * BSIZE := by decide
  by_cases hfits : DIRENT * k + DIRENT ≤ MAXFILE * BSIZE
  · have hspec := writei_ensures sound dir.live dir.notDevice
      (fun i => (direntBytes ino name).getD i 0) hfits s rfl
    cases hrun : (writei dp (fun i => (direntBytes ino name).getD i 0) (DIRENT * k) DIRENT).run s
    with
    | ok r t =>
      rw [hrun] at hspec
      obtain ⟨rfl, hwritten⟩ := hspec
      have hentry := direntOf_written name pos small
      obtain ⟨hdir, htable⟩ := dir.written hwritten hk hfits
        (by rw [hentry]; exact dir.distinct.put missing hk ino)
      rw [hentry] at htable
      refine .inl ⟨t, k, ?_, hwritten.sound, hdir, hk, hhole, htable⟩
      rw [run_bind_of_ok hrun, if_neg (not_not.mpr rfl)]
      rfl
    | error e t =>
      rw [hrun] at hspec
      -- the block with the entry is not there, or the write would have returned
      have hroom : ¬ (k < (s.table dev dp).len ∨ ¬ BSIZE ∣ (s.inode dp).copy.size.toNat) := by
        intro hroom
        obtain ⟨u, hreturns⟩ := writei_block_returns
          (fun i => (direntBytes ino name).getD i 0) dir.live.2.2 dir.notDevice (by decide)
          (entry_fits k) hfits rfl (dir.block_of_entry hk hroom)
        rw [hrun] at hreturns
        cases hreturns
      rw [not_or, not_not] at hroom
      obtain rfl : e = _ := hspec
      refine .inr ⟨hfull hroom.1, .inl ⟨hroom.2, t, run_bind_of_error hrun, ?_⟩⟩
      exact dir.live.2.2 ▸ full_of_writei dir.notDevice hrun
  · have hend : DIRENT * k = MAXFILE * BSIZE ∧ ¬ k < (s.table dev dp).len := by
      unfold DIRENT at *
      omega
    refine .inr ⟨hfull hend.2, .inr ⟨by unfold DIRENT at *; omega, ?_⟩⟩
    rw [hend.1, run_bind_of_ok (writei_full_run _ dir.notDevice (by decide)), if_pos (by decide)]
    rfl

/-- Clearing the entry that `dirlookup` has found. -/
theorem clear_entry (sound : s.Sound dev) (dir : s.Directory dev dp) {i : Nat}
    (found : s.entryFor dev dp name = some (i, ino)) (got : Got dev ino s ip u) :
    ∃ t, (writei dp noDirent (DIRENT * i) DIRENT).run u = .ok (DIRENT : Int) t ∧
      t.Directory dev dp ∧ t.table dev dp = (s.table dev dp).set i none := by
  have hlen := dir.size_eq
  have hholds := Table.holds_of_find found
  have hi : i < (s.table dev dp).len := hholds.1
  have hbelow : DIRENT * i + DIRENT ≤ (s.inode dp).copy.size.toNat := by
    unfold DIRENT at *
    omega
  have hfits := hbelow.trans dir.small
  have hpresent := dir.block_of_entry hi.le (.inl hi)
  -- the write in the state before `dirlookup`
  have hrun := writei_block_run noDirent dir.live.2.2 dir.notDevice (by decide)
    (entry_fits i) hfits rfl hpresent hbelow
  have hspec := writei_ensures sound dir.live dir.notDevice noDirent hfits s rfl
  rw [hrun] at hspec
  obtain ⟨hdir, htable⟩ := dir.written hspec.2 hi.le hfits
    (by rw [direntOf_noDirent]; exact dir.distinct.clear hholds)
  rw [direntOf_noDirent] at htable
  -- the slot of the directory is the same but for the count
  obtain ⟨r, hr, hslot⟩ := got.slot dir.live.1
  have hlive : u.Live dev (.slot dp) := by
    rw [Live, hslot]
    exact ⟨hr, dir.live.2⟩
  have hcopy : (u.inode dp).copy = (s.inode dp).copy := by rw [hslot]
  obtain ⟨hdir', -⟩ := dir.of_copy got.sector hlive hcopy
  have hdisk : u.disk dev = s.disk dev := funext fun n => congrFun got.sector ⟨dev, n⟩
  have haddr : u.addrAt dev (.slot dp) (.ofBlock (DIRENT * i / BSIZE)) =
      s.addrAt dev (.slot dp) (.ofBlock (DIRENT * i / BSIZE)) := by
    rw [addrAt, addrAt, copyOf, copyOf, hcopy, hdisk]
  have hrun' := writei_block_run noDirent hdir'.live.2.2 hdir'.notDevice (by decide)
    (entry_fits i) hfits haddr hpresent (by rw [hcopy]; exact hbelow)
  rw [hdisk] at hrun'
  obtain ⟨hdir'', htable'⟩ := hdir.of_copy (t := u.setSector _ _)
    (congrArg (fun m => Function.update m _ _) got.sector) hlive hcopy
  exact ⟨_, hrun', hdir'', htable'.trans htable⟩

/-- What `dirlookup` returns if the name is found. -/
theorem reply_run_eq_ok {off : Nat} {r : Option (InodeId × Nat)}
    (run : (reply dev ino off).run s = .ok r u) :
    ∃ ip, r = some (ip, off) ∧ (iget dev ino).run s = .ok ip u ∧ Got dev ino s ip u := by
  obtain ⟨ip, v, hget, hpure⟩ := run_bind_eq_ok_iff.mp run
  cases hpure
  have hgot := iget_got s dev ino s rfl
  rw [hget] at hgot
  exact ⟨ip, rfl, hget, hgot⟩

/-- `dirlink` refuses exactly the names that `dirlookup` finds. -/
theorem dirlink_refuses_iff (sound : s.Sound dev) (dir : s.Directory dev dp) (pos : 1 ≤ ino)
    (small : ino ≤ 65535) :
    (∃ t, (dirlink dp name ino).run s = .ok (-1) t ∧ Unchanged s t) ↔
      ∃ found u, (dirlookup dp name).run s = .ok (some found) u := by
  have hlookup := dir.answers name
  constructor
  · rintro ⟨t, hrun, -⟩
    cases hfound : s.entryFor dev dp name with
    | none =>
      -- the name is entered, or there is no room
      rcases dirlink_new sound dir hfound pos small with
        ⟨t', _, h, -⟩ | ⟨-, ⟨-, t', h, -⟩ | ⟨-, h⟩⟩ <;> rw [hrun] at h <;> cases h
    | some entry =>
      obtain ⟨i, ino'⟩ := entry
      rw [hfound] at hlookup
      dsimp only at hlookup
      cases hreply : (reply dev ino' (DIRENT * i)).run s with
      | ok r u =>
        obtain ⟨ip, rfl, -⟩ := reply_run_eq_ok hreply
        exact ⟨_, u, hlookup.trans hreply⟩
      | error e u =>
        rw [dirlink, run_bind_of_error (hlookup.trans hreply)] at hrun
        cases hrun
  · rintro ⟨⟨ip, off⟩, u, hrun⟩
    cases hfound : s.entryFor dev dp name with
    | none =>
      rw [hfound, hrun] at hlookup
      cases hlookup
    | some entry =>
      rw [hfound, hrun] at hlookup
      obtain ⟨ip', hsame, -, hgot⟩ := reply_run_eq_ok hlookup.symm
      cases hsame
      refine ⟨_, ?_, hgot.unchanged⟩
      rw [dirlink, run_bind_of_ok hrun]
      dsimp only
      rw [run_bind_of_ok hgot.iput_run]
      rfl

end Link

end Fs

open Fs in
/-- A directory of a sound file system behaves as a map, with the names that differ in their first
`DIRSIZ` bytes as different keys. `dirlookup` gives the number that stands with a name. `dirlink`
returns -1 and changes nothing exactly if `dirlookup` finds the name; otherwise it enters the name,
unless all entries are in use and the directory cannot get longer. Clearing the entry at the offset
that `dirlookup` has reported removes the name. Other names are found as before in both cases. -/
theorem directory_is_map {s : Fs} {dev : Nat} {dp : InodeId} (sound : s.Sound dev)
    (dir : s.Directory dev dp) (name : List UInt8) {ino : Nat} (pos : 1 ≤ ino)
    (small : ino ≤ 65535) :
    s.Answers dev dp ∧
    ((∃ t, (dirlink dp name ino).run s = .ok (-1) t ∧ Unchanged s t) ↔
      ∃ found u, (dirlookup dp name).run s = .ok (some found) u) ∧
    (∀ u, (dirlookup dp name).run s = .ok none u →
      (∃ t, (dirlink dp name ino).run s = .ok 0 t ∧ t.Sound dev ∧ t.Directory dev dp ∧
        t.Answers dev dp ∧ (∃ i, t.entryFor dev dp name = some (i, ino)) ∧
        ∀ other, sameName other name = false → t.entryFor dev dp other = s.entryFor dev dp other) ∨
      (s.table dev dp).Full ∧
        (BSIZE ∣ (s.inode dp).copy.size.toNat ∧
            (∃ t, (dirlink dp name ino).run s = .error (.panic "balloc: out of blocks") t ∧
              t.DiskFull dev) ∨
          (s.inode dp).copy.size.toNat = MAXFILE * BSIZE ∧
            (dirlink dp name ino).run s = .error (.panic "dirlink") s)) ∧
    ∀ ip off u, (dirlookup dp name).run s = .ok (some (ip, off)) u →
      ∃ t, (writei dp noDirent off DIRENT).run u = .ok (DIRENT : Int) t ∧ t.Directory dev dp ∧
        t.Answers dev dp ∧ t.entryFor dev dp name = none ∧
        ∀ other, sameName other name = false →
          t.entryFor dev dp other = s.entryFor dev dp other := by
  have hother {other : List UInt8} (h : sameName other name = false) : key other ≠ key name :=
    fun hsame => Bool.false_ne_true (h.symm.trans (sameName_iff.mpr hsame))
  have hanswers := dir.answers
  refine ⟨hanswers, dirlink_refuses_iff sound dir pos small, fun u hrun => ?_,
    fun ip off u hrun => ?_⟩
  · have hmissing : s.entryFor dev dp name = none := by
      cases hfound : s.entryFor dev dp name with
      | none => rfl
      | some entry =>
        have hlookup := hanswers name
        rw [hfound, hrun] at hlookup
        obtain ⟨ip, h, -⟩ := reply_run_eq_ok hlookup.symm
        cases h
    refine (dirlink_new sound dir hmissing pos small).imp ?_ id
    rintro ⟨t, k, hlink, hsound, hdir, hk, hhole, htable⟩
    refine ⟨t, hlink, hsound, hdir, hdir.answers, ⟨k, ?_⟩, fun other h => ?_⟩
    · rw [entryFor, htable]
      exact dir.distinct.find_put_self hmissing hk ino
    · rw [entryFor, htable]
      exact dir.distinct.find_put_of_ne hmissing hk hhole ino (hother h)
  · have hlookup := hanswers name
    rw [hrun] at hlookup
    cases hfound : s.entryFor dev dp name with
    | none =>
      rw [hfound] at hlookup
      cases hlookup
    | some entry =>
      obtain ⟨i, found⟩ := entry
      rw [hfound] at hlookup
      obtain ⟨ip', hsame, -, hgot⟩ := reply_run_eq_ok hlookup.symm
      cases hsame
      obtain ⟨t, hwrite, hdir, htable⟩ := clear_entry sound dir hfound hgot
      have hholds := Table.holds_of_find hfound
      refine ⟨t, hwrite, hdir, hdir.answers, ?_, fun other h => ?_⟩
      · rw [entryFor, htable]
        exact dir.distinct.find_clear_self hholds
      · rw [entryFor, htable]
        exact dir.distinct.find_clear_of_ne hholds (hother h)

/-! ### A new directory -/

/-- The calls that make a directory without entries. -/
def makeDir : List FsCall := [.icreate T_DIR 0 0 1, .ilock 0]

/-- Slot 0 holds a directory without blocks. -/
def HasNewDir (s : Fs) : Prop :=
  ((s.inode 0).ref = 1 ∧ (s.inode 0).valid = true ∧ (s.inode 0).dev = ROOTDEV) ∧
    (s.inode 0).copy.type = T_DIR ∧ (s.inode 0).copy.size = 0 ∧ ∀ k, (s.inode 0).copy.addrs k = 0

instance : DecidablePred HasNewDir := fun s => by
  unfold HasNewDir
  infer_instance

theorem HasNewDir.directory {s : Fs} (new : HasNewDir s) :
    s.Directory ROOTDEV 0 ∧ ∀ name, (Fs.dirlookup 0 name).run s = .ok none s := by
  obtain ⟨⟨href, hlive⟩, htype, hsize, haddrs⟩ := new
  have hdir : s.Directory ROOTDEV 0 := .of_empty ⟨by rw [href]; decide, hlive⟩ htype hsize haddrs
  refine ⟨hdir, fun name => ?_⟩
  have hnone : s.entryFor ROOTDEV 0 name = none := by
    rw [Fs.entryFor, Fs.table, hsize]
    rfl
  rw [hdir.answers, hnone]

/-- A run is known from its execution. -/
theorem exists_made (start : Fs) (check : Fs → Bool)
    (made : (match execute (fun s c => FsCall.act ROOTDEV s c) start makeDir with
      | some s => decide (HasNewDir s) && check s
      | none => false) = true) :
    ∃ s, Run (FsCall.Step ROOTDEV) start makeDir s ∧ HasNewDir s ∧ check s = true := by
  split at made
  next s hexec =>
    obtain ⟨hnew, hcheck⟩ := Bool.and_eq_true_iff.mp made
    exact ⟨s, Run.of_execute FsCall.step_of_act hexec, of_decide_eq_true hnew, hcheck⟩
  next => cases made

open Fs in
/-- A name is entered in a new directory, found there, refused when it is entered again, and cleared
at the offset where it was found. -/
theorem directory_is_map_new :
    ∃ s t u v ip off, Run (FsCall.Step ROOTDEV) blankFs makeDir s ∧
      (dirlink 0 [97] 1).run s = .ok 0 t ∧ (∃ w, (dirlink 0 [97] 2).run t = .ok (-1) w) ∧
      (dirlookup 0 [97]).run t = .ok (some (ip, off)) u ∧
      (writei 0 noDirent off DIRENT).run u = .ok (DIRENT : Int) v ∧
      v.entryFor ROOTDEV 0 [97] = none := by
  obtain ⟨s, hrun, hnew, hcheck⟩ := exists_made blankFs (fun s =>
    returnedWith (fun _ t => returnedWith (fun found _ => found.isSome) ((dirlookup 0 [97]).run t))
      ((dirlink 0 [97] 1).run s)) (by decide +kernel)
  obtain ⟨r, t, hlink, hlookup⟩ := exists_of_returnedWith hcheck
  obtain ⟨found, u, hfound, hsome⟩ := exists_of_returnedWith hlookup
  obtain ⟨⟨ip, off⟩, rfl⟩ := Option.isSome_iff_exists.mp hsome
  have hsound := blankFs_run hrun
  obtain ⟨hdir, hmissing⟩ := hnew.directory
  obtain ⟨-, -, henter, -⟩ := directory_is_map hsound hdir [97] (by decide : 1 ≤ 1) (by decide)
  rcases henter s (hmissing [97]) with
    ⟨t', hlinked, hsound', hdir', -⟩ | ⟨-, ⟨-, t', h, -⟩ | ⟨-, h⟩⟩
  · obtain ⟨rfl, rfl⟩ := EStateM.Result.ok.inj (hlink.symm.trans hlinked)
    obtain ⟨-, hrefuses, -, hclears⟩ :=
      directory_is_map hsound' hdir' [97] (by decide : 1 ≤ 2) (by decide)
    obtain ⟨w, hw, -⟩ := hrefuses.mpr ⟨_, u, hfound⟩
    obtain ⟨v, hwrite, -, -, hgone, -⟩ := hclears ip off u hfound
    exact ⟨s, t, u, v, ip, off, hrun, hlink, ⟨w, hw⟩, hfound, hwrite, hgone⟩
  · cases hlink.symm.trans h
  · cases hlink.symm.trans h

/-- A block with the entry `b` of inode 5 behind room for another entry. -/
def spill : Block := Block.zero.write DIRENT (fun i => (direntBytes 5 [98]).getD i 0) DIRENT

/-- No inode has a block. -/
theorem owners_of_empty {s : Fs} {dev : Nat}
    (disk : ∀ i < (s.sb dev).ninodes, ∀ k, (s.dinode dev i).addrs k = 0)
    (slots : ∀ ip, 0 < (s.inode ip).ref →
      (s.inode ip).inum < (s.sb dev).ninodes ∧ ∀ k, (s.inode ip).copy.addrs k = 0) :
    s.Owners dev := by
  have hnone (h : Holder) (p : Pos) (live : s.Live dev h) : s.addrAt dev h p = 0 := by
    cases h with
    | disk i => exact Dinode.addrAt_of_empty (disk i live.1) p
    | slot ip => exact Dinode.addrAt_of_empty (slots ip live.1).2 p
  exact ⟨fun h p live present => absurd (hnone h p live) present,
    fun h _ p _ live _ present => absurd (hnone h p live) present,
    fun ip held _ => (slots ip held).1⟩

open Fs in
/-- If the first free block is not zero, a new directory gets the entries in it together with its
first name: `b` is found as soon as `a` is entered. -/
theorem dirlink_reveals_entry :
    ∃ s t u, Run (FsCall.Step ROOTDEV) (blankFs.setSector ⟨ROOTDEV, 207⟩ spill) makeDir s ∧
      s.Owners ROOTDEV ∧ s.Directory ROOTDEV 0 ∧ sameName [98] [97] = false ∧
      (dirlookup 0 [97]).run s = .ok none s ∧ (dirlookup 0 [98]).run s = .ok none s ∧
      (dirlink 0 [97] 1).run s = .ok 0 t ∧
      (dirlookup 0 [98]).run t = .ok (some (1, DIRENT)) u ∧ (u.inode 1).inum = 5 := by
  obtain ⟨s, hrun, hnew, hcheck⟩ := exists_made (blankFs.setSector ⟨ROOTDEV, 207⟩ spill)
    (fun s =>
      decide ((∀ i < (s.sb ROOTDEV).ninodes, ∀ k, (s.dinode ROOTDEV i).addrs k = 0) ∧
        ∀ ip, 0 < (s.inode ip).ref →
          (s.inode ip).inum < (s.sb ROOTDEV).ninodes ∧ ∀ k, (s.inode ip).copy.addrs k = 0) &&
      returnedWith (fun r t => returnedWith (fun found (u : Fs) =>
        decide (r = 0 ∧ found = some (1, DIRENT) ∧ (u.inode 1).inum = 5))
        ((dirlookup 0 [98]).run t)) ((dirlink 0 [97] 1).run s)) (by decide +kernel)
  obtain ⟨hempty, hcheck⟩ := Bool.and_eq_true_iff.mp hcheck
  obtain ⟨hdisk, hslots⟩ := of_decide_eq_true hempty
  obtain ⟨hdir, hmissing⟩ := hnew.directory
  obtain ⟨r, t, hlink, hcheck⟩ := exists_of_returnedWith hcheck
  obtain ⟨found, u, hlookup, hcheck⟩ := exists_of_returnedWith hcheck
  obtain ⟨rfl, rfl, hinum⟩ := of_decide_eq_true hcheck
  exact ⟨s, t, u, hrun, owners_of_empty hdisk hslots, hdir, by decide, hmissing _, hmissing _,
    hlink, hlookup, hinum⟩

end Xv6
