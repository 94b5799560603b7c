/-
# Directory entries

A directory is read as a table: entry `i` has the name and the inode number that the bytes of the
file from `DIRENT * i` on give, and is a hole if the number is 0. Names are compared by `strncmp`
and stored by `strncpy`, which agree: two names are the same exactly if `strncpy` stores the same
bytes for them. `dirlookup` looks a name up in the table, and `dirlink` looks for its first hole.
-/

import Xv6.Fs.Contents
import Xv6.Fs.Names
import Xv6.Math.Table

namespace Xv6

open Math

/-! ### Names -/

section Strings

variable {n : Nat} {p q : List UInt8}

theorem length_strncpy (n : Nat) (p : List UInt8) : (strncpy n p).length = n := by
  induction n generalizing p with
  | zero => rfl
  | succ n ih =>
    rw [strncpy, List.length_cons]
    split
    · rw [List.length_replicate]
    · rw [ih]

/-- The names that `strncmp` takes for equal are those for which `strncpy` stores the same. -/
theorem strncmp_eq_zero : strncmp n p q = 0 ↔ strncpy n p = strncpy n q := by
  induction n generalizing p q with
  | zero => exact iff_of_true rfl rfl
  | succ n ih =>
    have hbyte : ((p.headD 0).toNat : Int) - (q.headD 0).toNat = 0 ↔ p.headD 0 = q.headD 0 := by
      rw [← UInt8.toNat_inj]
      omega
    rw [strncmp, strncpy, strncpy, List.cons.injEq]
    by_cases hsame : p.headD 0 = q.headD 0
    · by_cases hend : p.headD 0 = 0
      · -- both strings end here
        rw [if_neg fun h => h.1 hend, if_pos hend, if_pos (hsame ▸ hend), hbyte]
        exact ⟨fun h => ⟨h, rfl⟩, fun h => h.1⟩
      · rw [if_pos ⟨hend, hsame⟩, if_neg hend, if_neg fun h => hend (hsame.trans h), ih]
        exact ⟨fun h => ⟨hsame, h⟩, fun h => h.2⟩
    · rw [if_neg fun h => hsame h.2, hbyte]
      exact iff_of_false hsame fun h => hsame h.1

/-- What `strncpy` has stored is stored again as it is. -/
theorem strncpy_strncpy (n : Nat) (p : List UInt8) : strncpy n (strncpy n p) = strncpy n p := by
  induction n generalizing p with
  | zero => rfl
  | succ n ih =>
    rw [strncpy, strncpy]
    by_cases hend : p.headD 0 = 0
    · simp only [List.headD_cons, hend, if_true]
    · simp only [List.headD_cons, List.tail_cons, if_neg hend, ih]

end Strings

/-- A name as it stands in a directory entry. -/
def key (name : List UInt8) : List UInt8 := strncpy DIRSIZ name

theorem sameName_iff {p q : List UInt8} : sameName p q = true ↔ key p = key q := by
  rw [sameName, decide_eq_true_eq, strncmp_eq_zero, key, key]

/-! ### Entries -/

/-- The name and the number of a directory entry given by its bytes, if it is in use. -/
def direntOf (de : List UInt8) : Option (List UInt8 × Nat) :=
  if inumOf de = 0 then none else some (key (de.drop 2), inumOf de)

/-- The entry that `dirlink` stores. -/
theorem direntOf_direntBytes {ino : Nat} (name : List UInt8) (pos : 1 ≤ ino) (small : ino ≤ 65535) :
    direntOf (direntBytes ino name) = some (key name, ino) := by
  have hinum : inumOf (direntBytes ino name) = ino := by
    change (UInt8.ofNat ino).toNat + 256 * (UInt8.ofNat (ino / 256)).toNat = ino
    rw [UInt8.toNat_ofNat', UInt8.toNat_ofNat']
    omega
  rw [direntOf, hinum, if_neg (by omega)]
  exact congrArg (fun k => some (k, ino)) (strncpy_strncpy DIRSIZ name)

namespace Block

/-- The entry at offset `o` of a block, read in place. -/
theorem direntOf_read (d : Block) (o : Nat) : direntOf (d.read o DIRENT) =
    if d.direntInum o = 0 then none else some (key (d.direntName o), d.direntInum o) := by
  have hinum : inumOf (d.read o DIRENT) = d.direntInum o := rfl
  have hname : (d.read o DIRENT).drop 2 = d.direntName o := by
    rw [Block.read, ← List.map_drop]
    refine List.ext_getElem ?_ fun i h h' => ?_
    · rw [List.length_map, List.length_drop, List.length_range, direntName, Block.read,
        List.length_map, List.length_range]
      rfl
    · simp [direntName, Block.read, Nat.add_assoc]
  rw [direntOf, hinum, hname]

/-- The loop of `dirlookup` over a block finds an entry with the name. -/
theorem findDirent_eq_some {d : Block} {name : List UInt8} {o : Nat}
    (found : d.findDirent name = some o) :
    ∃ j < BSIZE / DIRENT, o = DIRENT * j ∧
      direntOf (d.read o DIRENT) = some (key name, d.direntInum o) := by
  obtain ⟨j, hj, rfl⟩ := List.mem_map.mp (List.mem_of_find?_eq_some found)
  have hvisit := List.find?_some found
  obtain ⟨hlive, hsame⟩ := of_decide_eq_true hvisit
  refine ⟨j, List.mem_range.mp hj, rfl, ?_⟩
  rw [direntOf_read, if_neg hlive, sameName_iff.mp hsame]

/-- If the loop of `dirlookup` over a block finds nothing, no entry has the name. -/
theorem findDirent_eq_none {d : Block} {name : List UInt8} (missing : d.findDirent name = none)
    {j : Nat} (inside : j < BSIZE / DIRENT) (ino : Nat) :
    direntOf (d.read (DIRENT * j) DIRENT) ≠ some (key name, ino) := by
  intro h
  have hvisit := List.find?_eq_none.mp missing (DIRENT * j)
    (List.mem_map.mpr ⟨j, List.mem_range.mpr inside, rfl⟩)
  rw [direntOf_read] at h
  split at h
  next => cases h
  next hlive =>
    refine hvisit (decide_eq_true ⟨hlive, sameName_iff.mpr ?_⟩)
    simp only [Option.some.injEq, Prod.mk.injEq] at h
    exact h.1.symm

end Block

namespace Fs

variable {s t : Fs} {dev : Nat} {dp : InodeId}

/-- The directory in a slot as a table of names with inode numbers. -/
def table (s : Fs) (dev : Nat) (dp : InodeId) : Table (List UInt8) Nat where
  len := (s.inode dp).copy.size.toNat / DIRENT
  slot i := direntOf (s.fileBytes dev dp (DIRENT * i) DIRENT)

/-- Bytes that are zero are a hole. -/
theorem direntOf_zeros {i : Nat}
    (zero : ∀ o, DIRENT * i ≤ o → s.fileByte dev (.slot dp) o = 0) :
    (s.table dev dp).slot i = none := by
  have hbyte (j : Nat) (hj : j < DIRENT) :
      (s.fileBytes dev dp (DIRENT * i) DIRENT).getD j 0 = 0 := by
    rw [List.getD_eq_getElem _ _ (by rw [fileBytes, List.length_map, List.length_range]; exact hj)]
    simp only [fileBytes, List.getElem_map, List.getElem_range]
    exact zero _ (Nat.le_add_right ..)
  refine if_pos ?_
  rw [Xv6.inumOf, hbyte 0 (by decide), hbyte 1 (by decide)]
  rfl

/-- An entry lies in one block. -/
theorem slot_of_block {j k b : Nat} (inside : k < BSIZE / DIRENT)
    (here : s.addrAt dev (.slot dp) (.ofBlock j) = b) (present : b ≠ 0) :
    (s.table dev dp).slot (BSIZE / DIRENT * j + k) =
      direntOf ((s.disk dev b).read (DIRENT * k) DIRENT) := by
  have hoff : DIRENT * (BSIZE / DIRENT * j + k) = BSIZE * j + DIRENT * k := by
    unfold BSIZE DIRENT
    omega
  have hmod : (BSIZE * j + DIRENT * k) % BSIZE = DIRENT * k := by
    unfold BSIZE DIRENT at *
    omega
  have hdiv : (BSIZE * j + DIRENT * k) / BSIZE = j := by
    unfold BSIZE DIRENT at *
    omega
  change direntOf (s.fileBytes dev dp (DIRENT * (BSIZE / DIRENT * j + k)) DIRENT) = _
  rw [hoff, fileBytes_of_block ?_ (by rw [hdiv]; exact here) present, hmod]
  rw [hmod]
  unfold BSIZE DIRENT at *
  omega

/-! ### Looking up a name -/

/-- The end of `dirlookup`, for the entry with number `ino` at offset `off`. -/
def reply (dev ino off : Nat) : FsM (Option (InodeId × Nat)) := do
  let ip ← iget dev ino
  pure (some (ip, off))

/-- The loop of `dirlookup` replies with an entry that has the name, or there is none. -/
theorem dirlookupFrom_run (name : List UInt8) (device : (s.inode dp).dev = dev) {n j : Nat}
    (inside : j + n ≤ MAXFILE)
    (mapped : ∀ bn, j ≤ bn → bn < j + n → s.addrAt dev (.slot dp) (.ofBlock bn) ≠ 0) :
    (∃ i ino, i < BSIZE / DIRENT * (j + n) ∧ (s.table dev dp).slot i = some (key name, ino) ∧
        (dirlookupFrom dp name n (BSIZE * j)).run s = (reply dev ino (DIRENT * i)).run s) ∨
      (∀ i, BSIZE / DIRENT * j ≤ i → i < BSIZE / DIRENT * (j + n) → ∀ ino,
          (s.table dev dp).slot i ≠ some (key name, ino)) ∧
        (dirlookupFrom dp name n (BSIZE * j)).run s = .ok none s := by
  induction n generalizing j with
  | zero => exact .inr ⟨fun i h h' => absurd h' (Nat.not_lt.mpr h), rfl⟩
  | succ n ih =>
    have hpresent := mapped j le_rfl (by omega)
    have hbn : BSIZE * j / BSIZE = j := Nat.mul_div_cancel_left _ (by decide)
    obtain ⟨b, hbmap, hb⟩ := bmap_run false device (by omega : j < MAXFILE) hpresent
    have hslot {k : Nat} (hk : k < BSIZE / DIRENT) := slot_of_block hk hb.symm (hb ▸ hpresent)
    rw [dirlookupFrom, run_bind_of_ok (load_run ..), hbn, run_bind_of_ok hbmap,
      run_bind_of_ok (bread_run ..), device]
    cases hfind : (s.disk dev b.toNat).findDirent name with
    | some o =>
      obtain ⟨k, hk, rfl, hentry⟩ := Block.findDirent_eq_some hfind
      refine .inl ⟨BSIZE / DIRENT * j + k, _, ?_, (hslot hk).trans hentry, ?_⟩
      · unfold BSIZE DIRENT at *
        omega
      · have hoff : DIRENT * (BSIZE / DIRENT * j + k) = BSIZE * j + DIRENT * k := by
          unfold BSIZE DIRENT
          omega
        rw [hoff]
        rfl
    | none =>
      have hnext : BSIZE * j + BSIZE = BSIZE * (j + 1) := (Nat.mul_succ ..).symm
      have hhere (i : Nat) (h : BSIZE / DIRENT * j ≤ i) (h' : i < BSIZE / DIRENT * (j + 1))
          (ino : Nat) : (s.table dev dp).slot i ≠ some (key name, ino) := by
        have hk : i - BSIZE / DIRENT * j < BSIZE / DIRENT := by
          unfold BSIZE DIRENT at *
          omega
        have hmissing := Block.findDirent_eq_none hfind hk ino
        rwa [← hslot hk, Nat.add_sub_cancel' h] at hmissing
      dsimp only
      rw [hnext]
      rcases @ih (j + 1) (by omega) (fun bn h h' => mapped bn (by omega) (by omega)) with
        ⟨i, ino, hi, hentry, hrun⟩ | ⟨hmissing, hrun⟩
      · exact .inl ⟨i, ino, by rw [show j + (n + 1) = j + 1 + n by omega]; exact hi, hentry, hrun⟩
      · refine .inr ⟨fun i h h' => ?_, hrun⟩
        rcases lt_or_ge i (BSIZE / DIRENT * (j + 1)) with hlt | hge
        · exact hhere i h hlt
        · exact hmissing i hge (by rw [show j + 1 + n = j + (n + 1) by omega]; exact h')

/-! ### Looking for a hole -/

/-- The loop of `dirlink` stops at the first hole, or behind the last entry. -/
theorem emptyDirent_run (device : (s.inode dp).dev = dev) (isDir : (s.inode dp).copy.type = T_DIR)
    (small : (s.inode dp).copy.size.toNat ≤ MAXFILE * BSIZE)
    (mapped : s.Mapped dev dp 0 (s.inode dp).copy.size.toNat) {n i : Nat}
    (inside : DIRENT * (i + n) = (s.inode dp).copy.size.toNat) :
    ∃ k, i ≤ k ∧ k ≤ i + n ∧ (emptyDirent dp n (DIRENT * i)).run s = .ok (DIRENT * k) s ∧
      (k < i + n → (s.table dev dp).slot k = none) ∧
      ∀ j, i ≤ j → j < k → (s.table dev dp).slot j ≠ none := by
  induction n generalizing i with
  | zero => exact ⟨i, le_rfl, le_rfl, rfl, fun h => absurd h (lt_irrefl i), fun j h h' => by omega⟩
  | succ n ih =>
    have hbelow : DIRENT * i + DIRENT ≤ (s.inode dp).copy.size.toNat := by
      unfold DIRENT at *
      omega
    have hread := readi_run device (by rw [isDir]; decide) hbelow (hbelow.trans small)
      fun o h h' => mapped o (Nat.zero_le _) (by omega)
    have hslot : (s.table dev dp).slot i =
      direntOf (s.fileBytes dev dp (DIRENT * i) DIRENT) := rfl
    rw [emptyDirent, run_bind_of_ok hread]
    dsimp only
    rw [if_neg (not_not.mpr rfl)]
    by_cases hhole : Xv6.inumOf (s.fileBytes dev dp (DIRENT * i) DIRENT) = 0
    · rw [if_pos hhole]
      refine ⟨i, le_rfl, by omega, rfl, fun _ => ?_, fun j h h' => by omega⟩
      rw [hslot]
      exact if_pos hhole
    · have hnext : DIRENT * i + DIRENT = DIRENT * (i + 1) := (Nat.mul_succ ..).symm
      rw [if_neg hhole, hnext]
      obtain ⟨k, hik, hkn, hrun, hstop, hpassed⟩ := @ih (i + 1)
        (by rw [← inside, Nat.add_right_comm]; rfl)
      refine ⟨k, by omega, by omega, hrun, fun h => hstop (by omega), fun j h h' => ?_⟩
      rcases Nat.eq_or_lt_of_le h with rfl | hlt
      · rw [hslot, direntOf, if_neg hhole]
        exact Option.some_ne_none _
      · exact hpassed j hlt h'

end Fs

end Xv6
