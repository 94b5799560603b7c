/-
# Copying and the inode layer

`readi` byte by byte gives the process the bytes that `readi` of the inode layer returns, `writei`
takes the bytes of the process that `writei` of the inode layer is given, and both have the same
effect on the file system.
-/

import Xv6.User.Confined

namespace Xv6

open Math Fs

namespace Copying

/-- Memory after bytes were stored from `dst` on. -/
def storeBytes (mem : Nat → UInt8) (dst : Nat) (bytes : List UInt8) : Nat → UInt8 := fun a =>
  if dst ≤ a ∧ a < dst + bytes.length then bytes.getD (a - dst) 0 else mem a

theorem storeBytes_nil (mem : Nat → UInt8) (dst : Nat) : storeBytes mem dst [] = mem := by
  funext a
  refine if_neg fun h => ?_
  rw [List.length_nil] at h
  omega

theorem storeBytes_append (mem : Nat → UInt8) (dst : Nat) (front back : List UInt8) :
    storeBytes (storeBytes mem dst front) (dst + front.length) back =
      storeBytes mem dst (front ++ back) := by
  funext a
  unfold storeBytes
  rw [List.length_append]
  by_cases hback : dst + front.length ≤ a ∧ a < dst + front.length + back.length
  · rw [if_pos hback, if_pos (by omega), List.getD_append_right _ _ _ _ (by omega)]
    exact congrArg (back.getD · 0) (by omega)
  · rw [if_neg hback]
    by_cases hfront : dst ≤ a ∧ a < dst + front.length
    · rw [if_pos hfront, if_pos (by omega), List.getD_append _ _ _ _ (by omega)]
    · rw [if_neg hfront, if_neg (by omega)]

theorem storeBytes_cons (mem : Nat → UInt8) (dst : Nat) (c : UInt8) (cs : List UInt8) :
    storeBytes (Function.update mem dst c) (dst + 1) cs = storeBytes mem dst (c :: cs) := by
  have hone : Function.update mem dst c = storeBytes mem dst [c] := by
    funext a
    by_cases h : a = dst
    · subst h
      simp [storeBytes]
    · rw [Function.update_of_ne h]
      refine (if_neg fun h' => h ?_).symm
      rw [List.length_singleton] at h'
      omega
  rw [hone]
  exact storeBytes_append mem dst [c] cs

/-- Storing bytes changes nothing but the memory of the process. -/
theorem copyOut_run (bytes : List UInt8) (dst : Nat) (s : Copying) :
    ∃ u, (copyOut dst bytes).run s = .ok () u ∧ u.fs = s.fs ∧ u.file = s.file ∧
      u.mem = storeBytes s.mem dst bytes := by
  induction bytes generalizing dst s with
  | nil => exact ⟨s, rfl, rfl, rfl, (storeBytes_nil ..).symm⟩
  | cons c cs ih =>
    obtain ⟨u, hrun, hfs, hfile, hmem⟩ := ih (dst + 1)
      { s with mem := Function.update s.mem dst c, touched := dst :: s.touched }
    exact ⟨u, hrun, hfs, hfile, by rw [hmem, storeBytes_cons]⟩

variable {ip : InodeId} {off : Nat} {s : Copying} {t : Fs}

/-- The loop of `readi` stores the bytes that the loop of the inode layer returns. -/
theorem readiLoop_refines {fuel left : Nat} (dst : Nat)
    {bytes : List UInt8} (run : (Fs.readiLoop ip fuel off left).run s.fs = .ok bytes t) :
    ∃ u, (readiLoop ip fuel dst off left).run s = .ok () u ∧ u.fs = t ∧ u.file = s.file ∧
      u.mem = storeBytes s.mem dst bytes := by
  induction fuel generalizing dst off left s bytes with
  | zero =>
    cases run
    exact ⟨s, rfl, rfl, rfl, (storeBytes_nil ..).symm⟩
  | succ fuel ih =>
    rw [Fs.readiLoop] at run
    rw [readiLoop]
    by_cases hleft : left = 0
    · rw [if_pos hleft] at run ⊢
      cases run
      exact ⟨s, rfl, rfl, rfl, (storeBytes_nil ..).symm⟩
    · rw [if_neg hleft] at run ⊢
      obtain ⟨r, f₁, hload, run⟩ := run_bind_eq_ok_iff.mp run
      obtain ⟨bno, f₂, hmap, run⟩ := run_bind_eq_ok_iff.mp run
      obtain ⟨bp, f₃, hread, run⟩ := run_bind_eq_ok_iff.mp run
      obtain ⟨rest, f₄, hrest, run⟩ := run_bind_eq_ok_iff.mp run
      cases run
      -- one block, and then the induction hypothesis in the state behind the copy
      set m := min left (BSIZE - off % BSIZE) with hm
      obtain ⟨v, hcopy, hfs, hfile, hmem⟩ :=
        copyOut_run (bp.read (off % BSIZE) m) dst { s with fs := f₃ }
      rw [show f₃ = v.fs from hfs.symm] at hrest
      obtain ⟨u, hloop, hu, hufile, humem⟩ := ih (dst + m) hrest
      refine ⟨u, ?_, hu, hufile.trans hfile, ?_⟩
      · rw [run_bind_of_ok (lift_run hload), run_bind_of_ok (lift_run hmap),
          run_bind_of_ok (lift_run hread), run_bind_of_ok hcopy, hloop]
      · have hlength : (bp.read (off % BSIZE) m).length = m := by
          rw [Block.read, List.length_map, List.length_range]
        rw [humem, hmem, ← storeBytes_append, hlength]

/-- Reading a file that is no device: the memory of the process gets the bytes that `readi` of the
inode layer returns, and the file system is left as it leaves it. -/
theorem readi_refines {ip : InodeId} {dst off n : Nat} {s : Copying} {r : Int}
    {bytes : List UInt8} {t : Fs} (plain : (s.fs.inode ip).copy.type ≠ T_DEV)
    (run : (Fs.readi ip off n).run s.fs = .ok (r, bytes) t) :
    ∃ u, (readi ip dst off n).run s = .ok r u ∧ u.fs = t ∧ u.mem = storeBytes s.mem dst bytes := by
  have hload : (load ip).run s.fs = .ok (s.fs.inode ip) s.fs := rfl
  rw [Fs.readi, run_bind_of_ok hload, if_neg plain] at run
  rw [readi, run_bind_of_ok (lift_run hload), if_neg plain]
  dsimp only at run ⊢
  split at run
  next hbad =>
    rw [if_pos hbad]
    cases run
    exact ⟨s, rfl, rfl, (storeBytes_nil ..).symm⟩
  next hgood =>
    rw [if_neg hgood]
    obtain ⟨read, f, hloop, run⟩ := run_bind_eq_ok_iff.mp run
    cases run
    obtain ⟨u, hu, hfs, -, hmem⟩ := readiLoop_refines (s := s) dst hloop
    exact ⟨u, by rw [run_bind_of_ok hu]; rfl, hfs, hmem⟩

/-- Reading bytes changes nothing but the history. -/
theorem copyIn_run (m src : Nat) (s : Copying) :
    ∃ u, (copyIn src m).run s = .ok ((List.range m).map fun i => s.mem (src + i)) u ∧
      u.fs = s.fs ∧ u.mem = s.mem := by
  induction m generalizing src s with
  | zero => exact ⟨s, rfl, rfl, rfl⟩
  | succ m ih =>
    have hpeek : (peek src).run s = .ok (s.mem src) { s with touched := src :: s.touched } := rfl
    obtain ⟨u, hrun, hfs, hmem⟩ := ih (src + 1) { s with touched := src :: s.touched }
    refine ⟨u, ?_, hfs, hmem⟩
    rw [copyIn, run_bind_of_ok hpeek, run_bind_of_ok hrun, List.range_succ_eq_map, List.map_cons,
      List.map_map]
    have hshift : ((fun i => s.mem (src + i)) ∘ Nat.succ) = fun i => s.mem (src + 1 + i) := by
      funext i
      exact congrArg s.mem (by omega)
    rw [hshift]
    rfl

/-- The loop of `writei` writes the bytes that the loop of the inode layer is given. -/
theorem writeiLoop_refines {n fuel tot : Nat} (src : Nat)
    {bytes : Nat → UInt8} {end_ : Nat} (same : ∀ i, bytes (tot + i) = s.mem (src + i))
    (run : (Fs.writeiLoop ip bytes n fuel tot off).run s.fs = .ok end_ t) :
    ∃ u, (writeiLoop ip n fuel src tot off).run s = .ok end_ u ∧ u.fs = t ∧ u.mem = s.mem := by
  induction fuel generalizing src tot off s with
  | zero =>
    cases run
    exact ⟨s, rfl, rfl, rfl⟩
  | succ fuel ih =>
    rw [Fs.writeiLoop] at run
    rw [writeiLoop]
    by_cases hmore : tot < n
    · rw [if_pos hmore] at run ⊢
      obtain ⟨r, f₁, hload, run⟩ := run_bind_eq_ok_iff.mp run
      obtain ⟨bno, f₂, hmap, run⟩ := run_bind_eq_ok_iff.mp run
      obtain ⟨bp, f₃, hread, run⟩ := run_bind_eq_ok_iff.mp run
      obtain ⟨_, f₄, hwrite, run⟩ := run_bind_eq_ok_iff.mp run
      set m := min (n - tot) (BSIZE - off % BSIZE) with hm
      obtain ⟨v, hcopy, hfs, hmem⟩ := copyIn_run m src { s with fs := f₃ }
      -- the bytes fetched from the process are those that the inode layer is given
      have hblock : bp.write (off % BSIZE) (fun i => (((List.range m).map fun i =>
          s.mem (src + i)).getD i 0)) m = bp.write (off % BSIZE) (fun i => bytes (tot + i)) m := by
        funext j
        unfold Block.write
        split
        next hj =>
          dsimp only
          rw [same, List.getD_eq_getElem _ _ (by rw [List.length_map, List.length_range]; omega),
            List.getElem_map, List.getElem_range]
        next => rfl
      rw [← hblock, show f₃ = v.fs from hfs.symm] at hwrite
      obtain ⟨u, hloop, hu, humem⟩ := ih (src + m) (s := { v with fs := f₄ })
        (fun i => by rw [Nat.add_assoc, same, Nat.add_assoc, hmem]) run
      refine ⟨u, ?_, hu, humem.trans hmem⟩
      rw [run_bind_of_ok (lift_run hload), run_bind_of_ok (lift_run hmap),
        run_bind_of_ok (lift_run hread), run_bind_of_ok hcopy, run_bind_of_ok (lift_run hwrite),
        hloop]
    · rw [if_neg hmore] at run ⊢
      cases run
      exact ⟨s, rfl, rfl, rfl⟩

/-- Writing a file that is no device: the file system is left as `writei` of the inode layer
leaves it with the bytes of the process, and the process keeps its memory. -/
theorem writei_refines {src n : Nat} {r : Int} (plain : (s.fs.inode ip).copy.type ≠ T_DEV)
    (run : (Fs.writei ip (fun i => s.mem (src + i)) off n).run s.fs = .ok r t) :
    ∃ u, (writei ip src off n).run s = .ok r u ∧ u.fs = t ∧ u.mem = s.mem := by
  have hload : (load ip).run s.fs = .ok (s.fs.inode ip) s.fs := rfl
  rw [Fs.writei, run_bind_of_ok hload, if_neg plain] at run
  rw [writei, run_bind_of_ok (lift_run hload), if_neg plain]
  dsimp only at run ⊢
  split at run
  next hbad =>
    rw [if_pos hbad]
    cases run
    exact ⟨s, rfl, rfl, rfl⟩
  next hgood =>
    rw [if_neg hgood]
    generalize (if MAXFILE * BSIZE < off + n then (MAXFILE * BSIZE + 2 ^ 32 - off) % 2 ^ 32
      else n) = k at run ⊢
    obtain ⟨end_, f, hloop, run⟩ := run_bind_eq_ok_iff.mp run
    obtain ⟨v, hv, hfs, hmem⟩ := writeiLoop_refines src (fun i => by rw [Nat.zero_add]) hloop
    subst hfs
    have hsize : (load ip).run v.fs = .ok (v.fs.inode ip) v.fs := rfl
    rw [run_bind_of_ok hsize] at run
    rw [run_bind_of_ok hv, run_bind_of_ok (lift_run hsize)]
    split at run
    next hgrows =>
      rw [if_pos hgrows]
      obtain ⟨_, f₁, hcopy, run⟩ := run_bind_eq_ok_iff.mp run
      obtain ⟨_, f₂, hupdate, run⟩ := run_bind_eq_ok_iff.mp run
      cases run
      refine ⟨{ v with fs := t }, ?_, rfl, hmem⟩
      rw [run_bind_of_ok (lift_run hcopy), run_bind_of_ok (lift_run hupdate)]
      rfl
    next hkeeps =>
      rw [if_neg hkeeps]
      cases run
      exact ⟨v, rfl, rfl, hmem⟩

/-- All ten bytes of a small file are read. -/
theorem readi_refines_smallFile :
    ∃ bytes u, bytes.length = 10 ∧ (readi 0 100 0 10).run (smallFile 10) = .ok 10 u ∧
      u.mem = storeBytes (smallFile 10).mem 100 bytes := by
  have hdone : returnedWith (fun a _ => a.1 = 10 ∧ a.2.length = 10)
      ((Fs.readi 0 0 10).run (smallFile 10).fs) := by decide +kernel
  obtain ⟨⟨r, bytes⟩, t, hrun, htest⟩ := exists_of_returnedWith hdone
  obtain ⟨rfl, hlength⟩ := of_decide_eq_true htest
  obtain ⟨u, hread, -, hmem⟩ := @readi_refines 0 100 0 10 (smallFile 10) _ _ _ (by decide) hrun
  exact ⟨bytes, u, hlength, hread, hmem⟩

end Copying

end Xv6
