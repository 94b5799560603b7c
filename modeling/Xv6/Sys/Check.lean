/-
# The call `check`

`check(fd, offset)` asks whether the block with a byte of a file is in the buffer cache. The offset
is an `int`: `checki` divides it, which rounds towards zero, and `bmap` takes the result for a
`uint`. The call is a pure query for the offsets that a file can have and for pipes; small negative
offsets are taken for the first block, and all others make `bmap` panic.
-/

import Xv6.Fs.Trunc
import Xv6.Sys.Exhausted

namespace Xv6

open Math

namespace Tx

variable (s : Tx) (ip : InodeId)

/-- The process has asked for blocks; those of its own transaction are recorded. -/
def ask (blocks : List BlockAddr) : Tx :=
  { s with waits := s.waits ++ blocks.filter (· ∈ s.curmt) }

theorem ask_append (blocks more : List BlockAddr) :
    (s.ask blocks).ask more = s.ask (blocks ++ more) := by
  rw [ask, ask, ask, List.filter_append, List.append_assoc]
  rfl

theorem ask_eq_iff (blocks : List BlockAddr) : s.ask blocks = s ↔ ∀ a ∈ blocks, a ∉ s.curmt := by
  have hnone : blocks.filter (· ∈ s.curmt) = [] ↔ ∀ a ∈ blocks, a ∉ s.curmt := by
    simp only [List.filter_eq_nil_iff, decide_eq_true_eq]
  rw [← hnone]
  constructor
  · intro h
    exact List.append_right_eq_self.mp (congrArg Tx.waits h)
  · intro h
    rw [ask, h, List.append_nil]

theorem bread_run (dev sector : Nat) :
    (bread dev sector).run s = .ok (s.fs.sector ⟨dev, sector⟩) (s.ask [⟨dev, sector⟩]) := by
  have hget : (bget ⟨dev, sector⟩).run s = .ok () (s.ask [⟨dev, sector⟩]) := by
    change EStateM.Result.ok () _ = _
    by_cases h : (⟨dev, sector⟩ : BlockAddr) ∈ s.curmt
    · simp only [ask, h, if_true, List.filter_cons, decide_true, List.filter_nil]
    · simp only [ask, h, if_false, List.filter_cons, decide_false, List.filter_nil,
        List.append_nil, Bool.false_eq_true]
  rw [bread, run_bind_of_ok hget]
  rfl

/-- The address of block `bn` of an inode, 0 if there is none. -/
def blockAddr (bn : Nat) : Nat := s.fs.addrAt (s.fs.inode ip).dev (.slot ip) (.ofBlock bn)

/-- The blocks of addresses that lead to block `bn`. -/
def tablesTo (bn : Nat) : List BlockAddr :=
  if bn < NDIRECT then []
  else
    ([Pos.root, .second ((bn - NDIRECT) / NADDRBLOCK)].map
      (s.fs.addrAt (s.fs.inode ip).dev (.slot ip))).filter (· ≠ 0) |>.map
        (⟨(s.fs.inode ip).dev, ·⟩)

/-- What a block of addresses or an inode has for an address. -/
def found (addr : UInt32) : Option UInt32 := if addr = 0 then none else some addr

theorem addrOrAlloc_run (k : Fin NADDRS) :
    (addrOrAlloc ip k false).run s = .ok (found ((s.fs.inode ip).copy.addrs k)) s := by
  have hload : (load ip).run s = .ok (s.fs.inode ip) s := rfl
  rw [addrOrAlloc, run_bind_of_ok hload, found]
  by_cases haddr : (s.fs.inode ip).copy.addrs k = 0
  · rw [if_pos haddr, if_neg (not_not_intro haddr)]
    rfl
  · rw [if_neg haddr, if_pos haddr]
    rfl

theorem entryOrAlloc_run (dev : Nat) (table : UInt32) (i : Nat) :
    (entryOrAlloc dev table i false).run s =
      .ok (found ((s.fs.disk dev table.toNat).addr i)) (s.ask [⟨dev, table.toNat⟩]) := by
  have hdisk : s.fs.sector ⟨dev, table.toNat⟩ = s.fs.disk dev table.toNat := rfl
  rw [entryOrAlloc, run_bind_of_ok (bread_run s ..), found, hdisk]
  by_cases haddr : (s.fs.disk dev table.toNat).addr i = 0
  · rw [if_pos haddr, if_neg (not_not_intro haddr)]
    rfl
  · rw [if_neg haddr, if_pos haddr]
    rfl

/-- The block number that `bmap` returns for an address. -/
def numberOf (addr : Nat) : UInt32 := if addr = 0 then Fs.noBlock else UInt32.ofNat addr

theorem toNat_ne_zero {addr : UInt32} (present : addr ≠ 0) : addr.toNat ≠ 0 :=
  fun h => present (UInt32.toNat_inj.mp h)

theorem getD_found (addr : UInt32) : (found addr).getD Fs.noBlock = numberOf addr.toNat := by
  rw [found, numberOf]
  by_cases haddr : addr = 0
  · rw [if_pos haddr, haddr]
    rfl
  · rw [if_neg haddr, if_neg (toNat_ne_zero haddr), UInt32.ofNat_toNat]
    rfl

theorem bmap_run {bn : Nat} (inside : bn < MAXFILE) :
    (bmap ip bn false).run s = .ok (numberOf (s.blockAddr ip bn)) (s.ask (s.tablesTo ip bn)) := by
  have hnil : s.ask [] = s := (ask_eq_iff s []).mpr nofun
  rw [bmap, blockAddr, tablesTo, Pos.ofBlock]
  by_cases hdirect : bn < NDIRECT
  · rw [dif_pos hdirect, run_bind_of_ok (addrOrAlloc_run ..), if_pos hdirect, if_pos hdirect, hnil,
      getD_found, Fs.addrAt, Dinode.addrAt, dif_pos hdirect]
    rfl
  · have hbn : bn - NDIRECT < NININDIRECT := by
      unfold MAXFILE at inside
      omega
    have hload : (load ip).run s = .ok (s.fs.inode ip) s := rfl
    rw [dif_neg hdirect, if_pos hbn, run_bind_of_ok hload, run_bind_of_ok (addrOrAlloc_run ..),
      if_neg hdirect, if_neg hdirect, found]
    set j := (bn - NDIRECT) / NADDRBLOCK
    set disk := s.fs.disk (s.fs.inode ip).dev with hdisk
    set root := (s.fs.inode ip).copy.addrs rootIndex
    have hroot : s.fs.addrAt (s.fs.inode ip).dev (.slot ip) .root = root.toNat := rfl
    have hsecond : s.fs.addrAt (s.fs.inode ip).dev (.slot ip) (.second j) =
      entry disk root.toNat j := rfl
    have hdata (k : Nat) : s.fs.addrAt (s.fs.inode ip).dev (.slot ip) (.data j k) =
      entry disk (entry disk root.toNat j) k := rfl
    rw [List.map_cons, List.map_singleton, hroot, hsecond, hdata]
    by_cases hnone : root = 0
    · rw [if_pos hnone, hnone]
      exact congrArg (EStateM.Result.ok Fs.noBlock) hnil.symm
    rw [if_neg hnone]
    dsimp only
    have hentry : entry disk root.toNat j = ((disk root.toNat).addr j).toNat :=
      if_neg (toNat_ne_zero hnone)
    rw [run_bind_of_ok (entryOrAlloc_run ..), ← hdisk, hentry, found]
    by_cases hempty : (disk root.toNat).addr j = 0
    · rw [if_pos hempty, hempty]
      simp [toNat_ne_zero hnone, entry, numberOf]
    · have hentry' (k : Nat) : entry disk ((disk root.toNat).addr j).toNat k =
          ((disk ((disk root.toNat).addr j).toNat).addr k).toNat := if_neg (toNat_ne_zero hempty)
      rw [if_neg hempty, hentry']
      dsimp only
      rw [run_bind_of_ok (entryOrAlloc_run ..), getD_found, ask_append]
      simp [toNat_ne_zero hnone, toNat_ne_zero hempty]
      rfl

theorem bmap_panics {bn : Nat} (outside : MAXFILE ≤ bn) :
    (bmap ip bn false).run s = .error (.panic "bmap: out of range") s := by
  unfold MAXFILE at outside
  rw [bmap, dif_neg (by omega), if_neg (by omega)]
  rfl

/-- The block at an address is one that `bcheck` finds. -/
def InCache (addr : Nat) : Prop := addr ≠ 0 ∧ s.fs.buffered ⟨(s.fs.inode ip).dev, addr⟩ = true

instance (addr : Nat) : Decidable (s.InCache ip addr) := inferInstanceAs (Decidable (_ ∧ _))

/-- A block number with the top bit is taken for a failure of `bmap`. -/
theorem checki_run {off : Int} (inside : word32 (off.tdiv BSIZE) < MAXFILE) :
    (checki ip off).run s =
      .ok (if s.blockAddr ip (word32 (off.tdiv BSIZE)) < 2 ^ 31 ∧
          s.InCache ip (s.blockAddr ip (word32 (off.tdiv BSIZE))) then 1 else 0)
        (s.ask (s.tablesTo ip (word32 (off.tdiv BSIZE)))) := by
  rw [checki, run_bind_of_ok (bmap_run s ip inside)]
  generalize hdef : s.blockAddr ip (word32 (off.tdiv BSIZE)) = addr
  have hword : addr < 2 ^ 32 := by
    rw [← hdef]
    exact Fs.addrAt_lt _
  by_cases hnone : addr = 0
  · have habsent : ¬ (0 < 2 ^ 31 ∧ s.InCache ip 0) := fun h => h.2.1 rfl
    have hfails : 2 ^ 31 ≤ (numberOf 0).toNat := by decide
    rw [hnone, if_neg habsent, if_pos hfails]
    rfl
  have hnumber : (numberOf addr).toNat = addr := by
    rw [numberOf, if_neg hnone]
    exact UInt32.toNat_ofNat_of_lt' hword
  rw [run_ite, hnumber]
  by_cases hlarge : 2 ^ 31 ≤ addr
  · rw [if_pos hlarge, if_neg fun h => absurd h.1 hlarge.not_gt]
    rfl
  · rw [if_neg hlarge]
    change EStateM.Result.ok
      (if s.fs.buffered ⟨(s.fs.inode ip).dev, addr⟩ = true then 1 else 0) _ = _
    by_cases hcached : s.fs.buffered ⟨(s.fs.inode ip).dev, addr⟩ = true
    · rw [if_pos hcached, if_pos ⟨Nat.lt_of_not_le hlarge, hnone, hcached⟩]
    · rw [if_neg hcached, if_neg fun h => hcached h.2.2]

/-! ### Under the lock -/

/-- The inode while `check` holds it. -/
def locked : Tx := { s with fs := s.fs.setInode ip fun r => { r with busy := true } }

theorem locked_inode : (s.locked ip).fs.inode ip = { s.fs.inode ip with busy := true } :=
  s.fs.setInode_self ip fun r => { r with busy := true }

theorem addrAt_locked (dev : Nat) :
    (s.locked ip).fs.addrAt dev (.slot ip) = s.fs.addrAt dev (.slot ip) := by
  funext p
  rw [Fs.addrAt, Fs.addrAt, Fs.copyOf, Fs.copyOf, locked_inode]
  rfl

theorem blockAddr_locked (bn : Nat) : (s.locked ip).blockAddr ip bn = s.blockAddr ip bn := by
  rw [blockAddr, addrAt_locked, locked_inode]
  rfl

theorem tablesTo_locked (bn : Nat) : (s.locked ip).tablesTo ip bn = s.tablesTo ip bn := by
  rw [tablesTo, addrAt_locked, locked_inode]
  rfl

theorem inCache_locked (addr : Nat) : (s.locked ip).InCache ip addr ↔ s.InCache ip addr := by
  rw [InCache, InCache, locked_inode]
  rfl

variable {s ip}

theorem ilock_run (free : (s.fs.inode ip).busy = false) (held : 0 < (s.fs.inode ip).ref)
    (valid : (s.fs.inode ip).valid = true) : (ilock ip).run s = .ok () (s.locked ip) := by
  have hload : (load ip).run s = .ok (s.fs.inode ip) s := rfl
  have hmark : (modifyInode ip fun r => { r with busy := true }).run s = .ok () (s.locked ip) := rfl
  rw [ilock, run_bind_of_ok hload, if_neg (by omega), free, if_neg (by decide),
    run_bind_of_ok hmark, if_pos valid]
  rfl

/-- The lock is given back; only the record of the blocks asked for is left. -/
theorem iunlock_run (free : (s.fs.inode ip).busy = false) (held : 0 < (s.fs.inode ip).ref)
    (blocks : List BlockAddr) :
    (iunlock ip).run ((s.locked ip).ask blocks) = .ok () (s.ask blocks) := by
  have hslot := locked_inode s ip
  have hfs : (s.locked ip).fs.setInode ip (fun r => { r with busy := false }) = s.fs := by
    have hsame : { s.fs.inode ip with busy := false } = s.fs.inode ip := by rw [← free]
    rw [Fs.setInode, hslot, hsame, locked, Fs.setInode]
    simp only [Function.update_idem, Function.update_eq_self]
  have hunlock : (Fs.iunlock ip).run (s.locked ip).fs = .ok () s.fs := by
    rw [Fs.iunlock_run (by rw [hslot]) (by rw [hslot]; exact held), hfs]
  exact zoom_run_of_ok hunlock

end Tx

namespace Sys

/-- An open file: a pipe, or an inode that has been read from disk and that nobody else holds. -/
structure IsOpen (s : Sys) (f : FileId) : Prop where
  mode : ¬ ((s.file f).readable = false ∧ (s.file f).writable = false)
  kind : (s.file f).type = .FD_PIPE ∨ (s.file f).type = .FD_INODE ∧ ∃ ip,
    (s.file f).ip = some ip ∧ (s.tx.fs.inode ip).busy = false ∧ 0 < (s.tx.fs.inode ip).ref ∧
      (s.tx.fs.inode ip).valid = true

/-- The byte at `off` is in a block of the inode that is in the buffer cache. -/
def Cached (s : Sys) (f : FileId) (off : Int) : Prop :=
  (s.file f).type = .FD_INODE ∧ ∃ ip, (s.file f).ip = some ip ∧ 0 ≤ off ∧
    s.tx.InCache ip (s.tx.blockAddr ip (off.toNat / BSIZE))

/-- `check` returns -1, 0 or 1, and 1 exactly if the byte is in the cache; nothing is changed. -/
def ChecksPurely (s : Sys) (fd : Fd) (f : FileId) (off : Int) : Prop :=
  ∃ v, (sysCheck (some fd) (some off)).run s = .ok v s ∧ (v = -1 ∨ v = 0 ∨ v = 1) ∧
    (v = 1 ↔ s.Cached f off)

/-- A pipe; or an offset that a file can have, with a block whose number is not taken for a failure
and with no block of addresses on the way to it in the transaction of the caller; or a negative
offset that is taken for the first block, when that is not in the cache. -/
def Checkable (s : Sys) (f : FileId) (off : Int) : Prop :=
  (s.file f).type = .FD_PIPE ∨ ∃ ip, (s.file f).ip = some ip ∧
    (0 ≤ off ∧ off < MAXFILE * BSIZE ∧
        (∀ a ∈ s.tx.tablesTo ip (off.toNat / BSIZE), a ∉ s.tx.curmt) ∧
        ¬ (2 ^ 31 ≤ s.tx.blockAddr ip (off.toNat / BSIZE) ∧
          s.tx.InCache ip (s.tx.blockAddr ip (off.toNat / BSIZE))) ∨
      -BSIZE < off ∧ off < 0 ∧
        ¬ (s.tx.blockAddr ip 0 < 2 ^ 31 ∧ s.tx.InCache ip (s.tx.blockAddr ip 0)))

variable {s : Sys} {fd : Fd} {f : FileId} {ip : InodeId} {off : Int}

theorem argfd_run (here : (s.own s.cp).ofile fd = some f) :
    (argfd (some (fd : Int))).run s = .ok (some (fd, f)) s := by
  have hfd : (s.own s.cp).argfd fd = some (fd, f) := by
    rw [Own.argfd, dif_pos ⟨by omega, by omega⟩]
    simp only [Int.toNat_natCast, Fin.eta, here, Option.map_some]
  change EStateM.Result.ok ((s.own s.cp).argfd fd) s = _
  rw [hfd]

theorem sysCheck_pipe_run (here : (s.own s.cp).ofile fd = some f) (opened : s.IsOpen f)
    (pipe : (s.file f).type = .FD_PIPE) :
    (sysCheck (some fd) (some off)).run s = .ok 0 s := by
  have hload : (loadFile f).run s = .ok (s.file f) s := rfl
  rw [sysCheck, run_bind_of_ok (argfd_run here)]
  dsimp only
  rw [filecheck, run_bind_of_ok hload, if_neg opened.mode, pipe]
  rfl

section Inode

variable (here : (s.own s.cp).ofile fd = some f) (opened : s.IsOpen f)
  (inode : (s.file f).type = .FD_INODE) (slot : (s.file f).ip = some ip)
  (free : (s.tx.fs.inode ip).busy = false) (held : 0 < (s.tx.fs.inode ip).ref)
  (valid : (s.tx.fs.inode ip).valid = true)

include here opened inode slot free held valid

/-- Up to the lookup in the cache. -/
theorem sysCheck_inode_run :
    (sysCheck (some fd) (some off)).run s = (do
      let v ← onTx (Tx.checki ip off)
      onTx (Tx.iunlock ip)
      pure v : SysM Int).run { s with tx := s.tx.locked ip } := by
  have hload : (loadFile f).run s = .ok (s.file f) s := rfl
  have hfollow : (follow (some ip)).run s = .ok ip s := rfl
  rw [sysCheck, run_bind_of_ok (argfd_run here)]
  dsimp only
  rw [filecheck, run_bind_of_ok hload, if_neg opened.mode, inode, slot]
  dsimp only
  rw [run_bind_of_ok hfollow, run_bind_of_ok (onTx_run_of_ok (Tx.ilock_run free held valid))]

theorem sysCheck_inside_run (inside : word32 (off.tdiv BSIZE) < MAXFILE) :
    (sysCheck (some fd) (some off)).run s =
      .ok (if s.tx.blockAddr ip (word32 (off.tdiv BSIZE)) < 2 ^ 31 ∧
          s.tx.InCache ip (s.tx.blockAddr ip (word32 (off.tdiv BSIZE))) then 1 else 0)
        { s with tx := s.tx.ask (s.tx.tablesTo ip (word32 (off.tdiv BSIZE))) } := by
  have hcheck := Tx.checki_run (s.tx.locked ip) ip inside
  simp only [Tx.blockAddr_locked, Tx.tablesTo_locked, Tx.inCache_locked] at hcheck
  rw [sysCheck_inode_run here opened inode slot free held valid,
    run_bind_of_ok (onTx_run_of_ok hcheck),
    run_bind_of_ok (onTx_run_of_ok (Tx.iunlock_run free held _))]
  rfl

theorem sysCheck_outside_panics (outside : MAXFILE ≤ word32 (off.tdiv BSIZE)) :
    ∃ t, (sysCheck (some fd) (some off)).run s =
      .error (.fs (.panic "bmap: out of range")) t := by
  have hcheck : (Tx.checki ip off).run (s.tx.locked ip) =
      .error (.panic "bmap: out of range") (s.tx.locked ip) := by
    rw [Tx.checki, run_bind_of_error (Tx.bmap_panics (s.tx.locked ip) ip outside)]
  rw [sysCheck_inode_run here opened inode slot free held valid]
  exact ⟨_, run_bind_of_error (zoom_run_of_error hcheck)⟩

end Inode

/-- The block number that `bmap` gets. -/
theorem word32_tdiv (low : -2 ^ 31 ≤ off) (high : off < 2 ^ 31) :
    (0 ≤ off ∧ word32 (off.tdiv BSIZE) = off.toNat / BSIZE) ∨
      (-BSIZE < off ∧ off < 0 ∧ word32 (off.tdiv BSIZE) = 0) ∨
        (off ≤ -BSIZE ∧ MAXFILE ≤ word32 (off.tdiv BSIZE)) := by
  unfold word32 BSIZE
  rcases Int.le_total 0 off with h | h
  · refine .inl ⟨h, ?_⟩
    rw [Int.tdiv_eq_ediv_of_nonneg h]
    omega
  · obtain ⟨n, rfl⟩ : ∃ n : Nat, off = -(n : Int) := ⟨off.natAbs, by omega⟩
    have hdiv : (-(n : Int)).tdiv ((512 : Nat) : Int) = -((n / 512 : Nat) : Int) := by
      rw [Int.neg_tdiv, Int.tdiv_eq_ediv_of_nonneg (by omega)]
      omega
    rw [hdiv]
    have hmax : MAXFILE ≤ 2 ^ 32 - 2 ^ 22 := by decide
    omega

/-- A call of `check` that returns `v`. -/
theorem checksPurely_iff {v : Int} {t : Sys}
    (run : (sysCheck (some fd) (some off)).run s = .ok v t) :
    s.ChecksPurely fd f off ↔ t = s ∧ (v = -1 ∨ v = 0 ∨ v = 1) ∧ (v = 1 ↔ s.Cached f off) := by
  constructor
  · rintro ⟨w, hrun, hw⟩
    obtain ⟨rfl, rfl⟩ := EStateM.Result.ok.inj (run.symm.trans hrun)
    exact ⟨rfl, hw⟩
  · rintro ⟨rfl, hv⟩
    exact ⟨v, run, hv⟩

theorem not_checksPurely {e : SysStop} {t : Sys}
    (run : (sysCheck (some fd) (some off)).run s = .error e t) : ¬ s.ChecksPurely fd f off := by
  rintro ⟨v, hrun, -⟩
  rw [run] at hrun
  cases hrun

end Sys

/-- The answer is 0 or 1. -/
theorem answer_iff (P Q : Prop) [Decidable P] :
    (((if P then (1 : Int) else 0) = -1 ∨ (if P then (1 : Int) else 0) = 0 ∨
      (if P then (1 : Int) else 0) = 1) ∧ ((if P then (1 : Int) else 0) = 1 ↔ Q)) ↔ (P ↔ Q) := by
  by_cases h : P <;> simp [h]

theorem noFiles_isOpen : noFiles.IsOpen 0 :=
  ⟨by decide, .inr ⟨rfl, 0, rfl, rfl, by decide, rfl⟩⟩

/-- The file has two blocks, at 250 and 251, and the first one is in the buffer cache. -/
def halfCached : Sys :=
  { noFiles with tx.fs :=
    { noFiles.tx.fs with
      inode := Function.update blankFs.inode 0 ⟨ROOTDEV, 1, 2, false, true,
        { rootInode with
          size := 1024
          addrs := fun k => if k.val = 0 then 250 else if k.val = 1 then 251 else 0 }⟩
      buffered := fun a => a = ⟨ROOTDEV, 250⟩ } }

end Xv6
