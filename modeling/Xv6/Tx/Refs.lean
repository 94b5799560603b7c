/-
# References and locks of inodes, with transactions

The triples about the inode cache hold in the presence of transactions. `create` is followed here:
it drops the references it took, and returns its inode locked.
-/

import Xv6.Fs.Refs
import Xv6.Tx.Erase

namespace Xv6

open Math

namespace Tx

variable {framed : ProcId × (ProcId → List BlockAddr)} {stale locked : Set InodeId}
  {r : InodeId → Int}

/-- A property of the file system, beside what the process that runs cannot change. -/
def Framed (framed : ProcId × (ProcId → List BlockAddr)) (holds : Fs → Prop) (s : Tx) : Prop :=
  s.frame = framed ∧ holds s.fs

/-- Counts and locks, beside what the process that runs cannot change. -/
def At (framed : ProcId × (ProcId → List BlockAddr)) (stale : Set InodeId) (r : InodeId → Int)
    (locked : Set InodeId) : Tx → Prop := Framed framed (Fs.At stale r locked)

/-- The inode that a call returns locked, with a reference. -/
def AtCreated (framed : ProcId × (ProcId → List BlockAddr)) (stale : Set InodeId)
    (r : InodeId → Int) : Option InodeId → Tx → Prop
  | none => At framed stale r ∅
  | some ip => At framed stale (r + Pi.single ip 1) (insert ip ∅)

/-- A triple about the file system holds in the presence of transactions. -/
theorem Erases.triple {α : Type} {x : TxM α} {y : FsM α} {pre : Fs → Prop} {post : α → Fs → Prop}
    (erases : Erases x y) (triple : Ensures pre y post anyStop) :
    Ensures (Framed framed pre) x (fun a => Framed framed (post a)) anyStop := by
  refine Ensures.of_runs fun s a t before run => ⟨?_, ?_⟩
  · exact (erases.frame.of_ok run).trans before.1
  · exact (erases.fs.ensures triple).of_ok before.2 run

/-- Code that leaves counts and locks alone. -/
theorem Erases.keeps {α : Type} {x : TxM α} {y : FsM α} (erases : Erases x y)
    (keeps : Keeps Fs.counts y) :
    Ensures (At framed stale r locked) x (fun _ => At framed stale r locked) anyStop :=
  erases.triple (Fs.at_of_keeps keeps)

theorem load_at (ip : InodeId) : Ensures (At framed stale r locked) (load ip)
    (fun _ => At framed stale r locked) anyStop := (load_erases ip).keeps (Fs.keeps_load ip)

theorem bread_at (dev n : Nat) : Ensures (At framed stale r locked) (bread dev n)
    (fun _ => At framed stale r locked) anyStop := (bread_erases dev n).keeps (Fs.keeps_bread dev n)

theorem bwrite_at (dev n : Nat) (d : Block) : Ensures (At framed stale r locked) (bwrite dev n d)
    (fun _ => At framed stale r locked) anyStop :=
  (bwrite_erases dev n d).keeps (Fs.keeps_bwrite dev n d)

section Parts

variable {α : Type} {x : TxM α} {post : α → Tx → Prop}

/-- A change of the copy of a disk inode, written back in front of some code. -/
theorem update_at (ip : InodeId) {change : Dinode → Dinode}
    (rest : Ensures (At framed stale r locked) x post anyStop) :
    Ensures (At framed stale r locked) (do modifyCopy ip change; iupdate ip; x) post anyStop := by
  refine ((modifyCopy_erases ip change).keeps (Fs.keeps_modifyCopy ip change)).bind fun _ => ?_
  exact ((iupdate_erases ip).keeps (Fs.keeps_iupdate ip)).bind fun _ => rest

/-- A commit in front of some code. -/
theorem commit_at (rest : Ensures (At framed stale r locked) x post anyStop) :
    Ensures (At framed stale r locked) (do endTrans; jfullFlush; x) post anyStop :=
  (endTrans_erases.keeps (Keeps.pure ())).bind fun _ =>
    (jfullFlush_erases.keeps (Keeps.pure ())).bind fun _ => rest

end Parts

/-! ### Contents -/

theorem consoleWrite_at (ip : InodeId) (n : Int) : Ensures (At framed stale r locked)
    (consoleWrite ip n) (fun _ => At framed stale r locked) anyStop := by
  -- the driver gives the lock up and takes it again
  refine ((iunlock_erases ip).triple (Fs.iunlock_at ip)).bindAt ?_
  rintro _ s ⟨hframe, hwas, hat⟩
  refine (Ensures.of_holds (At framed stale r (locked \ {ip})) ⟨hframe, hat⟩
    ((ilock_erases ip).triple (Fs.ilock_at ip))).bind fun _ => Ensures.pure ?_
  rintro t ⟨hframe, -, -, h⟩
  exact ⟨hframe, h.relock hwas⟩

theorem writeiLoop_at (ip : InodeId) (src : Nat → UInt8) (n fuel tot off : Nat) :
    Ensures (At framed stale r locked) (writeiLoop ip src n fuel tot off)
      (fun _ => At framed stale r locked) anyStop := by
  induction fuel generalizing tot off with
  | zero => exact Ensures.pure fun _ h => h
  | succ fuel ih =>
    rw [writeiLoop]
    refine Ensures.ite (fun _ => (load_at ip).bind fun _ => ?_) fun _ => Ensures.pure fun _ h => h
    refine ((bmap_erases ip _ true).keeps (Fs.keeps_bmap ip _ true)).bind fun _ => ?_
    exact (bread_at _ _).bind fun _ => (bwrite_at _ _ _).bind fun _ => ih _ _

theorem writei_at (ip : InodeId) (src : Nat → UInt8) (off n : Nat) :
    Ensures (At framed stale r locked) (writei ip src off n) (fun _ => At framed stale r locked)
      anyStop := by
  refine (load_at ip).bind fun _ => Ensures.ite (fun _ => ?_) fun _ => ?_
  · exact Ensures.ite (fun _ => consoleWrite_at ip _) fun _ => Ensures.pure fun _ h => h
  · refine Ensures.ite (fun _ => Ensures.pure fun _ h => h) fun _ => ?_
    refine (writeiLoop_at ip src _ _ _ _).bind fun _ => (load_at ip).bind fun _ => ?_
    refine Ensures.ite (fun _ => ?_) fun _ => Ensures.pure fun _ h => h
    exact update_at ip (Ensures.pure fun _ h => h)

theorem icreateFrom_at (dev : Nat) (type major minor nlink : Short) (n inum : Nat) :
    Ensures (At framed stale r locked) (icreateFrom dev type major minor nlink n inum)
      (fun ip => At framed stale (r + Pi.single ip 1) locked) anyStop := by
  induction n generalizing inum with
  | zero => exact Ensures.throw trivial
  | succ n ih =>
    rw [icreateFrom]
    refine (bread_at dev _).bind fun _ => Ensures.ite (fun _ => ?_) fun _ => ih _
    refine (bwrite_at dev _ _).bind fun _ => commit_at ?_
    exact (onFs_erases _).triple (Fs.iget_at dev inum)

/-! ### Directories -/

theorem emptyDirent_at (dp : InodeId) (n off : Nat) : Ensures (At framed stale r locked)
    (emptyDirent dp n off) (fun _ => At framed stale r locked) anyStop := by
  induction n generalizing off with
  | zero => exact Ensures.pure fun _ h => h
  | succ n ih =>
    rw [emptyDirent]
    refine ((readi_erases dp _ _).triple (Fs.readi_at dp _ _)).bind fun _ => ?_
    refine Ensures.ite (fun _ => Ensures.throw trivial) fun _ => ?_
    exact Ensures.ite (fun _ => Ensures.pure fun _ h => h) fun _ => ih _

theorem dirlink_at (dp : InodeId) (name : List UInt8) (ino : Nat) :
    Ensures (At framed stale r locked) (dirlink dp name ino) (fun _ => At framed stale r locked)
      anyStop := by
  refine Ensures.of_pre fun s hat => Ensures.of_holds _ hat ?_
  refine ((dirlookup_erases dp name).triple (Fs.dirlookup_at dp name)).bind fun found => ?_
  match found with
  | some (ip, _) =>
    -- the name is there: the reference that the lookup took is dropped
    refine ((iput_erases ip).triple (Fs.iput_back_at ip fun jp h => (hat.2.held jp h).2)).bind ?_
    exact fun _ => Ensures.pure fun _ h => h
  | none =>
    refine (load_at dp).bind fun _ => (emptyDirent_at dp _ _).bind fun _ => ?_
    refine (writei_at dp _ _ _).bind fun _ => ?_
    exact Ensures.ite (fun _ => Ensures.throw trivial) fun _ => Ensures.pure fun _ h => h

/-! ### `create` -/

theorem createDots_at (dp ip : InodeId) : Ensures (At framed stale r locked) (createDots dp ip)
    (fun _ => At framed stale r locked) anyStop := by
  refine update_at dp ((load_at ip).bind fun _ => ?_)
  refine (dirlink_at ip dot _).bind fun _ =>
    Ensures.ite (fun _ => Ensures.throw trivial) fun _ => ?_
  refine (load_at dp).bind fun _ => (dirlink_at ip dotdot _).bind fun _ => ?_
  exact Ensures.ite (fun _ => Ensures.throw trivial) fun _ => Ensures.pure fun _ h => h

theorem iunlockput_back_at (ip : InodeId) (out : ip ∉ locked) :
    Ensures (At framed stale (r + Pi.single ip 1) (insert ip locked)) (iunlockput ip)
      (fun _ => At framed stale r locked) anyStop :=
  (iunlockput_erases ip).triple (Fs.iunlockput_back_at ip out)

theorem iunlockput_under_at (ip jp : InodeId) (out : ip ∉ locked) :
    Ensures (At framed stale (r + Pi.single ip 1 + Pi.single jp 1) (insert ip locked))
      (iunlockput ip) (fun _ => At framed stale (r + Pi.single jp 1) locked) anyStop :=
  (iunlockput_erases ip).triple (Fs.iunlockput_under_at ip jp out)

theorem createIn_at (dp : InodeId) (name : List UInt8) (type major minor : Short) :
    Ensures (At framed stale (r + Pi.single dp 1) (insert dp ∅)) (createIn dp name type major minor)
      (AtCreated framed stale r) anyStop := by
  refine (load_at dp).bind fun d => ?_
  refine (((readsb_erases d.dev).keeps (Fs.keeps_readsb d.dev)).bind fun _ =>
    icreateFrom_at d.dev type major minor 1 _ _).bind fun ip => ?_
  refine ((ilock_erases ip).triple (Fs.ilock_at ip)).bindAt ?_
  rintro _ t ⟨hframe, hip, -, hat⟩
  -- `ilock` has found the new inode unlocked, so it is not the directory
  have hne : dp ≠ ip := fun h => hip (h ▸ Set.mem_insert dp ∅)
  have hdp : dp ∉ (insert ip ∅ : Set InodeId) := fun h => h.elim hne fun h => h
  have hboth :
      At framed stale (r + Pi.single ip 1 + Pi.single dp 1) (insert dp (insert ip ∅)) t := by
    rw [add_right_comm, Set.insert_comm]
    exact ⟨hframe, hat⟩
  refine Ensures.of_holds _ hboth ?_
  refine update_at ip ((load_at ip).bind fun _ => ?_)
  refine (dirlink_at dp name _).bind fun _ => Ensures.ite (fun _ => ?_) fun _ => ?_
  · -- the name cannot be entered: both inodes are given back
    refine ((modifyCopy_erases ip _).keeps (Fs.keeps_modifyCopy ip _)).bind fun _ => ?_
    rw [Set.insert_comm]
    refine (iunlockput_under_at ip dp hip).bind fun _ => ?_
    exact (iunlockput_back_at dp (Set.notMem_empty dp)).bind fun _ => Ensures.pure fun _ h => h
  have hlast : Ensures
      (At framed stale (r + Pi.single ip 1 + Pi.single dp 1) (insert dp (insert ip ∅)))
      (do iunlockput dp; endTrans; jfullFlush; pure (some ip)) (AtCreated framed stale r) anyStop :=
    (iunlockput_back_at dp hdp).bind fun _ => commit_at (Ensures.pure fun _ h => h)
  exact Ensures.ite (fun _ => (createDots_at dp ip).bind fun _ => hlast) fun _ => hlast

theorem create_at (cwd : Option InodeId) (path : List UInt8) (canexist : Bool)
    (type major minor : Short) :
    Ensures (At framed stale r ∅) (create cwd path canexist type major minor)
      (AtCreated framed stale r) anyStop := by
  refine ((nameiWalk_erases cwd true path).triple (Fs.nameiWalk_at cwd true path)).bind
    fun found => ?_
  match found with
  | none => exact Ensures.pure fun _ h => h
  | some (dp, name) =>
  refine ((ilock_erases dp).triple (Fs.ilock_at dp)).bindAt ?_
  rintro _ s ⟨hframe, hdp, -, hat⟩
  have hexisting : Ensures (At framed stale (r + Pi.single dp 1) (insert dp ∅))
      (existing canexist dp name) (fun found => Framed framed (Fs.AtFound stale
        (r + Pi.single dp 1) (insert dp ∅) (found.map Prod.fst))) anyStop :=
    Ensures.ite (fun _ => (dirlookup_erases dp name).triple (Fs.dirlookup_at dp name)) fun _ =>
      Ensures.pure fun _ h => h
  refine (Ensures.of_holds (At framed stale _ _) ⟨hframe, hat⟩ hexisting).bind fun found => ?_
  match found with
  | none => exact createIn_at dp name type major minor
  | some (ip, _) =>
  -- the directory is given back before the inode found there is locked
  refine (iunlockput_under_at dp ip hdp).bind fun _ => ?_
  refine ((ilock_erases ip).triple (Fs.ilock_at ip)).bindAt ?_
  rintro _ t ⟨hframe, hip, -, hat⟩
  refine Ensures.of_holds (At framed stale _ _) ⟨hframe, hat⟩ ?_
  refine (load_at ip).bind fun _ => Ensures.ite (fun _ => ?_) fun _ => Ensures.pure fun _ h => h
  exact (iunlockput_back_at ip hip).bind fun _ => Ensures.pure fun _ h => h

end Tx

end Xv6
