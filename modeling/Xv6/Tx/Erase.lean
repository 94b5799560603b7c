/-
# Forgetting the transactions

The code with its transactions does to the file system what the code on the sector map does.
Every function is compared with its namesake, so that what is known about the file system
alone holds in the presence of transactions.
-/

import Xv6.Tx.Calls

namespace Xv6

open Math

namespace Tx

/-- What one process cannot change: which process runs, and the transactions of the others. -/
def frame (s : Tx) : ProcId × (ProcId → List BlockAddr) := (s.cp, Function.update s.ct s.cp [])

theorem frame_setCurmt (s : Tx) (bufs : List BlockAddr) : (s.setCurmt bufs).frame = s.frame :=
  congrArg (Prod.mk s.cp) (Function.update_idem ..)

/-- Apart from the transaction of the process that runs, `x` does what `y` does. -/
structure Erases {α : Type} (x : TxM α) (y : FsM α) : Prop where
  fs : Projects Tx.fs x y
  frame : Keeps Tx.frame x

namespace Erases

variable {α β : Type} {x x' : TxM α} {y y' : FsM α}

theorem pure (a : α) : Erases (pure a : TxM α) (pure a) := ⟨Projects.pure a, Keeps.pure a⟩

theorem throw (e : FsStop) : Erases (throw e : TxM α) (throw e) :=
  ⟨Projects.throw e, Keeps.throw e⟩

theorem bind {f : α → TxM β} {g : α → FsM β} (first : Erases x y)
    (rest : ∀ a, Erases (f a) (g a)) : Erases (x >>= f) (y >>= g) :=
  ⟨first.fs.bind fun a => (rest a).fs, first.frame.bind fun a => (rest a).frame⟩

theorem ite {c : Prop} [Decidable c] (hx : Erases x y) (hy : Erases x' y') :
    Erases (if c then x else x') (if c then y else y') :=
  ⟨hx.fs.ite hy.fs, Keeps.ite hx.frame hy.frame⟩

theorem forM {step : β → TxM PUnit} {step' : β → FsM PUnit} (each : ∀ b, Erases (step b) (step' b))
    (bs : List β) : Erases (bs.forM step) (bs.forM step') :=
  ⟨Projects.forM (fun b => (each b).fs) bs, Keeps.forM (fun b => (each b).frame) bs⟩

/-- A change of the transactions is not seen. -/
theorem modify {g : Tx → Tx} (unseen : ∀ s, (g s).fs = s.fs) (framed : ∀ s, (g s).frame = s.frame) :
    Erases (modify g) (Pure.pure ⟨⟩) := ⟨Projects.modify unseen, Keeps.modify framed⟩

/-- A first part that is not seen. -/
theorem silent {f : α → TxM β} {y : FsM β} {a : α} (first : Erases x (Pure.pure a))
    (rest : ∀ b, Erases (f b) y) : Erases (x >>= f) y :=
  ⟨first.fs.silent (rest a).fs, first.frame.bind fun b => (rest b).frame⟩

/-- What returns without transactions returns with them. -/
theorem run_ok (erases : Erases x y) {s : Tx} {t : Fs} {a : α} (run : y.run s.fs = .ok a t) :
    ∃ u, x.run s = .ok a u ∧ u.fs = t := erases.fs.run_ok run

end Erases

theorem onFs_erases {α : Type} (x : FsM α) : Erases (onFs x) x :=
  ⟨Projects.zoom (fun _ _ => rfl) x, keeps_zoom fun _ _ => rfl⟩

theorem bread_erases (dev sector : Nat) : Erases (bread dev sector) (Fs.bread dev sector) := by
  refine Erases.silent (a := ()) (Erases.modify (fun s => ?_) fun s => ?_) fun _ => onFs_erases _
  · split <;> rfl
  · split <;> rfl

theorem bwrite_erases (dev sector : Nat) (d : Block) :
    Erases (bwrite dev sector d) (Fs.bwrite dev sector d) :=
  Erases.silent (a := ()) (Erases.modify (fun _ => rfl) fun s => frame_setCurmt s _)
    fun _ => onFs_erases _

theorem endTrans_erases : Erases endTrans (pure ()) := by
  refine Erases.modify (fun s => ?_) fun s => ?_
  · split <;> rfl
  · split
    · exact frame_setCurmt s []
    · rfl

theorem jfullFlush_erases : Erases jfullFlush (pure ()) :=
  Erases.modify (fun _ => rfl) fun _ => rfl

/-- A commit in front of some code is not seen. -/
theorem endTrans_bind {α : Type} {x : TxM α} {y : FsM α} (rest : Erases x y) :
    Erases (do endTrans; x) y := Erases.silent endTrans_erases fun _ => rest

theorem jfullFlush_bind {α : Type} {x : TxM α} {y : FsM α} (rest : Erases x y) :
    Erases (do jfullFlush; x) y := Erases.silent jfullFlush_erases fun _ => rest

/-! ### Blocks -/

theorem readsb_erases (dev : Nat) : Erases (readsb dev) (Fs.readsb dev) :=
  (bread_erases dev 1).bind fun _ => Erases.pure _

theorem bzero_erases (dev bno : Nat) : Erases (bzero dev bno) (Fs.bzero dev bno) := by
  refine ⟨fun s => ?_, (bread_erases dev bno).frame.bind fun _ => (bwrite_erases ..).frame⟩
  have hread := (bread_erases dev bno).fs s
  cases h : (bread dev bno).run s with
  | ok d t =>
    rw [h] at hread
    have hfs : t.fs = s.fs := (EStateM.Result.ok.inj (show EStateM.Result.ok d t.fs =
      EStateM.Result.ok (s.fs.sector ⟨dev, bno⟩) s.fs from hread)).2
    rw [bzero, run_bind_of_ok h, (bwrite_erases dev bno Block.zero).fs t, hfs]
    rfl
  | error e t =>
    rw [h] at hread
    cases hread

theorem ballocFrom_erases (dev : Nat) (sb : Superblock) (n b : Nat) :
    Erases (ballocFrom dev sb n b) (Fs.ballocFrom dev sb n b) := by
  induction n generalizing b with
  | zero => exact Erases.throw _
  | succ n ih =>
    refine (bread_erases dev _).bind fun bp => ?_
    cases Fs.freeBit bp with
    | none => exact ih _
    | some bi =>
      refine (bwrite_erases dev _ _).bind fun _ => endTrans_bind (jfullFlush_bind ?_)
      exact Erases.ite (Erases.throw _) (Erases.pure _)

theorem balloc_erases (dev : Nat) : Erases (balloc dev) (Fs.balloc dev) :=
  (readsb_erases dev).bind fun _ => ballocFrom_erases dev _ _ _

theorem bfree_erases (dev : Nat) (b : UInt32) : Erases (bfree dev b) (Fs.bfree dev b) := by
  refine (bzero_erases dev _).bind fun _ => (readsb_erases dev).bind fun sb => ?_
  refine (bread_erases dev _).bind fun bp => Erases.ite (Erases.throw _) ?_
  have hlast : Erases (do endTrans; jfullFlush) (pure ()) := endTrans_bind jfullFlush_erases
  have h := (bwrite_erases dev (BBLOCK b.toNat sb.ninodes) (bp.clearBit (b.toNat % BPB))).bind
    fun _ => hlast
  rwa [bind_pure_unit] at h

/-! ### Inodes -/

theorem load_erases (ip : InodeId) : Erases (load ip) (Fs.load ip) := onFs_erases _

theorem modifyInode_erases (ip : InodeId) (change : Inode → Inode) :
    Erases (modifyInode ip change) (Fs.modifyInode ip change) := onFs_erases _

theorem modifyCopy_erases (ip : InodeId) (change : Dinode → Dinode) :
    Erases (modifyCopy ip change) (Fs.modifyCopy ip change) := onFs_erases _

theorem ilock_erases (ip : InodeId) : Erases (ilock ip) (Fs.ilock ip) := by
  refine (load_erases ip).bind fun r => Erases.ite (Erases.throw _) ?_
  refine Erases.ite (Erases.throw _) ((modifyInode_erases ip _).bind fun _ => ?_)
  refine Erases.ite (Erases.pure _) ((bread_erases _ _).bind fun bp => ?_)
  exact (modifyInode_erases ip _).bind fun _ => Erases.ite (Erases.throw _) (Erases.pure _)

theorem iunlock_erases (ip : InodeId) : Erases (iunlock ip) (Fs.iunlock ip) := onFs_erases _

theorem iupdate_erases (ip : InodeId) : Erases (iupdate ip) (Fs.iupdate ip) :=
  (load_erases ip).bind fun _ => (bread_erases _ _).bind fun _ => bwrite_erases _ _ _

theorem addrOrAlloc_erases (ip : InodeId) (k : Fin NADDRS) (alloc : Bool) :
    Erases (addrOrAlloc ip k alloc) (Fs.addrOrAlloc ip k alloc) := by
  refine (load_erases ip).bind fun r => Erases.ite (Erases.pure _) ?_
  refine Erases.ite (Erases.pure _) ((balloc_erases _).bind fun _ => ?_)
  exact (modifyCopy_erases ip _).bind fun _ => Erases.pure _

theorem entryOrAlloc_erases (dev : Nat) (table : UInt32) (i : Nat) (alloc : Bool) :
    Erases (entryOrAlloc dev table i alloc) (Fs.entryOrAlloc dev table i alloc) := by
  refine (bread_erases dev _).bind fun bp => Erases.ite (Erases.pure _) ?_
  refine Erases.ite (Erases.pure _) ((balloc_erases _).bind fun _ => ?_)
  exact (bwrite_erases dev _ _).bind fun _ => Erases.pure _

theorem bmap_erases (ip : InodeId) (bn : Nat) (alloc : Bool) :
    Erases (bmap ip bn alloc) (Fs.bmap ip bn alloc) := by
  unfold bmap Fs.bmap
  split
  · exact (addrOrAlloc_erases ip _ alloc).bind fun _ => Erases.pure _
  · refine Erases.ite ((load_erases ip).bind fun r => ?_) (Erases.throw _)
    refine (addrOrAlloc_erases ip _ alloc).bind fun root => ?_
    cases root with
    | none => exact Erases.pure _
    | some root =>
      refine (entryOrAlloc_erases _ root _ alloc).bind fun table => ?_
      cases table with
      | none => exact Erases.pure _
      | some table => exact (entryOrAlloc_erases _ table _ alloc).bind fun _ => Erases.pure _

theorem freeDirect_erases (ip : InodeId) (i : Fin NDIRECT) :
    Erases (freeDirect ip i) (Fs.freeDirect ip i) := by
  refine (load_erases ip).bind fun r => Erases.ite (Erases.pure _) ?_
  exact (bfree_erases _ _).bind fun _ => modifyCopy_erases ip _

theorem freeTables_erases (dev : Nat) (root : Block) :
    Erases (freeTables dev root) (Fs.freeTables dev root) := by
  refine Erases.forM (fun j => Erases.ite (Erases.pure _) ?_) _
  refine (bread_erases dev _).bind fun ibp => ?_
  exact (Erases.forM (fun k => bfree_erases dev _) _).bind fun _ => bfree_erases dev _

theorem freeIndirect_erases (ip : InodeId) : Erases (freeIndirect ip) (Fs.freeIndirect ip) := by
  have hform : Fs.freeIndirect ip = (do
      let past ← (do
        let s ← get
        pure (s.pastAddrs ip))
      let r ← Fs.load ip
      if past = 0 then pure ()
      else do
        let bp ← Fs.bread r.dev (r.copy.addrs rootIndex).toNat
        Fs.freeTables r.dev bp
        Fs.bfree r.dev past
        Fs.modifyCopy ip fun n => { n with addrs := Function.update n.addrs rootIndex 0 }) := rfl
  rw [hform]
  refine (onFs_erases _).bind fun past => (load_erases ip).bind fun r => ?_
  refine Erases.ite (Erases.pure _) ((bread_erases _ _).bind fun bp => ?_)
  refine (freeTables_erases _ _).bind fun _ => (bfree_erases _ _).bind fun _ => ?_
  exact modifyCopy_erases ip _

theorem itrunc_erases (ip : InodeId) : Erases (itrunc ip) (Fs.itrunc ip) := by
  refine (Erases.forM (freeDirect_erases ip) _).bind fun _ => ?_
  refine (freeIndirect_erases ip).bind fun _ => (modifyCopy_erases ip _).bind fun _ => ?_
  exact iupdate_erases ip

theorem iput_erases (ip : InodeId) : Erases (iput ip) (Fs.iput ip) := by
  refine (load_erases ip).bind fun r => Erases.ite ?_ (onFs_erases _)
  refine Erases.ite (Erases.throw _) ((modifyInode_erases ip _).bind fun _ => ?_)
  refine (itrunc_erases ip).bind fun _ => endTrans_bind (jfullFlush_bind ?_)
  refine (modifyCopy_erases ip _).bind fun _ => (iupdate_erases ip).bind fun _ => ?_
  exact (modifyInode_erases ip _).bind fun _ => onFs_erases _

theorem iunlockput_erases (ip : InodeId) : Erases (iunlockput ip) (Fs.iunlockput ip) :=
  (iunlock_erases ip).bind fun _ => iput_erases ip

/-! ### Contents -/

theorem consoleRead_erases (ip : InodeId) (n : Int) :
    Erases (consoleRead ip n) (Fs.consoleRead ip n) := by
  refine (iunlock_erases ip).bind fun _ => ?_
  refine Erases.ite ((ilock_erases ip).bind fun _ => Erases.pure _) ?_
  refine ⟨fun s => ?_, (onFs_erases _).frame.bind fun typed => (ilock_erases ip).frame.bind ?_⟩
  · -- the line that was typed is taken before the inode is locked again
    have hline : (onFs (do
        let s ← get
        modify fun s : Fs => { s with reads := s.reads + 1 }
        pure (s.typed s.reads) : FsM (Option (List UInt8)))).run s =
          .ok (s.fs.typed s.fs.reads) { s with fs := { s.fs with reads := s.fs.reads + 1 } } := rfl
    rw [run_bind_of_ok hline, run_get_bind, run_modify_bind]
    refine ((ilock_erases ip).bind fun _ => ?_).fs _
    cases s.fs.typed s.fs.reads <;> exact Erases.pure _
  · intro _
    cases typed <;> exact Keeps.pure _

theorem readiLoop_erases (ip : InodeId) (fuel off left : Nat) :
    Erases (readiLoop ip fuel off left) (Fs.readiLoop ip fuel off left) := by
  induction fuel generalizing off left with
  | zero => exact Erases.pure _
  | succ fuel ih =>
    rw [readiLoop, Fs.readiLoop]
    refine Erases.ite (Erases.pure _) ((load_erases ip).bind fun r => ?_)
    refine (bmap_erases ip _ false).bind fun bno => (bread_erases _ _).bind fun bp => ?_
    exact (ih _ _).bind fun _ => Erases.pure _

theorem readi_erases (ip : InodeId) (off n : Nat) :
    Erases (readi ip off n) (Fs.readi ip off n) := by
  refine (load_erases ip).bind fun r => Erases.ite ?_ ?_
  · exact Erases.ite (consoleRead_erases ip _) (Erases.pure _)
  · refine Erases.ite (Erases.pure _) ?_
    exact (readiLoop_erases ip _ _ _).bind fun _ => Erases.pure _

/-! ### Directories and paths -/

theorem dirlookupFrom_erases (dp : InodeId) (name : List UInt8) (n off : Nat) :
    Erases (dirlookupFrom dp name n off) (Fs.dirlookupFrom dp name n off) := by
  induction n generalizing off with
  | zero => exact Erases.pure _
  | succ n ih =>
    refine (load_erases dp).bind fun r => (bmap_erases dp _ false).bind fun bno => ?_
    refine (bread_erases _ _).bind fun bp => ?_
    cases bp.findDirent name with
    | none => exact ih _
    | some o => exact (onFs_erases _).bind fun _ => Erases.pure _

theorem dirlookup_erases (dp : InodeId) (name : List UInt8) :
    Erases (dirlookup dp name) (Fs.dirlookup dp name) :=
  (load_erases dp).bind fun _ => Erases.ite (Erases.throw _) (dirlookupFrom_erases dp name _ _)

theorem nameiLoop_erases (parent : Bool) (fuel : Nat) (ip : InodeId) (path : List UInt8) :
    Erases (nameiLoop parent fuel ip path) (Fs.nameiLoop parent fuel ip path) := by
  induction fuel generalizing ip path with
  | zero => exact Erases.throw _
  | succ fuel ih =>
    rw [nameiLoop, Fs.nameiLoop]
    match Fs.skipelem path with
    | none => exact Erases.ite ((iput_erases ip).bind fun _ => Erases.pure _) (Erases.pure _)
    | some (name, rest) =>
      refine (ilock_erases ip).bind fun _ => (load_erases ip).bind fun r => ?_
      refine Erases.ite ((iunlockput_erases ip).bind fun _ => Erases.pure _) ?_
      refine Erases.ite ((iunlock_erases ip).bind fun _ => Erases.pure _) ?_
      refine (dirlookup_erases ip name).bind fun found => ?_
      match found with
      | none => exact (iunlockput_erases ip).bind fun _ => Erases.pure _
      | some (next, _) => exact (iunlockput_erases ip).bind fun _ => ih next rest

theorem nameiWalk_erases (cwd : Option InodeId) (parent : Bool) (path : List UInt8) :
    Erases (nameiWalk cwd parent path) (Fs.nameiWalk cwd parent path) :=
  (onFs_erases _).bind fun ip => nameiLoop_erases parent _ ip path

theorem namei_erases (cwd : Option InodeId) (path : List UInt8) :
    Erases (namei cwd path) (Fs.namei cwd path) :=
  (nameiWalk_erases cwd false path).bind fun _ => Erases.pure _

end Tx

end Xv6
