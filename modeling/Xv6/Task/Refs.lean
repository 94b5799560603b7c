/-
# The inodes that `exec` uses

`exec` takes a reference to its file and locks it, and gives both back on every way out.
-/

import Xv6.Fs.Refs
import Xv6.Task.Model

namespace Xv6

open Math

namespace Task

variable {stale locked : Set InodeId} {r : InodeId → Int} {ip : InodeId}

/-- Code of the file system, seen from the task. -/
theorem onFs_triple {α : Type} {x : FsM α} {pre : Fs → Prop} {post : α → Fs → Prop}
    (triple : Ensures pre x post anyStop) :
    Ensures (fun s => pre s.fs) (onFs x) (fun a s => post a s.fs) anyStop := by
  refine Ensures.of_runs fun s a t hpre hrun => ?_
  obtain ⟨f, hf, rfl⟩ := zoom_run_eq_ok hrun
  exact triple.of_ok hpre hf

/-- Code that leaves the file system alone. -/
theorem fs_of_keeps {α : Type} {x : TaskM α} (keeps : Keeps Task.fs x) (inv : Fs → Prop) :
    Ensures (fun s => inv s.fs) x (fun _ t => inv t.fs) anyStop := by
  refine Ensures.of_runs fun s a t hinv hrun => ?_
  have h := keeps s
  rw [hrun] at h
  change t.fs = s.fs at h
  rwa [h]

theorem keeps_onKmem {α : Type} (x : KmemM α) : Keeps Task.fs (onKmem x) :=
  keeps_zoom fun _ _ => rfl

theorem keeps_store (block : Span) (a n : Nat) (src : Nat → UInt8) :
    Keeps Task.fs (store block a n src) := Keeps.modify fun _ => rfl

theorem keeps_memmove (block : Span) (dst src n : Nat) : Keeps Task.fs (memmove block dst src n) :=
  Keeps.get.bind fun _ => keeps_store _ _ _ _

theorem keeps_pushArgs (block : Span) (argp : Nat) (argv : List Nat) (sp : Nat) :
    Keeps Task.fs (pushArgs block argp argv sp) := by
  induction argv generalizing sp with
  | nil => exact Keeps.pure _
  | cons a argv ih =>
    refine Keeps.get.bind fun s => (keeps_memmove _ _ _ _).bind fun _ => ?_
    exact (keeps_store _ _ _ _).bind fun _ => ih _

theorem keeps_initStack (block : Span) (argp : Nat) (argv : List Nat) :
    Keeps Task.fs (initStack block argp argv) := by
  refine (keeps_store _ _ _ _).bind fun _ => (keeps_pushArgs _ _ _ _).bind fun _ => ?_
  refine (keeps_store _ _ _ _).bind fun _ => (keeps_store _ _ _ _).bind fun _ => ?_
  exact keeps_store _ _ _ _

theorem keeps_commitImage (block : Span) (path entry sp : Nat) :
    Keeps Task.fs (commitImage block path entry sp) := by
  refine Keeps.get.bind fun s => Keeps.bind (Keeps.modify fun _ => rfl) fun _ => ?_
  refine (keeps_onKmem _).bind fun _ => Keeps.bind (Keeps.modify fun _ => rfl) fun _ => ?_
  exact Keeps.pure _

/-! ### Counts and locks -/

theorem segmentsSize_at (ip : InodeId) (n off sz : Nat) :
    Ensures (Fs.At stale r locked) (segmentsSize ip n off sz)
      (fun _ => Fs.At stale r locked) anyStop := by
  induction n generalizing off sz with
  | zero => exact Ensures.pure fun _ h => h
  | succ n ih =>
    refine (Fs.readi_at ip off PROGHDR).bind fun q => ?_
    refine Ensures.ite (fun _ => Ensures.pure fun _ h => h) fun _ => ?_
    refine Ensures.ite (fun _ => ih _ _) fun _ => ?_
    exact Ensures.ite (fun _ => Ensures.pure fun _ h => h) fun _ => ih _ _

theorem loadSegments_at (ip : InodeId) (block : Span) (n off : Nat) :
    Ensures (fun s => Fs.At stale r locked s.fs) (loadSegments ip block n off)
      (fun _ s => Fs.At stale r locked s.fs) anyStop := by
  induction n generalizing off with
  | zero => exact Ensures.pure fun _ h => h
  | succ n ih =>
    refine (onFs_triple (Fs.readi_at ip off PROGHDR)).bind fun q => ?_
    refine Ensures.ite (fun _ => Ensures.pure fun _ h => h) fun _ => ?_
    refine Ensures.ite (fun _ => ih _) fun _ => ?_
    refine Ensures.ite (fun _ => Ensures.pure fun _ h => h) fun _ => ?_
    refine (onFs_triple (Fs.readi_at ip _ _)).bind fun p => ?_
    refine (fs_of_keeps (keeps_store _ _ _ _) _).bind fun _ => ?_
    refine Ensures.ite (fun _ => Ensures.pure fun _ h => h) fun _ => ?_
    exact (fs_of_keeps (keeps_store _ _ _ _) _).bind fun _ => ih _

/-- The state in which `exec` works on its file: one more reference, and a lock. -/
theorem execFails_at (out : ip ∉ locked) :
    Ensures (fun s => Fs.At stale (r + Pi.single ip 1) (insert ip locked) s.fs) (execFails ip)
      (fun _ s => Fs.At stale r locked s.fs) anyStop :=
  (onFs_triple (Fs.iunlockput_back_at ip out)).bind fun _ => Ensures.pure fun _ h => h

theorem execImage_at (out : ip ∉ locked) (path : Nat) (argv : List Nat)
    (size phnum phoff entry : Nat) :
    Ensures (fun s => Fs.At stale (r + Pi.single ip 1) (insert ip locked) s.fs)
      (execImage ip path argv size phnum phoff entry)
      (fun _ s => Fs.At stale r locked s.fs) anyStop := by
  refine (fs_of_keeps Keeps.get _).bind fun s => (fs_of_keeps (keeps_onKmem _) _).bind fun a => ?_
  refine Ensures.ite (fun _ => execFails_at out) fun _ => ?_
  refine (fs_of_keeps (keeps_store _ _ _ _) _).bind fun _ => ?_
  refine (loadSegments_at ip _ _ _).bind fun b => Ensures.ite (fun _ => ?_) fun _ => ?_
  · refine (onFs_triple (Fs.iunlockput_back_at ip out)).bind fun _ => ?_
    refine (fs_of_keeps (keeps_initStack _ _ _) _).bind fun _ => ?_
    exact fs_of_keeps (keeps_commitImage _ _ _ _) _
  · exact (fs_of_keeps (keeps_onKmem _) _).bind fun _ => execFails_at out

/-- Whatever happens, `exec` leaves the reference counts and the locks as they were. -/
theorem exec_at (path : Nat) (argv : List Nat) (stack : List UInt8) :
    Ensures (fun s => Fs.At stale r locked s.fs) (exec path argv stack)
      (fun _ s => Fs.At stale r locked s.fs) anyStop := by
  refine (fs_of_keeps Keeps.get _).bind fun s => ?_
  refine (onFs_triple (Fs.namei_at s.cwd _)).bind fun found => ?_
  cases found with
  | none => exact Ensures.pure fun _ h => h
  | some ip =>
    refine (onFs_triple (Fs.ilock_at ip)).bindAt fun _ t ht => ?_
    obtain ⟨hout, -, hat⟩ := ht
    refine Ensures.of_holds
      (fun t => Fs.At stale (r + Pi.single ip 1) (insert ip locked) t.fs) hat ?_
    refine (onFs_triple (Fs.readi_at ip 0 ELFHDR)).bind fun q => ?_
    refine Ensures.ite (fun _ => execFails_at hout) fun _ => ?_
    refine (onFs_triple (segmentsSize_at ip _ _ _)).bind fun size => ?_
    cases size with
    | none => exact execFails_at hout
    | some size => exact execImage_at hout _ _ _ _ _ _

end Task

end Xv6
