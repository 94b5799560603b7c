/-
# Running out of descriptors, files or pages

`open` and `pipe` when there is no descriptor, no file structure or no page left. They fail
without a trace as long as no file structure has to be given back that is neither a pipe nor an
inode yet: `fileclose` panics on such a one.
-/

import Xv6.Fs.Owners
import Xv6.Fs.Reading
import Xv6.Kalloc.Arena
import Xv6.Sys.Calls
import Xv6.Tx.Refs

namespace Xv6

open Math

namespace Sys

/-- What a failing call has to leave as it was: the open files, the descriptors of the caller, the
references to inodes and the list of free pages. The fields of a closed file other than its type
mean nothing. -/
structure Restored (s t : Sys) : Prop where
  closed : ∀ f, (t.file f).type = .FD_CLOSED ↔ (s.file f).type = .FD_CLOSED
  open_ : ∀ f, (s.file f).type ≠ .FD_CLOSED → t.file f = s.file f
  ofile : (t.own s.cp).ofile = (s.own s.cp).ofile
  refs : ∀ ip, (t.tx.fs.inode ip).ref = (s.tx.fs.inode ip).ref
  free : ∀ rs, s.kmem.Linked s.kmem.freelist rs → t.kmem.Linked t.kmem.freelist rs

/-- The call returns -1 and leaves everything as it was. -/
def Harmless (s : Sys) (call : SysM Int) : Prop := ∃ t, call.run s = .ok (-1) t ∧ s.Restored t

/-- The caller has no descriptor left. -/
def NoFd (s : Sys) : Prop := ∀ fd, (s.own s.cp).ofile fd ≠ none

/-- The caller has at most one descriptor left. -/
def FewFds (s : Sys) : Prop :=
  ∀ fd fd', (s.own s.cp).ofile fd = none → (s.own s.cp).ofile fd' = none → fd = fd'

/-- No file structure is left. -/
def NoFile (s : Sys) : Prop := ∀ f, (s.file f).type ≠ .FD_CLOSED

/-- At most one file structure is left. -/
def FewFiles (s : Sys) : Prop :=
  ∀ f f', (s.file f).type = .FD_CLOSED → (s.file f').type = .FD_CLOSED → f = f'

/-- There is no page for a pipe. -/
def NoPage (s : Sys) : Prop := ∃ t, (kalloc PAGE).run s.kmem = .ok 0 t

variable {s : Sys}

/-! ### Single steps -/

theorem closedFile_eq_none : s.closedFile = none ↔ s.NoFile := by
  simp [closedFile, NoFile]

variable {f f0 f1 : FileId} {path : List UInt8} {omode : UInt32} {t : Tx} {p : Nat} {k : Kmem}

theorem closedFile_eq_some (found : s.closedFile = some f) : (s.file f).type = .FD_CLOSED := by
  simpa using List.find?_some found

theorem freeFd_eq_none {o : Own} : o.freeFd = none ↔ ∀ fd, o.ofile fd ≠ none := by
  simp [Own.freeFd]

theorem freeFd_eq_some {o : Own} {fd : Fd} (found : o.freeFd = some fd) : o.ofile fd = none := by
  simpa using List.find?_some found

/-- What `filealloc` does to a slot. -/
def File.fresh (r : File) : File := { r with type := .FD_NONE, ref := 1 }

theorem filealloc_run_none (none_left : s.NoFile) : filealloc.run s = .ok none s := by
  rw [filealloc, run_get_bind, closedFile_eq_none.mpr none_left]
  rfl

theorem filealloc_run_some (found : s.closedFile = some f) :
    filealloc.run s = .ok (some f) (s.setFile f File.fresh) := by
  rw [filealloc, run_get_bind, found]
  rfl

theorem fdalloc_run_none (none_left : s.NoFd) (f : FileId) : (fdalloc f).run s = .ok none s := by
  rw [fdalloc, run_get_bind, freeFd_eq_none.mpr none_left]
  rfl

theorem fdalloc_run_some {fd : Fd} (found : (s.own s.cp).freeFd = some fd) (f : FileId) :
    (fdalloc f).run s = .ok (some fd) (s.setOwn s.cp fun o => o.setOfile fd (some f)) := by
  rw [fdalloc, run_get_bind, found]
  rfl

/-- A commit does not touch what a failing call has to restore. -/
theorem finish_run {α : Type} (v : α) :
    ∃ tx, (finish v).run s = .ok v { s with tx := tx } ∧ tx.fs = s.tx.fs := by
  obtain ⟨tx, hrun, hfs⟩ := Tx.endTrans_erases.run_ok (s := s.tx) (t := s.tx.fs) (a := ()) rfl
  have hend : endTrans.run s = .ok () { s with tx := tx } := onTx_run_of_ok hrun
  refine ⟨tx, ?_, hfs⟩
  rw [finish, run_bind_of_ok hend]
  rfl

/-- `fileclose` panics on the last reference to a file that stands for nothing. -/
theorem fileclose_run_none (type : (s.file f).type = .FD_NONE)
    (ref : (s.file f).ref = 1) : ∃ t, (fileclose f).run s = .error (.panic "fileclose") t := by
  refine ⟨s.setFile f fun r => { r with ref := 0, type := .FD_CLOSED }, ?_⟩
  have hload : (loadFile f).run s = .ok (s.file f) s := rfl
  rw [fileclose, run_bind_of_ok hload, type, ref]
  rfl

/-! ### `open` -/

/-- The inode that `open` works on is locked, and there is one more reference to it. -/
theorem openInode_at {found : Option InodeId}
    (run : (openInode (s.own s.cp).cwd path omode).run s.tx = .ok found t) :
    Tx.AtCreated s.tx.frame Set.univ (fun ip => (s.tx.fs.inode ip).ref) found t := by
  have hstart : Tx.At s.tx.frame Set.univ (fun ip => (s.tx.fs.inode ip).ref) ∅ s.tx :=
    ⟨rfl, fun _ => rfl, fun _ _ => .inr trivial, fun _ h => absurd h (Set.notMem_empty _)⟩
  suffices htriple : Ensures (Tx.At s.tx.frame Set.univ _ ∅)
      (openInode (s.own s.cp).cwd path omode) (Tx.AtCreated s.tx.frame Set.univ _) anyStop from
    htriple.of_ok hstart run
  refine Ensures.ite (fun _ => Tx.create_at _ path true T_FILE 0 0) fun _ => ?_
  refine ((Tx.namei_erases _ path).triple (Fs.namei_at _ path)).bind fun found => ?_
  match found with
  | none => exact Ensures.pure fun _ h => h
  | some ip =>
  refine ((Tx.ilock_erases ip).triple (Fs.ilock_at ip)).bindAt ?_
  rintro _ u ⟨hframe, hout, -, hat⟩
  refine Ensures.of_holds (Tx.At _ _ _ _) ⟨hframe, hat⟩ ((Tx.load_at ip).bind fun _ => ?_)
  refine Ensures.ite (fun _ => ?_) fun _ => Ensures.pure fun _ h => h
  exact (Tx.iunlockput_back_at ip hout).bind fun _ => Ensures.pure fun _ h => h

theorem open_none_harmless (run : (openInode (s.own s.cp).cwd path omode).run s.tx = .ok none t) :
    s.Harmless (sysOpen (some path) (some omode)) := by
  have hat := (openInode_at run).2
  obtain ⟨tx, hfinish, hfs⟩ := finish_run (s := { s with tx := t }) (-1 : Int)
  have hcwd : cwd.run s = .ok (s.own s.cp).cwd s := rfl
  refine ⟨{ s with tx := tx }, ?_, fun _ => Iff.rfl, fun _ _ => rfl, rfl, fun ip => ?_,
    fun _ h => h⟩
  · rw [sysOpen, run_bind_of_ok hcwd, run_bind_of_ok (onTx_run_of_ok run)]
    exact hfinish
  · rw [hfs]
    exact hat.ref ip

theorem open_noFile_harmless {ip : InodeId}
    (run : (openInode (s.own s.cp).cwd path omode).run s.tx = .ok (some ip) t)
    (linked : (t.fs.inode ip).copy.nlink ≠ 0) (none_left : s.NoFile) :
    s.Harmless (sysOpen (some path) (some omode)) := by
  have hat := (openInode_at run).2
  -- the inode is locked and held, so it can be put back
  obtain ⟨hbusy, hpos⟩ := hat.held ip (Set.mem_insert _ _)
  rw [← hat.ref ip] at hpos
  obtain ⟨v, hv⟩ := Fs.iunlockput_linked hbusy hpos linked
  obtain ⟨u, hput, rfl⟩ := (Tx.iunlockput_erases ip).run_ok hv
  have hback := (Fs.iunlockput_back_at ip (Set.notMem_empty ip)).of_ok hat hv
  obtain ⟨tx, hfinish, hfs⟩ := finish_run (s := { s with tx := u }) (-1 : Int)
  have hcwd : cwd.run s = .ok (s.own s.cp).cwd s := rfl
  have halloc : filealloc.run { s with tx := t } = .ok none { s with tx := t } :=
    filealloc_run_none none_left
  have hunlockput : (onTx (Tx.iunlockput ip)).run { s with tx := t } = .ok () { s with tx := u } :=
    onTx_run_of_ok hput
  refine ⟨{ s with tx := tx }, ?_, fun _ => Iff.rfl, fun _ _ => rfl, rfl, fun jp => ?_,
    fun _ h => h⟩
  · rw [sysOpen, run_bind_of_ok hcwd, run_bind_of_ok (onTx_run_of_ok run)]
    dsimp only
    rw [run_bind_of_ok halloc]
    dsimp only
    rw [openFails, run_bind_of_ok hunlockput]
    exact hfinish
  · rw [hfs]
    exact hback.ref jp

/-- With a file structure but no descriptor `open` panics. -/
theorem open_noFd_panics {ip : InodeId}
    (run : (openInode (s.own s.cp).cwd path omode).run s.tx = .ok (some ip) t)
    (file_left : ¬ s.NoFile) (none_left : s.NoFd) :
    ∃ u, (sysOpen (some path) (some omode)).run s = .error (.panic "fileclose") u := by
  have hcp : t.cp = s.tx.cp := congrArg Prod.fst (openInode_at run).1
  obtain ⟨f, hf⟩ := Option.ne_none_iff_exists'.mp (mt closedFile_eq_none.mp file_left)
  set s₁ : Sys := { s with tx := t }
  have hcwd : cwd.run s = .ok (s.own s.cp).cwd s := rfl
  have halloc : filealloc.run s₁ = .ok (some f) (s₁.setFile f File.fresh) := filealloc_run_some hf
  have hfd : (fdalloc f).run (s₁.setFile f File.fresh) = .ok none (s₁.setFile f File.fresh) := by
    refine fdalloc_run_none (fun fd => ?_) f
    change (s.own t.cp).ofile fd ≠ none
    rw [hcp]
    exact none_left fd
  obtain ⟨u, hu⟩ := fileclose_run_none (s := s₁.setFile f File.fresh) (f := f)
    (by rw [setFile_self]; rfl) (by rw [setFile_self]; rfl)
  refine ⟨u, ?_⟩
  rw [sysOpen, run_bind_of_ok hcwd, run_bind_of_ok (onTx_run_of_ok run)]
  dsimp only
  rw [run_bind_of_ok halloc]
  dsimp only
  rw [run_bind_of_ok hfd]
  exact run_bind_of_error hu

theorem open_harmless_iff {found : Option InodeId}
    (run : (openInode (s.own s.cp).cwd path omode).run s.tx = .ok found t)
    (linked : ∀ ip, found = some ip → (t.fs.inode ip).copy.nlink ≠ 0)
    (none_left : s.NoFd ∨ s.NoFile) :
    s.Harmless (sysOpen (some path) (some omode)) ↔ found = none ∨ s.NoFile := by
  match found with
  | none => exact iff_of_true (open_none_harmless run) (.inl rfl)
  | some ip =>
    by_cases hfile : s.NoFile
    · exact iff_of_true (open_noFile_harmless run (linked ip rfl) hfile) (.inr hfile)
    · obtain ⟨u, hu⟩ := open_noFd_panics run hfile (none_left.resolve_right hfile)
      refine iff_of_false ?_ (by simpa using hfile)
      rintro ⟨t', ht, -⟩
      rw [hu] at ht
      cases ht

/-! ### `pipe` -/

/-- The open files and the pipes after a pipe was made with the files `f0` and `f1` at `p`. -/
structure Piped (s : Sys) (file : FileId → File) (pipe : Nat → Pipe) (f0 f1 : FileId) (p : Nat) :
    Prop where
  ne : f0 ≠ f1
  was : (s.file f0).type = .FD_CLOSED ∧ (s.file f1).type = .FD_CLOSED
  rf : (file f0).type = .FD_PIPE ∧ (file f0).ref = 1 ∧ (file f0).pipe = p ∧
    (file f0).writable = false
  wf : (file f1).type = .FD_PIPE ∧ (file f1).ref = 1 ∧ (file f1).pipe = p ∧
    (file f1).writable = true
  others : ∀ f, f ≠ f0 → f ≠ f1 → file f = s.file f
  ends : (pipe p).writeopen = true

theorem pipealloc_run (first : s.closedFile = some f0)
    (second : (s.setFile f0 File.fresh).closedFile = some f1)
    (page : (kalloc PAGE).run s.kmem = .ok p k) (got : p ≠ 0) :
    ∃ u, pipealloc.run s = .ok (some (f0, f1)) u ∧ s.Piped u.file u.pipe f0 f1 p ∧
      u.kmem = k ∧ u.tx = s.tx ∧ u.own = s.own := by
  have hne : f0 ≠ f1 := by
    rintro rfl
    have h := closedFile_eq_some second
    rw [setFile_self] at h
    cases h
  have hwas : (s.file f1).type = .FD_CLOSED := by
    have h := closedFile_eq_some second
    rwa [setFile_of_ne s _ hne.symm] at h
  let s₂ : Sys := (s.setFile f0 File.fresh).setFile f1 File.fresh
  let s₃ : Sys := { s₂ with kmem := k }.setPipe p fun q =>
    { q with readopen := true, writeopen := true, writep := 0, readp := 0 }
  let s₄ : Sys := s₃.setFile f0 fun r =>
    { r with type := .FD_PIPE, readable := true, writable := false, pipe := p }
  let u : Sys := s₄.setFile f1 fun r =>
    { r with type := .FD_PIPE, readable := false, writable := true, pipe := p }
  have hpage : (onKmem (kalloc PAGE)).run s₂ = .ok p { s₂ with kmem := k } := onKmem_run_of_ok page
  refine ⟨u, ?_, ⟨hne, ⟨closedFile_eq_some first, hwas⟩, ?_, ?_, fun f h0 h1 => ?_, ?_⟩,
    rfl, rfl, rfl⟩
  · rw [pipealloc, run_bind_of_ok (filealloc_run_some first)]
    dsimp only
    rw [run_bind_of_ok (filealloc_run_some second)]
    dsimp only
    rw [run_bind_of_ok hpage, if_neg got]
    rfl
  · simp [u, s₄, s₃, s₂, setFile, setPipe, File.fresh, hne]
  · simp [u, s₄, s₃, s₂, setFile, setPipe, File.fresh, hne.symm]
  · simp [u, s₄, s₃, s₂, setFile, setPipe, h0, h1]
  · simp [u, s₄, s₃, setFile, setPipe]

/-- Closing the read end leaves the pipe alone as long as the write end is open. -/
theorem fileclose_run_pipe (type : (s.file f).type = .FD_PIPE) (ref : (s.file f).ref = 1) :
    (fileclose f).run s = (pipeclose (s.file f).pipe (s.file f).writable).run
      (s.setFile f fun r => { r with ref := 0, type := .FD_CLOSED }) := by
  have hload : (loadFile f).run s = .ok (s.file f) s := rfl
  rw [fileclose, run_bind_of_ok hload, type, ref]
  rfl

theorem pipeclose_run_read (write_end : (s.pipe p).writeopen = true) :
    (pipeclose p false).run s = .ok () (s.setPipe p fun q => { q with readopen := false }) := by
  rw [pipeclose, modifyPipe, run_modify_bind, run_get_bind, if_neg]
  · rfl
  · rw [setPipe_self]
    exact fun h => absurd (h.2.symm.trans write_end) (by decide)

theorem pipeclose_run_write (read_end : (s.pipe p).readopen = false)
    (freed : (kfree p PAGE).run s.kmem = .ok () k) :
    (pipeclose p true).run s =
      .ok () { s.setPipe p fun q => { q with writeopen := false } with kmem := k } := by
  rw [pipeclose, modifyPipe, run_modify_bind, run_get_bind, if_pos]
  · exact onKmem_run_of_ok freed
  · rw [setPipe_self]
    exact ⟨read_end, rfl⟩

/-- Both ends are closed again: the page is freed. -/
theorem Piped.close {u : Sys}
    (piped : s.Piped u.file u.pipe f0 f1 p) (freed : (kfree p PAGE).run u.kmem = .ok () k) :
    ∃ v w, (fileclose f0).run u = .ok () v ∧ (fileclose f1).run v = .ok () w ∧
      w.kmem = k ∧ w.tx = u.tx ∧ w.own = u.own ∧
      (∀ f, (w.file f).type = .FD_CLOSED ↔ (s.file f).type = .FD_CLOSED) ∧
      ∀ f, (s.file f).type ≠ .FD_CLOSED → w.file f = s.file f := by
  obtain ⟨hne, ⟨hwas0, hwas1⟩, ⟨htype0, href0, hpipe0, hw0⟩, ⟨htype1, href1, hpipe1, hw1⟩, hothers,
    hends⟩ := piped
  let close : File → File := fun r => { r with ref := 0, type := .FD_CLOSED }
  let v : Sys := (u.setFile f0 close).setPipe p fun q => { q with readopen := false }
  have hv1 : v.file f1 = u.file f1 := setFile_of_ne u close hne.symm
  let w : Sys := (v.setFile f1 close).setPipe p fun q => { q with writeopen := false }
  refine ⟨v, { w with kmem := k }, ?_, ?_, rfl, rfl, rfl, fun f => ?_, fun f hf => ?_⟩
  · rw [fileclose_run_pipe htype0 href0, hpipe0, hw0]
    exact pipeclose_run_read hends
  · rw [fileclose_run_pipe (by rw [hv1, htype1]) (by rw [hv1, href1]), hv1, hpipe1, hw1]
    refine pipeclose_run_write ?_ freed
    have hp : v.pipe p = { u.pipe p with readopen := false } :=
      setPipe_self (u.setFile f0 close) p _
    change (v.pipe p).readopen = false
    rw [hp]
  · change ((v.setFile f1 close).file f).type = .FD_CLOSED ↔ _
    by_cases h1 : f = f1
    · rw [h1, setFile_self]
      exact iff_of_true rfl hwas1
    rw [setFile_of_ne v close h1]
    change ((u.setFile f0 close).file f).type = .FD_CLOSED ↔ _
    by_cases h0 : f = f0
    · rw [h0, setFile_self]
      exact iff_of_true rfl hwas0
    rw [setFile_of_ne u close h0, hothers f h0 h1]
  · have h0 : f ≠ f0 := fun h => hf (h ▸ hwas0)
    have h1 : f ≠ f1 := fun h => hf (h ▸ hwas1)
    rw [← hothers f h0 h1, ← setFile_of_ne u close h0]
    exact setFile_of_ne v close h1

/-! Without a file structure nothing happens; with one only, or without a page, the file that was
already taken is closed while it stands for nothing. -/

theorem pipe_noFile_harmless (none_left : s.NoFile) : s.Harmless (sysPipe true) := by
  obtain ⟨tx, hfinish, hfs⟩ := finish_run (s := s) (-1 : Int)
  have halloc : pipealloc.run s = .ok none s := by
    rw [pipealloc, run_bind_of_ok (filealloc_run_none none_left)]
    rfl
  refine ⟨{ s with tx := tx }, ?_, fun _ => Iff.rfl, fun _ _ => rfl, rfl, fun ip => ?_,
    fun _ h => h⟩
  · rw [sysPipe, if_neg (by decide), run_bind_of_ok halloc]
    exact hfinish
  · exact congrArg (fun fs : Fs => (fs.inode ip).ref) hfs

theorem discard_panics (ref : (s.file f).ref = 1) :
    ∃ t, (discard f).run s = .error (.panic "fileclose") t := by
  have hset : (modifyFile f fun r => { r with type := .FD_NONE }).run s =
      .ok () (s.setFile f fun r => { r with type := .FD_NONE }) := rfl
  rw [discard, run_bind_of_ok hset]
  exact fileclose_run_none (by rw [setFile_self]) (by rw [setFile_self, ← ref])

theorem pipe_panics_of_pipealloc {e : SysStop} (stops : ∃ t, pipealloc.run s = .error e t) :
    ¬ s.Harmless (sysPipe true) := by
  obtain ⟨t, ht⟩ := stops
  rintro ⟨u, hu, -⟩
  rw [sysPipe, if_neg (by decide), run_bind_of_error ht] at hu
  cases hu

theorem pipe_oneFile_panics (first : s.closedFile = some f0)
    (second : (s.setFile f0 File.fresh).NoFile) : ¬ s.Harmless (sysPipe true) := by
  obtain ⟨t, ht⟩ := discard_panics (s := s.setFile f0 File.fresh) (f := f0)
    (by rw [setFile_self]; rfl)
  refine pipe_panics_of_pipealloc (e := .panic "fileclose") ⟨t, ?_⟩
  rw [pipealloc, run_bind_of_ok (filealloc_run_some first)]
  dsimp only
  rw [run_bind_of_ok (filealloc_run_none second)]
  exact run_bind_of_error ht

theorem pipe_noPage_panics (first : s.closedFile = some f0)
    (second : (s.setFile f0 File.fresh).closedFile = some f1)
    (page : (kalloc PAGE).run s.kmem = .ok 0 k) : ¬ s.Harmless (sysPipe true) := by
  let s₂ : Sys := (s.setFile f0 File.fresh).setFile f1 File.fresh
  have hpage : (onKmem (kalloc PAGE)).run s₂ = .ok 0 { s₂ with kmem := k } := onKmem_run_of_ok page
  have href : ({ s₂ with kmem := k }.file f0).ref = 1 := by
    change (((s.setFile f0 File.fresh).setFile f1 File.fresh).file f0).ref = 1
    by_cases hf : f0 = f1
    · rw [hf, setFile_self]
      rfl
    · rw [setFile_of_ne _ _ hf, setFile_self]
      rfl
  obtain ⟨t, ht⟩ := discard_panics href
  refine pipe_panics_of_pipealloc (e := .panic "fileclose") ⟨t, ?_⟩
  rw [pipealloc, run_bind_of_ok (filealloc_run_some first)]
  dsimp only
  rw [run_bind_of_ok (filealloc_run_some second)]
  dsimp only
  rw [run_bind_of_ok hpage, if_pos rfl]
  exact run_bind_of_error ht

/-- The end of `pipe` when a descriptor is missing. -/
theorem Piped.closed_harmless {u : Sys}
    (piped : s.Piped u.file u.pipe f0 f1 p) (freed : (kfree p PAGE).run u.kmem = .ok () k)
    (tx : u.tx = s.tx) (ofile : (u.own s.cp).ofile = (s.own s.cp).ofile)
    (free : ∀ rs, s.kmem.Linked s.kmem.freelist rs → k.Linked k.freelist rs) :
    ∃ t, (do fileclose f0; fileclose f1; finish (-1) : SysM Int).run u = .ok (-1) t ∧
      s.Restored t := by
  obtain ⟨v, w, hclose0, hclose1, rfl, htx, hown, hclosed, hopen⟩ := piped.close freed
  obtain ⟨tx', hfinish, hfs⟩ := finish_run (s := w) (-1 : Int)
  refine ⟨{ w with tx := tx' }, ?_, hclosed, hopen, ?_, fun ip => ?_, free⟩
  · rw [run_bind_of_ok hclose0, run_bind_of_ok hclose1]
    exact hfinish
  · change (w.own s.cp).ofile = _
    rw [hown, ofile]
  · rw [hfs, htx, tx]

theorem pipe_fewFds_harmless {pool : Pool} {rs : List Span}
    (list : s.kmem.FreeList pool rs) (first : s.closedFile = some f0)
    (second : (s.setFile f0 File.fresh).closedFile = some f1) (page : ¬ s.NoPage)
    (few : s.FewFds) : s.Harmless (sysPipe true) := by
  -- a page is taken from the list, and giving it back restores the list
  rcases list.kalloc (n := PAGE) (by decide) (dvd_refl PAGE) with
    ⟨-, hnone⟩ | ⟨p, rest, k, htaken, hrun, hrest⟩
  · exact absurd ⟨_, hnone⟩ page
  obtain ⟨hp, k', hfreed, hlist⟩ := list.kfree_taken (by decide) (dvd_refl PAGE) htaken hrest
  have hfree : ∀ qs, s.kmem.Linked s.kmem.freelist qs → k'.Linked k'.freelist qs := by
    intro qs hqs
    rw [← list.linked.unique hqs]
    exact hlist.linked
  obtain ⟨u, halloc, hpiped, rfl, htx, hown⟩ := pipealloc_run first second hrun hp
  have hcp : u.cp = s.cp := congrArg Tx.cp htx
  unfold Harmless
  rw [sysPipe, if_neg (by decide), run_bind_of_ok halloc]
  dsimp only
  cases hfd : (s.own s.cp).freeFd with
  | none =>
    have hnoFd : u.NoFd := fun fd => by
      rw [hown, hcp]
      exact freeFd_eq_none.mp hfd fd
    rw [run_bind_of_ok (fdalloc_run_none hnoFd f0)]
    exact hpiped.closed_harmless hfreed htx (by rw [hown]) hfree
  | some fd0 =>
    have hwas : (u.own u.cp).ofile fd0 = none := by
      rw [hown, hcp]
      exact freeFd_eq_some hfd
    have hfound : (u.own u.cp).freeFd = some fd0 := by rw [hown, hcp, hfd]
    rw [run_bind_of_ok (fdalloc_run_some hfound f0)]
    dsimp only
    -- the only descriptor is taken for the read end
    set u₁ : Sys := u.setOwn u.cp fun o => o.setOfile fd0 (some f0) with hu₁
    have hnoFd : u₁.NoFd := fun fd => by
      change (u₁.own u.cp).ofile fd ≠ none
      rw [hu₁, setOwn_self]
      by_cases hne : fd = fd0
      · rw [hne, Own.setOfile_self]
        exact Option.some_ne_none f0
      · rw [Own.setOfile_of_ne _ _ hne]
        intro h
        rw [hown, hcp] at h hwas
        exact hne (few fd fd0 h hwas)
    rw [run_bind_of_ok (fdalloc_run_none hnoFd f1)]
    dsimp only
    have hset : (setOfile u₁.cp fd0 none).run u₁ =
        .ok () (u₁.setOwn u.cp fun o => o.setOfile fd0 none) := rfl
    rw [run_get_bind, run_bind_of_ok hset]
    refine Piped.closed_harmless (u := u₁.setOwn u.cp fun o => o.setOfile fd0 none) hpiped hfreed
      htx ?_ hfree
    rw [← hcp, setOwn_self, hu₁, setOwn_self, ← hown]
    -- it was free before
    change Function.update (Function.update (u.own u.cp).ofile fd0 (some f0)) fd0 none = _
    rw [Function.update_idem, ← hwas, Function.update_eq_self]

theorem pipe_harmless_iff {pool : Pool} {rs : List Span} (list : s.kmem.FreeList pool rs)
    (few : s.FewFds ∨ s.FewFiles ∨ s.NoPage) :
    s.Harmless (sysPipe true) ↔ s.NoFile ∨ ¬ s.FewFiles ∧ ¬ s.NoPage := by
  cases hfirst : s.closedFile with
  | none =>
    have hnone := closedFile_eq_none.mp hfirst
    exact iff_of_true (pipe_noFile_harmless hnone) (.inl hnone)
  | some f0 =>
    have hwas := closedFile_eq_some hfirst
    have hsome : ¬ s.NoFile := fun h => h f0 hwas
    cases hsecond : (s.setFile f0 File.fresh).closedFile with
    | none =>
      have hnone := closedFile_eq_none.mp hsecond
      refine iff_of_false (pipe_oneFile_panics hfirst hnone) ?_
      rintro (h | ⟨hmore, -⟩)
      · exact hsome h
      refine hmore fun f f' hf hf' => ?_
      have honly : ∀ g, (s.file g).type = .FD_CLOSED → g = f0 := fun g hg => by
        by_contra hne
        refine hnone g ?_
        rwa [setFile_of_ne s _ hne]
      rw [honly f hf, honly f' hf']
    | some f1 =>
      have hfiles : ¬ s.FewFiles := fun h => by
        have hclosed := closedFile_eq_some hsecond
        by_cases hne : f1 = f0
        · rw [hne, setFile_self] at hclosed
          cases hclosed
        · rw [setFile_of_ne s _ hne] at hclosed
          exact hne (h f1 f0 hclosed hwas)
      by_cases hpage : s.NoPage
      · obtain ⟨k, hk⟩ := hpage
        refine iff_of_false (pipe_noPage_panics hfirst hsecond hk) ?_
        rintro (h | ⟨-, hmore⟩)
        · exact hsome h
        · exact hmore ⟨k, hk⟩
      · have hfds : s.FewFds := few.resolve_right fun h => h.elim hfiles hpage
        exact iff_of_true (pipe_fewFds_harmless list hfirst hsecond hpage hfds)
          (.inr ⟨hfiles, hpage⟩)

end Sys

open Sys

/-- When descriptors, file structures or pages run out, `open` of a file with links and `pipe` fail
without a trace exactly if no file structure has to be closed that is not in use yet: `open` when
there is no file structure, `pipe` when there is none or when there are two and a page. -/
theorem exhausted_harmless_iff {s : Sys} {pool : Pool} {rs : List Span}
    (list : s.kmem.FreeList pool rs) :
    (∀ path omode found t, (openInode (s.own s.cp).cwd path omode).run s.tx = .ok found t →
      (∀ ip, found = some ip → (t.fs.inode ip).copy.nlink ≠ 0) → s.NoFd ∨ s.NoFile →
      (s.Harmless (sysOpen (some path) (some omode)) ↔ found = none ∨ s.NoFile)) ∧
    (s.FewFds ∨ s.FewFiles ∨ s.NoPage →
      (s.Harmless (sysPipe true) ↔ s.NoFile ∨ ¬ s.FewFiles ∧ ¬ s.NoPage)) :=
  ⟨fun _ _ _ _ run linked none_left => open_harmless_iff run linked none_left,
    pipe_harmless_iff list⟩

/-! ### A process without descriptors -/

/-- The inode of an empty root directory. -/
def rootInode : Dinode where
  type := T_DIR
  major := 0
  minor := 0
  nlink := 1
  size := 0
  addrs _ := 0

/-- The first process has the root directory open under all of its descriptors. -/
def noFds : Sys where
  tx :=
    { fs :=
        { blankFs with
          sector := fun a =>
            if a.sector = 203 then Block.zero.setDinode 1 rootInode else blankBlock a.sector
          inode := Function.update blankFs.inode 0 ⟨ROOTDEV, 1, 2, false, true, rootInode⟩ }
      cp := 0, ct := fun _ => [], pending := [], ended := [], waits := [] }
  kmem := ⟨fun _ => 0, 0⟩
  own p := if p = 0 then ⟨fun _ => some 0, some 0⟩ else ⟨fun _ => none, none⟩
  file := Function.update (fun _ => File.unused) 0 ⟨.FD_INODE, 16, true, false, 0, some 0, 0⟩
  pipe _ := ⟨⟨0, 0, fun _ => 0⟩, false, false⟩

/-- The same with a full file table. -/
def noFiles : Sys := { noFds with file := fun _ => ⟨.FD_INODE, 1, true, false, 0, some 0, 0⟩ }

theorem noFds_openInode :
    ∃ t, (openInode (some 0) [47] 0).run noFds.tx = .ok (some 0) t ∧
      (t.fs.inode 0).copy.nlink ≠ 0 := by
  have hreturns : returnedWith (fun found t =>
      decide (found = some 0 ∧ (t.fs.inode 0).copy.nlink ≠ 0))
      ((openInode (some 0) [47] 0).run noFds.tx) = true := by
    decide +kernel
  obtain ⟨found, t, hrun, ht⟩ := exists_of_returnedWith hreturns
  obtain ⟨rfl, hlinked⟩ := of_decide_eq_true ht
  exact ⟨t, hrun, hlinked⟩

/-- With a full file table both calls fail without a trace. -/
theorem exhausted_harmless_noFiles :
    noFiles.NoFile ∧ noFiles.Harmless (sysOpen (some [47]) (some 0)) ∧
      noFiles.Harmless (sysPipe true) := by
  have hnone : noFiles.NoFile := fun f h => by cases h
  have hlist : noFiles.kmem.FreeList (kinitPool 0x100000 (by decide)) [] :=
    ⟨rfl, List.Pairwise.nil, by simp⟩
  obtain ⟨hopen, hpipe⟩ := exhausted_harmless_iff hlist
  obtain ⟨t, hrun, hlinked⟩ := noFds_openInode
  refine ⟨hnone, (hopen [47] 0 (some 0) t hrun ?_ (.inr hnone)).mpr (.inr hnone),
    (hpipe (.inr (.inl fun f _ h => absurd h (hnone f)))).mpr (.inl hnone)⟩
  rintro ip h
  obtain rfl := Option.some.inj h
  exact hlinked

/-- With free file structures but no descriptor, `open` of the root directory panics. -/
theorem open_without_descriptor_panics :
    noFds.NoFd ∧ (∃ t, (openInode (some 0) [47] 0).run noFds.tx = .ok (some 0) t ∧
      (t.fs.inode 0).copy.nlink ≠ 0) ∧
    (∃ t, (sysOpen (some [47]) (some 0)).run noFds = .error (.panic "fileclose") t) ∧
    ¬ noFds.Harmless (sysOpen (some [47]) (some 0)) := by
  have hfds : noFds.NoFd := fun fd h => by cases h
  have hfiles : ¬ noFds.NoFile := fun h => h 1 rfl
  obtain ⟨t, hrun, hlinked⟩ := noFds_openInode
  obtain ⟨u, hu⟩ := open_noFd_panics hrun hfiles hfds
  refine ⟨hfds, ⟨t, hrun, hlinked⟩, ⟨u, hu⟩, ?_⟩
  rintro ⟨v, hv, -⟩
  rw [hu] at hv
  cases hv

end Xv6
