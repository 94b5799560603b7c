/-
# References and locks of inodes

What the code of the file system does to the reference counts and the locks of the inode
cache. `iget` and `idup` add a reference and `iput` drops one; everything else leaves the
counts alone. A slot without references may be left locked by a careless caller; such slots are
called stale, and `iget` cleans them up when it uses them again.
-/

import Xv6.Fs.Owners
import Xv6.Fs.Names

namespace Xv6

open Math

namespace Fs

variable {s t : Fs} {ip : InodeId}

/-! ### Code that leaves counts and locks alone -/

/-- The reference count and the lock of every slot. -/
def counts (s : Fs) (ip : InodeId) : Int × Bool := ((s.inode ip).ref, (s.inode ip).busy)

theorem keeps_load (ip : InodeId) : Keeps counts (load ip) := fun _ => rfl

theorem keeps_bread (dev n : Nat) : Keeps counts (bread dev n) := fun _ => rfl

theorem keeps_bwrite (dev n : Nat) (d : Block) : Keeps counts (bwrite dev n d) := fun _ => rfl

theorem keeps_readsb (dev : Nat) : Keeps counts (readsb dev) := fun _ => rfl

theorem keeps_modifyInode {change : Inode → Inode}
    (same : ∀ r, (change r).ref = r.ref ∧ (change r).busy = r.busy) :
    Keeps counts (modifyInode ip change) := by
  refine Keeps.modify fun s => funext fun jp => ?_
  refine setInode_field s ip change (fun r => (r.ref, r.busy)) ?_ jp
  exact Prod.ext (same _).1 (same _).2

theorem keeps_modifyCopy (ip : InodeId) (change : Dinode → Dinode) :
    Keeps counts (modifyCopy ip change) :=
  keeps_modifyInode fun _ => ⟨rfl, rfl⟩

theorem keeps_ballocFrom (dev : Nat) (sb : Superblock) (n b : Nat) :
    Keeps counts (ballocFrom dev sb n b) := by
  induction n generalizing b with
  | zero => exact Keeps.throw _
  | succ n ih =>
    rw [ballocFrom]
    refine (keeps_bread dev _).bind fun bp => ?_
    cases freeBit bp with
    | none => exact ih _
    | some bi =>
      refine (keeps_bwrite dev _ _).bind fun _ => ?_
      exact Keeps.ite (Keeps.throw _) (Keeps.pure _)

theorem keeps_balloc (dev : Nat) : Keeps counts (balloc dev) :=
  (keeps_readsb dev).bind fun _ => keeps_ballocFrom dev _ _ _

theorem keeps_bfree (dev : Nat) (b : UInt32) : Keeps counts (bfree dev b) := by
  refine (keeps_bwrite dev _ _).bind fun _ => (keeps_readsb dev).bind fun _ => ?_
  refine (keeps_bread dev _).bind fun _ => ?_
  exact Keeps.ite (Keeps.throw _) (keeps_bwrite dev _ _)

theorem keeps_addrOrAlloc (ip : InodeId) (k : Fin NADDRS) (alloc : Bool) :
    Keeps counts (addrOrAlloc ip k alloc) := by
  refine (keeps_load ip).bind fun r => Keeps.ite (Keeps.pure _) (Keeps.ite (Keeps.pure _) ?_)
  refine (keeps_balloc _).bind fun _ => (keeps_modifyCopy ip _).bind fun _ => Keeps.pure _

theorem keeps_entryOrAlloc (dev : Nat) (table : UInt32) (i : Nat) (alloc : Bool) :
    Keeps counts (entryOrAlloc dev table i alloc) := by
  refine (keeps_bread dev _).bind fun r => Keeps.ite (Keeps.pure _) (Keeps.ite (Keeps.pure _) ?_)
  refine (keeps_balloc _).bind fun _ => (keeps_bwrite dev _ _).bind fun _ => Keeps.pure _

theorem keeps_bmap (ip : InodeId) (bn : Nat) (alloc : Bool) : Keeps counts (bmap ip bn alloc) := by
  unfold bmap
  split
  · exact (keeps_addrOrAlloc ip _ alloc).bind fun _ => Keeps.pure _
  · refine Keeps.ite ((keeps_load ip).bind fun r => ?_) (Keeps.throw _)
    refine (keeps_addrOrAlloc ip _ alloc).bind fun root => ?_
    cases root with
    | none => exact Keeps.pure _
    | some root =>
      refine (keeps_entryOrAlloc _ root _ alloc).bind fun table => ?_
      cases table with
      | none => exact Keeps.pure _
      | some table => exact (keeps_entryOrAlloc _ table _ alloc).bind fun _ => Keeps.pure _

theorem keeps_iupdate (ip : InodeId) : Keeps counts (iupdate ip) :=
  (keeps_load ip).bind fun _ => (keeps_bread _ _).bind fun _ => keeps_bwrite _ _ _

theorem keeps_freeDirect (ip : InodeId) (i : Fin NDIRECT) : Keeps counts (freeDirect ip i) := by
  refine (keeps_load ip).bind fun r => Keeps.ite (Keeps.pure _) ?_
  exact (keeps_bfree _ _).bind fun _ => keeps_modifyCopy ip _

theorem keeps_freeTables (dev : Nat) (root : Block) : Keeps counts (freeTables dev root) := by
  refine Keeps.forM (fun j => Keeps.ite (Keeps.pure _) ?_) _
  refine (keeps_bread dev _).bind fun _ => ?_
  refine (Keeps.forM (fun k => keeps_bfree dev _) _).bind fun _ => keeps_bfree dev _

theorem keeps_freeIndirect (ip : InodeId) : Keeps counts (freeIndirect ip) := by
  refine Keeps.get.bind fun s => Keeps.ite (Keeps.pure _) ?_
  refine (keeps_bread _ _).bind fun _ => (keeps_freeTables _ _).bind fun _ => ?_
  exact (keeps_bfree _ _).bind fun _ => keeps_modifyCopy ip _

theorem keeps_itrunc (ip : InodeId) : Keeps counts (itrunc ip) := by
  refine (Keeps.forM (keeps_freeDirect ip) _).bind fun _ => (keeps_freeIndirect ip).bind fun _ => ?_
  exact (keeps_modifyCopy ip _).bind fun _ => keeps_iupdate ip

theorem keeps_readiLoop (ip : InodeId) (fuel off left : Nat) :
    Keeps counts (readiLoop ip fuel off left) := by
  induction fuel generalizing off left with
  | zero => exact Keeps.pure _
  | succ fuel ih =>
    rw [readiLoop]
    refine Keeps.ite (Keeps.pure _) ((keeps_load ip).bind fun _ => ?_)
    refine (keeps_bmap ip _ _).bind fun _ => ?_
    exact (keeps_bread _ _).bind fun _ => (ih _ _).bind fun _ => Keeps.pure _

/-! ### Counts and locks -/

/-- The reference counts are `r`, the slots of `locked` are locked and in use, and a slot
outside of `locked` is unlocked unless it is stale. -/
structure At (stale : Set InodeId) (r : InodeId → Int) (locked : Set InodeId) (s : Fs) :
    Prop where
  ref : ∀ ip, (s.inode ip).ref = r ip
  busy : ∀ ip, (s.inode ip).busy = true → ip ∈ locked ∨ ip ∈ stale
  held : ∀ ip ∈ locked, (s.inode ip).busy = true ∧ 0 < r ip

variable {stale locked : Set InodeId} {r : InodeId → Int}

theorem At.of_counts (at_ : At stale r locked s) (same : t.counts = s.counts) :
    At stale r locked t := by
  have hcounts (ip : InodeId) : (t.inode ip).ref = (s.inode ip).ref ∧
      (t.inode ip).busy = (s.inode ip).busy := Prod.ext_iff.mp (congrFun same ip)
  refine ⟨fun ip => ?_, fun ip => ?_, fun ip => ?_⟩
  · rw [(hcounts ip).1]
    exact at_.ref ip
  · rw [(hcounts ip).2]
    exact at_.busy ip
  · rw [(hcounts ip).2]
    exact at_.held ip

/-- Code that leaves counts and locks alone. -/
theorem at_of_keeps {α : Type} {x : FsM α} (keeps : Keeps counts x) :
    Ensures (At stale r locked) x (fun _ => At stale r locked) anyStop := by
  refine Ensures.of_runs fun s a t hat hrun => ?_
  have h := keeps s
  rw [hrun] at h
  exact hat.of_counts h

theorem idup_at (ip : InodeId) :
    Ensures (At stale r locked) (idup ip)
      (fun a t => a = ip ∧ At stale (r + Pi.single ip 1) locked t) anyStop := by
  refine Ensures.of_pre fun s hat => Ensures.step (modifyInode_run ..) (Ensures.ret ?_)
  refine ⟨rfl, fun jp => ?_, fun jp h => hat.busy jp ?_, fun jp h => ?_⟩
  · rw [Pi.add_apply, ← hat.ref jp]
    by_cases hjp : jp = ip
    · rw [hjp, setInode_self, Pi.single_eq_same]
    · rw [setInode_of_ne s ip _ hjp, Pi.single_eq_of_ne hjp, add_zero]
  · rw [← h]
    exact (setInode_field s ip (fun r => { r with ref := r.ref + 1 }) Inode.busy rfl jp).symm
  · obtain ⟨hbusy, hpos⟩ := hat.held jp h
    refine ⟨?_, ?_⟩
    · rw [← hbusy]
      exact setInode_field s ip (fun r => { r with ref := r.ref + 1 }) Inode.busy rfl jp
    · rw [Pi.add_apply]
      by_cases hjp : jp = ip
      · rw [hjp, Pi.single_eq_same]
        rw [hjp] at hpos
        omega
      · rw [Pi.single_eq_of_ne hjp, add_zero]
        exact hpos

theorem iget_at (dev inum : Nat) :
    Ensures (At stale r locked) (iget dev inum)
      (fun ip t => At stale (r + Pi.single ip 1) locked t) anyStop := by
  refine Ensures.of_pre fun s hat => Ensures.step (a := s) rfl ?_
  cases s.cached dev inum with
  | some ip =>
    refine (Ensures.of_holds _ hat (idup_at ip)).weaken ?_ fun _ h => h
    rintro _ t ⟨rfl, h⟩
    exact h
  | none =>
    cases hempty : s.empty with
    | none => exact Ensures.throw trivial
    | some ip =>
      have hzero : r ip = 0 := (hat.ref ip).symm.trans (empty_eq_some hempty)
      refine Ensures.step (modifyInode_run ..) (Ensures.ret ?_)
      refine ⟨fun jp => ?_, fun jp h => ?_, fun jp h => ?_⟩
      · rw [Pi.add_apply]
        by_cases hjp : jp = ip
        · rw [hjp, setInode_self, Pi.single_eq_same, hzero]
          rfl
        · rw [setInode_of_ne s ip _ hjp, Pi.single_eq_of_ne hjp, add_zero]
          exact hat.ref jp
      · by_cases hjp : jp = ip
        · rw [hjp, setInode_self] at h
          cases h
        · rw [setInode_of_ne s ip _ hjp] at h
          exact hat.busy jp h
      · -- the slot that is taken was free, so it is none of the locked ones
        obtain ⟨hbusy, hpos⟩ := hat.held jp h
        have hjp : jp ≠ ip := by
          rintro rfl
          omega
        rw [setInode_of_ne s ip _ hjp, Pi.add_apply, Pi.single_eq_of_ne hjp, add_zero]
        exact ⟨hbusy, hpos⟩

/-- A slot is locked. -/
theorem At.setBusy (at_ : At stale r locked s) (pos : 0 < r ip) :
    At stale r (insert ip locked) (s.setInode ip fun r => { r with busy := true }) := by
  refine ⟨fun jp => ?_, fun jp h => ?_, fun jp h => ?_⟩
  · rw [← at_.ref jp]
    exact setInode_field s ip (fun r => { r with busy := true }) Inode.ref rfl jp
  · by_cases hjp : jp = ip
    · exact .inl (.inl hjp)
    · rw [setInode_of_ne s ip _ hjp] at h
      exact (at_.busy jp h).imp_left .inr
  · by_cases hjp : jp = ip
    · rw [hjp, setInode_self]
      exact ⟨rfl, pos⟩
    · rw [setInode_of_ne s ip _ hjp]
      exact at_.held jp (h.resolve_left hjp)

/-- A slot is unlocked. -/
theorem At.clearBusy (at_ : At stale r locked s) (ip : InodeId) :
    At stale r (locked \ {ip}) (s.setInode ip fun r => { r with busy := false }) := by
  refine ⟨fun jp => ?_, fun jp h => ?_, fun jp h => ?_⟩
  · rw [← at_.ref jp]
    exact setInode_field s ip (fun r => { r with busy := false }) Inode.ref rfl jp
  · by_cases hjp : jp = ip
    · rw [hjp, setInode_self] at h
      cases h
    · rw [setInode_of_ne s ip _ hjp] at h
      exact (at_.busy jp h).imp_left fun h' => ⟨h', hjp⟩
  · rw [setInode_of_ne s ip _ h.2]
    exact at_.held jp h.1

theorem ilock_at (ip : InodeId) :
    Ensures (At stale r locked) (ilock ip)
      (fun _ t => ip ∉ locked ∧ 0 < r ip ∧ At stale r (insert ip locked) t) anyStop := by
  refine Ensures.of_pre fun s hat => Ensures.step (load_run ..) ?_
  refine Ensures.ite (fun _ => Ensures.throw trivial) fun href => ?_
  refine Ensures.ite (fun _ => Ensures.throw trivial) fun hbusy => ?_
  have hout : ip ∉ locked := fun h => hbusy (hat.held ip h).1
  have hpos : 0 < r ip := by
    rw [← hat.ref ip]
    omega
  refine Ensures.step (modifyInode_run ..) ?_
  refine Ensures.of_holds (At stale r (insert ip locked)) (hat.setBusy hpos) ?_
  refine (at_of_keeps ?_).weaken (fun _ t h => ⟨hout, hpos, h⟩) fun _ h => h
  refine Keeps.ite (Keeps.pure _) ((keeps_bread _ _).bind fun bp => ?_)
  refine Keeps.bind (keeps_modifyInode fun _ => ⟨rfl, rfl⟩) fun _ => ?_
  exact Keeps.ite (Keeps.throw _) (Keeps.pure _)

theorem iunlock_at (ip : InodeId) :
    Ensures (At stale r locked) (iunlock ip)
      (fun _ t => (ip ∈ locked ∨ ip ∈ stale) ∧ At stale r (locked \ {ip}) t) anyStop := by
  refine Ensures.of_pre fun s hat => Ensures.step (load_run ..) ?_
  refine Ensures.ite (fun _ => Ensures.throw trivial) fun hbusy => Ensures.modify ?_
  rintro s rfl
  rw [not_or] at hbusy
  exact ⟨hat.busy ip (by simpa using hbusy.1), hat.clearBusy ip⟩

theorem dropRef_at (ip : InodeId) (others : ip ∈ locked → 1 < r ip) :
    Ensures (At stale r locked) (dropRef ip)
      (fun _ t => At stale (r - Pi.single ip 1) locked t) anyStop := by
  refine Ensures.of_pre fun s hat => Ensures.modify ?_
  rintro s rfl
  refine ⟨fun jp => ?_, fun jp h => hat.busy jp ?_, fun jp h => ?_⟩
  · rw [Pi.sub_apply, ← hat.ref jp]
    by_cases hjp : jp = ip
    · rw [hjp, setInode_self, Pi.single_eq_same]
    · rw [setInode_of_ne s ip _ hjp, Pi.single_eq_of_ne hjp, sub_zero]
  · rw [← h]
    exact (setInode_field s ip (fun r => { r with ref := r.ref - 1 }) Inode.busy rfl jp).symm
  · obtain ⟨hbusy, hpos⟩ := hat.held jp h
    refine ⟨?_, ?_⟩
    · rw [← hbusy]
      exact setInode_field s ip (fun r => { r with ref := r.ref - 1 }) Inode.busy rfl jp
    · rw [Pi.sub_apply]
      by_cases hjp : jp = ip
      · subst hjp
        rw [Pi.single_eq_same]
        have hmore := others h
        omega
      · rw [Pi.single_eq_of_ne hjp, sub_zero]
        exact hpos

/-- `iput` drops a reference. If the caller has the inode locked, it must hold another one. -/
theorem iput_at (ip : InodeId) (others : ip ∈ locked → 1 < r ip) :
    Ensures (At stale r locked) (iput ip)
      (fun _ t => At stale (r - Pi.single ip 1) locked t) anyStop := by
  refine Ensures.of_pre fun s hat => Ensures.step (load_run ..) ?_
  refine Ensures.ite (fun hfree => ?_) fun _ => Ensures.of_holds _ hat (dropRef_at ip others)
  refine Ensures.ite (fun _ => Ensures.throw trivial) fun hbusy => ?_
  -- the inode is locked while it is freed
  have hout : ip ∉ locked := fun h => hbusy (hat.held ip h).1
  have hpos : 0 < r ip := by
    rw [← hat.ref ip, hfree.1]
    decide
  refine Ensures.step (modifyInode_run ..) ?_
  refine Ensures.of_holds (At stale r (insert ip locked)) (hat.setBusy hpos) ?_
  refine (at_of_keeps (keeps_itrunc ip)).bind fun _ => ?_
  refine (at_of_keeps (keeps_modifyCopy ip _)).bind fun _ => ?_
  refine (at_of_keeps (keeps_iupdate ip)).bindAt fun _ t ht => ?_
  refine Ensures.step (modifyInode_run ..) (Ensures.of_holds _ ?_ (dropRef_at ip others))
  have h := ht.clearBusy ip
  rwa [Set.insert_sdiff_of_mem _ (Set.mem_singleton ip), Set.sdiff_singleton_eq_self hout] at h

theorem iunlockput_at (ip : InodeId) :
    Ensures (At stale r locked) (iunlockput ip)
      (fun _ t => (ip ∈ locked ∨ ip ∈ stale) ∧
        At stale (r - Pi.single ip 1) (locked \ {ip}) t) anyStop := by
  refine (iunlock_at ip).bindAt ?_
  rintro _ s ⟨hlocked, hat⟩
  refine Ensures.of_holds _ hat ?_
  exact (iput_at ip fun h => absurd rfl h.2).weaken (fun _ t h => ⟨hlocked, h⟩)
    fun _ h => h

/-! ### Contents -/

/-- A slot that was unlocked for a while is locked again. -/
theorem At.relock (at_ : At stale r (insert ip (locked \ {ip})) t)
    (was : ip ∈ locked ∨ ip ∈ stale) : At stale r locked t := by
  refine ⟨at_.ref, fun jp h => ?_, fun jp h => at_.held jp ?_⟩
  · rcases at_.busy jp h with (rfl | h') | h'
    · exact was
    · exact .inl h'.1
    · exact .inr h'
  · by_cases hjp : jp = ip
    · exact .inl hjp
    · exact .inr ⟨h, hjp⟩

theorem consoleRead_at (ip : InodeId) (n : Int) :
    Ensures (At stale r locked) (consoleRead ip n) (fun _ => At stale r locked) anyStop := by
  refine (iunlock_at ip).bindAt ?_
  rintro _ s ⟨hwas, hat⟩
  refine Ensures.ite (fun _ => ?_) fun _ => ?_
  · refine (Ensures.of_holds _ hat (ilock_at ip)).bind fun _ => Ensures.pure ?_
    rintro t ⟨-, -, h⟩
    exact h.relock hwas
  · refine Ensures.step (a := s) rfl (Ensures.step (a := ()) rfl ?_)
    refine Ensures.of_holds (At stale r (locked \ {ip})) (hat.of_counts rfl) ?_
    refine (ilock_at ip).bind fun _ => ?_
    cases s.typed s.reads with
    | none | some _ =>
      refine Ensures.pure ?_
      rintro t ⟨-, -, h⟩
      exact h.relock hwas

theorem readi_at (ip : InodeId) (off n : Nat) :
    Ensures (At stale r locked) (readi ip off n) (fun _ => At stale r locked) anyStop := by
  refine (at_of_keeps (keeps_load ip)).bind fun _ => Ensures.ite (fun _ => ?_) fun _ => ?_
  · exact Ensures.ite (fun _ => consoleRead_at ip _) fun _ => Ensures.pure fun _ h => h
  · refine Ensures.ite (fun _ => Ensures.pure fun _ h => h) fun _ => ?_
    exact (at_of_keeps (keeps_readiLoop ip _ _ _)).bind fun _ => Ensures.pure fun _ h => h

/-! ### Directories and paths -/

/-- An operation that may return a new reference. -/
def AtFound (stale : Set InodeId) (r : InodeId → Int) (locked : Set InodeId) :
    Option InodeId → Fs → Prop
  | none => At stale r locked
  | some ip => At stale (r + Pi.single ip 1) locked

theorem dirlookupFrom_at (dp : InodeId) (name : List UInt8) (n off : Nat) :
    Ensures (At stale r locked) (dirlookupFrom dp name n off)
      (fun found => AtFound stale r locked (found.map Prod.fst)) anyStop := by
  induction n generalizing off with
  | zero => exact Ensures.pure fun _ h => h
  | succ n ih =>
    rw [dirlookupFrom]
    refine (at_of_keeps (keeps_load dp)).bind fun _ => ?_
    refine (at_of_keeps (keeps_bmap dp _ _)).bind fun _ => ?_
    refine (at_of_keeps (keeps_bread _ _)).bind fun bp => ?_
    cases bp.findDirent name with
    | none => exact ih _
    | some o => exact (iget_at _ _).bind fun ip => Ensures.pure fun _ h => h

theorem dirlookup_at (dp : InodeId) (name : List UInt8) :
    Ensures (At stale r locked) (dirlookup dp name)
      (fun found => AtFound stale r locked (found.map Prod.fst)) anyStop := by
  refine (at_of_keeps (keeps_load dp)).bind fun _ => ?_
  exact Ensures.ite (fun _ => Ensures.throw trivial) fun _ => dirlookupFrom_at dp name _ _

/-- A reference that was taken is dropped again. -/
theorem iput_back_at (ip : InodeId) (others : ∀ jp ∈ locked, 0 < r jp) :
    Ensures (At stale (r + Pi.single ip 1) locked) (iput ip) (fun _ => At stale r locked)
      anyStop := by
  have hmore : ip ∈ locked → 1 < (r + Pi.single ip 1 : InodeId → Int) ip := by
    intro hip
    have hpos := others ip hip
    rw [Pi.add_apply, Pi.single_eq_same]
    omega
  refine (iput_at ip hmore).weaken (fun _ t h => ?_) fun _ h => h
  rwa [add_sub_cancel_right] at h

/-- The lock on an inode is released with the reference to it. -/
theorem iunlockput_back_at (ip : InodeId) (out : ip ∉ locked) :
    Ensures (At stale (r + Pi.single ip 1) (insert ip locked)) (iunlockput ip)
      (fun _ => At stale r locked) anyStop := by
  refine (iunlockput_at ip).weaken (fun _ t h => ?_) fun _ h => h
  rw [add_sub_cancel_right, Set.insert_sdiff_of_mem _ (Set.mem_singleton ip),
    Set.sdiff_singleton_eq_self out] at h
  exact h.2

/-- The same where another reference was taken in between. -/
theorem iunlockput_under_at (ip jp : InodeId) (out : ip ∉ locked) :
    Ensures (At stale (r + Pi.single ip 1 + Pi.single jp 1) (insert ip locked)) (iunlockput ip)
      (fun _ => At stale (r + Pi.single jp 1) locked) anyStop := by
  rw [add_right_comm]
  exact iunlockput_back_at ip out

theorem nameiLoop_at (parent : Bool) (fuel : Nat) (ip : InodeId) (path : List UInt8)
    (others : ∀ jp ∈ locked, 0 < r jp) :
    Ensures (At stale (r + Pi.single ip 1) locked) (nameiLoop parent fuel ip path)
      (fun found => AtFound stale r locked (found.map Prod.fst)) anyStop := by
  induction fuel generalizing ip path with
  | zero => exact Ensures.throw trivial
  | succ fuel ih =>
    rw [nameiLoop]
    match skipelem path with
    | none =>
      refine Ensures.ite (fun _ => ?_) fun _ => Ensures.pure fun _ h => h
      exact (iput_back_at ip others).bind fun _ => Ensures.pure fun _ h => h
    | some (name, rest) =>
      refine (ilock_at ip).bindAt ?_
      rintro _ s ⟨hout, -, hat⟩
      refine Ensures.of_holds _ hat ?_
      refine (at_of_keeps (keeps_load ip)).bind fun _ => Ensures.ite (fun _ => ?_) fun _ => ?_
      · exact (iunlockput_back_at ip hout).bind fun _ => Ensures.pure fun _ h => h
      refine Ensures.ite (fun _ => ?_) fun _ => ?_
      · refine (iunlock_at ip).bind fun _ => Ensures.pure ?_
        rintro t ⟨-, h⟩
        rwa [Set.insert_sdiff_of_mem _ (Set.mem_singleton ip),
          Set.sdiff_singleton_eq_self hout] at h
      refine (dirlookup_at ip name).bind fun found => ?_
      match found with
      | none => exact (iunlockput_back_at ip hout).bind fun _ => Ensures.pure fun _ h => h
      | some (next, _) =>
        exact (iunlockput_under_at ip next hout).bind fun _ => ih next rest

theorem nameiStart_at (cwd : Option InodeId) (path : List UInt8) :
    Ensures (At stale r locked) (nameiStart cwd path)
      (fun ip => At stale (r + Pi.single ip 1) locked) anyStop := by
  refine Ensures.ite (fun _ => iget_at _ _) fun _ => ?_
  match cwd with
  | none => exact Ensures.throw trivial
  | some ip =>
    refine (idup_at ip).weaken ?_ fun _ h => h
    rintro _ t ⟨rfl, h⟩
    exact h

theorem nameiWalk_at (cwd : Option InodeId) (parent : Bool) (path : List UInt8) :
    Ensures (At stale r locked) (nameiWalk cwd parent path)
      (fun found => AtFound stale r locked (found.map Prod.fst)) anyStop := by
  refine Ensures.of_pre fun s hat => Ensures.of_holds _ hat ?_
  refine (nameiStart_at cwd path).bind fun ip => ?_
  exact nameiLoop_at parent _ ip path fun jp h => (hat.held jp h).2

theorem namei_at (cwd : Option InodeId) (path : List UInt8) :
    Ensures (At stale r locked) (namei cwd path) (AtFound stale r locked) anyStop :=
  (nameiWalk_at cwd false path).bind fun _ => Ensures.pure fun _ h => h

end Fs

end Xv6
