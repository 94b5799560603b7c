/-
# Path resolution

`_namei` takes a path apart with `skipelem` and looks the elements up as it goes. What it follows
is the list of the segments between the slashes, without the empty ones and cut to `DIRSIZ` bytes:
`namei` walks along all of them, and `nameiparent` along all but the last. The walk is stated as a
program over the list of names, so the theorems hold for every state, also where a lookup stops
the kernel.
-/

import Xv6.Fs.Names
import Xv6.Math.Exec

namespace Xv6

open Math

/-! ### Segments -/

/-- The maximal segments of a path without a slash, in order, the empty ones left out. -/
def segments (path : List UInt8) : List (List UInt8) := (path.splitOn slash).filter (· ≠ [])

/-- The names that a path consists of. -/
def elements (path : List UInt8) : List (List UInt8) := (segments path).map (·.take DIRSIZ)

section Segments

variable {path name rest : List UInt8}

/-- Dropping stops where the test fails. -/
theorem head_of_dropWhile {p : UInt8 → Bool} {b : UInt8} (h : path.dropWhile p = b :: rest) :
    p b = false := by
  have := List.head?_dropWhile_not p path
  rw [h] at this
  exact this

theorem segments_slash (path : List UInt8) : segments (slash :: path) = segments path := by
  unfold segments List.splitOn
  rw [List.splitOnP_cons_eq_if_modifyHead, if_pos (beq_self_eq_true slash),
    List.filter_cons_of_neg (by simp)]

theorem segments_dropSlashes (path : List UInt8) :
    segments (path.dropWhile (· = slash)) = segments path := by
  induction path with
  | nil => rfl
  | cons b path ih =>
    by_cases hb : b = slash
    · subst hb
      rw [List.dropWhile_cons_of_pos (by simp), ih, segments_slash]
    · rw [List.dropWhile_cons_of_neg (by simpa using hb)]

/-- A path that does not begin with a slash begins with its first segment. -/
theorem segments_cons {b : UInt8} (nonslash : b ≠ slash) (path : List UInt8) :
    segments (b :: path) = (b :: path).takeWhile (· ≠ slash) ::
      segments ((b :: path).dropWhile (· ≠ slash)) := by
  set name := (b :: path).takeWhile (· ≠ slash) with hname
  have hne : name ≠ [] := by
    rw [hname, List.takeWhile_cons_of_pos (by simpa using nonslash)]
    exact List.cons_ne_nil _ _
  have hfree : ∀ x ∈ name, (x == slash) = false := fun x hx => by
    have := List.all_eq_true.mp List.all_takeWhile x hx
    simpa using this
  have hsplit : name ++ (b :: path).dropWhile (· ≠ slash) = b :: path :=
    List.takeWhile_append_dropWhile
  cases hrest : (b :: path).dropWhile (· ≠ slash) with
  | nil =>
    -- the whole path is one segment
    rw [hrest, List.append_nil] at hsplit
    rw [← hsplit]
    unfold segments List.splitOn
    rw [List.splitOnP_eq_singleton hfree]
    simp [hne]
  | cons c rest =>
    obtain rfl : c = slash := by simpa using head_of_dropWhile hrest
    rw [hrest] at hsplit
    rw [← hsplit, segments_slash]
    unfold segments List.splitOn
    rw [List.splitOnP_append_cons_of_forall_mem (p := (· == slash)) hfree slash
      (beq_self_eq_true slash),
      List.filter_cons_of_pos (by simpa using hne)]

namespace Fs

theorem elements_of_skipelem_none (h : skipelem path = none) : elements path = [] := by
  unfold skipelem at h
  dsimp only at h
  split at h
  next hnil =>
    unfold elements
    rw [← segments_dropSlashes, hnil]
    rfl
  next => cases h

/-- What a call of `skipelem` splits off. -/
theorem elements_of_skipelem_some (h : skipelem path = some (name, rest)) :
    elements path = name :: elements rest ∧ rest.length < path.length ∧
      (rest = [] ↔ elements rest = []) := by
  unfold skipelem at h
  dsimp only at h
  split at h
  next => cases h
  next hne =>
    obtain ⟨b, s, hs⟩ := List.exists_cons_of_ne_nil hne
    have hb : b ≠ slash := by simpa using head_of_dropWhile hs
    simp only [Option.some.injEq, Prod.mk.injEq] at h
    obtain ⟨rfl, rfl⟩ := h
    refine ⟨?_, ?_, ?_⟩
    · unfold elements
      rw [← segments_dropSlashes path, hs, segments_cons hb, List.map_cons, segments_dropSlashes]
    · have h₁ := (List.dropWhile_sublist (· = slash) (l := path)).length_le
      have h₂ : ((path.dropWhile (· = slash)).dropWhile (· ≠ slash)).length <
          (path.dropWhile (· = slash)).length := by
        rw [hs, List.dropWhile_cons_of_pos (by simpa using hb)]
        exact Nat.lt_succ_of_le (List.dropWhile_sublist _).length_le
      have h₃ := (List.dropWhile_sublist (· = slash)
        (l := (path.dropWhile (· = slash)).dropWhile (· ≠ slash))).length_le
      omega
    · set s' := (path.dropWhile (· = slash)).dropWhile (· ≠ slash)
      constructor
      · intro h
        rw [h]
        rfl
      · intro h
        by_contra hrest
        obtain ⟨c, q, hq⟩ := List.exists_cons_of_ne_nil hrest
        have hc : c ≠ slash := by simpa using head_of_dropWhile hq
        rw [hq, elements, segments_cons hc] at h
        cases h

/-- The names that `skipelem` yields, one after the other. -/
def skipelems (path : List UInt8) : List (List UInt8) :=
  match _hsplit : skipelem path with
  | none => []
  | some (name, rest) => name :: skipelems rest
termination_by path.length
decreasing_by exact (elements_of_skipelem_some _hsplit).2.1

theorem skipelems_eq_elements (path : List UInt8) : skipelems path = elements path := by
  rw [skipelems]
  split
  next hsplit => exact (elements_of_skipelem_none hsplit).symm
  next name rest hsplit =>
    obtain ⟨helements, hshorter, -⟩ := elements_of_skipelem_some hsplit
    rw [helements, skipelems_eq_elements rest]
termination_by path.length

end Fs

end Segments

/-! ### Walks -/

namespace Fs

/-- How a walk along names ends. -/
inductive Outcome where
  | reached (ip : InodeId)
  | notDirectory
  | missing
  deriving DecidableEq, Repr

/-- The inode that a walk returns; 0 unless it has reached one. -/
def Outcome.inode : Outcome → Option InodeId
  | .reached ip => some ip
  | .notDirectory => none
  | .missing => none

/-- Look up one name in `ip`, and drop the reference to `ip`. -/
def lookup (ip : InodeId) (name : List UInt8) : FsM Outcome := do
  ilock ip
  let r ← load ip
  if r.copy.type ≠ T_DIR then do
    iunlockput ip
    pure .notDirectory
  else
    match ← dirlookup ip name with
    | none => do
      iunlockput ip
      pure .missing
    | some (next, _) => do
      iunlockput ip
      pure (.reached next)

/-- Look up names one after the other, from `ip` on. -/
def walk : InodeId → List (List UInt8) → FsM Outcome
  | ip, [] => pure (.reached ip)
  | ip, name :: names => do
    match ← lookup ip name with
    | .reached next => walk next names
    | out => pure out

/-- Stop in the directory that a walk has reached, with the name that is left. -/
def stopAt (name : List UInt8) : Outcome → FsM (Option (InodeId × List UInt8))
  | .reached dp => do
    ilock dp
    let r ← load dp
    if r.copy.type ≠ T_DIR then do
      iunlockput dp
      pure none
    else do
      iunlock dp
      pure (some (dp, name))
  | _ => pure none

/-- The lookup of a name that is left for `dp`. -/
def lookupLast : Option (InodeId × List UInt8) → FsM (Option InodeId)
  | none => pure none
  | some (dp, name) => do
    ilock dp
    let found ← dirlookup dp name
    iunlockput dp
    pure (found.map Prod.fst)

section Walks

variable {fuel : Nat} {ip : InodeId} {path : List UInt8}

/-- The loop of `_namei` for `namei` is a walk along all elements. -/
theorem nameiLoop_all (enough : path.length < fuel) :
    nameiLoop false fuel ip path =
      (walk ip (elements path) >>= fun out => pure (out.inode.map (·, []))) := by
  induction fuel generalizing ip path with
  | zero => cases enough
  | succ fuel ih =>
    rw [nameiLoop]
    cases hsplit : skipelem path with
    | none =>
      rw [elements_of_skipelem_none hsplit]
      rfl
    | some found =>
      obtain ⟨name, rest⟩ := found
      obtain ⟨helements, hshorter, -⟩ := elements_of_skipelem_some hsplit
      rw [helements, walk, lookup]
      simp only [bind_assoc]
      refine bind_congr fun _ => bind_congr fun r => ?_
      by_cases hdir : r.copy.type ≠ T_DIR
      · simp only [if_pos hdir, bind_assoc, pure_bind]
        rfl
      · simp only [if_neg hdir, bind_assoc]
        rw [if_neg (by simp)]
        refine bind_congr fun found => ?_
        cases found with
        | none =>
          simp only [bind_assoc, pure_bind]
          rfl
        | some next =>
          simp only [bind_assoc, pure_bind]
          exact bind_congr fun _ => ih (by omega)

/-- A walk along one more name. -/
theorem walk_append (ip : InodeId) (names : List (List UInt8)) (last : List UInt8) :
    walk ip (names ++ [last]) = (walk ip names >>= fun out =>
      match out with
      | .reached dp => lookup dp last
      | out => pure out) := by
  induction names generalizing ip with
  | nil =>
    simp only [List.nil_append, walk, pure_bind]
    refine Eq.trans (bind_congr fun out => ?_) (bind_pure (lookup ip last))
    cases out <;> rfl
  | cons name names ih =>
    rw [List.cons_append, walk, walk, bind_assoc]
    refine bind_congr fun out => ?_
    cases out with
    | reached next => exact ih next
    | notDirectory => rfl
    | missing => rfl

/-- The loop of `_namei` for `nameiparent` is a walk along all elements but the last. -/
theorem nameiLoop_parent (enough : path.length < fuel) :
    nameiLoop true fuel ip path =
      match (elements path).getLast? with
      | none => iput ip >>= fun _ => pure none
      | some last => walk ip (elements path).dropLast >>= stopAt last := by
  induction fuel generalizing ip path with
  | zero => cases enough
  | succ fuel ih =>
    rw [nameiLoop]
    cases hsplit : skipelem path with
    | none =>
      rw [elements_of_skipelem_none hsplit]
      rfl
    | some found =>
      obtain ⟨name, rest⟩ := found
      obtain ⟨helements, hshorter, hlast⟩ := elements_of_skipelem_some hsplit
      rw [helements]
      cases hrest : elements rest with
      | nil =>
        rw [hrest] at hlast
        obtain rfl := hlast.mpr rfl
        simp only [List.getLast?_singleton, List.dropLast_singleton, walk, pure_bind, stopAt]
        refine bind_congr fun _ => bind_congr fun r => ?_
        simp only [and_self, if_true]
      | cons second names =>
        have hmore : rest ≠ [] := fun h => by
          rw [hlast.mp h] at hrest
          cases hrest
        rw [List.getLast?_cons_cons, List.dropLast_cons_cons, walk]
        have hnext (next : InodeId) := @ih next rest (by omega)
        rw [hrest] at hnext
        cases hback : (second :: names).getLast? with
        | none => cases List.getLast?_eq_none_iff.mp hback
        | some last =>
          rw [hback] at hnext
          dsimp only at hnext ⊢
          rw [lookup]
          simp only [bind_assoc]
          refine bind_congr fun _ => bind_congr fun r => ?_
          by_cases hdir : r.copy.type ≠ T_DIR
          · simp only [if_pos hdir, bind_assoc, pure_bind, stopAt]
          · simp only [if_neg hdir, bind_assoc]
            rw [if_neg (by simp [hmore])]
            refine bind_congr fun found => ?_
            cases found with
            | none => simp only [bind_assoc, pure_bind, stopAt]
            | some next =>
              simp only [bind_assoc, pure_bind]
              exact bind_congr fun _ => hnext next.1

/-! ### The two calls -/

/-- A slot that `ilock` has locked. -/
theorem locked_of_ilock {s t : Fs} {dp : InodeId} (run : (ilock dp).run s = .ok () t) :
    1 ≤ (t.inode dp).ref ∧ (t.inode dp).busy = true ∧ (t.inode dp).valid = true := by
  rw [ilock] at run
  change (if (s.inode dp).ref < 1 then _ else _ : FsM Unit).run s = _ at run
  rw [run_ite] at run
  split at run
  next => cases run
  next href =>
    rw [run_ite] at run
    split at run
    next => cases run
    next =>
      rw [modifyInode, run_modify_bind, run_ite] at run
      split at run
      next hvalid =>
        cases run
        rw [setInode_self]
        exact ⟨by dsimp only; omega, rfl, hvalid⟩
      next =>
        obtain ⟨bp, u, hread, run⟩ := run_bind_eq_ok_iff.mp run
        cases hread
        dsimp only at run
        rw [modifyInode, run_modify_bind, run_ite] at run
        split at run
        next => cases run
        next =>
          cases run
          rw [setInode_self, setInode_self]
          exact ⟨by dsimp only; omega, rfl, rfl⟩

/-- Giving a lock back and taking it again changes nothing. -/
theorem relock_run {s t : Fs} {dp : InodeId} (run : (ilock dp).run s = .ok () t) :
    ∃ u, (iunlock dp).run t = .ok () u ∧ (ilock dp).run u = .ok () t := by
  obtain ⟨href, hbusy, hvalid⟩ := locked_of_ilock run
  refine ⟨t.setInode dp fun r => { r with busy := false }, ?_, ?_⟩
  · rw [iunlock]
    change
      (if (!(t.inode dp).busy) = true ∨ (t.inode dp).ref < 1 then _ else _ : FsM Unit).run t = _
    rw [run_ite, if_neg (by simp [hbusy]; omega)]
    rfl
  · set u := t.setInode dp fun r => { r with busy := false } with hu
    have hslot : u.inode dp = { t.inode dp with busy := false } := Function.update_self ..
    rw [ilock]
    change (if (u.inode dp).ref < 1 then _ else _ : FsM Unit).run u = _
    rw [run_ite, hslot, if_neg (by dsimp only; omega), run_ite, if_neg (by simp), modifyInode,
      run_modify_bind, run_ite, if_pos hvalid]
    refine congrArg (EStateM.Result.ok ()) ?_
    rw [hu]
    simp only [setInode, Function.update_self, Function.update_idem]
    rw [← hbusy]
    simp

/-- Looking a name up in the directory where the walk along the others has stopped. -/
theorem stopAt_lookupLast (out : Outcome) (last : List UInt8) :
    (stopAt last out >>= lookupLast) = ((match out with
      | .reached dp => lookup dp last
      | out => pure out) >>= fun out => pure out.inode) := by
  cases out with
  | notDirectory => rfl
  | missing => rfl
  | reached dp =>
    funext s
    change (stopAt last (.reached dp) >>= lookupLast).run s =
      (lookup dp last >>= fun out => pure out.inode).run s
    simp only [stopAt, lookup, bind_assoc]
    cases hlock : (ilock dp).run s with
    | error e t => rw [run_bind_of_error hlock, run_bind_of_error hlock]
    | ok _ t =>
      rw [run_bind_of_ok hlock, run_bind_of_ok hlock]
      change (((if (t.inode dp).copy.type ≠ T_DIR then _ else _) : FsM _) >>= lookupLast).run t =
        (((if (t.inode dp).copy.type ≠ T_DIR then _ else _) : FsM _) >>= _).run t
      by_cases hdir : (t.inode dp).copy.type ≠ T_DIR
      · rw [if_pos hdir, if_pos hdir]
        simp only [bind_assoc, pure_bind]
        rfl
      · rw [if_neg hdir, if_neg hdir]
        simp only [bind_assoc, pure_bind, lookupLast]
        obtain ⟨u, hunlock, hrelock⟩ := relock_run hlock
        rw [run_bind_of_ok hunlock, run_bind_of_ok hrelock]
        cases hfound : (dirlookup dp last).run t with
        | error e v => rw [run_bind_of_error hfound, run_bind_of_error hfound]
        | ok found v =>
          rw [run_bind_of_ok hfound, run_bind_of_ok hfound]
          cases found with
          | none => simp only [bind_assoc, pure_bind, Option.map_none, Outcome.inode]
          | some next => simp only [bind_assoc, pure_bind, Option.map_some, Outcome.inode]

end Walks

/-- The loop of `_namei` starts at the root for a path that begins with a slash, and otherwise in
the current directory, which has to be there. -/
theorem nameiStart_eq (cwd : Option InodeId) (path : List UInt8) :
    nameiStart cwd path =
      if path.head? = some slash then iget ROOTDEV 1 else cwd.elim (throw .fault) idup := by
  unfold nameiStart
  split
  · rfl
  · cases cwd <;> rfl

/-- Path resolution. Iterating `skipelem` yields the segments of the path, cut to `DIRSIZ` bytes.
`namei` is the walk along them, from inode 1 of the root device if the path begins with a slash
and from the current directory otherwise. `nameiparent` is 0 if there are none, and otherwise
stops in the directory that all but the last lead to, with the last one as the name. If there are
some, `namei` is the lookup of that name in that directory. -/
theorem namei_follows_elements (cwd : Option InodeId) (path : List UInt8) :
    skipelems path = elements path ∧
    namei cwd path = (do
      let ip ← (if path.head? = some slash then iget ROOTDEV 1
        else cwd.elim (throw .fault) idup : FsM InodeId)
      let out ← walk ip (elements path)
      pure out.inode) ∧
    nameiparent cwd path = (do
      let ip ← (if path.head? = some slash then iget ROOTDEV 1
        else cwd.elim (throw .fault) idup : FsM InodeId)
      match (elements path).getLast? with
      | none => do
        iput ip
        pure none
      | some last => do
        let out ← walk ip (elements path).dropLast
        stopAt last out) ∧
    (elements path ≠ [] → namei cwd path = (do
      let found ← nameiparent cwd path
      lookupLast found)) := by
  rw [← nameiStart_eq]
  have hall : namei cwd path = (do
      let ip ← nameiStart cwd path
      let out ← walk ip (elements path)
      pure out.inode) := by
    rw [namei, nameiWalk, bind_assoc]
    refine bind_congr fun ip => ?_
    rw [nameiLoop_all (Nat.lt_succ_self _), bind_assoc]
    refine bind_congr fun out => ?_
    rw [pure_bind]
    cases out <;> rfl
  have hparent : nameiparent cwd path = (do
      let ip ← nameiStart cwd path
      match (elements path).getLast? with
      | none => do
        iput ip
        pure none
      | some last => do
        let out ← walk ip (elements path).dropLast
        stopAt last out) := by
    rw [nameiparent, nameiWalk]
    exact bind_congr fun ip => nameiLoop_parent (Nat.lt_succ_self _)
  refine ⟨skipelems_eq_elements path, hall, hparent, fun hsome => ?_⟩
  rw [hall, hparent, bind_assoc]
  refine bind_congr fun ip => ?_
  obtain ⟨names, last, hlast⟩ : ∃ names last, elements path = names ++ [last] := by
    rcases List.eq_nil_or_concat (elements path) with h | ⟨names, last, h⟩
    · exact absurd h hsome
    · exact ⟨names, last, by rw [h, List.concat_eq_append]⟩
  rw [hlast, List.getLast?_concat, List.dropLast_concat, walk_append, bind_assoc, bind_assoc]
  exact bind_congr fun out => (stopAt_lookupLast out last).symm

/-- A disk with the directory `usr`, which is inode 2, in the root directory, and the file `b`,
which is inode 3, in `usr`. Slot 0 of the inode cache stands for `usr`. -/
def usrFs : Fs where
  sector a :=
    if a.sector = 203 then
      ((Block.zero.setDinode 1
        ⟨T_DIR, 0, 0, 1, 16, fun k => if k.val = 0 then 300 else 0⟩).setDinode 2
        ⟨T_DIR, 0, 0, 1, 16, fun k => if k.val = 0 then 301 else 0⟩).setDinode 3
        ⟨T_FILE, 0, 0, 1, 0, fun _ => 0⟩
    else if a.sector = 300 then
      Block.zero.write 0 (fun i => (direntBytes 2 [117, 115, 114]).getD i 0) DIRENT
    else if a.sector = 301 then Block.zero.write 0 (fun i => (direntBytes 3 [98]).getD i 0) DIRENT
    else Block.zero
  inode := Function.update (fun _ => Inode.unused) 0 ⟨ROOTDEV, 2, 1, false, false, Dinode.zero⟩
  pastIcache := 0
  buffered _ := false
  typed _ := none
  reads := 0

/-- The path `//usr/b` leads from the root to inode 3, and `b` does so from `usr`; there is no
`usr/b` in `usr`. -/
theorem namei_follows_elements_usr :
    (∃ ip t, (namei (some 0) [47, 47, 117, 115, 114, 47, 98]).run usrFs = .ok (some ip) t ∧
      (nameiparent (some 0) [47, 47, 117, 115, 114, 47, 98] >>= lookupLast).run usrFs =
        .ok (some ip) t ∧ (t.inode ip).inum = 3) ∧
    (∃ ip t, (namei (some 0) [98]).run usrFs = .ok (some ip) t ∧ (t.inode ip).inum = 3) ∧
    ∃ t, (namei (some 0) [117, 115, 114, 47, 98]).run usrFs = .ok none t := by
  have hnamei (path : List UInt8) {first : FsM InodeId} {out : Outcome} {t : Fs}
      (start : (if path.head? = some slash then iget ROOTDEV 1 else idup 0) = first)
      (run : (first >>= fun ip => walk ip (elements path)).run usrFs = .ok out t) :
      (namei (some 0) path).run usrFs = .ok out.inode t := by
    rw [(namei_follows_elements (some 0) path).2.1, Option.elim_some, start, ← bind_assoc,
      run_bind_of_ok run]
    rfl
  have hdone :
      returnedWith (fun out t => out.inode.any fun ip => (t.inode ip).inum = 3)
        ((iget ROOTDEV 1 >>= fun ip => walk ip [[117, 115, 114], [98]]).run usrFs) = true ∧
      returnedWith (fun out t => out.inode.any fun ip => (t.inode ip).inum = 3)
        ((idup 0 >>= fun ip => walk ip [[98]]).run usrFs) = true ∧
      returnedWith (fun out _ => out = .missing)
        ((idup 0 >>= fun ip => walk ip [[117, 115, 114], [98]]).run usrFs) = true := by
    decide +kernel
  obtain ⟨hroot, hcwd, hmissing⟩ := hdone
  refine ⟨?_, ?_, ?_⟩
  · obtain ⟨out, t, hrun, hfound⟩ := exists_of_returnedWith hroot
    obtain ⟨ip, hip, hinum⟩ := (Option.any_eq_true ..).mp hfound
    have hwalk := hnamei [47, 47, 117, 115, 114, 47, 98] rfl hrun
    rw [hip] at hwalk
    refine ⟨ip, t, hwalk, ?_, of_decide_eq_true hinum⟩
    rw [← hwalk, (namei_follows_elements (some 0) _).2.2.2 (by decide)]
  · obtain ⟨out, t, hrun, hfound⟩ := exists_of_returnedWith hcwd
    obtain ⟨ip, hip, hinum⟩ := (Option.any_eq_true ..).mp hfound
    have hwalk := hnamei [98] rfl hrun
    exact ⟨ip, t, hip ▸ hwalk, of_decide_eq_true hinum⟩
  · obtain ⟨out, t, hrun, hout⟩ := exists_of_returnedWith hmissing
    obtain rfl := of_decide_eq_true hout
    exact ⟨t, hnamei [117, 115, 114, 47, 98] rfl hrun⟩

end Fs

end Xv6
