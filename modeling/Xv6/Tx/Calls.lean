/-
# Names with their transactions

Directories, path names and `create` of `sysfile.c`, with the commit in `create`.
-/

import Xv6.Fs.Names
import Xv6.Tx.Model

namespace Xv6

open Math

/-- The name `"."`. -/
def dot : List UInt8 := [46]

/-- The name `".."`. -/
def dotdot : List UInt8 := [46, 46]

namespace Tx

/-- The loop of `dirlookup` over the blocks of the directory. -/
def dirlookupFrom (dp : InodeId) (name : List UInt8) : Nat → Nat → TxM (Option (InodeId × Nat))
  | 0, _ => pure none
  | n + 1, off => do
    let r ← load dp
    let bno ← bmap dp (off / BSIZE) false
    let bp ← bread r.dev bno.toNat
    match bp.findDirent name with
    | some o => do
      let ip ← iget r.dev (bp.direntInum o)
      pure (some (ip, off + o))
    | none => dirlookupFrom dp name n (off + BSIZE)

/-- Look for a directory entry in a directory. -/
def dirlookup (dp : InodeId) (name : List UInt8) : TxM (Option (InodeId × Nat)) := do
  let r ← load dp
  if r.copy.type ≠ T_DIR then throw (.panic "dirlookup not DIR")
  else dirlookupFrom dp name ((r.copy.size.toNat + BSIZE - 1) / BSIZE) 0

/-- The loop of `dirlink` that looks for an empty entry. -/
def emptyDirent (dp : InodeId) : Nat → Nat → TxM Nat
  | 0, off => pure off
  | n + 1, off => do
    let (got, de) ← readi dp off DIRENT
    if got ≠ DIRENT then throw (.panic "dirlink read")
    else if inumOf de = 0 then pure off
    else emptyDirent dp n (off + DIRENT)

/-- Write a new directory entry into a directory. -/
def dirlink (dp : InodeId) (name : List UInt8) (ino : Nat) : TxM Int := do
  match ← dirlookup dp name with
  | some (ip, _) => do
    iput ip
    pure (-1)
  | none => do
    let r ← load dp
    let off ← emptyDirent dp ((r.copy.size.toNat + DIRENT - 1) / DIRENT) 0
    let wrote ← writei dp (fun i => (direntBytes ino name).getD i 0) off DIRENT
    if wrote ≠ DIRENT then throw (.panic "dirlink") else pure 0

/-- The loop of `_namei`. -/
def nameiLoop (parent : Bool) : Nat → InodeId → List UInt8 → TxM (Option (InodeId × List UInt8))
  | 0, _, _ => throw .fault
  | fuel + 1, ip, path =>
    match Fs.skipelem path with
    | none =>
      if parent then do
        iput ip
        pure none
      else pure (some (ip, []))
    | some (name, path) => do
      ilock ip
      let r ← load ip
      if r.copy.type ≠ T_DIR then do
        iunlockput ip
        pure none
      else if parent ∧ path = [] then do
        iunlock ip
        pure (some (ip, name))
      else
        match ← dirlookup ip name with
        | none => do
          iunlockput ip
          pure none
        | some (next, _) => do
          iunlockput ip
          nameiLoop parent fuel next path

/-- `_namei`. -/
def nameiWalk (cwd : Option InodeId) (parent : Bool) (path : List UInt8) :
    TxM (Option (InodeId × List UInt8)) := do
  let ip ← onFs (Fs.nameiStart cwd path)
  nameiLoop parent (path.length + 1) ip path

/-- The inode for a path name. -/
def namei (cwd : Option InodeId) (path : List UInt8) : TxM (Option InodeId) := do
  let found ← nameiWalk cwd false path
  pure (found.map Prod.fst)

/-- The inode for the parent of a path name, and the final path element. -/
def nameiparent (cwd : Option InodeId) (path : List UInt8) :
    TxM (Option (InodeId × List UInt8)) := nameiWalk cwd true path

/-- The part of `create` for a new directory `ip` in `dp`: the entries `"."` and `".."`. There is
no `ip->nlink++` for `"."`. -/
def createDots (dp ip : InodeId) : TxM Unit := do
  modifyCopy dp fun n => { n with nlink := n.nlink + 1 }
  iupdate dp
  let r ← load ip
  let self ← dirlink ip dot r.inum
  if self < 0 then throw (.panic "create dots")
  else do
    let d ← load dp
    let parent ← dirlink ip dotdot d.inum
    if parent < 0 then throw (.panic "create dots") else pure ()

/-- The part of `create` that makes a new inode with an entry `name` in `dp`. -/
def createIn (dp : InodeId) (name : List UInt8) (type major minor : Short) :
    TxM (Option InodeId) := do
  let d ← load dp
  let ip ← icreate d.dev type major minor 1
  ilock ip
  modifyCopy ip fun n => { n with major := major, minor := minor, nlink := 1 }
  iupdate ip
  let r ← load ip
  let linked ← dirlink dp name r.inum
  if linked < 0 then do
    modifyCopy ip fun n => { n with nlink := 0 }
    iunlockput ip
    iunlockput dp
    pure none
  else do
    if type = T_DIR then createDots dp ip
    iunlockput dp
    endTrans
    jfullFlush
    pure (some ip)

/-- The test `canexist && (ip = dirlookup(dp, name, &off)) != 0` of `create`. -/
def existing (canexist : Bool) (dp : InodeId) (name : List UInt8) :
    TxM (Option (InodeId × Nat)) :=
  if canexist then dirlookup dp name else pure none

/-- `create`: the inode is returned locked. -/
def create (cwd : Option InodeId) (path : List UInt8) (canexist : Bool)
    (type major minor : Short) : TxM (Option InodeId) := do
  match ← nameiparent cwd path with
  | none => pure none
  | some (dp, name) => do
    ilock dp
    match ← existing canexist dp name with
    | some (ip, _) => do
      iunlockput dp
      ilock ip
      let r ← load ip
      if r.copy.type ≠ type ∨ r.copy.major ≠ major ∨ r.copy.minor ≠ minor then do
        iunlockput ip
        pure none
      else pure (some ip)
    | none => createIn dp name type major minor

end Tx

end Xv6
