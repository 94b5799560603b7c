/-
# Directories and paths

The upper layers of `fs.c`: directory entries and path names. A C string is the list of its
bytes; reading behind the end of the list gives the terminating zero.
-/

import Xv6.Fs.Inode

namespace Xv6

/-- Length of a name in a directory entry. -/
def DIRSIZ : Nat := 14

/-- `sizeof(struct dirent)`. -/
def DIRENT : Nat := 16

/-- `'/'`. -/
def slash : UInt8 := 47

/-- `strncmp(p, q, n)`. -/
def strncmp : Nat → List UInt8 → List UInt8 → Int
  | 0, _, _ => 0
  | n + 1, p, q =>
    if p.headD 0 ≠ 0 ∧ p.headD 0 = q.headD 0 then strncmp n p.tail q.tail
    else (p.headD 0).toNat - (q.headD 0).toNat

/-- The `n` bytes that `strncpy(s, t, n)` stores. -/
def strncpy : Nat → List UInt8 → List UInt8
  | 0, _ => []
  | n + 1, t => t.headD 0 :: if t.headD 0 = 0 then List.replicate n 0 else strncpy n t.tail

/-- `namecmp(s, t) == 0`. -/
def sameName (s t : List UInt8) : Bool := strncmp DIRSIZ s t = 0

namespace Block

/-- The field `inum` of the directory entry at offset `o`. -/
def direntInum (d : Block) (o : Nat) : Nat := (d.byte o).toNat + 256 * (d.byte (o + 1)).toNat

/-- The field `name` of the directory entry at offset `o`. -/
def direntName (d : Block) (o : Nat) : List UInt8 := d.read (o + 2) DIRSIZ

/-- The loop of `dirlookup` over the entries of one block: the offset of the entry found. -/
def findDirent (d : Block) (name : List UInt8) : Option Nat :=
  ((List.range (BSIZE / DIRENT)).map (DIRENT * ·)).find? fun o =>
    d.direntInum o ≠ 0 ∧ sameName name (d.direntName o)

end Block

/-- The bytes of a directory entry; `inum` is stored as a `ushort`. -/
def direntBytes (inum : Nat) (name : List UInt8) : List UInt8 :=
  UInt8.ofNat inum :: UInt8.ofNat (inum / 256) :: strncpy DIRSIZ name

/-- The field `inum` of a directory entry given by its bytes. -/
def inumOf (de : List UInt8) : Nat := (de.getD 0 0).toNat + 256 * (de.getD 1 0).toNat

namespace Fs

/-- The loop of `dirlookup` over the blocks of the directory: `n` blocks are left, the next
one at `off`. -/
def dirlookupFrom (dp : InodeId) (name : List UInt8) : Nat → Nat → FsM (Option (InodeId × Nat))
  | 0, _ => pure none
  | n + 1, off => do
    let r ← load dp
    let bno ← bmap dp (off / BSIZE) false
    let bp ← bread r.dev bno.toNat
    match bp.findDirent name with
    | some o => do
      let ip ← iget r.dev (bp.direntInum o)
      pure (some (ip, off + o))
    | none => dirlookupFrom dp name n (off + BSIZE)

/-- Look for a directory entry in a directory; the result has its inode and its offset. -/
def dirlookup (dp : InodeId) (name : List UInt8) : FsM (Option (InodeId × Nat)) := do
  let r ← load dp
  if r.copy.type ≠ T_DIR then throw (.panic "dirlookup not DIR")
  else dirlookupFrom dp name ((r.copy.size.toNat + BSIZE - 1) / BSIZE) 0

/-- The loop of `dirlink` that looks for an empty entry: `n` entries are left, the next one
at `off`. -/
def emptyDirent (dp : InodeId) : Nat → Nat → FsM Nat
  | 0, off => pure off
  | n + 1, off => do
    let (got, de) ← readi dp off DIRENT
    if got ≠ DIRENT then throw (.panic "dirlink read")
    else if inumOf de = 0 then pure off
    else emptyDirent dp n (off + DIRENT)

/-- Write a new directory entry into a directory. -/
def dirlink (dp : InodeId) (name : List UInt8) (ino : Nat) : FsM Int := do
  match ← dirlookup dp name with
  | some (ip, _) => do
    iput ip
    pure (-1)
  | none => do
    let r ← load dp
    let off ← emptyDirent dp ((r.copy.size.toNat + DIRENT - 1) / DIRENT) 0
    let wrote ← writei dp (fun i => (direntBytes ino name).getD i 0) off DIRENT
    if wrote ≠ DIRENT then throw (.panic "dirlink") else pure 0

/-- Split off the next path element: the element, cut to `DIRSIZ` bytes, and the rest of the
path without leading slashes. -/
def skipelem (path : List UInt8) : Option (List UInt8 × List UInt8) :=
  let s := path.dropWhile (· = slash)
  if s = [] then none
  else some ((s.takeWhile (· ≠ slash)).take DIRSIZ,
    (s.dropWhile (· ≠ slash)).dropWhile (· = slash))

/-- The loop of `_namei`; `fuel` exceeds the length of the path, which every round shortens.
The result has the inode and, if `parent` is set, the last path element. -/
def nameiLoop (parent : Bool) : Nat → InodeId → List UInt8 → FsM (Option (InodeId × List UInt8))
  | 0, _, _ => throw .fault
  | fuel + 1, ip, path =>
    match skipelem path with
    | none =>
      if parent then do
        iput ip
        pure none
      else pure (some (ip, []))
    | some (name, path) => do
      ilock ip
      let r ← load ip
      if r.copy.type ≠ T_DIR then do
        iunlockput ip
        pure none
      else if parent ∧ path = [] then do
        iunlock ip
        pure (some (ip, name))
      else
        match ← dirlookup ip name with
        | none => do
          iunlockput ip
          pure none
        | some (next, _) => do
          iunlockput ip
          nameiLoop parent fuel next path

/-- Where the walk of `_namei` starts; `cwd` is `cp->cwd`. -/
def nameiStart (cwd : Option InodeId) (path : List UInt8) : FsM InodeId :=
  if path.head? = some slash then iget ROOTDEV 1
  else
    match cwd with
    | none => throw .fault
    | some ip => idup ip

/-- `_namei`. -/
def nameiWalk (cwd : Option InodeId) (parent : Bool) (path : List UInt8) :
    FsM (Option (InodeId × List UInt8)) := do
  let ip ← nameiStart cwd path
  nameiLoop parent (path.length + 1) ip path

/-- The inode for a path name. -/
def namei (cwd : Option InodeId) (path : List UInt8) : FsM (Option InodeId) := do
  let found ← nameiWalk cwd false path
  pure (found.map Prod.fst)

/-- The inode for the parent of a path name, and the final path element. -/
def nameiparent (cwd : Option InodeId) (path : List UInt8) :
    FsM (Option (InodeId × List UInt8)) := nameiWalk cwd true path

end Fs

end Xv6
