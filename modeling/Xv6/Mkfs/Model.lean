/-
# The image builder

`mkfs.c`, which builds a file system image from a list of files. The image is the sectors that
have been written so far; reading a sector behind them ends the program. `xshort` and `xint`
give a number the byte order of the image whatever the byte order of the host, so they are the
identity on the words of a block.

`wsect(1, &sb)` and `wsect(2, &jsb)` write 512 bytes from structures that are shorter; what
follows them in memory is a parameter. `balloc` sets bits of a buffer of one block; a store
behind the buffer is left out.
-/

import Xv6.Fs.Names
import Xv6.Fs.Tree

namespace Xv6

/-- Why the program ends before it is done. -/
inductive MkfsStop where
  /-- `exit(1)` after a message. -/
  | exit (msg : String)
  /-- A failed `assert`. -/
  | assertion (cond : String)
  deriving DecidableEq, Repr

/-- The image and the counters of the program. -/
structure Mkfs where
  /-- Number of sectors of the image. -/
  sectors : Nat
  sector : Nat → Block
  freeblock : UInt32
  usedblocks : UInt32
  freeinode : UInt32

/-- Code of the image builder. -/
abbrev MkfsM := EStateM MkfsStop Mkfs

/-- A file to put into the image: its name, and what the calls of `read` return. -/
structure InputFile where
  name : List UInt8
  chunks : List (List UInt8)

/-- The contents of the file. -/
def InputFile.bytes (f : InputFile) : List UInt8 := f.chunks.flatten

namespace Mkfs

/-- `'_'`. -/
def underscore : UInt8 := 95

def ninodes : Nat := 200

/-- Number of blocks used for the bitmap. -/
def bitblocks (size : Nat) : Nat := size / (512 * 8) + 1

/-- Number of blocks before the first block of a file. -/
def firstblock (size : Nat) : Nat := ninodes / IPB + 3 + bitblocks size + NJB

/-- The program before it starts. -/
def start : Mkfs := ⟨0, fun _ => Block.zero, 0, 0, 1⟩

/-! ### Sectors and inodes -/

def wsect (sec : UInt32) (buf : Block) : MkfsM Unit :=
  modify fun s => { s with
    sectors := max s.sectors (sec.toNat + 1), sector := Function.update s.sector sec.toNat buf }

def rsect (sec : UInt32) : MkfsM Block := do
  let s ← get
  if sec.toNat < s.sectors then pure (s.sector sec.toNat) else throw (.exit "read")

def i2b (inum : UInt32) : UInt32 := inum / UInt32.ofNat IPB + 2 + UInt32.ofNat NJB

def winode (inum : UInt32) (ip : Dinode) : MkfsM Unit := do
  let buf ← rsect (i2b inum)
  wsect (i2b inum) (buf.setDinode (inum.toNat % IPB) ip)

def rinode (inum : UInt32) : MkfsM Dinode := do
  let buf ← rsect (i2b inum)
  pure (buf.dinode (inum.toNat % IPB))

def ialloc (type : Short) : MkfsM UInt32 := do
  let s ← get
  modify fun s => { s with freeinode := s.freeinode + 1 }
  winode s.freeinode ⟨type, 0, 0, 1, 0, fun _ => 0⟩
  pure s.freeinode

/-! ### Appending to a file -/

/-- `freeblock++` with `usedblocks++`. -/
def newBlock : MkfsM UInt32 := do
  let s ← get
  modify fun s => { s with freeblock := s.freeblock + 1, usedblocks := s.usedblocks + 1 }
  pure s.freeblock

/-- `din.addrs[k]`, which gets a new block if it is 0. -/
def addrOrNew (din : Dinode) (k : Fin NADDRS) : MkfsM (Dinode × UInt32) :=
  if din.addrs k = 0 then do
    let b ← newBlock
    pure (din.setAddr k b, b)
  else pure (din, din.addrs k)

/-- Entry `i` of the block `table` of addresses, which gets a new block if it is 0. -/
def entryOrNew (table : UInt32) (i : Nat) : MkfsM UInt32 := do
  let indirect ← rsect table
  if indirect.addr i = 0 then do
    let b ← newBlock
    wsect table (indirect.setAddr i b)
    pure b
  else pure (indirect.addr i)

/-- The block `fbn` of a file. -/
def fileBlock (din : Dinode) (fbn : Nat) : MkfsM (Dinode × UInt32) :=
  if h : fbn < NDIRECT then addrOrNew din ⟨fbn, Nat.lt_succ_of_lt h⟩
  else do
    let (din, root) ← addrOrNew din rootIndex
    let table ← entryOrNew root ((fbn - NDIRECT) / NADDRBLOCK)
    let x ← entryOrNew table ((fbn - NDIRECT) % NADDRBLOCK)
    pure (din, x)

/-- The loop of `iappend` from `off` on, with the bytes `p` to go; `fuel` is at least their
number. The result has `off` after the loop. -/
def iappendLoop : Nat → Dinode → Nat → List UInt8 → MkfsM (Dinode × Nat)
  | 0, din, off, _ => pure (din, off)
  | fuel + 1, din, off, p =>
    if p = [] then pure (din, off)
    else if off / 512 < MAXFILE then do
      let (din, x) ← fileBlock din (off / 512)
      let n1 := min p.length ((off / 512 + 1) * 512 - off)
      let buf ← rsect x
      wsect x (buf.write (off - off / 512 * 512) (fun i => p.getD i 0) n1)
      iappendLoop fuel din (off + n1) (p.drop n1)
    else throw (.assertion "fbn < MAXFILE")

def iappend (inum : UInt32) (p : List UInt8) : MkfsM Unit := do
  let din ← rinode inum
  let (din, off) ← iappendLoop p.length din din.size.toNat p
  winode inum { din with size := UInt32.ofNat off }

/-! ### The program -/

/-- The super block; `nblocks` is `size` minus the blocks in use, as an `int`. -/
def superblockOf (size : Nat) (past : Block) : Block :=
  ((past.setWord 0 size).setWord 1 ((size + 2 ^ 32 - firstblock size) % 2 ^ 32)).setWord 2 ninodes

/-- `jinit` writes the journal super block. -/
def jinit (past : Block) : MkfsM Unit :=
  wsect 2 ((((past.setWord 0 (NJB - 1)).setWord 1 3).setWord 2 3).setWord 3 0)

/-- The bitmap block with the first `used` bits set. -/
def bitmap (used : Nat) : Block := (List.range used).foldl Block.setBit Block.zero

def balloc (used : Nat) : MkfsM Unit := wsect (UInt32.ofNat (ninodes / IPB + NJB + 3)) (bitmap used)

/-- The name of a file in the image. -/
def imageName (name : List UInt8) : List UInt8 :=
  if name.head? = some underscore then name.tail else name

/-- One round of the loop over the files. -/
def addFile (rootino : UInt32) (f : InputFile) : MkfsM Unit := do
  if slash ∈ f.name then throw (.assertion "index(argv[i], '/') == 0")
  else do
    let inum ← ialloc T_FILE
    iappend rootino (direntBytes inum.toNat (imageName f.name))
    f.chunks.forM (iappend inum)

/-- The size of the root directory is rounded up to the next block. -/
def fixRoot (rootino : UInt32) : MkfsM Unit := do
  let din ← rinode rootino
  winode rootino { din with size := UInt32.ofNat ((din.size.toNat / BSIZE + 1) * BSIZE) }

/-- The root directory with its two entries. -/
def mkRoot : MkfsM UInt32 := do
  let rootino ← ialloc T_DIR
  if rootino = 1 then do
    iappend rootino (direntBytes rootino.toNat [46])
    iappend rootino (direntBytes rootino.toNat [46, 46])
    pure rootino
  else throw (.assertion "rootino == 1")

/-- The zeroed image with the super block and the journal super block. -/
def mkBlank (size : Nat) (pastSb pastJsb : Block) : MkfsM Unit := do
  modify fun s => { s with
    freeblock := UInt32.ofNat (firstblock size), usedblocks := UInt32.ofNat (firstblock size) }
  (List.range size).forM fun i => wsect (UInt32.ofNat i) Block.zero
  wsect 1 (superblockOf size pastSb)
  jinit pastJsb

/-- `main`, with the file system size in KB. -/
def main (kb : Int) (files : List InputFile) (pastSb pastJsb : Block) : MkfsM Unit := do
  if kb < 1 then throw (.exit "Usage: mkfs fs_size fs.img files...")
  else if 32767 < kb then throw (.assertion "kb_fs_size <= 32767")
  else do
    mkBlank (kb.toNat * 1024 / BSIZE) pastSb pastJsb
    let rootino ← mkRoot
    files.forM (addFile rootino)
    fixRoot rootino
    let s ← get
    balloc s.usedblocks.toNat

end Mkfs

end Xv6
