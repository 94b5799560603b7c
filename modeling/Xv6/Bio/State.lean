/-
# State of the buffer cache and the journal

The globals of `bio.c` together with the disk behind them, as one record. Three
fields are history variables that no code reads: the log of all sector writes,
the sectors `jbwrite` has written to, and the transactions `end_trans` has
committed.
-/

import Xv6.Bio.Block
import Xv6.Math.Exec
import Xv6.Math.WriteLog

namespace Xv6

/-- Size of the disk block cache. -/
def NBUF : Nat := 500

/-- Size of the journal in blocks, including the journal super block. -/
def NJB : Nat := 201

/-- Number of block list entries in a journal header. -/
def NBPT : Nat := 20

/-- A buffer is named by its index in `buf[NBUF]`. -/
abbrev BufId := Nat

/-- A pending-list node, named in the order of allocation. -/
abbrev NodeId := Nat

/-- Where a block lives: device and sector. -/
structure BlockAddr where
  dev : Nat
  sector : Nat
  deriving DecidableEq, Repr

/-- `struct buf`. The flags `B_BUSY`, `B_VALID` and `B_DIRTY` are separate fields;
the LRU links are the list `Bio.lru`. -/
structure Buf where
  busy : Bool
  valid : Bool
  dirty : Bool
  addr : BlockAddr
  faliable : Nat
  data : Block

namespace Buf

/-- `b->flags & (B_BUSY|B_VALID)`: the buffer stands for its block. -/
def live (b : Buf) : Bool := b.busy || b.valid

/-- A buffer of the zeroed `buf` array. -/
def unused : Buf := ⟨false, false, false, ⟨0, 0⟩, 0, Block.zero⟩

end Buf

/-- `struct mem_trans`: the buffers of a transaction, the last one written first. -/
@[ext]
structure MemTrans where
  bufs : List BufId
  deriving DecidableEq

namespace MemTrans

/-- The transaction with no buffers. -/
def empty : MemTrans := ⟨[]⟩

/-- The field `size`, which the kernel counts up with every buffer it adds. -/
def size (t : MemTrans) : Nat := t.bufs.length

end MemTrans

/-- `struct mem_trans_node`. -/
structure MemTransNode where
  trans : MemTrans
  next : Option NodeId
  deriving DecidableEq

/-- The blocks of a transaction with their home addresses. -/
abbrev Txn := List (BlockAddr × Block)

/-- Why the kernel does not go on. -/
inductive Stop where
  /-- `panic(msg)`. -/
  | panic (msg : String)
  /-- `sleep(buf)` in `bget`, waiting for a busy buffer. -/
  | sleep (b : BufId)
  /-- `acquire_sl` on a lock that the caller itself holds. -/
  | spin
  /-- A null or out-of-range pointer is followed. -/
  | fault
  /-- A loop that never ends. -/
  | diverge
  deriving DecidableEq, Repr

/-- The globals of `bio.c`, the disk, and the transaction of the running process. -/
@[ext]
structure Bio where
  bufs : BufId → Buf
  /-- The list through `bufhead.next`, most recently used first. -/
  lru : List BufId
  disk : BlockAddr → Block
  /-- `jsblock_buf`; `jsb` points into its data. -/
  jsblockBuf : BufId
  /-- `jtrans_header_buf`; `jt` points into its data. -/
  jtransHeaderBuf : BufId
  jtailBnum : Nat
  /-- Pending-list nodes that `kmalloc` has handed out: those below `nextNode`. -/
  nodes : NodeId → MemTransNode
  nextNode : NodeId
  mtnHead : Option NodeId
  mtnTail : Option NodeId
  transWriteLock : Bool
  shouldPanic : Nat
  /-- `curmt()`. -/
  ct : MemTrans
  /-- History: every sector write so far. -/
  log : List (BlockAddr × Block)
  /-- History: the sectors `jbwrite` has written to. -/
  jwrites : List Nat
  /-- History: the committed transactions. -/
  commits : List Txn

/-- Kernel code that works on the buffer cache. -/
abbrev BioM := EStateM Stop Bio

namespace Bio

/-- Overwrite one buffer. -/
def setBuf (s : Bio) (b : BufId) (buf : Buf) : Bio :=
  { s with bufs := Function.update s.bufs b buf }

/-- The data of `jsblock_buf`, which `jsb` points to. -/
def jsb (s : Bio) : Block := (s.bufs s.jsblockBuf).data

/-- The home addresses and contents of a transaction's buffers. -/
def pairs (s : Bio) (t : MemTrans) : Txn :=
  t.bufs.map fun b => ((s.bufs b).addr, (s.bufs b).data)

/-- The buffer list that `binit` builds. -/
@[irreducible]
def binitLru : List BufId := (List.range NBUF).reverse

theorem binitLru_eq : binitLru = (List.range NBUF).reverse := by
  unfold binitLru
  rfl

theorem binitLru_nodup : binitLru.Nodup := by
  rw [binitLru_eq]
  exact List.nodup_reverse.mpr List.nodup_range

theorem binitLru_length : binitLru.length = NBUF := by
  rw [binitLru_eq, List.length_reverse, List.length_range]

/-- Memory as it is when the kernel starts (`binit`), over a given disk. -/
def boot (disk : BlockAddr → Block) : Bio where
  bufs _ := Buf.unused
  lru := binitLru
  disk := disk
  jsblockBuf := 0
  jtransHeaderBuf := 0
  jtailBnum := 3
  nodes _ := ⟨MemTrans.empty, none⟩
  nextNode := 0
  mtnHead := none
  mtnTail := none
  transWriteLock := false
  shouldPanic := 0
  ct := MemTrans.empty
  log := []
  jwrites := []
  commits := []

section Simp

variable (s : Bio) (b : BufId) (buf : Buf)

@[simp] theorem setBuf_bufs_self : (s.setBuf b buf).bufs b = buf := Function.update_self ..

theorem setBuf_bufs_of_ne {c : BufId} (h : c ≠ b) : (s.setBuf b buf).bufs c = s.bufs c :=
  Function.update_of_ne h ..

@[simp] theorem setBuf_lru : (s.setBuf b buf).lru = s.lru := rfl

@[simp] theorem setBuf_disk : (s.setBuf b buf).disk = s.disk := rfl

@[simp] theorem setBuf_jsblockBuf : (s.setBuf b buf).jsblockBuf = s.jsblockBuf := rfl

@[simp] theorem setBuf_jtransHeaderBuf :
    (s.setBuf b buf).jtransHeaderBuf = s.jtransHeaderBuf := rfl

@[simp] theorem setBuf_jtailBnum : (s.setBuf b buf).jtailBnum = s.jtailBnum := rfl

@[simp] theorem setBuf_nodes : (s.setBuf b buf).nodes = s.nodes := rfl

@[simp] theorem setBuf_nextNode : (s.setBuf b buf).nextNode = s.nextNode := rfl

@[simp] theorem setBuf_mtnHead : (s.setBuf b buf).mtnHead = s.mtnHead := rfl

@[simp] theorem setBuf_mtnTail : (s.setBuf b buf).mtnTail = s.mtnTail := rfl

@[simp] theorem setBuf_transWriteLock :
    (s.setBuf b buf).transWriteLock = s.transWriteLock := rfl

@[simp] theorem setBuf_shouldPanic : (s.setBuf b buf).shouldPanic = s.shouldPanic := rfl

@[simp] theorem setBuf_ct : (s.setBuf b buf).ct = s.ct := rfl

@[simp] theorem setBuf_log : (s.setBuf b buf).log = s.log := rfl

@[simp] theorem setBuf_jwrites : (s.setBuf b buf).jwrites = s.jwrites := rfl

@[simp] theorem setBuf_commits : (s.setBuf b buf).commits = s.commits := rfl

end Simp

end Bio

/-! ### Structures laid over a block -/

namespace JsBlock

/-- `jsb->size`: journal blocks after the super block. -/
def size (d : Block) : Nat := d.word 0

/-- `jsb->head_block`. -/
def headBlock (d : Block) : Nat := d.word 1

/-- `jsb->tail_block`. -/
def tailBlock (d : Block) : Nat := d.word 2

/-- Assign `tail_block` and clear the time stamp, as `end_trans` does. -/
def setTail (d : Block) (tail : Nat) : Block := (d.setWord 2 tail).setWord 3 0

/-- Assign `head_block = tail_block = 3` and clear the time stamp. -/
def reset (d : Block) : Block := ((d.setWord 2 3).setWord 1 3).setWord 3 0

@[simp] theorem size_setTail (d : Block) (tail : Nat) : size (setTail d tail) = size d := by
  unfold size setTail
  rw [Block.word_setWord_ne _ (by decide), Block.word_setWord_ne _ (by decide)]

@[simp] theorem headBlock_setTail (d : Block) (tail : Nat) :
    headBlock (setTail d tail) = headBlock d := by
  unfold headBlock setTail
  rw [Block.word_setWord_ne _ (by decide), Block.word_setWord_ne _ (by decide)]

theorem tailBlock_setTail (d : Block) {tail : Nat} (h : tail < 2 ^ 32) :
    tailBlock (setTail d tail) = tail := by
  unfold tailBlock setTail
  rw [Block.word_setWord_ne _ (by decide), Block.word_setWord_of_lt _ (by decide) h]

@[simp] theorem size_reset (d : Block) : size (reset d) = size d := by
  unfold size reset
  rw [Block.word_setWord_ne _ (by decide), Block.word_setWord_ne _ (by decide),
    Block.word_setWord_ne _ (by decide)]

@[simp] theorem headBlock_reset (d : Block) : headBlock (reset d) = 3 := by
  unfold headBlock reset
  rw [Block.word_setWord_ne _ (by decide), Block.word_setWord_of_lt _ (by decide) (by decide)]

@[simp] theorem tailBlock_reset (d : Block) : tailBlock (reset d) = 3 := by
  unfold tailBlock reset
  rw [Block.word_setWord_ne _ (by decide), Block.word_setWord_ne _ (by decide),
    Block.word_setWord_of_lt _ (by decide) (by decide)]

end JsBlock

namespace JTrans

/-- The character `'j'`, which stands for a checksum. -/
def magic : Nat := 106

/-- `jt->checksum`. -/
def checksum (d : Block) : Nat := d.word 0

/-- `jt->num_data_blocks`. -/
def numDataBlocks (d : Block) : Nat := d.word 1

/-- `jt->blocklist[i]`. -/
def blocklist (d : Block) (i : Nat) : Nat := d.word (2 + i)

/-- How many block list entries lie inside the 512-byte block. -/
def capacity : Nat := 126

/-- Store consecutive words from index `i` on. -/
def setWords (d : Block) (i : Nat) : List Nat → Block
  | [] => d
  | v :: vs => setWords (d.setWord i v) (i + 1) vs

/-- Fill the header of a transaction with the given home sectors. -/
def fill (d : Block) (sectors : List Nat) : Block :=
  setWords ((d.setWord 0 magic).setWord 1 sectors.length) 2 sectors

theorem word_setWords_of_lt (d : Block) {i j : Nat} (h : j < i) (vs : List Nat) :
    (setWords d i vs).word j = d.word j := by
  induction vs generalizing d i with
  | nil => rfl
  | cons v vs ih =>
    rw [setWords, ih _ (by omega), Block.word_setWord_ne _ (by omega)]

theorem word_setWords_add (d : Block) {i k : Nat} {vs : List Nat} (hk : k < vs.length)
    (hi : i + k < 128) : (setWords d i vs).word (i + k) = vs[k] % 2 ^ 32 := by
  induction vs generalizing d i k with
  | nil => simp at hk
  | cons v vs ih =>
    rw [setWords]
    cases k with
    | zero =>
      rw [word_setWords_of_lt _ (by omega), Nat.add_zero, Block.word_setWord_self _ (by omega)]
      rfl
    | succ k =>
      have hk' : k < vs.length := by simpa using hk
      rw [show i + (k + 1) = (i + 1) + k by omega, ih _ hk' (by omega)]
      rfl

@[simp] theorem checksum_fill (d : Block) (sectors : List Nat) :
    checksum (fill d sectors) = magic := by
  unfold checksum fill
  rw [word_setWords_of_lt _ (by decide), Block.word_setWord_ne _ (by decide),
    Block.word_setWord_of_lt _ (by decide) (by decide)]

theorem numDataBlocks_fill (d : Block) {sectors : List Nat} (h : sectors.length < 2 ^ 32) :
    numDataBlocks (fill d sectors) = sectors.length := by
  unfold numDataBlocks fill
  rw [word_setWords_of_lt _ (by decide), Block.word_setWord_of_lt _ (by decide) h]

theorem blocklist_fill (d : Block) {sectors : List Nat} {k : Nat} (hk : k < sectors.length)
    (hroom : k < capacity) : blocklist (fill d sectors) k = sectors[k] % 2 ^ 32 := by
  unfold blocklist fill
  unfold capacity at hroom
  exact word_setWords_add _ hk (by omega)

end JTrans

end Xv6
