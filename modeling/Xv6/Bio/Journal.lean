/-
# The journal

`jbwrite`, `jfull_flush`, `end_trans` and `pbjFSck` of `bio.c`. A transaction is
written to the journal as a header block followed by its data blocks; rewriting
the journal super block at sector 2 commits it. Flushing writes the buffers of the
pending transactions to their home sectors and empties the journal.
-/

import Xv6.Bio.Cache

namespace Xv6

open Math Bio

/-- `acquire_sl`, which spins for ever on a lock its caller holds. -/
def acquireSl : BioM Unit := do
  let s ← get
  if s.transWriteLock then throw .spin
  else modify fun s => { s with transWriteLock := true }

/-- `release_sl`. -/
def releaseSl : BioM Unit :=
  modify fun s => { s with transWriteLock := false }

/-- The inner loop of `jfull_flush` over the buffers of one transaction. -/
def flushBufs (bs : List BufId) : BioM Unit :=
  bs.forM fun b => do
    let s ← get
    if (s.bufs b).faliable ≠ 0 then
      throw (.panic "Testing PBj0!")
    else
      ideRw b
      jbrelse b

/-- The outer loop of `jfull_flush`, from `curr` up to the node `stop`. A list
that runs out before `stop` is followed through a null pointer. -/
def flushNodes (stop : Option NodeId) : Nat → Option NodeId → BioM Unit
  | 0, _ => throw .diverge
  | fuel + 1, curr =>
    if curr = stop then pure ()
    else
      match curr with
      | none => throw .fault
      | some n => do
        let s ← get
        flushBufs (s.nodes n).trans.bufs
        flushNodes stop fuel (s.nodes n).next

theorem flushBufs_keeps_frame (bs : List BufId) : Keeps Bio.frame (flushBufs bs) :=
  Keeps.forM (fun b => Keeps.get.bind fun _ => (Keeps.throw _).ite <|
    (ideRw_keeps_frame b).bind fun _ => jbrelse_keeps_frame b) bs

theorem flushNodes_keeps_frame (stop : Option NodeId) (fuel : Nat) (curr : Option NodeId) :
    Keeps Bio.frame (flushNodes stop fuel curr) := by
  induction fuel generalizing curr with
  | zero =>
    unfold flushNodes
    exact Keeps.throw _
  | succ fuel ih =>
    unfold flushNodes
    refine (Keeps.pure ()).ite ?_
    cases curr with
    | none => exact Keeps.throw _
    | some n => exact Keeps.get.bind fun s => (flushBufs_keeps_frame _).bind fun _ => ih _

/-- Mark the journal super block busy and dirty and write it out. -/
def writeJsblock (f : Block → Block) : BioM Unit := do
  let s ← get
  let j := s.jsblockBuf
  modify fun s => s.setBuf j
    { s.bufs j with busy := true, dirty := true, data := f (s.bufs j).data }
  ideRw j

theorem writeJsblock_keeps_frame (f : Block → Block) : Keeps Bio.frame (writeJsblock f) := by
  refine Keeps.get.bind fun _ => Keeps.bind (Keeps.modify ?_) fun _ => ideRw_keeps_frame _
  exact fun _ => rfl

/-- `jfull_flush`: write the pending transactions home and empty the journal. -/
def jfullFlush : BioM Unit := do
  let s ← get
  if s.mtnHead = none then pure ()
  else
    acquireSl
    match s.mtnTail with
    | none => throw .fault
    | some currTail =>
      let stop := (s.nodes currTail).next
      flushNodes stop (s.nextNode + 2) s.mtnHead
      writeJsblock JsBlock.reset
      modify fun s => { s with mtnHead := stop, jtailBnum := 3 }
      releaseSl

/-- `jbwrite`: write a buffer to the next journal sector. -/
def jbwrite (b : BufId) : BioM Unit := do
  let s ← get
  let origSector := (s.bufs b).addr.sector
  let sector := s.jtailBnum
  modify fun s => s.setBuf b
    { s.bufs b with addr := ⟨(s.bufs b).addr.dev, sector⟩, dirty := true }
  ideRw b
  modify fun s =>
    { s.setBuf b { s.bufs b with addr := ⟨(s.bufs b).addr.dev, origSector⟩, busy := true } with
      jtailBnum := sector + 1
      jwrites := s.jwrites ++ [sector] }
  let s ← get
  if s.jtailBnum > JsBlock.size s.jsb + 2 then jfullFlush else pure ()

/-- The data loop of `end_trans`: journal a buffer and leave it dirty. -/
def journalBuf (b : BufId) : BioM Unit := do
  jbwrite b
  modify fun s => s.setBuf b { s.bufs b with dirty := true, faliable := s.shouldPanic }

/-- Allocate a pending node for a transaction. -/
def newNode (t : MemTrans) (s : Bio) : Bio :=
  { s with
    nodes := Function.update s.nodes s.nextNode ⟨t, none⟩
    nextNode := s.nextNode + 1 }

/-- `n->next = m`. -/
def setNext (n m : NodeId) (s : Bio) : Bio :=
  { s with nodes := Function.update s.nodes n { s.nodes n with next := some m } }

/-- Put a committed transaction on the pending list: the node goes after the tail,
and the tail pointer is not moved. -/
def linkPending (t : MemTrans) : BioM Unit := do
  let s ← get
  modify (newNode t)
  if s.mtnHead = none then
    modify fun s' => { s' with mtnHead := some s.nextNode, mtnTail := some s.nextNode }
  else
    match s.mtnTail with
    | none => throw .fault
    | some tail => modify (setNext tail s.nextNode)

/-- Create the header of a transaction in the header buffer. Block list entries are
stored without a bounds check: the ones past `NBPT` still lie in the block, and the
ones past `JTrans.capacity` go to the next `struct buf`, which is left out here. -/
def fillHeader (t : MemTrans) : BioM Unit :=
  modify fun s => s.setBuf s.jtransHeaderBuf
    { s.bufs s.jtransHeaderBuf with
      busy := true, dirty := true
      data := JTrans.fill (s.bufs s.jtransHeaderBuf).data
        (t.bufs.map fun b => (s.bufs b).addr.sector) }

/-- Write the journal super block with the new tail, which commits the transaction. -/
def commitSuper (t : MemTrans) : BioM Unit := do
  let s ← get
  let j := s.jsblockBuf
  modify fun s => s.setBuf j
    { s.bufs j with
      dirty := true, data := JsBlock.setTail (s.bufs j).data (s.jtailBnum - 1) }
  ideRw j
  modify fun s => { s with commits := s.commits ++ [s.pairs t] }

/-- `resetcurtrans`. -/
def resetcurtrans : BioM Unit :=
  modify fun s => { s with ct := MemTrans.empty }

/-- `end_trans`: commit the current transaction to the journal. -/
def endTrans : BioM Unit := do
  let s ← get
  let ct := s.ct
  if ct.size > 0 then
    acquireSl
    fillHeader ct
    jbwrite s.jtransHeaderBuf
    ct.bufs.forM journalBuf
    commitSuper ct
    linkPending ct
    releaseSl
    resetcurtrans
  else
    pure ()

/-- Unsigned 32-bit subtraction. -/
def sub32 (a b : Nat) : Nat := (a + (2 ^ 32 - b % 2 ^ 32)) % 2 ^ 32

/-- Give the journal buffer at index `i` its home sector and mark it dirty. -/
def retarget (blocks : List BufId) (i sector : Nat) : BioM BufId := do
  match blocks[i]? with
  | none => throw .fault
  | some b =>
    modify fun s => s.setBuf b
      { s.bufs b with addr := ⟨(s.bufs b).addr.dev, sector⟩, dirty := true }
    pure b

/-- Append a recovered transaction to the pending list, as `pbjFSck` does: here the
tail pointer follows. -/
def appendPending (t : MemTrans) : BioM Unit := do
  let s ← get
  modify (newNode t)
  match s.mtnTail with
  | none =>
    modify fun s' => { s' with mtnHead := some s.nextNode, mtnTail := some s.nextNode }
  | some tail =>
    modify (setNext tail s.nextNode)
    modify fun s' => { s' with mtnTail := some s.nextNode }

/-- Read entry `i` of a header's block list; entries past the block are not there. -/
def blocklistEntry (d : Block) (i : Nat) : BioM Nat :=
  if i < JTrans.capacity then pure (JTrans.blocklist d i) else throw .fault

/-- The scanning loop of `pbjFSck`. It returns false when it quits at a header
with a wrong checksum, after the blocks of that header were already retargeted. The
block numbers are 32 bits wide, so a header that lists very many blocks ends the inner
loop before it starts. -/
def scanJournal (blocks : List BufId) : Nat → Nat → BioM Bool
  | 0, _ => throw .diverge
  | fuel + 1, bnum => do
    let s ← get
    if bnum < sub32 (JsBlock.tailBlock s.jsb) 3 then
      match blocks[bnum]? with
      | none => throw .fault
      | some h =>
        let jt := (s.bufs h).data
        let size := JTrans.numDataBlocks jt
        let first ← retarget blocks (bnum + 1) (JTrans.blocklist jt 0)
        let rest ← (List.range ((bnum + size) % 2 ^ 32 - (bnum + 1))).mapM fun i => do
          let sector ← blocklistEntry jt (i + 1)
          retarget blocks (bnum + 2 + i) sector
        if JTrans.checksum jt = JTrans.magic then
          appendPending ⟨first :: rest⟩
          scanJournal blocks fuel ((bnum + size + 1) % 2 ^ 32)
        else
          pure false
    else
      pure true

/-- Read the whole journal into the cache. -/
def readJournal (dev : Nat) : BioM (List BufId) := do
  let j ← bread ⟨dev, 2⟩
  modify fun s => { s with jsblockBuf := j }
  let s ← get
  (List.range (JsBlock.size s.jsb)).mapM fun bnum => bread ⟨dev, bnum + 3⟩

/-- The part of `pbjFSck` that collects the pending transactions. -/
def collectJournal (blocks : List BufId) : BioM Bool := do
  let s ← get
  if JsBlock.headBlock s.jsb < JsBlock.tailBlock s.jsb then
    scanJournal blocks (blocks.length + 1) (sub32 (JsBlock.headBlock s.jsb) 3)
  else
    modify fun s => { s with mtnHead := none, mtnTail := none }
    pure true

/-- `pbjFSck`: replay the journal and set up the header buffer. -/
def pbjFSck (dev : Nat) : BioM Unit := do
  let blocks ← readJournal dev
  let complete ← collectJournal blocks
  if complete then
    jfullFlush
    blocks.forM fun b => do
      let s ← get
      if (s.bufs b).busy then jbrelse b else pure ()
    let h ← bread ⟨dev, 3⟩
    modify fun s => { s with jtransHeaderBuf := h }
  else
    pure ()

end Xv6
