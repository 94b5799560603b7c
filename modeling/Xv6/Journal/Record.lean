/-
# Records on the journal

A record is a header block and, behind it, the data blocks it lists. This file says
when the journal area of a disk holds a list of transactions, reads such a list back
the way `pbjFSck` walks over it, and shows that a commit appends one record.
-/

import Xv6.Journal.Invariant

namespace Xv6

open Math Bio

/-- The transaction recorded by the header at sector `k`. -/
def recordAt (dev : Nat) (disk : BlockAddr → Block) (k : Nat) : Txn :=
  (List.range (JTrans.numDataBlocks (disk ⟨dev, k⟩))).map fun i =>
    (⟨dev, JTrans.blocklist (disk ⟨dev, k⟩) i⟩, disk ⟨dev, k + 1 + i⟩)

/-- The records from sector `k` on that start before sector `tail`. -/
def recordsFrom (dev : Nat) (disk : BlockAddr → Block) (tail : Nat) : Nat → Nat → List Txn
  | 0, _ => []
  | fuel + 1, k =>
    if k < tail ∧ JTrans.checksum (disk ⟨dev, k⟩) = JTrans.magic then
      recordAt dev disk k ::
        recordsFrom dev disk tail fuel (k + JTrans.numDataBlocks (disk ⟨dev, k⟩) + 1)
    else []

/-- The records between `head_block` and `tail_block` of the super block on disk. -/
def journalRecords (dev : Nat) (disk : BlockAddr → Block) : List Txn :=
  let sb := disk ⟨dev, 2⟩
  if JsBlock.headBlock sb < JsBlock.tailBlock sb then
    recordsFrom dev disk (JsBlock.tailBlock sb) (JsBlock.size sb + 1) (JsBlock.headBlock sb)
  else []

/-- How many journal blocks the records of some transactions take. -/
def span : List Txn → Nat
  | [] => 0
  | txn :: txns => txn.length + 1 + span txns

/-- The journal area from sector `k` on holds a list of transactions. -/
def Holds (dev : Nat) (disk : BlockAddr → Block) : Nat → List Txn → Prop
  | _, [] => True
  | k, txn :: txns =>
    txn ≠ [] ∧ txn.length ≤ JTrans.capacity ∧
      JTrans.checksum (disk ⟨dev, k⟩) = JTrans.magic ∧
      JTrans.numDataBlocks (disk ⟨dev, k⟩) = txn.length ∧
      recordAt dev disk k = txn ∧ Holds dev disk (k + txn.length + 1) txns

section Holding

variable {dev : Nat} {disk disk' : BlockAddr → Block} {txns : List Txn}

theorem span_append (xs ys : List Txn) : span (xs ++ ys) = span xs + span ys := by
  induction xs with
  | nil => simp [span]
  | cons x xs ih =>
    rw [List.cons_append, span, span, ih]
    omega

theorem length_le_span (xs : List Txn) : xs.length ≤ span xs := by
  induction xs with
  | nil => simp [span]
  | cons x xs ih =>
    rw [List.length_cons, span]
    omega

theorem recordAt_congr {k : Nat} (header : disk' ⟨dev, k⟩ = disk ⟨dev, k⟩)
    (data : ∀ i < JTrans.numDataBlocks (disk ⟨dev, k⟩),
      disk' ⟨dev, k + 1 + i⟩ = disk ⟨dev, k + 1 + i⟩) :
    recordAt dev disk' k = recordAt dev disk k := by
  unfold recordAt
  rw [header]
  apply List.map_congr_left
  intro i hi
  rw [data i (List.mem_range.mp hi)]

/-- What a stretch of the journal holds depends on that stretch alone. -/
theorem Holds.congr {k : Nat} (holds : Holds dev disk k txns)
    (same : ∀ j, k ≤ j → j < k + span txns → disk' ⟨dev, j⟩ = disk ⟨dev, j⟩) :
    Holds dev disk' k txns := by
  induction txns generalizing k with
  | nil => trivial
  | cons txn txns ih =>
    obtain ⟨nonempty, short, magic, count, record, rest⟩ := holds
    rw [span] at same
    have hheader := same k (le_refl k) (by omega)
    refine ⟨nonempty, short, by rw [hheader]; exact magic, by rw [hheader]; exact count, ?_, ?_⟩
    · rw [recordAt_congr hheader, record]
      intro i hi
      rw [count] at hi
      exact same _ (by omega) (by omega)
    · exact ih rest fun j hlow hhigh => same j (by omega) (by omega)

theorem holds_append {xs ys : List Txn} {k : Nat} :
    Holds dev disk k (xs ++ ys) ↔ Holds dev disk k xs ∧ Holds dev disk (k + span xs) ys := by
  induction xs generalizing k with
  | nil => simp [Holds, span]
  | cons x xs ih =>
    have hshift : k + x.length + 1 + span xs = k + span (x :: xs) := by
      rw [span]
      omega
    rw [List.cons_append, Holds, Holds, ih, hshift]
    tauto

/-- Walking over the journal up to the last block gives back the transactions. -/
theorem recordsFrom_eq {k tail fuel : Nat} (holds : Holds dev disk k txns)
    (last : tail + 1 = k + span txns) (enough : txns.length < fuel) :
    recordsFrom dev disk tail fuel k = txns := by
  induction txns generalizing k fuel with
  | nil =>
    rw [span] at last
    cases fuel with
    | zero => rfl
    | succ fuel =>
      rw [recordsFrom, if_neg]
      rintro ⟨hlt, -⟩
      omega
  | cons txn txns ih =>
    obtain ⟨nonempty, -, magic, count, record, rest⟩ := holds
    rw [span] at last
    cases fuel with
    | zero => simp at enough
    | succ fuel =>
      have hpos := List.length_pos_iff.mpr nonempty
      rw [recordsFrom, if_pos ⟨by omega, magic⟩, record, count]
      congr 1
      exact ih rest (by omega) (by simpa using enough)

theorem journalRecords_eq (head : JsBlock.headBlock (disk ⟨dev, 2⟩) = 3)
    (tail : JsBlock.tailBlock (disk ⟨dev, 2⟩) + 1 = 3 + span txns)
    (room : txns.length ≤ JsBlock.size (disk ⟨dev, 2⟩)) (nonempty : txns ≠ [])
    (holds : Holds dev disk 3 txns) : journalRecords dev disk = txns := by
  obtain ⟨txn, rest, rfl⟩ := List.exists_cons_of_ne_nil nonempty
  have hpos := List.length_pos_iff.mpr holds.1
  unfold journalRecords
  rw [span] at tail
  rw [if_pos (by rw [head]; omega), head]
  exact recordsFrom_eq holds (by rw [tail, span]) (by omega)

theorem journalRecords_empty (empty : JsBlock.tailBlock (disk ⟨dev, 2⟩) ≤
    JsBlock.headBlock (disk ⟨dev, 2⟩)) : journalRecords dev disk = [] :=
  if_neg (not_lt.mpr empty)

end Holding

/-! ### A commit appends one record -/

section CommitRecord

variable {dev J : Nat} {u : Bio}

/-- The blocks of a record: the header and the data. -/
def recordBlocks (u : Bio) : List Block := u.headerBlock :: u.ct.bufs.map fun b => (u.bufs b).data

theorem journalWrites_eq_writeSeq {bs : List BufId} (same : ∀ b ∈ bs, (u.bufs b).addr.dev = dev)
    (k : Nat) :
    u.journalWrites k bs = writeSeq (fun i => ⟨dev, i⟩) k (bs.map fun b => (u.bufs b).data) := by
  induction bs generalizing k with
  | nil => rfl
  | cons b bs ih =>
    rw [journalWrites, List.map_cons, writeSeq_cons, same b List.mem_cons_self,
      ih fun c hc => same c (List.mem_cons_of_mem _ hc)]

/-- A commit writes the record to consecutive sectors and then the super block. -/
theorem commitWrites_eq (base : Base dev J u) (same : ∀ b ∈ u.ct.bufs, (u.bufs b).addr.dev = dev) :
    u.commitWrites =
      writeSeq (fun i => ⟨dev, i⟩) u.jtailBnum (recordBlocks u) ++
        [(⟨dev, 2⟩, JsBlock.setTail u.jsb (u.jtailBnum + u.ct.size))] := by
  rw [commitWrites, base.header_addr, base.jsb_addr, journalWrites_eq_writeSeq same]
  rfl

private theorem injective_sector (dev : Nat) :
    Function.Injective fun i => (⟨dev, i⟩ : BlockAddr) := fun _ _ h => (BlockAddr.mk.inj h).2

theorem recordBlocks_length : (recordBlocks u).length = u.ct.size + 1 := by
  simp [recordBlocks, MemTrans.size]

/-- The journal sectors of the record after a commit. -/
theorem committed_disk_record (base : Base dev J u) (jtail : 3 ≤ u.jtailBnum)
    (same : ∀ b ∈ u.ct.bufs, (u.bufs b).addr.dev = dev) {i : Nat}
    (hi : i < (recordBlocks u).length) :
    u.committed.disk ⟨dev, u.jtailBnum + i⟩ = (recordBlocks u)[i] := by
  change applyWrites u.commitWrites u.disk _ = _
  rw [commitWrites_eq base same, applyWrites_append, applyWrites_of_notMem,
    applyWrites_writeSeq (injective_sector dev) hi]
  intro w hw heq
  rw [List.mem_singleton.mp hw] at heq
  have := (BlockAddr.mk.inj heq).2
  omega

/-- A commit that fits writes only to the journal and its super block. -/
theorem commitWrites_inJournal (base : Base dev J u) (jtail : 3 ≤ u.jtailBnum)
    (fits : u.jtailBnum + u.ct.size ≤ J + 2)
    (same : ∀ b ∈ u.ct.bufs, (u.bufs b).addr.dev = dev) :
    ∀ w ∈ u.commitWrites, InJournal dev J w.1 := by
  intro w hw
  rw [commitWrites_eq base same] at hw
  rcases List.mem_append.mp hw with hw | hw
  · obtain ⟨i, hi, hwi⟩ := exists_of_mem_writeSeq hw
    rw [recordBlocks_length] at hi
    rw [hwi]
    refine ⟨rfl, ?_, ?_⟩
    · change 2 ≤ u.jtailBnum + i
      omega
    · change u.jtailBnum + i ≤ J + 2
      omega
  · rw [List.mem_singleton.mp hw]
    exact ⟨rfl, le_refl 2, Nat.le_add_left 2 J⟩

/-- Sectors that a commit does not touch. -/
theorem committed_disk_of_ne (base : Base dev J u)
    (same : ∀ b ∈ u.ct.bufs, (u.bufs b).addr.dev = dev) {a : BlockAddr} (super : a ≠ ⟨dev, 2⟩)
    (outside : ∀ i < u.ct.size + 1, a ≠ ⟨dev, u.jtailBnum + i⟩) :
    u.committed.disk a = u.disk a := by
  change applyWrites u.commitWrites u.disk _ = _
  rw [commitWrites_eq base same]
  apply applyWrites_of_notMem
  intro w hw
  rcases List.mem_append.mp hw with hw | hw
  · obtain ⟨i, hi, hwi⟩ := exists_of_mem_writeSeq hw
    rw [recordBlocks_length] at hi
    rw [hwi]
    exact (outside i hi).symm
  · rw [List.mem_singleton.mp hw]
    exact super.symm

/-- The record that a commit writes is the transaction. -/
theorem committed_holds (base : Base dev J u) (jtail : 3 ≤ u.jtailBnum)
    (nonempty : 0 < u.ct.size) (short : u.ct.size ≤ JTrans.capacity)
    (home : ∀ b ∈ u.ct.bufs, IsHome dev J (u.bufs b).addr) :
    Holds dev u.committed.disk u.jtailBnum [u.pairs u.ct] := by
  have hsame : ∀ b ∈ u.ct.bufs, (u.bufs b).addr.dev = dev := fun b hb => (home b hb).1
  have hlen : (u.pairs u.ct).length = u.ct.size := List.length_map ..
  have hheader : u.committed.disk ⟨dev, u.jtailBnum⟩ = u.headerBlock := by
    have := committed_disk_record base jtail hsame (i := 0) (by simp [recordBlocks])
    simpa [recordBlocks] using this
  have hsectors : (u.ct.bufs.map fun b => (u.bufs b).addr.sector).length = u.ct.size :=
    List.length_map ..
  have hcount : JTrans.numDataBlocks u.headerBlock = u.ct.size := by
    have hlt : u.ct.size < 2 ^ 32 := lt_of_le_of_lt short (by decide)
    rw [headerBlock, JTrans.numDataBlocks_fill _ (by rw [hsectors]; exact hlt), hsectors]
  refine ⟨?_, ?_, ?_, ?_, ?_, trivial⟩
  · intro hnil
    rw [hnil] at hlen
    exact absurd hlen.symm nonempty.ne'
  · rw [hlen]
    exact short
  · rw [hheader, headerBlock, JTrans.checksum_fill]
  · rw [hheader, hcount, hlen]
  · unfold recordAt
    rw [hheader, hcount]
    apply List.ext_getElem
    · simp [hlen]
    · intro i hi hi'
      rw [hlen] at hi'
      have hb : i < u.ct.bufs.length := hi'
      have hdata : u.committed.disk ⟨dev, u.jtailBnum + 1 + i⟩ = (u.bufs u.ct.bufs[i]).data := by
        have := committed_disk_record base jtail hsame (i := i + 1)
          (by rw [recordBlocks_length]; omega)
        rw [show u.jtailBnum + 1 + i = u.jtailBnum + (i + 1) by omega, this]
        simp [recordBlocks]
      have hhome := home _ (List.getElem_mem hb)
      have haddr : (⟨dev, (u.bufs u.ct.bufs[i]).addr.sector⟩ : BlockAddr) =
          (u.bufs u.ct.bufs[i]).addr := by
        rw [← hhome.1]
      have hsector : JTrans.blocklist u.headerBlock i = (u.bufs u.ct.bufs[i]).addr.sector := by
        rw [headerBlock, JTrans.blocklist_fill _ (by rw [hsectors]; exact hi') (by omega),
          List.getElem_map, Nat.mod_eq_of_lt hhome.2.2]
      simp only [List.getElem_map, List.getElem_range, Bio.pairs]
      rw [hsector, hdata, haddr]

/-- The journal on disk holds exactly the given transactions, and the next record
goes behind them. -/
structure Recorded (dev J : Nat) (s : Bio) (txns : List Txn) : Prop where
  holds : Holds dev s.disk 3 txns
  jtail : s.jtailBnum = 3 + span txns
  room : span txns ≤ J
  tail : JsBlock.tailBlock s.jsb + 1 = 3 + span txns ∨ (txns = [] ∧ JsBlock.tailBlock s.jsb ≤ 3)

variable {s : Bio} {txns : List Txn}

/-- Whatever happened outside the journal, the records are still there. -/
theorem Recorded.journalRecords_eq (recorded : Recorded dev J s txns) (base : Base dev J s)
    {disk : BlockAddr → Block}
    (same : ∀ j, 2 ≤ j → j ≤ J + 2 → disk ⟨dev, j⟩ = s.disk ⟨dev, j⟩) :
    journalRecords dev disk = txns := by
  have hsuper : disk ⟨dev, 2⟩ = s.jsb := (same 2 (le_refl 2) (by omega)).trans base.super
  have hroom := recorded.room
  cases txns with
  | nil =>
    apply journalRecords_empty
    rw [hsuper, base.head]
    rcases recorded.tail with h | ⟨-, h⟩
    · rw [span] at h
      omega
    · exact h
  | cons txn txns =>
    have htail := recorded.tail.resolve_right fun h => by simp at h
    have hlen := length_le_span (txn :: txns)
    apply Xv6.journalRecords_eq
    · rw [hsuper, base.head]
    · rw [hsuper, htail]
    · rw [hsuper, base.size]
      omega
    · simp
    · exact recorded.holds.congr fun j hlow hhigh => same j (by omega) (by omega)

theorem recorded_committed (holds : Holds dev u.disk 3 txns) (jtail : u.jtailBnum = 3 + span txns)
    (base : Base dev J u) (nonempty : 0 < u.ct.size) (short : u.ct.size ≤ JTrans.capacity)
    (fits : u.jtailBnum + u.ct.size ≤ J + 2)
    (home : ∀ b ∈ u.ct.bufs, IsHome dev J (u.bufs b).addr) :
    Recorded dev J u.committed (txns ++ [u.pairs u.ct]) := by
  have hlen : (u.pairs u.ct).length = u.ct.size := List.length_map ..
  have hspan : span (txns ++ [u.pairs u.ct]) = span txns + (u.ct.size + 1) := by
    rw [span_append, span, span, hlen]
  refine ⟨?_, ?_, by rw [hspan]; omega, Or.inl ?_⟩
  · rw [holds_append]
    constructor
    · -- the older records lie in front of the new one
      apply holds.congr
      intro j hlow hhigh
      apply committed_disk_of_ne base fun b hb => (home b hb).1
      · intro h
        have := (BlockAddr.mk.inj h).2
        omega
      · intro i _ h
        have := (BlockAddr.mk.inj h).2
        omega
    · rw [← jtail]
      exact committed_holds base (by omega) nonempty short home
  · rw [hspan]
    change u.jtailBnum + u.ct.size + 1 = _
    omega
  · have hbounded := base.bounded
    rw [committed_jsb, JsBlock.tailBlock_setTail _ (by omega), hspan]
    omega

theorem Recorded.flushedTo {ms : List NodeId} {stop : Option NodeId}
    (outside : s.jsblockBuf ∉ s.waiting ms) : Recorded dev J (s.flushedTo ms stop) [] where
  holds := trivial
  jtail := rfl
  room := Nat.zero_le J
  tail := by
    have hdata : (s.flushedTo ms stop).jsb = JsBlock.reset s.jsb :=
      congrArg Buf.data (flushedTo_bufs_jsb stop outside)
    exact Or.inr ⟨rfl, by rw [hdata, JsBlock.tailBlock_reset]⟩

end CommitRecord

end Xv6
