/-
# A bad record in the journal

`pbjFSck` looks at the checksum of a record after it has used the record's header to
retarget buffers, and returns at once if the checksum is wrong. This file says what a
recovery has to leave behind, shows that recovery does so when the records go on to the
tail of the journal, and that it does not when a bad header stands before the tail: then
nothing at all is written home, and the header buffer that every later commit writes to
has not been set.
-/

import Xv6.Journal.Replay

namespace Xv6

open Math Bio

/-- The journal ends with the last of some transactions. -/
def EndsAfter (dev : Nat) (disk : BlockAddr → Block) (txns : List Txn) : Prop :=
  JsBlock.tailBlock (disk ⟨dev, 2⟩) + 1 = 3 + span txns ∨
    (txns = [] ∧ JsBlock.tailBlock (disk ⟨dev, 2⟩) ≤ 3)

/-- Behind some transactions, and before the tail of the journal, there is a header
whose checksum field is wrong. -/
def BadAfter (dev : Nat) (disk : BlockAddr → Block) (txns : List Txn) : Prop :=
  3 + span txns < JsBlock.tailBlock (disk ⟨dev, 2⟩) ∧
    JTrans.checksum (disk ⟨dev, 3 + span txns⟩) ≠ JTrans.magic

/-- A disk whose journal holds some transactions, and behind them nothing more or a bad
header. -/
structure JournalHolds (dev J : Nat) (disk : BlockAddr → Block) (txns : List Txn) : Prop where
  size : JsBlock.size (disk ⟨dev, 2⟩) = J
  head : JsBlock.headBlock (disk ⟨dev, 2⟩) = 3
  holds : Holds dev disk 3 txns
  room : span txns ≤ J
  next : EndsAfter dev disk txns ∨ BadAfter dev disk txns

/-- What a recovery has to leave behind. A started journal is one that commits can be made
in: of all buffers only those of the super block and of the header are busy, and the
latter holds the first journal block. -/
structure Recovered (dev J : Nat) (disk : BlockAddr → Block) (txns : List Txn) (t : Bio) :
    Prop where
  log : t.log = recoveryWrites dev disk txns
  clean : ∀ b, (t.bufs b).dirty = false
  start : Start dev J t

/-- Recovery returns, having indexed no block outside the journal, and has done its work. -/
def RecoversRight (dev J : Nat) (disk : BlockAddr → Block) (txns : List Txn) : Prop :=
  ∃ t, (pbjFSck dev).run (Bio.boot disk) = .ok () t ∧ Recovered dev J disk txns t

/-- What the walk over the journal does not change: the log, the header buffer and the
super block. -/
def Bio.outsideWalk (s : Bio) : List (BlockAddr × Block) × BufId × Buf :=
  (s.log, s.jtransHeaderBuf, s.bufs 0)

section Walk

variable {dev J : Nat} {disk : BlockAddr → Block} {s t : Bio} {txns : List Txn}

theorem keeps_retarget (i sector : Nat) :
    Keeps Bio.outsideWalk (retarget (journalBufs J) i sector) := by
  unfold retarget
  cases hget : (journalBufs J)[i]? with
  | none => exact Keeps.throw _
  | some b =>
    refine Keeps.bind (Keeps.modify fun s => ?_) fun _ => Keeps.pure _
    -- the buffers of the journal blocks are numbered from 1 on
    have hb := List.mem_range'_1.mp (List.mem_of_getElem? hget)
    have hne : (0 : Nat) ≠ b := by omega
    simp only [Bio.outsideWalk, Bio.setBuf, Function.update_of_ne hne]

theorem keeps_blocklistEntry (jt : Block) (i : Nat) :
    Keeps Bio.outsideWalk (blocklistEntry jt i) := Keeps.ite (Keeps.pure _) (Keeps.throw _)

/-- At a bad header the walk either faults or gives up. -/
theorem scanJournal_bad {fuel : Nat} {complete : Bool} (sc : Scanning dev disk J s txns)
    (bad : BadAfter dev disk txns)
    (run : (scanJournal (journalBufs J) fuel (span txns)).run s = .ok complete t) :
    complete = false ∧ t.outsideWalk = s.outsideWalk := by
  obtain ⟨before, wrong⟩ := bad
  have hlt : JsBlock.tailBlock (disk ⟨dev, 2⟩) < 2 ^ 32 := Block.word_lt _ _
  have hmore : span txns < sub32 (JsBlock.tailBlock s.jsb) 3 := by
    rw [sc.jsb_eq, sub32_of_le (by omega) hlt]
    omega
  cases fuel with
  | zero => cases run
  | succ fuel =>
    rw [scanJournal, run_get_bind, run_ite, if_pos hmore] at run
    rcases Nat.lt_or_ge (span txns) J with hroom | hroom
    · rw [journalBufs_getElem? hroom] at run
      simp only [sc.header hroom, if_neg wrong] at run
      obtain ⟨first, u, hfirst, run⟩ := run_bind_eq_ok_iff.mp run
      obtain ⟨rest, v, hrest, run⟩ := run_bind_eq_ok_iff.mp run
      cases run
      have hkeep := Keeps.of_ok (Keeps.mapM (fun i =>
        (keeps_blocklistEntry _ (i + 1)).bind fun sector =>
          keeps_retarget (span txns + 2 + i) sector) _) hrest
      exact ⟨rfl, hkeep.trans ((keeps_retarget _ _).of_ok hfirst)⟩
    · have hnone : (journalBufs J)[span txns]? = none := by
        rw [List.getElem?_eq_none_iff, journalBufs, List.length_range']
        exact hroom
      rw [hnone] at run
      cases run

/-- Recovery from a journal with a bad header, if it returns, has written nothing, and
the header buffer is what it was when the machine started. -/
theorem pbjFSck_bad (recorded : JournalHolds dev J disk txns) (bad : BadAfter dev disk txns)
    (cache : J + 1 ≤ NBUF) (run : (pbjFSck dev).run (Bio.boot disk) = .ok () t) :
    t.outsideWalk = ([], 0, readBuf dev disk 0 false 2) := by
  obtain ⟨size, head, holds, room, -⟩ := recorded
  have hsc := reading_scanning dev J disk
  have hlen := length_le_span txns
  have hbefore := bad.1
  have hnil : span ([] : List Txn) = 0 := rfl
  rw [pbjFSck, run_bind_of_ok (readJournal_run size cache)] at run
  obtain ⟨complete, u, hcollect, run⟩ := run_bind_eq_ok_iff.mp run
  rw [collectJournal, run_get_bind, run_ite, hsc.jsb_eq, head, if_pos (by omega),
    show (journalBufs J).length + 1 = J + 1 - txns.length + txns.length by
      rw [journalBufs, List.length_range']; omega] at hcollect
  obtain ⟨v, hwalk, hv, -⟩ := scanJournal_prefix (J + 1 - txns.length) hsc holds
    (by omega) (by omega)
  have hsame := hcollect
  rw [show sub32 3 3 = span ([] : List Txn) from rfl, hwalk] at hsame
  obtain ⟨rfl, hout⟩ := scanJournal_bad hv bad hsame
  cases run
  have hlog : v.log = [] := congrArg Bio.log hv.frame
  have hheader : v.jtransHeaderBuf = 0 := congrArg Bio.jtransHeaderBuf hv.frame
  rw [hout, Bio.outsideWalk, hv.fresh 0 (Nat.zero_le J) (by omega), hlog, hheader]

end Walk

section Result

variable {dev J : Nat} {disk : BlockAddr → Block} {txns : List Txn}

/-- Recovery does its work exactly when no bad header stands before the tail. -/
theorem pbjFSck_right_iff (recorded : JournalHolds dev J disk txns) (pos : 0 < J)
    (cache : J + 1 ≤ NBUF) : RecoversRight dev J disk txns ↔ EndsAfter dev disk txns := by
  constructor
  · rintro ⟨t, hrun, right⟩
    refine recorded.next.resolve_right fun bad => ?_
    have hout := pbjFSck_bad recorded bad cache hrun
    have hheader : t.jtransHeaderBuf = 0 := congrArg (·.2.1) hout
    have hsuper : t.bufs 0 = readBuf dev disk 0 false 2 := congrArg (·.2.2) hout
    -- a header buffer that was never set is not the buffer of the first journal block
    have haddr := right.start.inv.base.header_addr
    rw [hheader, hsuper] at haddr
    exact absurd (BlockAddr.mk.inj haddr).2 (by decide)
  · intro ends
    obtain ⟨t, hrun, hlog, -, hstart, hclean⟩ := pbjFSck_complete recorded.size recorded.head
      recorded.holds recorded.room ends pos cache
    exact ⟨t, hrun, hlog, hclean, hstart⟩

end Result

/-- A disk with a journal of four blocks: the record of one data block and, behind it, a
block that the super block counts in or out. -/
def oneRecord (tail : Nat) : BlockAddr → Block := fun a =>
  if a = ⟨1, 2⟩ then
    ((Block.zero.setWord 0 4).setWord 1 3).setWord 2 tail
  else if a = ⟨1, 3⟩ then JTrans.fill Block.zero [300]
  else if a = ⟨1, 4⟩ then Block.zero.setWord 0 7
  else Block.zero

/-- The transaction of that record. -/
def oneRecordTxn : Txn := [(⟨1, 300⟩, Block.zero.setWord 0 7)]

theorem oneRecord_holds (tail : Nat) (fits : tail < 2 ^ 32) (next : tail = 4 ∨ 5 < tail) :
    JournalHolds 1 4 (oneRecord tail) [oneRecordTxn] := by
  have hsuper : oneRecord tail ⟨1, 2⟩ = ((Block.zero.setWord 0 4).setWord 1 3).setWord 2 tail :=
    if_pos rfl
  have htail : JsBlock.tailBlock (oneRecord tail ⟨1, 2⟩) = tail := by
    rw [hsuper]
    exact Block.word_setWord_of_lt _ (by decide) fits
  have hheader : oneRecord tail ⟨1, 3⟩ = JTrans.fill Block.zero [300] := by
    simp [oneRecord]
  have hdata : oneRecord tail ⟨1, 4⟩ = Block.zero.setWord 0 7 := by
    simp [oneRecord]
  refine ⟨?_, ?_, ⟨by simp [oneRecordTxn], by decide, ?_, ?_, ?_, trivial⟩, by decide, ?_⟩
  · rw [hsuper, JsBlock.size, Block.word_setWord_ne _ (by decide),
      Block.word_setWord_ne _ (by decide)]
    exact Block.word_setWord_of_lt _ (by decide) (by decide)
  · rw [hsuper, JsBlock.headBlock, Block.word_setWord_ne _ (by decide)]
    exact Block.word_setWord_of_lt _ (by decide) (by decide)
  · rw [hheader]
    decide +kernel
  · rw [hheader]
    decide +kernel
  · have hcount : JTrans.numDataBlocks (JTrans.fill Block.zero [300]) = 1 := by decide +kernel
    have hsector : JTrans.blocklist (JTrans.fill Block.zero [300]) 0 = 300 := by decide +kernel
    simp only [recordAt, hheader, hcount, List.range_one, List.map_singleton, hsector, hdata]
    rfl
  · rw [EndsAfter, BadAfter, htail, show 3 + span [oneRecordTxn] = 5 from rfl]
    refine next.imp (fun h => Or.inl (by omega)) fun h => ⟨h, ?_⟩
    rw [show oneRecord tail ⟨1, 5⟩ = Block.zero by simp [oneRecord]]
    decide +kernel

/-- The journal that ends with its record is recovered. -/
theorem pbjFSck_right_oneRecord :
    JournalHolds 1 4 (oneRecord 4) [oneRecordTxn] ∧ 0 < 4 ∧ 4 + 1 ≤ NBUF ∧
      RecoversRight 1 4 (oneRecord 4) [oneRecordTxn] := by
  have hholds := oneRecord_holds 4 (by decide) (Or.inl rfl)
  refine ⟨hholds, by decide, by decide, ?_⟩
  refine (pbjFSck_right_iff hholds (by decide) (by decide)).mpr (Or.inl ?_)
  decide +kernel

/-- The block behind the record is counted in. Its checksum is wrong, and recovery returns
without having written the record before it home. The data block of that record stays busy
and dirty, and so does the journal block behind the bad header, which now stands for the
boot sector. The header buffer has not been set. -/
theorem bad_record_stops_recovery :
    JournalHolds 1 4 (oneRecord 6) [oneRecordTxn] ∧
      BadAfter 1 (oneRecord 6) [oneRecordTxn] ∧
      ∃ t, (pbjFSck 1).run (Bio.boot (oneRecord 6)) = .ok () t ∧ t.log = [] ∧
        (t.bufs 2).addr = ⟨1, 300⟩ ∧ (t.bufs 2).busy = true ∧ (t.bufs 2).dirty = true ∧
        (t.bufs 4).addr = ⟨1, 0⟩ ∧ (t.bufs 4).busy = true ∧ (t.bufs 4).dirty = true ∧
        (t.bufs t.jtransHeaderBuf).addr ≠ ⟨1, 3⟩ := by
  refine ⟨oneRecord_holds 6 (by decide) (Or.inr (by decide)), ⟨by decide +kernel,
    by decide +kernel⟩, ?_⟩
  have hreturns : returnedWith (fun _ t => decide (t.log = [] ∧
      (t.bufs 2).addr = ⟨1, 300⟩ ∧ (t.bufs 2).busy = true ∧ (t.bufs 2).dirty = true ∧
      (t.bufs 4).addr = ⟨1, 0⟩ ∧ (t.bufs 4).busy = true ∧ (t.bufs 4).dirty = true ∧
      (t.bufs t.jtransHeaderBuf).addr ≠ ⟨1, 3⟩)) ((pbjFSck 1).run (Bio.boot (oneRecord 6))) =
      true := by
    decide +kernel
  obtain ⟨_, t, hrun, ht⟩ := exists_of_returnedWith hreturns
  exact ⟨t, hrun, of_decide_eq_true ht⟩

end Xv6
