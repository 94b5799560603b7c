/-
# Decoding undoes encoding

Whatever transactions `end_trans` has put on the journal one after the other,
`pbjFSck` collects exactly these, in the same order and with the same blocks.
-/

import Xv6.Journal.Recover

namespace Xv6

open Math Bio

/-- Between two commits anything may happen in memory and to the home sectors. -/
structure SameJournal (dev J : Nat) (s u : Bio) : Prop where
  disk : ∀ j, 2 ≤ j → j ≤ J + 2 → u.disk ⟨dev, j⟩ = s.disk ⟨dev, j⟩
  jtail : u.jtailBnum = s.jtailBnum

/-- `end_trans` is called for one transaction after another, without a flush. -/
inductive Commits (dev J : Nat) : Bio → List Txn → Bio → Prop
  | nil (s : Bio) : Commits dev J s [] s
  | cons {s u t : Bio} {txns : List Txn} : SameJournal dev J s u → Base dev J u →
      CommitReady u → Commits dev J (endState (endTrans.run u)) txns t →
      Commits dev J s (u.pairs u.ct :: txns) t

section Decode

variable {dev J : Nat} {s t : Bio} {disk : BlockAddr → Block} {txns : List Txn}

private theorem chain_range' {n : Nat} (next : ∀ i < n, (s.nodes i).next =
    if i + 1 < n then some (i + 1) else none) (fuel i : Nat) (sum : i + fuel = n) :
    s.chain fuel (if i < n then some i else none) = List.range' i fuel := by
  induction fuel generalizing i with
  | zero => rfl
  | succ fuel ih =>
    have hi : i < n := by omega
    rw [if_pos hi, chain, next i hi, ih (i + 1) (by omega), List.range'_succ]

/-- The pending list of the scanning loop holds the transactions it has collected. -/
theorem Scanning.pendingTxns_eq (sc : Scanning dev disk J s txns) : s.pendingTxns = txns := by
  have hhead : s.mtnHead = if 0 < txns.length then some 0 else none := by
    rw [sc.head]
    cases txns <;> simp
  rw [pendingTxns, pending, sc.nextNode, hhead, chain_range' sc.next _ 0 (Nat.zero_add _),
    ← List.range_eq_range']
  exact sc.txns_eq

/-- The journal after some commits: the records of all of them, in order. -/
theorem Commits.recorded (done : List Txn) (commits : Commits dev J s txns t)
    (base : Base dev J s) (holds : Holds dev s.disk 3 done)
    (jtail : s.jtailBnum = 3 + span done) (room : span done + span txns + 1 ≤ J)
    (sizes : ∀ txn ∈ txns, 0 < txn.length ∧ txn.length ≤ NBPT ∧ ∀ w ∈ txn, IsHome dev J w.1) :
    Base dev J t ∧ (txns = [] ∧ t = s ∨ Recorded dev J t (done ++ txns)) := by
  induction commits generalizing done with
  | nil s => exact ⟨base, Or.inl ⟨rfl, rfl⟩⟩
  | @cons s u t txns same ubase ready rest ih =>
    obtain ⟨⟨hpos, hshort, hhome⟩, hsizes⟩ := List.forall_mem_cons.mp sizes
    have hlen : (u.pairs u.ct).length = u.ct.size := List.length_map ..
    rw [hlen] at hpos hshort
    rw [span, hlen] at room
    have hholds : Holds dev u.disk 3 done :=
      holds.congr fun j hlow hhigh => same.disk j (by omega) (by omega)
    have hjtail : u.jtailBnum = 3 + span done := same.jtail.trans jtail
    have huhome : ∀ b ∈ u.ct.bufs, IsHome dev J (u.bufs b).addr := fun b hb =>
      hhome _ (List.mem_map_of_mem hb)
    have hroom : u.Room (u.ct.size + 1) := by
      right
      rw [ubase.size]
      omega
    have hrun := endTrans_room ready hpos hroom
    have hrec := recorded_committed hholds hjtail ubase hpos (hshort.trans (by decide))
      (by omega) huhome
    rw [hrun, endState_ok] at rest ih
    obtain ⟨hbase, hend⟩ := ih (done ++ [u.pairs u.ct]) ubase.committed hrec.holds
      hrec.jtail (by rw [span_append, span, span, hlen]; omega) hsizes
    refine ⟨hbase, Or.inr ?_⟩
    rw [← List.append_cons] at hend
    rcases hend with ⟨rfl, rfl⟩ | hend
    · exact hrec
    · exact hend

/-- Committing transactions to an empty journal and reading it back on a restarted
machine gives exactly these transactions, in order, each with its sectors and data. -/
theorem collectJournal_commits (base : Base dev J s) (jtail : s.jtailBnum = 3)
    (empty : txns = [] → JsBlock.tailBlock s.jsb ≤ 3) (cache : J + 1 ≤ NBUF)
    (sizes : ∀ txn ∈ txns, 0 < txn.length ∧ txn.length ≤ NBPT ∧ ∀ w ∈ txn, IsHome dev J w.1)
    (room : span txns + 1 ≤ J) (commits : Commits dev J s txns t) :
    ∃ u v, (readJournal dev).run (Bio.boot t.disk) = .ok (journalBufs J) u ∧
      (collectJournal (journalBufs J)).run u = .ok true v ∧ v.pendingTxns = txns := by
  obtain ⟨hbase, hrec⟩ := commits.recorded [] base trivial jtail
    (by rw [span]; omega) sizes
  have hsize : JsBlock.size (t.disk ⟨dev, 2⟩) = J := by rw [hbase.super, hbase.size]
  have hhead : JsBlock.headBlock (t.disk ⟨dev, 2⟩) = 3 := by rw [hbase.super, hbase.head]
  have hholds : Holds dev t.disk 3 txns := by
    rcases hrec with ⟨rfl, -⟩ | hrec
    · trivial
    · exact hrec.holds
  have hlast : JsBlock.tailBlock (t.disk ⟨dev, 2⟩) + 1 = 3 + span txns ∨
      (txns = [] ∧ JsBlock.tailBlock (t.disk ⟨dev, 2⟩) ≤ 3) := by
    rw [hbase.super]
    rcases hrec with ⟨rfl, rfl⟩ | hrec
    · exact Or.inr ⟨rfl, empty rfl⟩
    · exact hrec.tail
  obtain ⟨v, hrun, hsc, -⟩ := collectJournal_run (J := J) hhead hholds (by omega) hlast
  exact ⟨_, v, readJournal_run hsize cache, hrun, hsc.pendingTxns_eq⟩

theorem Commits.snoc {u : Bio} (commits : Commits dev J s txns t) (same : SameJournal dev J t u)
    (base : Base dev J u) (ready : CommitReady u) :
    Commits dev J s (txns ++ [u.pairs u.ct]) (endState (endTrans.run u)) := by
  induction commits with
  | nil s => exact Commits.cons same base ready (Commits.nil _)
  | cons hsame hbase hready _ ih => exact Commits.cons hsame hbase hready (ih same)

/-- Calls that only commit are such a sequence. -/
theorem run_commits {cs : List Call} (start : Start dev J s) (run : Run (CallStep dev J) s cs t)
    (no_flush : ∀ c ∈ cs, c ≠ .flush) :
    Commits dev J s (committedTxns cs) t ∧ ∃ st ns, Inv dev J t st ns := by
  induction run with
  | start => exact ⟨Commits.nil s, _, _, start.inv⟩
  | @snoc cs c t v hrun hstep ih =>
    obtain ⟨hcommits, st, ns, inv⟩ := ih fun d hd => no_flush d (List.mem_append_left _ hd)
    cases c with
    | flush => exact absurd rfl (no_flush .flush (by simp))
    | trans ws =>
      obtain ⟨⟨nonempty, -, -, home⟩, hok⟩ := hstep
      obtain ⟨u, bs, fills, ct, hroom, rfl⟩ := inv.trans_eq_ok home nonempty hok
      have hready := inv.commitReady fills home
      have hsize : u.ct.size = ws.length := by
        rw [ct]
        exact fills.length
      have hsame : SameJournal dev J t u :=
        ⟨fun j _ _ => by rw [fills.filled.same], by rw [fills.filled.same]⟩
      have hcommit := endTrans_room hready
        (by rw [hsize]; exact List.length_pos_iff.mpr nonempty) (by rw [hsize]; exact hroom)
      have hsnoc := hcommits.snoc hsame (fills.base inv.base) hready
      have hpairs : u.pairs u.ct = ws.reverse := by
        rw [ct]
        exact fills.pairs
      rw [hcommit, endState_ok, hpairs] at hsnoc
      refine ⟨?_, _, _, inv.commit fills ct home⟩
      rw [committedTxns_snoc]
      exact hsnoc

/-- Two commits, read back. -/
theorem collectJournal_commits_example :
    ∃ t u v, Commits 1 200 (Bio.mounted 1 200 jinit)
        [[(⟨1, 300⟩, Block.zero)], [(⟨1, 301⟩, Block.zero)]] t ∧
      (readJournal 1).run (Bio.boot t.disk) = .ok (journalBufs 200) u ∧
      (collectJournal (journalBufs 200)).run u = .ok true v ∧
      v.pendingTxns = [[(⟨1, 300⟩, Block.zero)], [(⟨1, 301⟩, Block.zero)]] := by
  have hrun : Run (CallStep 1 200) (Bio.mounted 1 200 jinit) [oneBlock 300, oneBlock 301]
      (runCalls [oneBlock 300, oneBlock 301] (Bio.mounted 1 200 jinit)) :=
    run_of_replays (fun c s => decide (c.Legal 1 200 s))
      (fun c s t h hok => ⟨of_decide_eq_true h, hok⟩) (by decide +kernel)
  obtain ⟨hcommits, -⟩ := run_commits jinit_start hrun (by simp [oneBlock])
  have hsizes : ∀ txn ∈ [[((⟨1, 300⟩ : BlockAddr), Block.zero)], [(⟨1, 301⟩, Block.zero)]],
      0 < txn.length ∧ txn.length ≤ NBPT ∧ ∀ w ∈ txn, IsHome 1 200 w.1 := by
    decide +kernel
  obtain ⟨u, v, hread, hcollect, htxns⟩ := collectJournal_commits jinit_start.inv.base rfl
    (fun h => by cases h) (by decide) hsizes (by decide) hcommits
  exact ⟨_, u, v, hcommits, hread, hcollect, htxns⟩

end Decode

end Xv6
