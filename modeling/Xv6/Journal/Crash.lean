/-
# Crash atomicity of commits

Each transaction is committed and then flushed. Wherever the machine stops, the next
`pbjFSck` finds the home sectors with exactly the transactions applied whose super
block write was made; this stays so when recovery itself is interrupted.
-/

import Xv6.Journal.Replay

namespace Xv6

open Math Bio

/-! ### A transaction that is filled, committed and flushed -/

/-- A transaction of 1 to `NBPT` different home sectors. -/
structure GoodTxn (dev J : Nat) (ws : Txn) : Prop where
  nonempty : ws ≠ []
  short : ws.length ≤ NBPT
  home : ∀ w ∈ ws, IsHome dev J w.1
  distinct : (ws.map Prod.fst).Nodup

/-- Fill a transaction, commit it with `end_trans` and flush it at once. -/
def commitFlush (ws : Txn) : BioM Unit := do
  (Call.trans ws).run
  jfullFlush

/-- How many writes of a log commit a transaction: writes of the super block that
leave the journal non-empty. -/
def superCommits (dev : Nat) (log : List (BlockAddr × Block)) : Nat :=
  log.countP fun w =>
    decide (w.1 = ⟨dev, 2⟩ ∧ JsBlock.headBlock w.2 < JsBlock.tailBlock w.2)

/-- The sector writes of a commit followed by a flush. -/
structure PairWrites (dev J : Nat) (disk : BlockAddr → Block) (ws : Txn)
    (record : List (BlockAddr × Block)) (sup : Block) : Prop where
  journal : ∀ w ∈ record, InJournal dev J w.1
  not_super : ∀ w ∈ record, w.1 ≠ ⟨dev, 2⟩
  commits : JsBlock.headBlock sup < JsBlock.tailBlock sup
  committed : OnDisk dev J (applyWrites (record ++ [(⟨dev, 2⟩, sup)]) disk) [ws.reverse]

/-- The writes of a commit, its record and the super block, and of the flush after it. -/
def pairLog (dev : Nat) (disk : BlockAddr → Block) (ws : Txn)
    (record : List (BlockAddr × Block)) (sup : Block) : List (BlockAddr × Block) :=
  record ++ [(⟨dev, 2⟩, sup)] ++
    recoveryWrites dev (applyWrites (record ++ [(⟨dev, 2⟩, sup)]) disk) [ws.reverse]

section Pair

variable {dev J : Nat} {s : Bio} {ws : Txn}

theorem Start.head (start : Start dev J s) : s.mtnHead = none := by
  cases hshape : start.inv.shape with
  | idle head => exact head

/-- From a fresh state a good transaction can be filled. -/
theorem Start.fill (start : Start dev J s) (good : GoodTxn dev J ws) :
    ∃ u bs, (ws.forM putBlock).run s = .ok () u ∧ Fills s u ws bs := by
  obtain ⟨u, hfill⟩ := fill_returns [s.jsblockBuf, s.jtransHeaderBuf]
    (start.lru.nodup_iff.mpr binitLru_nodup) good.distinct
    (fun b hb => by simpa using start.busy b hb)
    (by
      intro b hb hmem
      obtain ⟨w, hw, haddr⟩ := List.mem_map.mp hmem
      have hhome := good.home w hw
      rw [haddr] at hhome
      rcases List.mem_pair.mp hb with rfl | rfl
      · exact start.inv.base.jsb_notHome hhome
      · exact start.inv.base.header_notHome hhome)
    (by
      rw [start.lru.length_eq, binitLru_length]
      have := good.short
      unfold NBPT at this
      unfold NBUF
      simp only [List.length_cons, List.length_nil]
      omega)
  obtain ⟨bs, fills⟩ := fill_eq_ok hfill
  exact ⟨u, bs, hfill, fills⟩

/-- A commit and a flush from a fresh state return to a fresh state. -/
theorem Start.commitFlush (start : Start dev J s) (good : GoodTxn dev J ws)
    (room : NBPT + 1 ≤ J) :
    ∃ t record sup, (Xv6.commitFlush ws).run s = .ok () t ∧ Start dev J t ∧
      PairWrites dev J s.disk ws record sup ∧
      t.log = s.log ++ pairLog dev s.disk ws record sup ∧
      t.disk = applyWrites (pairLog dev s.disk ws record sup) s.disk := by
  obtain ⟨u, bs, hfill, fills⟩ := start.fill good
  have hinv := start.inv
  have hct := hinv.ct_bufs fills
  have hbase := fills.base hinv.base
  have hready := hinv.commitReady fills good.home
  have hpairs : u.pairs u.ct = ws.reverse := by
    rw [hct]
    exact fills.pairs
  have hsize : u.ct.size = ws.length := by
    rw [hct]
    exact fills.length
  have hpos : 0 < u.ct.size := by
    rw [hsize]
    exact List.length_pos_iff.mpr good.nonempty
  have hshort : u.ct.size ≤ NBPT := by
    rw [hsize]
    exact good.short
  have hjtail : u.jtailBnum = 3 := by
    rw [fills.filled.same]
    exact hinv.jtail_idle start.head
  have hdisk : u.disk = s.disk := by rw [fills.filled.same]
  have hlog : u.log = s.log := by rw [fills.filled.same]
  have hhome : ∀ b ∈ u.ct.bufs, IsHome dev J (u.bufs b).addr := by
    rw [hct]
    exact fills.home good.home
  have hdev : ∀ b ∈ u.ct.bufs, (u.bufs b).addr.dev = dev := fun b hb => (hhome b hb).1
  have hcommit := endTrans_room hready hpos (Or.inl (by rw [fills.filled.same]; exact start.head))
  have htrans : (Call.trans ws).run.run s = .ok () u.committed := by
    rw [Call.run, run_bind_of_ok hfill, hcommit]
  have hrecorded : Recorded dev J u.committed ([] ++ [u.pairs u.ct]) :=
    recorded_committed trivial hjtail hbase hpos (hshort.trans (by decide)) (by omega) hhome
  rw [List.nil_append, hpairs] at hrecorded
  have hcbase := hbase.committed
  -- the flush that follows
  have hlegal : (Call.trans ws).Legal dev J s :=
    ⟨good.nonempty, good.short, by rw [hinv.jtail_idle start.head]; have := good.short; omega,
      good.home⟩
  have hfew : ∀ t : Bio, t.mtnHead = none → t.AtMostOnePending := fun t ht => by
    simp [AtMostOnePending, ht]
  have htracks := start.tracks.trans (hfew s start.head) ⟨hlegal, htrans⟩
  rw [List.nil_append] at htracks
  obtain ⟨hrun, hflushed⟩ := htracks.inv.flush
  have hone : u.committed.AtMostOnePending := by
    cases hshape : htracks.inv.shape with
    | one head _ next => simp [AtMostOnePending, head, next]
  obtain ⟨t, hrun', hend⟩ := htracks.flush hone
  rw [hrun] at hrun'
  obtain rfl := (EStateM.Result.ok.inj hrun').2
  have hwaiting : u.committed.waiting [s.nextNode] = bs := by
    have := hinv.waiting_committed fills hct
    simpa [pushNode, waiting] using this
  have hout : u.committed.jsblockBuf ∉ u.committed.waiting [s.nextNode] := fun hmem =>
    htracks.inv.base.jsb_notHome (htracks.inv.home _ hmem)
  have hsuper : u.committed.disk ⟨dev, 2⟩ = u.committed.jsb := hcbase.super
  have hcwrites := commitWrites_eq hbase hdev
  have hcdisk : u.committed.disk = applyWrites u.commitWrites s.disk := by
    rw [← hdisk]
    rfl
  have hclog : u.committed.log = s.log ++ u.commitWrites := by
    rw [← hlog]
    rfl
  have hfwrites : u.committed.flushWrites [s.nextNode] =
      recoveryWrites dev u.committed.disk [ws.reverse] := by
    have hnew := hinv.pairs_new fills hct good.home
    have hwpairs : u.committed.pairs ⟨u.committed.waiting [s.nextNode]⟩ = ws.reverse := by
      rw [← hnew]
      simp [waiting]
    rw [flushWrites, hwpairs, hcbase.jsb_addr, recoveryWrites, if_neg (by simp), hsuper]
    simp
  refine ⟨_, writeSeq (fun i => ⟨dev, i⟩) u.jtailBnum (recordBlocks u),
    JsBlock.setTail u.jsb (u.jtailBnum + u.ct.size), ?_, ⟨hend.inv, ?_, ?_⟩, ⟨?_, ?_, ?_, ?_⟩, ?_⟩
  · rw [Xv6.commitFlush, run_bind_of_ok htrans, hrun]
  · change (touch u.lru (u.committed.waiting [s.nextNode])).Perm _
    have hlru : u.lru = s.lru := by rw [fills.filled.same]
    rw [hwaiting, hlru]
    exact (touch_perm fills.lru).trans start.lru
  · intro b hb
    simpa [waiting] using hend.busy b hb
  · intro w hw
    exact commitWrites_inJournal hbase hjtail.ge (by omega) hdev w
      (hcwrites ▸ List.mem_append_left _ hw)
  · intro w hw hsuper
    obtain ⟨i, -, hwi⟩ := exists_of_mem_writeSeq hw
    have := (BlockAddr.mk.inj (hwi.symm.trans hsuper)).2
    omega
  · have hbounded := hbase.bounded
    rw [JsBlock.headBlock_setTail, hbase.head, JsBlock.tailBlock_setTail _ (by omega)]
    omega
  · rw [← hcwrites, ← hcdisk]
    exact
      { size := by rw [hsuper]; exact hcbase.size
        head := by rw [hsuper]; exact hcbase.head
        holds := hrecorded.holds
        room := hrecorded.room
        last := by rw [hsuper]; exact hrecorded.tail
        home := by simpa using good.home }
  · rw [pairLog, ← hcwrites, ← hcdisk, ← hfwrites]
    constructor
    · rw [flushedTo_log hout, hclog, List.append_assoc]
    · rw [flushedTo_disk hout, hcdisk, applyWrites_append]

end Pair

/-! ### Stopping the machine -/

section Stop

variable {dev J : Nat} {s : Bio} {ws : Txn} {disk H H' : BlockAddr → Block}

theorem Recoverable.congr (rec : Recoverable dev J H disk)
    (same : ∀ a, IsHome dev J a → H a = H' a) : Recoverable dev J H' disk := by
  obtain ⟨txns, on, home⟩ := rec
  exact ⟨txns, on, fun a ha => (home a ha).trans (same a ha)⟩

@[simp] theorem superCommits_append (log log' : List (BlockAddr × Block)) :
    superCommits dev (log ++ log') = superCommits dev log + superCommits dev log' :=
  List.countP_append

theorem superCommits_eq_zero {log : List (BlockAddr × Block)}
    (none : ∀ w ∈ log, w.1 = ⟨dev, 2⟩ → JsBlock.tailBlock w.2 ≤ JsBlock.headBlock w.2) :
    superCommits dev log = 0 := by
  refine List.countP_eq_zero.mpr fun w hw => ?_
  simpa using none w hw

theorem superCommits_take_eq_zero {log : List (BlockAddr × Block)}
    (none : superCommits dev log = 0) (k : Nat) : superCommits dev (log.take k) = 0 :=
  Nat.le_zero.mp (none ▸ (List.take_sublist k log).countP_le)

theorem superCommits_recoveryWrites {txns : List Txn}
    (home : ∀ w ∈ txns.flatten, IsHome dev J w.1) :
    superCommits dev (recoveryWrites dev disk txns) = 0 := by
  apply superCommits_eq_zero
  intro w hmem hsuper
  unfold recoveryWrites at hmem
  split at hmem
  next => cases hmem
  next =>
    rcases List.mem_append.mp hmem with hmem | hmem
    · exact absurd hsuper ((home w hmem).sector_ne ⟨le_refl 2, by omega⟩)
    · rw [List.mem_singleton.mp hmem, JsBlock.tailBlock_reset, JsBlock.headBlock_reset]

variable {record : List (BlockAddr × Block)} {sup : Block}

theorem PairWrites.commit_apart (pw : PairWrites dev J disk ws record sup) {a : BlockAddr}
    (ha : IsHome dev J a) : ∀ w ∈ record ++ [(⟨dev, 2⟩, sup)], w.1 ≠ a := by
  rintro w hw rfl
  rcases List.mem_append.mp hw with hw | hw
  · exact (pw.journal w hw).not_isHome ha
  · rw [List.mem_singleton.mp hw] at ha
    exact ha.sector_ne ⟨le_refl 2, by omega⟩ rfl

theorem PairWrites.superCommits_record (pw : PairWrites dev J disk ws record sup) :
    superCommits dev record = 0 :=
  superCommits_eq_zero fun w hw hsuper => absurd hsuper (pw.not_super w hw)

theorem PairWrites.superCommits_commit (pw : PairWrites dev J disk ws record sup) :
    superCommits dev (record ++ [(⟨dev, 2⟩, sup)]) = 1 := by
  rw [superCommits_append, pw.superCommits_record, superCommits, List.countP_singleton, if_pos]
  simpa using pw.commits

theorem PairWrites.apply_committed (pw : PairWrites dev J disk ws record sup)
    (good : GoodTxn dev J ws) {a : BlockAddr} (ha : IsHome dev J a) :
    applyWrites ws.reverse (applyWrites (record ++ [(⟨dev, 2⟩, sup)]) disk) a =
      applyWrites ws disk a := by
  rw [applyWrites_reverse good.distinct]
  exact applyWrites_congr (Or.inr (applyWrites_of_notMem (pw.commit_apart ha) disk))

theorem PairWrites.superCommits_pairLog (pw : PairWrites dev J disk ws record sup) :
    superCommits dev (pairLog dev disk ws record sup) = 1 := by
  rw [pairLog, superCommits_append, pw.superCommits_commit,
    superCommits_recoveryWrites pw.committed.home]

theorem PairWrites.apply_pairLog (pw : PairWrites dev J disk ws record sup)
    (good : GoodTxn dev J ws) {a : BlockAddr} (ha : IsHome dev J a) :
    applyWrites (pairLog dev disk ws record sup) disk a = applyWrites ws disk a := by
  rw [pairLog, applyWrites_append, applyWrites_recoveryWrites ha, List.flatten_cons,
    List.flatten_nil, List.append_nil]
  exact pw.apply_committed good ha

/-- Stopping before the super block is written leaves the journal empty. -/
theorem PairWrites.recoverable_record (pw : PairWrites dev J disk ws record sup)
    (on : OnDisk dev J disk []) (k : Nat) :
    Recoverable dev J disk (applyWrites (record.take k) disk) := by
  have hsuper : applyWrites (record.take k) disk ⟨dev, 2⟩ = disk ⟨dev, 2⟩ :=
    applyWrites_of_notMem (fun w hw => pw.not_super w (List.mem_of_mem_take hw)) disk
  refine ⟨[], ⟨?_, ?_, trivial, on.room, ?_, on.home⟩, fun a ha => ?_⟩
  · rw [hsuper]
    exact on.size
  · rw [hsuper]
    exact on.head
  · rw [hsuper]
    exact on.last
  · exact applyWrites_of_notMem (fun w hw =>
      pw.commit_apart ha w (List.mem_append_left _ (List.mem_of_mem_take hw))) disk

/-- Stopping a commit and its flush anywhere: the transaction is applied when the super
block has been written, and not at all before. -/
theorem PairWrites.recoverable_take (pw : PairWrites dev J disk ws record sup)
    (on : OnDisk dev J disk []) (good : GoodTxn dev J ws) (k : Nat) :
    let log := (pairLog dev disk ws record sup).take k
    superCommits dev log ≤ 1 ∧
      Recoverable dev J (applyWrites ([ws].take (superCommits dev log)).flatten disk)
        (applyWrites log disk) := by
  intro log
  by_cases hk : k ≤ record.length
  · have hlog : log = record.take k := by
      simp only [log, pairLog, List.append_assoc]
      exact List.take_append_of_le_length hk
    rw [hlog, superCommits_take_eq_zero pw.superCommits_record]
    exact ⟨Nat.zero_le 1, pw.recoverable_record on k⟩
  · have hle : (record ++ [((⟨dev, 2⟩ : BlockAddr), sup)]).length ≤ k := by
      rw [List.length_append, List.length_singleton]
      omega
    simp only [log]
    rw [pairLog, List.take_append, List.take_of_length_le hle, superCommits_append,
      pw.superCommits_commit,
      superCommits_take_eq_zero (superCommits_recoveryWrites pw.committed.home),
      applyWrites_append]
    refine ⟨le_refl 1, pw.committed.recoverable_take (fun a ha => ?_) _⟩
    simp only [List.flatten_cons, List.flatten_nil, List.append_nil, List.take_succ_cons,
      List.take_zero]
    exact pw.apply_committed good ha

end Stop

section Pairs

variable {dev J : Nat} {s : Bio} {txns : List Txn}

/-- Stopping a run of commits and flushes anywhere leaves a disk from which the
transactions of the super block writes are recovered. -/
theorem commitFlush_recoverable (start : Start dev J s) (on : OnDisk dev J s.disk [])
    (room : NBPT + 1 ≤ J) (good : ∀ ws ∈ txns, GoodTxn dev J ws) :
    ∃ t log, (txns.forM commitFlush).run s = .ok () t ∧ t.log = s.log ++ log ∧
      superCommits dev log = txns.length ∧
      ∀ k, Recoverable dev J
        (applyWrites (txns.take (superCommits dev (log.take k))).flatten s.disk)
        (applyWrites (log.take k) s.disk) := by
  induction txns generalizing s with
  | nil =>
    refine ⟨s, [], rfl, by simp, rfl, fun k => ?_⟩
    rw [List.take_nil, List.take_nil]
    exact ⟨[], on, fun a _ => rfl⟩
  | cons ws txns ih =>
    have hws := good ws List.mem_cons_self
    obtain ⟨u, record, sup, hrun, hstart, pw, hlog, hdisk⟩ := start.commitFlush hws room
    -- the journal is empty again, so the rest of the run starts as this one did
    have hempty : OnDisk dev J u.disk [] := by
      rw [hdisk, pairLog, applyWrites_append]
      exact pw.committed.emptied
    obtain ⟨t, rest, hrest, hlog', hcount, hrec⟩ :=
      ih hstart hempty fun vs hvs => good vs (List.mem_cons_of_mem _ hvs)
    refine ⟨t, pairLog dev s.disk ws record sup ++ rest, ?_, ?_, ?_, fun k => ?_⟩
    · rw [run_forM_cons, run_bind_of_ok hrun, hrest]
    · rw [hlog', hlog, List.append_assoc]
    · rw [superCommits_append, pw.superCommits_pairLog, hcount, List.length_cons, Nat.add_comm]
    · by_cases hk : k ≤ (pairLog dev s.disk ws record sup).length
      · obtain ⟨hle, hrecoverable⟩ := pw.recoverable_take on hws k
        rw [List.take_append_of_le_length hk]
        generalize (pairLog dev s.disk ws record sup).take k = log at hle hrecoverable ⊢
        have htake : (ws :: txns).take (superCommits dev log) =
            [ws].take (superCommits dev log) := by
          rcases Nat.le_one_iff_eq_zero_or_eq_one.mp hle with h | h <;> simp [h]
        rw [htake]
        exact hrecoverable
      · rw [List.take_append, List.take_of_length_le (not_le.mp hk).le, superCommits_append,
          pw.superCommits_pairLog, applyWrites_append, ← hdisk, Nat.add_comm,
          List.take_succ_cons, List.flatten_cons, applyWrites_append]
        refine (hrec _).congr fun a ha => applyWrites_congr (Or.inr ?_)
        rw [hdisk]
        exact pw.apply_pairLog hws ha

/-- Crash atomicity. Start with an empty journal and run transactions, each as a commit
followed by a flush. If the machine stops after `k` sector writes, `pbjFSck` returns with
the home sectors that have exactly the first `j` transactions applied, where `j` counts
the super block writes of the commits; a stop after `m` writes of that recovery and
another `pbjFSck` give the same. -/
theorem pbjFSck_crash_atomic (start : Start dev J s)
    (empty : JsBlock.tailBlock s.jsb = 3) (room : NBPT + 1 ≤ J) (cache : J + 1 ≤ NBUF)
    (good : ∀ ws ∈ txns, GoodTxn dev J ws) :
    ∃ t log, (txns.forM commitFlush).run s = .ok () t ∧ t.log = s.log ++ log ∧
      superCommits dev log = txns.length ∧
      ∀ k,
        let disk := applyWrites (log.take k) s.disk
        let H := applyWrites (txns.take (superCommits dev (log.take k))).flatten s.disk
        ∃ r, (pbjFSck dev).run (Bio.boot disk) = .ok () r ∧
          (∀ a, IsHome dev J a → r.disk a = H a) ∧
          ∀ m, ∃ r', (pbjFSck dev).run (Bio.boot (applyWrites (r.log.take m) disk)) = .ok () r' ∧
            ∀ a, IsHome dev J a → r'.disk a = H a := by
  have hbase := start.inv.base
  have hsuper : s.disk ⟨dev, 2⟩ = s.jsb := hbase.super
  have on : OnDisk dev J s.disk [] :=
    { size := by rw [hsuper]; exact hbase.size
      head := by rw [hsuper]; exact hbase.head
      holds := trivial
      room := Nat.zero_le J
      last := Or.inr ⟨rfl, by rw [hsuper, empty]⟩
      home := by simp }
  obtain ⟨t, log, hrun, hlog, hcount, hrec⟩ := commitFlush_recoverable start on room good
  have hpos : 0 < J := hbase.bounded.1
  refine ⟨t, log, hrun, hlog, hcount, fun k => ?_⟩
  obtain ⟨r, hr, hhome, hagain⟩ := (hrec k).pbjFSck hpos cache
  refine ⟨r, hr, hhome, fun m => ?_⟩
  obtain ⟨r', hr', hhome', -⟩ := (hagain m).pbjFSck hpos cache
  exact ⟨r', hr', hhome'⟩

/-- Two transactions on the disk `mkfs` makes. -/
theorem pbjFSck_crash_atomic_jinit :
    let txns := [[(⟨1, 300⟩, Block.zero)], [(⟨1, 301⟩, Block.zero), (⟨1, 300⟩, jinit ⟨1, 2⟩)]]
    Start 1 200 (Bio.mounted 1 200 jinit) ∧
    ∃ t log, (txns.forM commitFlush).run (Bio.mounted 1 200 jinit) = .ok () t ∧
      t.log = (Bio.mounted 1 200 jinit).log ++ log ∧ superCommits 1 log = 2 ∧
      ∀ k, ∃ r, (pbjFSck 1).run (Bio.boot (applyWrites (log.take k) jinit)) = .ok () r ∧
        r.disk ⟨1, 300⟩ =
          applyWrites (txns.take (superCommits 1 (log.take k))).flatten jinit ⟨1, 300⟩ := by
  intro txns
  have hgood : ∀ ws ∈ txns, GoodTxn 1 200 ws := by
    intro ws hws
    rcases List.mem_pair.mp hws with rfl | rfl
    · exact ⟨by decide, by decide, by simp [IsHome], by decide⟩
    · exact ⟨by decide, by decide, by simp [IsHome], by decide⟩
  obtain ⟨t, log, hrun, hlog, hcount, hcrash⟩ :=
    pbjFSck_crash_atomic jinit_start (by decide +kernel) (by decide) (by decide) hgood
  refine ⟨jinit_start, t, log, hrun, hlog, hcount, fun k => ?_⟩
  obtain ⟨r, hr, hhome, -⟩ := hcrash k
  exact ⟨r, hr, hhome _ ⟨rfl, by decide, by decide⟩⟩

end Pairs

end Xv6
