/-
# Recovery writes the journal home

`pbjFSck` takes the transactions it has collected home, empties the journal and lets the
buffers go. Stopping it anywhere and starting it again gives the same home sectors, and
when it returns the journal is as fresh as after a first start.
-/

import Xv6.Journal.Recover

namespace Xv6

open Math Bio

section Release

variable {s : Bio}

/-- The last loop of `pbjFSck` clears `B_BUSY` and moves the buffers that were busy to the
front of the list. -/
theorem releaseBlocks_run {bs : List BufId} (nodup : bs.Nodup) :
    (bs.forM fun b => do
      let s ← get
      if (s.bufs b).busy then jbrelse b else pure () : BioM Unit).run s =
    .ok () { s with
      bufs := fun c => if c ∈ bs then { s.bufs c with busy := false } else s.bufs c
      lru := touch s.lru (bs.filter fun b => (s.bufs b).busy) } := by
  induction bs generalizing s with
  | nil => simp
  | cons b bs ih =>
    obtain ⟨hnot, hnodup⟩ := List.nodup_cons.mp nodup
    -- one round, whether or not the buffer was busy
    let lru := if (s.bufs b).busy then b :: s.lru.erase b else s.lru
    let t : Bio := { s.setBuf b { s.bufs b with busy := false } with lru := lru }
    have hone : (do
        let s ← get
        if (s.bufs b).busy then jbrelse b else pure () : BioM Unit).run s = .ok () t := by
      rw [run_get_bind, run_ite]
      by_cases hbusy : (s.bufs b).busy = true
      · rw [if_pos hbusy, jbrelse_busy hbusy]
        simp only [t, lru, hbusy, if_true]
      · rw [if_neg hbusy, EStateM.run_pure]
        congr 1
        apply Bio.ext
        case bufs =>
          funext c
          by_cases hc : c = b
          · subst hc
            simp [t, Bio.setBuf, ← Bool.eq_false_iff.mpr hbusy]
          · simp [t, Bio.setBuf, hc]
        case lru => simp only [t, lru, if_neg hbusy]
        all_goals rfl
    have hfilter : (bs.filter fun c => (t.bufs c).busy) = bs.filter fun c => (s.bufs c).busy := by
      apply List.filter_congr
      intro c hc
      rw [show t.bufs c = s.bufs c from
        setBuf_bufs_of_ne _ _ _ fun h => hnot (h ▸ hc)]
    rw [run_forM_cons, run_bind_of_ok hone, ih hnodup, hfilter]
    congr 1
    apply Bio.ext
    case bufs =>
      funext c
      by_cases hc : c = b
      · subst hc
        simp [t, Bio.setBuf, hnot]
      · by_cases hm : c ∈ bs <;> simp [t, Bio.setBuf, hc, hm]
    case lru =>
      by_cases hbusy : (s.bufs b).busy = true
      · simp [t, lru, hbusy]
      · simp [t, lru, hbusy]
    all_goals rfl

end Release

/-! ### What recovery does -/

/-- The sector writes of `pbjFSck` on a journal that holds some transactions. -/
def recoveryWrites (dev : Nat) (disk : BlockAddr → Block) (txns : List Txn) :
    List (BlockAddr × Block) :=
  if txns = [] then [] else txns.flatten ++ [(⟨dev, 2⟩, JsBlock.reset (disk ⟨dev, 2⟩))]

/-- The state of `pbjFSck` after its flush. -/
structure Replayed (dev J : Nat) (disk : BlockAddr → Block) (ws : List (BlockAddr × Block))
    (s : Bio) : Prop where
  unlocked : s.transWriteLock = false
  untested : s.shouldPanic = 0
  ct : s.ct = MemTrans.empty
  head : s.mtnHead = none
  tail : ∀ n, s.mtnTail = some n → n < s.nextNode
  jtail : s.jtailBnum = 3
  jsblock : s.jsblockBuf = 0
  lru : s.lru.Perm binitLru
  log : s.log = ws
  disk_eq : s.disk = applyWrites ws disk
  super : (s.bufs 0).busy = true ∧ (s.bufs 0).addr = ⟨dev, 2⟩ ∧
    (s.bufs 0).data = s.disk ⟨dev, 2⟩
  first : (s.bufs 1).valid = true ∧ (s.bufs 1).addr = ⟨dev, 3⟩
  others : ∀ b : Nat, J < b → s.bufs b = Buf.unused

section Replay

variable {dev J : Nat} {disk : BlockAddr → Block} {s : Bio} {txns : List Txn}

private theorem path_range' {n : Nat} (next : ∀ i < n, (s.nodes i).next =
    if i + 1 < n then some (i + 1) else none) (k i : Nat) (sum : i + k = n) :
    Path s.nodes none (if i < n then some i else none) (List.range' i k) := by
  induction k generalizing i with
  | zero =>
    rw [if_neg (by omega)]
    rfl
  | succ k ih =>
    have hi : i < n := by omega
    rw [if_pos hi, List.range'_succ]
    refine ⟨rfl, by simp, ?_⟩
    rw [next i hi]
    exact ih (i + 1) (by omega)

theorem Scanning.flushable (sc : Scanning dev disk J s txns) (room : span txns ≤ J) :
    s.Flushable (s.waiting (List.range txns.length)) := by
  have hread : ∀ b ∈ s.waiting (List.range txns.length),
      ∃ dirty sector, s.bufs b = readBuf dev disk b dirty sector := fun b hb =>
    sc.read b ((sc.waits b hb).2.1.trans room)
  refine ⟨sc.nodup, fun b hb => ?_, fun b hb => (sc.waits b hb).2.2, fun b hb => ?_⟩
  · obtain ⟨dirty, sector, hbuf⟩ := hread b hb
    rw [hbuf]
    rfl
  · obtain ⟨dirty, sector, hbuf⟩ := hread b hb
    rw [hbuf]
    rfl

/-- The flush of `pbjFSck` goes through all collected transactions. -/
theorem Scanning.flush_run (sc : Scanning dev disk J s txns) (room : span txns ≤ J)
    (some_txns : txns ≠ []) :
    jfullFlush.run s = .ok () (s.flushedTo (List.range txns.length) none) := by
  have hunlocked : s.transWriteLock = false := congrArg Bio.transWriteLock sc.frame
  have hlen := List.length_pos_iff.mpr some_txns
  have htail : s.mtnTail = some (txns.length - 1) := by rw [sc.tail, if_neg some_txns]
  have hstop : (s.nodes (txns.length - 1)).next = none := by
    rw [sc.next _ (by omega), if_neg (by omega)]
  have hpath : Path s.nodes (s.nodes (txns.length - 1)).next s.mtnHead
      (List.range txns.length) := by
    have hrange := path_range' sc.next txns.length 0 (Nat.zero_add _)
    rw [if_pos hlen, ← List.range_eq_range'] at hrange
    rw [hstop, sc.head, if_neg some_txns]
    exact hrange
  have hrun := jfullFlush_path hunlocked (by rw [sc.head, if_neg some_txns]; simp) htail hpath
    (by rw [List.length_range, sc.nextNode]; omega) (sc.flushable room)
  rw [hstop] at hrun
  exact hrun

/-- The super block is not among the buffers to be written home. -/
theorem Scanning.jsblock_notMem (sc : Scanning dev disk J s txns) :
    s.jsblockBuf ∉ s.waiting (List.range txns.length) := by
  intro hmem
  have hzero : s.jsblockBuf = 0 := congrArg Bio.jsblockBuf sc.frame
  have := (sc.waits _ hmem).1
  rw [hzero] at this
  omega

/-- The flush of `pbjFSck` writes all collected transactions home and empties the
journal. -/
theorem Scanning.replay (sc : Scanning dev disk J s txns) (pos : 0 < J) (cache : J + 1 ≤ NBUF)
    (room : span txns ≤ J) :
    ∃ t, jfullFlush.run s = .ok () t ∧ Replayed dev J disk (recoveryWrites dev disk txns) t := by
  have hlru : s.lru = binitLru := congrArg Bio.lru sc.frame
  have hlog : s.log = [] := congrArg Bio.log sc.frame
  have hdisk : s.disk = disk := congrArg Bio.disk sc.frame
  have hzero : s.jsblockBuf = 0 := congrArg Bio.jsblockBuf sc.frame
  have hunlocked : s.transWriteLock = false := congrArg Bio.transWriteLock sc.frame
  have huntested : s.shouldPanic = 0 := congrArg Bio.shouldPanic sc.frame
  have hct : s.ct = MemTrans.empty := congrArg Bio.ct sc.frame
  have hjtail : s.jtailBnum = 3 := congrArg Bio.jtailBnum sc.frame
  have hbuf0 := sc.fresh 0 (Nat.zero_le J) (by omega)
  have hbuf1 := sc.fresh 1 pos (by omega)
  by_cases hnil : txns = []
  · subst hnil
    refine ⟨s, jfullFlush_idle sc.head, ?_⟩
    exact
      { unlocked := hunlocked, untested := huntested, ct := hct, head := sc.head
        tail := fun n hn => by rw [sc.tail] at hn; cases hn
        jtail := hjtail, jsblock := hzero, lru := hlru ▸ List.Perm.refl _, log := hlog
        disk_eq := hdisk
        super := by
          rw [hbuf0, hdisk]
          exact ⟨rfl, rfl, rfl⟩
        first := by
          rw [hbuf1]
          exact ⟨rfl, rfl⟩
        others := sc.others }
  · have hout := sc.jsblock_notMem
    have hpairs : s.pairs ⟨s.waiting (List.range txns.length)⟩ = txns.flatten := by
      have := congrArg List.flatten sc.txns_eq
      rw [← this]
      simp [Bio.pairs, waiting, List.flatMap_def, Function.comp_def]
    have hwrites : s.flushWrites (List.range txns.length) = recoveryWrites dev disk txns := by
      rw [flushWrites, hpairs, recoveryWrites, if_neg hnil, hzero, sc.jsb_eq, hbuf0]
      rfl
    have hdisk' : (s.flushedTo (List.range txns.length) none).disk =
        applyWrites (recoveryWrites dev disk txns) disk := by
      rw [flushedTo_disk hout, hwrites, hdisk]
    refine ⟨_, sc.flush_run room hnil, ?_⟩
    exact
      { unlocked := hunlocked, untested := huntested, ct := hct, head := rfl
        tail := fun n hn => by
          have hn' : s.mtnTail = some n := hn
          rw [sc.tail, if_neg hnil] at hn'
          cases hn'
          have hlen := List.length_pos_iff.mpr hnil
          change txns.length - 1 < s.nextNode
          rw [sc.nextNode]
          omega
        jtail := rfl, jsblock := hzero
        lru := by
          change (touch s.lru (s.waiting _)).Perm _
          rw [hlru]
          apply touch_perm
          intro b hb
          have := (sc.waits b hb).2.1
          rw [binitLru_eq, List.mem_reverse, List.mem_range]
          exact lt_of_le_of_lt (this.trans room) cache
        log := by rw [flushedTo_log hout, hlog, hwrites, List.nil_append]
        disk_eq := hdisk'
        super := by
          have hsuper := flushedTo_bufs_jsb none hout
          rw [hzero] at hsuper
          rw [hsuper, hbuf0, sc.jsb_eq, hdisk', recoveryWrites, if_neg hnil, applyWrites_append]
          refine ⟨rfl, rfl, ?_⟩
          rw [applyWrites_cons, applyWrites_nil, Function.update_self]
        first := by
          rw [flushedTo_bufs_of_notMem (by rw [hzero]; decide)
            fun hmem => absurd (sc.waits 1 hmem).1 (by decide), hbuf1]
          exact ⟨rfl, rfl⟩
        others := fun b hb => by
          rw [flushedTo_bufs_of_notMem (by rw [hzero]; exact Nat.ne_of_gt (Nat.zero_lt_of_lt hb))
            fun hmem => absurd ((sc.waits b hmem).2.1.trans room) (Nat.not_le.mpr hb)]
          exact sc.others b hb }

/-- No buffer is dirty after the flush. -/
theorem Scanning.replay_clean {t : Bio} (sc : Scanning dev disk J s txns) (room : span txns ≤ J)
    (only : OnlyWaitingDirty s txns.length) (flush : jfullFlush.run s = .ok () t) (b : BufId) :
    (t.bufs b).dirty = false := by
  have hclean : b ∉ s.waiting (List.range txns.length) → (s.bufs b).dirty = false := fun hb =>
    Bool.eq_false_iff.mpr fun hdirty => hb (only b hdirty)
  by_cases hnil : txns = []
  · subst hnil
    rw [jfullFlush_idle sc.head] at flush
    cases flush
    exact hclean (by simp [waiting])
  · rw [sc.flush_run room hnil] at flush
    cases flush
    by_cases hjsb : b = s.jsblockBuf
    · subst hjsb
      rw [flushedTo_bufs_jsb none sc.jsblock_notMem]
    · by_cases hb : b ∈ s.waiting (List.range txns.length)
      · rw [flushedTo_bufs_of_mem hjsb hb]
      · rw [flushedTo_bufs_of_notMem hjsb hb]
        exact hclean hb

/-- The end of `pbjFSck`: the journal buffers are released and one of them becomes the
header buffer. -/
theorem Replayed.finish {ws : List (BlockAddr × Block)} (re : Replayed dev J disk ws s)
    (pos : 0 < J) (cache : J + 1 ≤ NBUF)
    (size : JsBlock.size (s.disk ⟨dev, 2⟩) = J) (head : JsBlock.headBlock (s.disk ⟨dev, 2⟩) = 3) :
    ∃ t, (do
        (journalBufs J).forM fun b => do
          let s ← get
          if (s.bufs b).busy then jbrelse b else pure ()
        let h ← bread ⟨dev, 3⟩
        modify fun s => { s with jtransHeaderBuf := h } : BioM Unit).run s = .ok () t ∧
      t.log = ws ∧ t.disk = applyWrites ws disk ∧ Start dev J t ∧
      ∀ b, (t.bufs b).dirty = (s.bufs b).dirty := by
  have hmem : ∀ b : Nat, b < NBUF → b ∈ s.lru := fun b hb => by
    rw [re.lru.mem_iff, binitLru_eq, List.mem_reverse, List.mem_range]
    exact hb
  have hjournal : ∀ b : Nat, b ∈ journalBufs J ↔ 1 ≤ b ∧ b ≤ J := fun b => by
    rw [journalBufs, List.mem_range'_1]
    omega
  have hrelease := releaseBlocks_run (s := s) (show (journalBufs J).Nodup from List.nodup_range')
  have hperm : (touch s.lru ((journalBufs J).filter fun b => (s.bufs b).busy)).Perm s.lru :=
    touch_perm fun b hb => hmem b (by
      have := (hjournal b).mp (List.mem_filter.mp hb).1
      omega)
  generalize touch s.lru _ = lru at hrelease hperm
  let u : Bio := { s with
    bufs := fun c => if c ∈ journalBufs J then { s.bufs c with busy := false } else s.bufs c
    lru := lru }
  have hu0 : u.bufs 0 = s.bufs 0 := if_neg fun h => by
    have := (hjournal 0).mp h
    omega
  have hu1 : u.bufs 1 = { s.bufs 1 with busy := false } :=
    if_pos ((hjournal 1).mpr ⟨le_refl 1, pos⟩)
  have hbusy : ∀ c : Nat, (u.bufs c).busy = true → c = 0 := by
    intro c hc
    by_contra hne
    by_cases hin : c ∈ journalBufs J
    · rw [show u.bufs c = { s.bufs c with busy := false } from if_pos hin] at hc
      cases hc
    · rw [show u.bufs c = s.bufs c from if_neg hin, re.others c (by
        have := mt (hjournal c).mpr hin
        omega)] at hc
      cases hc
  -- block 0 of the journal is in the cache, so `bread` finds a buffer for it
  obtain ⟨c, hc⟩ : ∃ c, u.cached ⟨dev, 3⟩ = some c := by
    by_contra hnone
    have hnone' : u.cached ⟨dev, 3⟩ = none := Option.eq_none_iff_forall_ne_some.mpr
      fun c hc => hnone ⟨c, hc⟩
    refine Bio.cached_none_iff.mp hnone' 1 (hperm.mem_iff.mpr (hmem 1 (by omega))) ?_ ?_
    · rw [hu1]
      simp [Buf.live, re.first.1]
    · rw [hu1]
      exact re.first.2
  obtain ⟨-, -, haddr⟩ := Bio.cached_some hc
  have hc0 : c ≠ 0 := by
    rintro rfl
    rw [hu0, re.super.2.1] at haddr
    exact absurd (BlockAddr.mk.inj haddr).2 (by decide)
  have hfree : (u.bufs c).busy = false := by
    cases hb : (u.bufs c).busy with
    | false => rfl
    | true => exact absurd (hbusy c hb) hc0
  have hread := bread_hit hc hfree
  let t : Bio := { u.setBuf c { u.bufs c with busy := true } with jtransHeaderBuf := c }
  have ht0 : t.bufs 0 = s.bufs 0 := (Function.update_of_ne hc0.symm ..).trans hu0
  have htc : t.bufs c = { u.bufs c with busy := true } := Function.update_self ..
  have hjsb : t.jsblockBuf = 0 := re.jsblock
  have hdata : t.jsb = s.disk ⟨dev, 2⟩ := by
    rw [Bio.jsb, hjsb, ht0]
    exact re.super.2.2
  have hdirty : ∀ b, (u.bufs b).dirty = (s.bufs b).dirty := by
    intro b
    change (if b ∈ journalBufs J then { s.bufs b with busy := false } else s.bufs b).dirty = _
    split <;> rfl
  refine ⟨t, ?_, re.log, re.disk_eq, ⟨?_, hperm.trans re.lru, ?_⟩, fun b => ?_⟩
  · rw [run_bind_of_ok hrelease, run_bind_of_ok hread]
    rfl
  · exact
      { base :=
          { unlocked := re.unlocked
            separate := by rw [hjsb]; exact hc0
            jsb_busy := by rw [hjsb, ht0]; exact re.super.1
            jsb_addr := by rw [hjsb, ht0]; exact re.super.2.1
            header_busy := congrArg Buf.busy htc
            header_addr := (congrArg Buf.addr htc).trans haddr
            size := by rw [hdata, size]
            head := by rw [hdata, head]
            super := hdata.symm
            untested := re.untested
            bounded := ⟨pos, by unfold NBUF at cache; omega⟩ }
        ct := re.ct
        shape := Shape.idle re.head
        known := by simp
        tail_known := re.tail
        jtail := re.jtail.ge
        jtail_idle := fun _ => re.jtail
        ready := ⟨List.nodup_nil, by simp [waiting], by simp [waiting], by simp [waiting]⟩
        home := by simp [waiting] }
  · intro b hb
    rw [hjsb]
    by_cases hbc : b = c
    · exact Or.inr hbc
    · left
      rw [show t.bufs b = u.bufs b from Function.update_of_ne hbc ..] at hb
      exact hbusy b hb
  · by_cases hbc : b = c
    · subst hbc
      rw [htc]
      exact hdirty b
    · rw [show t.bufs b = u.bufs b from Function.update_of_ne hbc ..]
      exact hdirty b

/-- The journal after recovery is empty. -/
theorem recoveryWrites_super (txns : List Txn) (head : JsBlock.headBlock (disk ⟨dev, 2⟩) = 3) :
    let sb := applyWrites (recoveryWrites dev disk txns) disk ⟨dev, 2⟩
    JsBlock.size sb = JsBlock.size (disk ⟨dev, 2⟩) ∧ JsBlock.headBlock sb = 3 ∧
      (txns ≠ [] → JsBlock.tailBlock sb = 3) := by
  unfold recoveryWrites
  split
  next hnil => exact ⟨rfl, head, fun h => absurd hnil h⟩
  next =>
    rw [applyWrites_append, applyWrites_cons, applyWrites_nil, Function.update_self]
    exact ⟨JsBlock.size_reset .., JsBlock.headBlock_reset .., fun _ => JsBlock.tailBlock_reset ..⟩

/-- `pbjFSck` on a started machine whose journal ends with the last of some transactions:
it returns, its sector writes are the recorded transactions and the emptied super block,
and no buffer is left dirty. -/
theorem pbjFSck_complete (size : JsBlock.size (disk ⟨dev, 2⟩) = J)
    (head : JsBlock.headBlock (disk ⟨dev, 2⟩) = 3) (holds : Holds dev disk 3 txns)
    (room : span txns ≤ J)
    (last : JsBlock.tailBlock (disk ⟨dev, 2⟩) + 1 = 3 + span txns ∨
      (txns = [] ∧ JsBlock.tailBlock (disk ⟨dev, 2⟩) ≤ 3))
    (pos : 0 < J) (cache : J + 1 ≤ NBUF) :
    ∃ t, (pbjFSck dev).run (Bio.boot disk) = .ok () t ∧
      t.log = recoveryWrites dev disk txns ∧
      t.disk = applyWrites (recoveryWrites dev disk txns) disk ∧ Start dev J t ∧
      ∀ b, (t.bufs b).dirty = false := by
  obtain ⟨u, hcollect, hsc, honly⟩ := collectJournal_run head holds room last
  obtain ⟨v, hflush, hre⟩ := hsc.replay pos cache room
  have hclean := hsc.replay_clean room honly hflush
  obtain ⟨hsize, hhead, -⟩ := recoveryWrites_super txns head
  rw [← hre.disk_eq] at hsize hhead
  obtain ⟨t, hfinish, hlog, hdisk, hstart, hdirty⟩ :=
    hre.finish pos cache (hsize.trans size) hhead
  refine ⟨t, ?_, hlog, hdisk, hstart, fun b => (hdirty b).trans (hclean b)⟩
  rw [pbjFSck, run_bind_of_ok (readJournal_run size cache), run_bind_of_ok hcollect]
  simp only [if_true]
  rw [run_bind_of_ok hflush, hfinish]

end Replay

/-- A disk whose journal holds some transactions. -/
structure OnDisk (dev J : Nat) (disk : BlockAddr → Block) (txns : List Txn) : Prop where
  size : JsBlock.size (disk ⟨dev, 2⟩) = J
  head : JsBlock.headBlock (disk ⟨dev, 2⟩) = 3
  holds : Holds dev disk 3 txns
  room : span txns ≤ J
  last : JsBlock.tailBlock (disk ⟨dev, 2⟩) + 1 = 3 + span txns ∨
    (txns = [] ∧ JsBlock.tailBlock (disk ⟨dev, 2⟩) ≤ 3)
  home : ∀ w ∈ txns.flatten, IsHome dev J w.1

/-- A disk from which recovery makes the home sectors `H`. -/
def Recoverable (dev J : Nat) (H : BlockAddr → Block) (disk : BlockAddr → Block) : Prop :=
  ∃ txns, OnDisk dev J disk txns ∧ ∀ a, IsHome dev J a → applyWrites txns.flatten disk a = H a

section Recovery

variable {dev J : Nat} {disk disk' H : BlockAddr → Block} {txns : List Txn}

/-- The journal after recovery holds no transaction. -/
theorem OnDisk.emptied (on : OnDisk dev J disk txns) :
    OnDisk dev J (applyWrites (recoveryWrites dev disk txns) disk) [] := by
  obtain ⟨hsize, hhead, htail⟩ := recoveryWrites_super txns on.head
  by_cases hnil : txns = []
  · subst hnil
    exact on
  · exact ⟨hsize.trans on.size, hhead, trivial, Nat.zero_le J, Or.inr ⟨rfl, (htail hnil).le⟩,
      by simp⟩

/-- `pbjFSck` on a started machine returns, and its sector writes are the recorded
transactions and the emptied super block. -/
theorem pbjFSck_run (on : OnDisk dev J disk txns) (pos : 0 < J) (cache : J + 1 ≤ NBUF) :
    ∃ t, (pbjFSck dev).run (Bio.boot disk) = .ok () t ∧
      t.log = recoveryWrites dev disk txns ∧
      t.disk = applyWrites (recoveryWrites dev disk txns) disk ∧ Start dev J t := by
  obtain ⟨t, hrun, hlog, hdisk, hstart, -⟩ :=
    pbjFSck_complete on.size on.head on.holds on.room on.last pos cache
  exact ⟨t, hrun, hlog, hdisk, hstart⟩

/-- Writes outside the journal leave the journal as it is. -/
theorem OnDisk.congr (on : OnDisk dev J disk txns)
    (same : ∀ j, 2 ≤ j → j ≤ J + 2 → disk' ⟨dev, j⟩ = disk ⟨dev, j⟩) :
    OnDisk dev J disk' txns := by
  have hroom := on.room
  have hsuper := same 2 (le_refl 2) (by omega)
  exact
    { size := by rw [hsuper]; exact on.size
      head := by rw [hsuper]; exact on.head
      holds := on.holds.congr fun j hlow hhigh => same j (by omega) (by omega)
      room := on.room
      last := by rw [hsuper]; exact on.last
      home := on.home }

/-- Emptying the super block does not change home sectors. -/
theorem applyWrites_recoveryWrites {a : BlockAddr} (ha : IsHome dev J a) :
    applyWrites (recoveryWrites dev disk txns) disk a = applyWrites txns.flatten disk a := by
  unfold recoveryWrites
  split
  next hnil => rw [hnil, List.flatten_nil]
  next =>
    rw [applyWrites_append, applyWrites_cons, applyWrites_nil,
      Function.update_of_ne (ha.sector_ne ⟨le_refl 2, by omega⟩)]

/-- Recovery can be interrupted anywhere and started again. -/
theorem OnDisk.recoverable_take (on : OnDisk dev J disk txns)
    (home : ∀ a, IsHome dev J a → applyWrites txns.flatten disk a = H a) (k : Nat) :
    Recoverable dev J H (applyWrites ((recoveryWrites dev disk txns).take k) disk) := by
  by_cases hnil : txns = []
  · have hempty : recoveryWrites dev disk txns = [] := if_pos hnil
    rw [hempty, List.take_nil]
    exact ⟨txns, on, home⟩
  · by_cases hk : k ≤ txns.flatten.length
    · -- some of the home writes are made: they will be made again
      have hwrites : (recoveryWrites dev disk txns).take k = txns.flatten.take k := by
        rw [recoveryWrites, if_neg hnil, List.take_append_of_le_length hk]
      rw [hwrites]
      refine ⟨txns, on.congr fun j hlow hhigh => ?_, fun a ha => ?_⟩
      · exact applyWrites_of_notMem (fun w hw =>
          (on.home w (List.mem_of_mem_take hw)).sector_ne ⟨hlow, hhigh⟩) disk
      · rw [applyWrites_redo]
        exact home a ha
    · have hwrites : (recoveryWrites dev disk txns).take k = recoveryWrites dev disk txns := by
        apply List.take_of_length_le
        rw [recoveryWrites, if_neg hnil, List.length_append, List.length_singleton]
        omega
      rw [hwrites]
      refine ⟨[], on.emptied, fun a ha => ?_⟩
      exact (applyWrites_recoveryWrites ha).trans (home a ha)

/-- Recovery makes the home sectors what they should be, and remains able to do so
if it is interrupted. -/
theorem Recoverable.pbjFSck (rec : Recoverable dev J H disk) (pos : 0 < J)
    (cache : J + 1 ≤ NBUF) :
    ∃ t, (Xv6.pbjFSck dev).run (Bio.boot disk) = .ok () t ∧
      (∀ a, IsHome dev J a → t.disk a = H a) ∧
      ∀ k, Recoverable dev J H (applyWrites (t.log.take k) disk) := by
  obtain ⟨txns, on, home⟩ := rec
  obtain ⟨t, hrun, hlog, hdisk, -⟩ := pbjFSck_run on pos cache
  refine ⟨t, hrun, fun a ha => ?_, fun k => ?_⟩
  · rw [hdisk, applyWrites_recoveryWrites ha]
    exact home a ha
  · rw [hlog]
    exact on.recoverable_take home k

end Recovery

end Xv6
