/-
# The journal region and its lock

`jbwrite` tests for a full journal after it has written, and leaves the reset of
`jtail_bnum` to `jfull_flush`, which does nothing when no transaction is pending and
spins on the lock of `end_trans` when one is. This file says exactly when a commit
leaves the journal region and when it spins.
-/

import Xv6.Journal.Pending

namespace Xv6

open Math Bio

/-! ### The lock -/

section Lock

variable {s : Bio}

/-- `end_trans` does not try to take the lock it holds exactly when it has nothing to
commit, nothing else is pending, or the record does not fill the journal. -/
theorem endTrans_not_spin_iff (ready : CommitReady s) :
    (∀ s', endTrans.run s ≠ .error .spin s') ↔
      s.ct.size = 0 ∨ s.mtnHead = none ∨ s.jtailBnum + s.ct.size + 1 ≤ JsBlock.size s.jsb + 2 := by
  rcases Nat.eq_zero_or_pos s.ct.size with empty | nonempty
  · simp [endTrans_empty empty, empty]
  · by_cases room : s.Room (s.ct.size + 1)
    · rw [endTrans_room ready nonempty room]
      exact iff_of_true (fun _ h => by cases h) (Or.inr room)
    · obtain ⟨s', hs', -⟩ := endTrans_full ready nonempty room
      constructor
      · exact fun never => absurd hs' (never s')
      · rintro (h | h)
        · exact absurd h nonempty.ne'
        · exact absurd h room

end Lock

/-! ### The region -/

/-- A journal sector. -/
def InRegion (J k : Nat) : Prop := 3 ≤ k ∧ k ≤ J + 2

section Region

variable {dev J : Nat} {s t : Bio}

private theorem forall_mem_range' {J k n : Nat} (low : 3 ≤ k) (pos : 0 < n) :
    (∀ j ∈ List.range' k n, InRegion J j) ↔ k + n ≤ J + 3 := by
  simp only [List.mem_range'_1, InRegion]
  constructor
  · intro h
    have := h (k + n - 1) ⟨by omega, by omega⟩
    omega
  · intro h j hj
    omega

/-- One `end_trans` stays in the journal region exactly when it starts inside it and
either something is pending or the whole record fits. -/
theorem endTrans_inRegion_iff (ready : CommitReady s) (size : JsBlock.size s.jsb = J)
    (low : 3 ≤ s.jtailBnum) (before : ∀ k ∈ s.jwrites, InRegion J k) (nonempty : 0 < s.ct.size) :
    (∀ k ∈ (endState (endTrans.run s)).jwrites, InRegion J k) ↔
      s.jtailBnum ≤ J + 2 ∧ (s.mtnHead ≠ none ∨ s.jtailBnum + s.ct.size ≤ J + 2) := by
  by_cases room : s.Room (s.ct.size + 1)
  · rw [endTrans_room ready nonempty room, endState_ok]
    change (∀ k ∈ s.jwrites ++ List.range' s.jtailBnum (s.ct.size + 1), InRegion J k) ↔ _
    rw [List.forall_mem_append, forall_mem_range' low (by omega), and_iff_right before]
    unfold Room at room
    rw [size] at room
    by_cases idle : s.mtnHead = none
    · simp only [idle, ne_eq, not_true_eq_false, false_or]
      omega
    · have := room.resolve_left idle
      simp only [idle, ne_eq, not_false_eq_true, true_or, and_true]
      omega
  · obtain ⟨s', hrun, hwrites⟩ := endTrans_full ready nonempty room
    rw [hrun, endState_error, hwrites, size, List.forall_mem_append,
      forall_mem_range' low (by omega), and_iff_right before]
    unfold Room at room
    rw [not_or] at room
    simp only [room.1, ne_eq, not_false_eq_true, true_or, and_true]
    omega

end Region

/-- The calls that keep to the region: a transaction starts inside it, and fits
unless something is pending. -/
def Call.Fits (dev J : Nat) (s : Bio) : Call → Prop
  | .trans ws =>
    (∀ w ∈ ws, IsHome dev J w.1) ∧
      (ws ≠ [] → s.jtailBnum ≤ J + 2 ∧ (s.mtnHead ≠ none ∨ s.jtailBnum + ws.length ≤ J + 2))
  | .flush => True

instance (dev J : Nat) (s : Bio) (c : Call) : Decidable (c.Fits dev J s) :=
  match c with
  | .trans ws => inferInstanceAs (Decidable ((∀ w ∈ ws, IsHome dev J w.1) ∧
      (ws ≠ [] → s.jtailBnum ≤ J + 2 ∧ (s.mtnHead ≠ none ∨ s.jtailBnum + ws.length ≤ J + 2))))
  | .flush => inferInstanceAs (Decidable True)

/-- A fitting call that returns. -/
def FitStep (dev J : Nat) (c : Call) (s t : Bio) : Prop :=
  c.Fits dev J s ∧ c.run.run s = .ok () t

section Stopped

/-- Filling a transaction, even when it stops, writes nothing to the journal. -/
theorem putBlock_keeps_jwrites (w : BlockAddr × Block) : Keeps Bio.jwrites (putBlock w) := by
  intro s
  cases hput : (putBlock w).run s with
  | ok a t =>
    obtain ⟨b, buf, -, -, -, -, -, -, -, rfl⟩ := putBlock_eq_ok hput
    rfl
  | error e t =>
    rw [putBlock_eq_error hput]
    rfl

/-- A flush writes nothing to the journal proper. -/
theorem jfullFlush_keeps_jwrites : Keeps Bio.jwrites jfullFlush := by
  have hacquire : Keeps Bio.jwrites acquireSl := by
    refine Keeps.get.bind fun _ => (Keeps.throw _).ite (Keeps.modify ?_)
    exact fun _ => rfl
  have hsuper := (writeJsblock_keeps_frame JsBlock.reset).comp Bio.jwrites
  refine Keeps.get.bind fun s => (Keeps.pure ()).ite <| hacquire.bind fun _ => ?_
  cases s.mtnTail with
  | none => exact Keeps.throw _
  | some tail =>
    refine ((flushNodes_keeps_frame _ _ _).comp Bio.jwrites).bind fun _ => hsuper.bind fun _ =>
      Keeps.bind (Keeps.modify ?_) fun _ => Keeps.modify ?_
    · exact fun _ => rfl
    · exact fun _ => rfl

variable {dev J : Nat} {s t : Bio} {st : Bool} {ns : List NodeId}

/-- A flush that finds the head overtaken by a commit runs into a null pointer. -/
theorem jfullFlush_overtaken {h tail m : NodeId} (inv : Inv dev J s true [h])
    (tail_eq : s.mtnTail = some tail) (next : (s.nodes tail).next = some m) (dirty : h ≠ m) :
    ∃ t, jfullFlush.run s = .error .fault t := by
  let locked : Bio := { s with transWriteLock := true }
  have hacq : acquireSl.run s = .ok () locked := by simp [acquireSl, inv.base.unlocked, locked]
  have hhead : s.mtnHead = some h ∧ (s.nodes h).next = none := by
    cases hshape : inv.shape with
    | stale head _ _ _ last => exact ⟨head, last⟩
  have hready : locked.Flushable (s.nodes h).trans.bufs := by
    have := inv.ready
    simp only [waiting, List.flatMap_cons, List.flatMap_nil, List.append_nil] at this
    exact ⟨this.nodup, this.busy, this.dirty, this.sound⟩
  have hloop : (flushNodes (some m) (s.nextNode + 2) (some h)).run locked =
      .error .fault (locked.flushed (s.nodes h).trans.bufs) := by
    unfold flushNodes
    rw [if_neg (by simpa using dirty)]
    simp only [run_get_bind]
    rw [run_bind_of_ok (flushBufs_run hready)]
    change (flushNodes (some m) (s.nextNode + 1) (s.nodes h).next).run _ = _
    rw [hhead.2]
    unfold flushNodes
    rw [if_neg (by simp)]
    rfl
  simp only [jfullFlush, run_get_bind]
  rw [if_neg (by simp [hhead.1]), run_bind_of_ok hacq, tail_eq]
  simp only [next, hhead.1]
  exact ⟨_, run_bind_of_error hloop⟩

/-- Calls that return keep the invariant, whatever the size of the transaction. -/
theorem Inv.step {c : Call} (inv : Inv dev J s st ns)
    (home : ∀ ws, c = .trans ws → ∀ w ∈ ws, IsHome dev J w.1) (run : c.run.run s = .ok () t) :
    ∃ st' ns', Inv dev J t st' ns' := by
  cases c with
  | trans ws =>
    by_cases nonempty : ws = []
    · subst nonempty
      have hempty : (Call.trans []).run.run s = endTrans.run s := rfl
      rw [hempty, endTrans_empty (by rw [inv.ct]; rfl)] at run
      obtain rfl := (EStateM.Result.ok.inj run).2
      exact ⟨_, _, inv⟩
    · obtain ⟨u, bs, fills, ct, -, rfl⟩ := inv.trans_eq_ok (home ws rfl) nonempty run
      exact ⟨_, _, inv.commit fills ct (home ws rfl)⟩
  | flush =>
    cases hshape : inv.shape with
    | idle head =>
      rw [Call.run, jfullFlush_idle head] at run
      obtain rfl := (EStateM.Result.ok.inj run).2
      exact ⟨_, _, inv⟩
    | one | two =>
      obtain ⟨hrun, hinv⟩ := inv.flush
      rw [Call.run, hrun] at run
      obtain rfl := (EStateM.Result.ok.inj run).2
      exact ⟨_, _, hinv⟩
    | @stale h tail m head htail hne next last =>
      by_cases clean : h = m
      · subst clean
        obtain ⟨hrun, hinv⟩ := inv.flush_stale htail next
        rw [Call.run, hrun] at run
        obtain rfl := (EStateM.Result.ok.inj run).2
        exact ⟨_, _, hinv⟩
      · obtain ⟨u, hrun⟩ := jfullFlush_overtaken inv htail next clean
        rw [Call.run, hrun] at run
        cases run

end Stopped

section Runs

variable {dev J : Nat} {s₀ s : Bio} {cs : List Call}

/-- One call that keeps to the region writes only there, however it ends. -/
theorem Inv.jwrites_step {st : Bool} {ns : List NodeId} {c : Call} (inv : Inv dev J s st ns)
    (fits : c.Fits dev J s) (before : ∀ k ∈ s.jwrites, InRegion J k) :
    ∀ k ∈ (endState (c.run.run s)).jwrites, InRegion J k := by
  cases c with
  | flush =>
    rw [Call.run, jfullFlush_keeps_jwrites]
    exact before
  | trans ws =>
    have hfill := Keeps.forM putBlock_keeps_jwrites ws s
    cases hrun : (ws.forM putBlock).run s with
    | error e t =>
      rw [hrun] at hfill
      rw [Call.run, run_bind_of_error hrun, hfill]
      exact before
    | ok a u =>
      rw [hrun] at hfill
      rw [Call.run, run_bind_of_ok hrun]
      obtain ⟨bs, fills⟩ := fill_eq_ok hrun
      have hct := inv.ct_bufs fills
      have hsize : u.ct.size = ws.length := by
        rw [hct]
        exact fills.length
      have hbefore : ∀ k ∈ u.jwrites, InRegion J k := by
        change ∀ k ∈ (endState (EStateM.Result.ok a u : EStateM.Result Stop Bio Unit)).jwrites, _
        rw [hfill]
        exact before
      by_cases nonempty : ws = []
      · rw [endTrans_empty (by rw [hsize, nonempty]; rfl)]
        exact hbefore
      · have hjtail : u.jtailBnum = s.jtailBnum := by rw [fills.filled.same]
        have hhead : u.mtnHead = s.mtnHead := by rw [fills.filled.same]
        rw [endTrans_inRegion_iff (inv.commitReady fills fits.1) (fills.base inv.base).size
          (by rw [hjtail]; exact inv.jtail) hbefore
          (by rw [hsize]; exact List.length_pos_iff.mpr nonempty), hjtail, hhead, hsize]
        exact fits.2 nonempty

/-- In every run whose commits start inside the journal region and, when nothing is
pending, fit in it, all journal writes stay in the region; so do those of a further
such call, even if it does not return. -/
theorem journal_writes_inRegion (start : Start dev J s₀)
    (before : ∀ k ∈ s₀.jwrites, InRegion J k) (run : Run (FitStep dev J) s₀ cs s) {c : Call}
    (fits : c.Fits dev J s) :
    (∀ k ∈ s.jwrites, InRegion J k) ∧
      ∀ k ∈ (endState (c.run.run s)).jwrites, InRegion J k := by
  obtain ⟨⟨st, ns, inv⟩, inside⟩ :
      (∃ st ns, Inv dev J s st ns) ∧ ∀ k ∈ s.jwrites, InRegion J k := by
    refine Run.invariant
      (motive := fun _ s => (∃ st ns, Inv dev J s st ns) ∧ ∀ k ∈ s.jwrites, InRegion J k)
      ⟨⟨_, _, start.inv⟩, before⟩ ?_ run
    rintro cs c s t ⟨⟨st, ns, inv⟩, inside⟩ ⟨fits, hrun⟩
    refine ⟨inv.step ?_ hrun, ?_⟩
    · rintro ws rfl
      exact fits.1
    · have := inv.jwrites_step fits inside
      rwa [hrun] at this
  exact ⟨inside, inv.jwrites_step fits inside⟩

/-- Two commits behind each other. -/
theorem journal_writes_inRegion_example :
    let s := runCalls [oneBlock 300] (Bio.mounted 1 200 jinit)
    s.jwrites = [3, 4] ∧
      ∀ k ∈ (endState ((oneBlock 301).run.run s)).jwrites, InRegion 200 k := by
  intro s
  have hrun : Run (FitStep 1 200) (Bio.mounted 1 200 jinit) [oneBlock 300] s :=
    run_of_replays (fun c s => decide (c.Fits 1 200 s))
      (fun c s t h hok => ⟨of_decide_eq_true h, hok⟩) (by decide +kernel)
  have hfits : (oneBlock 301).Fits 1 200 s := by decide +kernel
  have hbefore : ∀ k ∈ (Bio.mounted 1 200 jinit).jwrites, InRegion 200 k := fun k hk => by cases hk
  exact ⟨by decide +kernel, (journal_writes_inRegion jinit_start hbefore hrun hfits).2⟩

end Runs

/-! ### Filling the journal without a flush -/

/-- Blocks for buffers `k, k + 1, …`, each with a home sector of its own. -/
def freshBlocks (k n : Nat) : Txn := (List.range' k n).map fun i => (⟨1, 300 + i⟩, Block.zero)

/-- `k` buffers are in use, for sectors that the blocks from `k` on do not have. -/
structure Held (s : Bio) (k : Nat) (held : List BufId) : Prop where
  lru : s.lru.Perm binitLru
  busy : ∀ b, (s.bufs b).busy = true → b ∈ held
  count : held.length = k
  addr : ∀ b ∈ held, (s.bufs b).addr.sector < 300 + k

section Progress

variable {s u : Bio} {k n : Nat} {held : List BufId}

theorem freshBlocks_home : ∀ w ∈ freshBlocks k n, k + n ≤ NBUF → IsHome 1 200 w.1 := by
  intro w hw hroom
  obtain ⟨i, hi, rfl⟩ := List.mem_map.mp hw
  have := List.mem_range'_1.mp hi
  refine ⟨rfl, Or.inr ?_, ?_⟩
  · change 202 < 300 + i
    omega
  · change 300 + i < 2 ^ 32
    unfold NBUF at hroom
    omega

theorem freshBlocks_length : (freshBlocks k n).length = n := by
  simp [freshBlocks]

theorem freshBlocks_distinct : ((freshBlocks k n).map Prod.fst).Nodup := by
  rw [freshBlocks, List.map_map]
  refine List.Nodup.map (fun i j h => ?_) List.nodup_range'
  have : 300 + i = 300 + j := (BlockAddr.mk.inj h).2
  omega

theorem freshBlocks_sector {a : BlockAddr} (mem : a ∈ (freshBlocks k n).map Prod.fst) :
    300 + k ≤ a.sector ∧ a.sector < 300 + (k + n) := by
  obtain ⟨w, hw, rfl⟩ := List.mem_map.mp mem
  obtain ⟨i, hi, rfl⟩ := List.mem_map.mp hw
  have := List.mem_range'_1.mp hi
  change 300 + k ≤ 300 + i ∧ 300 + i < 300 + (k + n)
  omega

theorem Start.holds (start : Start 1 200 s) : Held s 2 [s.jsblockBuf, s.jtransHeaderBuf] where
  lru := start.lru
  busy b hb := by simpa using start.busy b hb
  count := rfl
  addr b hb := by
    rcases List.mem_pair.mp hb with rfl | rfl
    · rw [start.inv.base.jsb_addr]
      decide
    · rw [start.inv.base.header_addr]
      decide

/-- Filling a transaction with new blocks from a state between calls. -/
theorem Held.fills {st : Bool} {ns : List NodeId} (hold : Held s k held)
    (inv : Inv 1 200 s st ns) (room : k + n ≤ NBUF) :
    ∃ u bs, ((freshBlocks k n).forM putBlock).run s = .ok () u ∧ Held u (k + n) (bs ++ held) ∧
      Fills s u (freshBlocks k n) bs ∧ u.ct = ⟨bs⟩ ∧ CommitReady u ∧ u.ct.size = n := by
  obtain ⟨u, hrun⟩ := fill_returns held (hold.lru.nodup_iff.mpr binitLru_nodup)
    freshBlocks_distinct hold.busy
    (fun b hb hmem => absurd (hold.addr b hb) (not_lt.mpr (freshBlocks_sector hmem).1))
    (by rw [hold.count, freshBlocks_length, hold.lru.length_eq, binitLru_length]; exact room)
  obtain ⟨bs, fills⟩ := fill_eq_ok hrun
  have hct := inv.ct_bufs fills
  have hlen : bs.length = n := fills.length.trans freshBlocks_length
  refine ⟨u, bs, hrun, ⟨?_, fun b hb => ?_, ?_, fun b hb => ?_⟩, fills, hct,
    inv.commitReady fills fun w hw => freshBlocks_home w hw room, ?_⟩
  · rw [fills.filled.same]
    exact hold.lru
  · by_cases hin : b ∈ bs
    · exact List.mem_append_left _ hin
    · rw [fills.others b hin] at hb
      exact List.mem_append_right _ (hold.busy b hb)
  · rw [List.length_append, hlen, hold.count, Nat.add_comm]
  · by_cases hin : b ∈ bs
    · -- a buffer of the transaction has one of the new addresses
      have hpair : ((u.bufs b).addr, (u.bufs b).data) ∈ u.pairs ⟨bs⟩ := List.mem_map_of_mem hin
      rw [fills.pairs, List.mem_reverse] at hpair
      exact (freshBlocks_sector (List.mem_map_of_mem hpair)).2
    · rw [fills.others b hin]
      have := hold.addr b ((List.mem_append.mp hb).resolve_left hin)
      omega
  · rw [hct]
    exact hlen

/-- A transaction of 200 blocks on an empty journal overwrites sector 203, the first
inode block. -/
theorem journal_write_outside :
    let c := Call.trans (freshBlocks 2 200)
    Start 1 200 (Bio.mounted 1 200 jinit) ∧
      203 ∈ (endState (c.run.run (Bio.mounted 1 200 jinit))).jwrites ∧
      ¬ InRegion 200 203 := by
  intro c
  obtain ⟨u, bs, hrun, -, fills, -, hready, hsize⟩ :=
    jinit_start.holds.fills (n := 200) jinit_start.inv (by decide)
  have hhead : u.mtnHead = none := by
    rw [fills.filled.same]
    rfl
  have hjtail : u.jtailBnum = 3 := by
    rw [fills.filled.same]
    rfl
  refine ⟨jinit_start, ?_, fun h => absurd h.2 (by decide)⟩
  rw [Call.run, run_bind_of_ok hrun, endTrans_room hready (by omega) (Or.inl hhead), endState_ok]
  apply List.mem_append_right
  rw [hjtail, hsize]
  decide

/-- A commit to an empty journal does not spin. -/
theorem endTrans_not_spin_example :
    ∃ u, CommitReady u ∧ u.ct.size = 1 ∧ ∀ s', endTrans.run u ≠ .error .spin s' := by
  obtain ⟨u, bs, -, -, fills, -, hready, hsize⟩ :=
    jinit_start.holds.fills (n := 1) jinit_start.inv (by decide)
  have hhead : u.mtnHead = none := by
    rw [fills.filled.same]
    rfl
  exact ⟨u, hready, hsize, (endTrans_not_spin_iff hready).mpr (Or.inr (Or.inl hhead))⟩

theorem committed_busy {b : BufId} (ready : CommitReady u)
    (header : (u.bufs u.jtransHeaderBuf).busy = true)
    (busy : (u.committed.bufs b).busy = true) : (u.bufs b).busy = true := by
  -- a commit sets the flag only where it is set
  by_cases hjsb : b = u.jsblockBuf
  · rw [hjsb]
    exact ready.jsb_busy
  · by_cases hheader : b = u.jtransHeaderBuf
    · rw [hheader]
      exact header
    · by_cases hct : b ∈ u.ct.bufs
      · exact ready.busy b hct
      · rwa [committed_bufs_of_notMem hjsb hheader hct] at busy

theorem Held.committed (hold : Held u k held) (ready : CommitReady u)
    (header : (u.bufs u.jtransHeaderBuf).busy = true) : Held u.committed k held where
  lru := hold.lru
  busy b hb := hold.busy b (committed_busy ready header hb)
  count := hold.count
  addr b hb := by
    rw [committed_addr]
    exact hold.addr b hb

/-- A commit of twenty new blocks when the journal has room. -/
theorem Held.commit {ns : List NodeId} (hold : Held s k held) (inv : Inv 1 200 s false ns)
    (room : k + 20 ≤ NBUF) (fits : s.jtailBnum + 21 ≤ 202) :
    ∃ t ns' held', CallStep 1 200 (.trans (freshBlocks k 20)) s t ∧ Held t (k + 20) held' ∧
      Inv 1 200 t false ns' ∧ t.jtailBnum = s.jtailBnum + 21 ∧ t.mtnHead ≠ none := by
  obtain ⟨u, bs, hrun, hhold, fills, hct, hready, hsize⟩ := hold.fills inv room
  have hhome : ∀ w ∈ freshBlocks k 20, IsHome 1 200 w.1 := fun w hw => freshBlocks_home w hw room
  have hbase := fills.base inv.base
  have hjtail : u.jtailBnum = s.jtailBnum := by rw [fills.filled.same]
  have hroom : u.Room (u.ct.size + 1) := by
    right
    rw [hsize, hjtail, hbase.size]
    exact fits
  have hcommit := endTrans_room hready (by omega) hroom
  refine ⟨u.committed, _, _, ⟨⟨?_, ?_, ?_, hhome⟩, ?_⟩, hhold.committed hready hbase.header_busy,
    inv.commit fills hct hhome, ?_, ?_⟩
  · intro hnil
    have := freshBlocks_length (k := k) (n := 20)
    rw [hnil] at this
    cases this
  · rw [freshBlocks_length]
    decide
  · rw [freshBlocks_length]
    omega
  · rw [Call.run, run_bind_of_ok hrun, hcommit]
  · change u.jtailBnum + u.ct.size + 1 = _
    omega
  · change (if u.mtnHead = none then some u.nextNode else u.mtnHead) ≠ none
    split <;> simp [*]

/-- Commits of twenty blocks each. -/
def commits (i : Nat) : List Call :=
  (List.range i).map fun j => Call.trans (freshBlocks (2 + 20 * j) 20)

/-- Nine commits without a flush, one after the other. -/
theorem commits_run {i : Nat} (hi : i ≤ 9) :
    ∃ s ns held, Run (CallStep 1 200) (Bio.mounted 1 200 jinit) (commits i) s ∧
      Held s (2 + 20 * i) held ∧ Inv 1 200 s false ns ∧ s.jtailBnum = 3 + 21 * i ∧
      (0 < i → s.mtnHead ≠ none) := by
  induction i with
  | zero =>
    exact ⟨_, _, _, Run.start, jinit_start.holds, jinit_start.inv, rfl, fun h => by cases h⟩
  | succ i ih =>
    obtain ⟨s, ns, held, hrun, hhold, hinv, hjtail, -⟩ := ih (by omega)
    obtain ⟨t, ns', held', hstep, hhold', hinv', hjtail', hhead⟩ :=
      hhold.commit hinv (by unfold NBUF; omega) (by omega)
    refine ⟨t, ns', held', ?_, ?_, hinv', ?_, fun _ => hhead⟩
    · rw [commits, List.range_succ, List.map_append]
      exact hrun.snoc hstep
    · rw [show 2 + 20 * (i + 1) = 2 + 20 * i + 20 by omega]
      exact hhold'
    · omega

/-- The tenth such commit tries to take the lock it holds. -/
theorem endTrans_spins :
    ∃ s u, Start 1 200 (Bio.mounted 1 200 jinit) ∧
      Run (CallStep 1 200) (Bio.mounted 1 200 jinit) (commits 9) s ∧
      ((freshBlocks 182 20).forM putBlock).run s = .ok () u ∧ CommitReady u ∧
      ∃ s', endTrans.run u = .error .spin s' := by
  obtain ⟨s, ns, held, hrun, hhold, hinv, hjtail, hhead⟩ := commits_run (le_refl 9)
  obtain ⟨u, bs, hfill, -, fills, -, hready, hsize⟩ :=
    hhold.fills (n := 20) hinv (by decide)
  have hfull : ¬ u.Room (u.ct.size + 1) := by
    have hhead' : u.mtnHead ≠ none := by
      rw [fills.filled.same]
      exact hhead (by decide)
    have hjtail' : u.jtailBnum = 192 := by
      rw [fills.filled.same]
      exact hjtail
    rintro (h | h)
    · exact hhead' h
    · rw [hsize, hjtail', (fills.base hinv.base).size] at h
      omega
  obtain ⟨s', hs', -⟩ := endTrans_full hready (by omega) hfull
  exact ⟨s, u, jinit_start, hrun, hfill, hready, s', hs'⟩

end Progress

end Xv6
