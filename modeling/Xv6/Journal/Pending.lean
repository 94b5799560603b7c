/-
# Which committed transactions reach their home sectors

As long as every call starts with at most one pending transaction, the list
reachable from `mtn_head` holds exactly the transactions that were committed and
not flushed, and a flush writes each of them home once. With two pending
transactions this fails: a third commit unlinks the second node, and a flush stops
in front of it.
-/

import Xv6.Journal.Record
import Xv6.Math.Runs

namespace Xv6

open Math Bio

namespace Bio

/-- The nodes found by following `next`, at most `fuel` many. -/
def chain (s : Bio) : Nat → Option NodeId → List NodeId
  | 0, _ => []
  | _ + 1, none => []
  | fuel + 1, some n => n :: s.chain fuel (s.nodes n).next

/-- The pending list: the nodes reachable from `mtn_head`. -/
def pending (s : Bio) : List NodeId := s.chain s.nextNode s.mtnHead

/-- The contents of the pending transactions. -/
def pendingTxns (s : Bio) : List Txn := s.pending.map fun n => s.pairs (s.nodes n).trans

/-- `mtn_head` is null, or the only node of its list. -/
def AtMostOnePending (s : Bio) : Prop := (s.mtnHead.bind fun n => (s.nodes n).next) = none

instance (s : Bio) : Decidable s.AtMostOnePending :=
  inferInstanceAs (Decidable ((s.mtnHead.bind fun n => (s.nodes n).next) = none))

/-- A machine on which `pbjFSck` found an empty journal of `J` blocks: the super block is
in buffer 0, the journal in the buffers behind it, of which the first stays busy as the
header. The others were released one after the other. -/
def mounted (dev J : Nat) (disk : BlockAddr → Block) : Bio :=
  { Bio.boot disk with
    bufs := fun b =>
      if b = 0 then ⟨true, true, false, ⟨dev, 2⟩, 0, disk ⟨dev, 2⟩⟩
      else if b ≤ J then ⟨b == 1, true, false, ⟨dev, b + 2⟩, 0, disk ⟨dev, b + 2⟩⟩
      else Buf.unused
    lru := (List.range' 1 J).reverse ++ ((List.range' (J + 1) (NBUF - (J + 1))).reverse ++ [0])
    jsblockBuf := 0
    jtransHeaderBuf := 1 }

end Bio

/-- The transactions that a sequence of calls commits, in order. A transaction
lists its blocks last write first. -/
def committedTxns : List Call → List Txn
  | [] => []
  | .trans ws :: cs => ws.reverse :: committedTxns cs
  | .flush :: cs => committedTxns cs

/-- The transactions committed since the last flush. -/
def unflushed (cs : List Call) : List Txn :=
  cs.foldl (fun acc c =>
    match c with
    | .trans ws => acc ++ [ws.reverse]
    | .flush => []) []

/-- The home writes in a log of sector writes. -/
def homeWrites (dev J : Nat) (log : List (BlockAddr × Block)) : List (BlockAddr × Block) :=
  log.filter fun w => decide (IsHome dev J w.1)

/-- A call as processes make it: a transaction has 1 to `NBPT` home blocks and
fits in the journal region. -/
def Call.Legal (dev J : Nat) (s : Bio) : Call → Prop
  | .trans ws =>
    ws ≠ [] ∧ ws.length ≤ NBPT ∧ s.jtailBnum + ws.length ≤ J + 2 ∧ ∀ w ∈ ws, IsHome dev J w.1
  | .flush => True

instance (dev J : Nat) (s : Bio) (c : Call) : Decidable (c.Legal dev J s) :=
  match c with
  | .trans ws => inferInstanceAs (Decidable
      (ws ≠ [] ∧ ws.length ≤ NBPT ∧ s.jtailBnum + ws.length ≤ J + 2 ∧ ∀ w ∈ ws, IsHome dev J w.1))
  | .flush => inferInstanceAs (Decidable True)

/-- A legal call that returns. -/
def CallStep (dev J : Nat) (c : Call) (s t : Bio) : Prop :=
  c.Legal dev J s ∧ c.run.run s = .ok () t

/-- What a freshly mounted file system looks like: nothing is pending, and only the
two journal buffers are busy. -/
structure Start (dev J : Nat) (s : Bio) : Prop where
  inv : Inv dev J s false []
  lru : s.lru.Perm binitLru
  busy : ∀ b, (s.bufs b).busy = true → b = s.jsblockBuf ∨ b = s.jtransHeaderBuf

section Bookkeeping

variable {dev J : Nat}

@[simp] theorem committedTxns_snoc (cs : List Call) (c : Call) :
    committedTxns (cs ++ [c]) = committedTxns cs ++ committedTxns [c] := by
  induction cs with
  | nil => rfl
  | cons d cs ih => cases d <;> simp [committedTxns, ih]

@[simp] theorem unflushed_snoc_trans (cs : List Call) (ws : Txn) :
    unflushed (cs ++ [.trans ws]) = unflushed cs ++ [ws.reverse] := by
  simp [unflushed]

@[simp] theorem unflushed_snoc_flush (cs : List Call) : unflushed (cs ++ [.flush]) = [] := by
  simp [unflushed]

@[simp] theorem homeWrites_append (xs ys : List (BlockAddr × Block)) :
    homeWrites dev J (xs ++ ys) = homeWrites dev J xs ++ homeWrites dev J ys :=
  List.filter_append ..

theorem homeWrites_eq_nil {xs : List (BlockAddr × Block)}
    (journal : ∀ w ∈ xs, ¬ IsHome dev J w.1) : homeWrites dev J xs = [] :=
  List.filter_eq_nil_iff.mpr fun w hw => by simpa using journal w hw

theorem homeWrites_eq_self {xs : List (BlockAddr × Block)}
    (home : ∀ w ∈ xs, IsHome dev J w.1) : homeWrites dev J xs = xs :=
  List.filter_eq_self.mpr fun w hw => by simpa using home w hw

end Bookkeeping

/-- The invariant of runs with at most one pending transaction per call. -/
structure Tracks (dev J : Nat) (s₀ : Bio) (cs : List Call) (s : Bio) (ns : List NodeId) :
    Prop where
  inv : Inv dev J s false ns
  txns : ns.map (fun n => s.pairs (s.nodes n).trans) = unflushed cs
  home : homeWrites dev J s.log ++ (unflushed cs).flatten =
    homeWrites dev J s₀.log ++ (committedTxns cs).flatten
  busy : ∀ b, (s.bufs b).busy = true →
    b = s.jsblockBuf ∨ b = s.jtransHeaderBuf ∨ b ∈ s.waiting ns

section Steps

variable {dev J : Nat} {s₀ s t : Bio} {cs : List Call} {ns : List NodeId}

theorem Start.tracks (start : Start dev J s₀) : Tracks dev J s₀ [] s₀ [] where
  inv := start.inv
  txns := rfl
  home := rfl
  busy b hb := (start.busy b hb).imp id Or.inl

private theorem exists_eq_add_two {n m k : Nat} (hn : n < k) (hm : m < k) (hne : n ≠ m) :
    ∃ j, k = j + 2 := ⟨k - 2, by omega⟩

/-- The pending list is what the invariant says it is. -/
theorem Inv.pending_eq (inv : Inv dev J s false ns) : s.pending = ns := by
  unfold pending
  cases hshape : inv.shape with
  | idle head =>
    rw [head]
    cases s.nextNode <;> rfl
  | @one n head _ next =>
    have hn := inv.known n (by simp)
    obtain ⟨k, hk⟩ := Nat.exists_eq_add_of_lt hn
    rw [hk, head, chain, next]
    cases n + k <;> rfl
  | @two n m head _ hne next last =>
    have hn := inv.known n (by simp)
    have hm := inv.known m (by simp)
    -- two different nodes are known, so the walk has fuel for both
    obtain ⟨k, hk⟩ := exists_eq_add_two hn hm hne
    rw [hk, head, chain, next, chain, last]
    cases k <;> rfl

theorem Inv.length_le_one (inv : Inv dev J s false ns) (few : s.AtMostOnePending) :
    ns = [] ∨ ∃ n, ns = [n] := by
  cases hshape : inv.shape with
  | idle => exact Or.inl rfl
  | @one n => exact Or.inr ⟨n, rfl⟩
  | @two n m head _ _ next _ =>
    simp [AtMostOnePending, head, next] at few

theorem Tracks.trans {ws : Txn} (tracks : Tracks dev J s₀ cs s ns) (few : s.AtMostOnePending)
    (step : CallStep dev J (.trans ws) s t) :
    Tracks dev J s₀ (cs ++ [.trans ws]) t (ns ++ [s.nextNode]) := by
  obtain ⟨⟨nonempty, -, fits, home⟩, run⟩ := step
  obtain ⟨u, bs, fills, ct, -, rfl⟩ := tracks.inv.trans_eq_ok home nonempty run
  have hpush : pushNode ns s.nextNode = ns ++ [s.nextNode] := by
    rcases tracks.inv.length_le_one few with rfl | ⟨n, rfl⟩ <;> rfl
  have hinv := tracks.inv.commit fills ct home
  have hwaiting := tracks.inv.waiting_committed fills ct
  rw [if_neg (by simp), hpush] at hinv hwaiting
  refine ⟨hinv, ?_, ?_, ?_⟩
  · rw [List.map_append, List.map_singleton, tracks.inv.pairs_new fills ct home,
      unflushed_snoc_trans, ← tracks.txns]
    congr 1
    exact List.map_congr_left fun n hn => tracks.inv.pairs_old fills ct hn
  · have hbase := fills.base tracks.inv.base
    have hsize : u.ct.size = ws.length := by
      rw [ct]
      exact fills.length
    have hjtail : u.jtailBnum = s.jtailBnum := by rw [fills.filled.same]
    have hlog : u.log = s.log := by rw [fills.filled.same]
    have hdev : ∀ b ∈ u.ct.bufs, (u.bufs b).addr.dev = dev := by
      rw [ct]
      exact fun b hb => (fills.home home b hb).1
    have hjournal : ∀ w ∈ u.commitWrites, ¬ IsHome dev J w.1 := fun w hw =>
      (commitWrites_inJournal hbase (by rw [hjtail]; exact tracks.inv.jtail)
        (by rw [hjtail, hsize]; exact fits) hdev w hw).not_isHome
    have hcommitted : u.committed.log = s.log ++ u.commitWrites := by
      rw [← hlog]
      rfl
    rw [hcommitted, homeWrites_append, homeWrites_eq_nil hjournal, List.append_nil,
      unflushed_snoc_trans, List.flatten_append, ← List.append_assoc, tracks.home,
      committedTxns_snoc, List.flatten_append, List.append_assoc]
    rfl
  · intro b hb
    have hjsb : u.committed.jsblockBuf = s.jsblockBuf := by
      rw [fills.filled.same]
      rfl
    have hheader : u.committed.jtransHeaderBuf = s.jtransHeaderBuf := by
      rw [fills.filled.same]
      rfl
    rw [hjsb, hheader, hwaiting, List.take_of_length_le (by
      rcases tracks.inv.length_le_one few with rfl | ⟨n, rfl⟩ <;> simp)]
    by_cases hmem : b ∈ bs
    · exact Or.inr (Or.inr (List.mem_append_right _ hmem))
    · by_cases hb1 : b = s.jsblockBuf
      · exact Or.inl hb1
      · by_cases hb2 : b = s.jtransHeaderBuf
        · exact Or.inr (Or.inl hb2)
        · rw [committed_bufs_of_notMem (hjsb ▸ hb1) (hheader ▸ hb2) (by rw [ct]; exact hmem),
            fills.others b hmem] at hb
          exact (tracks.busy b hb).imp id (Or.imp id (List.mem_append_left _))

/-- With at most one pending transaction a flush returns and nothing is left over. -/
theorem Tracks.flush (tracks : Tracks dev J s₀ cs s ns) (few : s.AtMostOnePending) :
    ∃ t, jfullFlush.run s = .ok () t ∧ Tracks dev J s₀ (cs ++ [.flush]) t [] := by
  have hcommitted : committedTxns (cs ++ [.flush]) = committedTxns cs := by
    simp [committedTxns]
  rcases tracks.inv.length_le_one few with rfl | ⟨n, rfl⟩
  · have hidle : s.mtnHead = none := by
      cases hshape : tracks.inv.shape with
      | idle head => exact head
    have hnone : unflushed cs = [] := tracks.txns.symm
    refine ⟨s, jfullFlush_idle hidle, tracks.inv, by simp, ?_, tracks.busy⟩
    rw [hcommitted, unflushed_snoc_flush, ← tracks.home, hnone]
  · obtain ⟨hrun, hinv⟩ := tracks.inv.flush
    refine ⟨_, hrun, hinv, by simp, ?_, ?_⟩
    · have hwaiting : s.pairs ⟨s.waiting [n]⟩ = (unflushed cs).flatten := by
        rw [← tracks.txns]
        simp [waiting]
      have hpairs : ∀ w ∈ s.pairs ⟨s.waiting [n]⟩, IsHome dev J w.1 := by
        intro w hw
        obtain ⟨b, hb, rfl⟩ := List.mem_map.mp hw
        exact tracks.inv.home b hb
      have hsuper : ∀ w ∈ [((s.bufs s.jsblockBuf).addr, JsBlock.reset s.jsb)],
          ¬ IsHome dev J w.1 := by
        intro w hw
        rw [List.mem_singleton.mp hw]
        exact tracks.inv.base.jsb_notHome
      rw [flushedTo_log fun hmem => tracks.inv.base.jsb_notHome (tracks.inv.home _ hmem),
        flushWrites, homeWrites_append, homeWrites_append, homeWrites_eq_self hpairs,
        homeWrites_eq_nil hsuper, hwaiting, hcommitted, unflushed_snoc_flush, ← tracks.home]
      simp
    · intro b hb
      by_cases hb1 : b = s.jsblockBuf
      · exact Or.inl hb1
      · by_cases hmem : b ∈ s.waiting [n]
        · rw [flushedTo_bufs_of_mem hb1 hmem] at hb
          cases hb
        · rw [flushedTo_bufs_of_notMem hb1 hmem] at hb
          rcases tracks.busy b hb with h | h | h
          · exact Or.inl h
          · exact Or.inr (Or.inl h)
          · exact absurd h hmem

/-- One call of a run, whichever it is. -/
theorem Tracks.step {c : Call} (tracks : Tracks dev J s₀ cs s ns) (few : s.AtMostOnePending)
    (step : CallStep dev J c s t) : ∃ ms, Tracks dev J s₀ (cs ++ [c]) t ms := by
  cases c with
  | trans ws => exact ⟨_, tracks.trans few step⟩
  | flush =>
    obtain ⟨t', hrun, htracks⟩ := tracks.flush few
    have hstep : jfullFlush.run s = .ok () t := step.2
    rw [hrun] at hstep
    obtain rfl := (EStateM.Result.ok.inj hstep).2
    exact ⟨[], htracks⟩

end Steps

section Runs

variable {dev J : Nat} {s₀ s : Bio} {cs : List Call}

/-- Calls made while at most one transaction is pending. -/
def SparseStep (dev J : Nat) (c : Call) (s t : Bio) : Prop :=
  s.AtMostOnePending ∧ CallStep dev J c s t

/-- In every run whose calls all start with at most one pending transaction, the
list reachable from `mtn_head` is the list of the transactions committed and not
yet flushed, in commit order. A flush from such a state returns, leaves the list
empty and only the two journal buffers busy, and by then the home sectors have been
written with every committed transaction once, in commit order. -/
theorem pending_eq_unflushed (start : Start dev J s₀)
    (run : Run (SparseStep dev J) s₀ cs s) :
    s.pendingTxns = unflushed cs ∧
      (s.AtMostOnePending →
        ∃ t, jfullFlush.run s = .ok () t ∧ t.mtnHead = none ∧
          homeWrites dev J t.log = homeWrites dev J s₀.log ++ (committedTxns cs).flatten ∧
          ∀ b, (t.bufs b).busy = true → b = t.jsblockBuf ∨ b = t.jtransHeaderBuf) := by
  obtain ⟨ns, tracks⟩ : ∃ ns, Tracks dev J s₀ cs s ns := by
    refine Run.invariant (motive := fun cs s => ∃ ns, Tracks dev J s₀ cs s ns)
      ⟨[], start.tracks⟩ ?_ run
    rintro cs c s t ⟨ns, tracks⟩ ⟨few, step⟩
    exact tracks.step few step
  refine ⟨?_, fun few => ?_⟩
  · rw [pendingTxns, tracks.inv.pending_eq, tracks.txns]
  · obtain ⟨t, hrun, htracks⟩ := tracks.flush few
    refine ⟨t, hrun, ?_, ?_, fun b hb => ?_⟩
    · cases hshape : htracks.inv.shape with
      | idle head => exact head
    · have hhome := htracks.home
      simpa [committedTxns] using hhome
    · simpa [waiting] using htracks.busy b hb

/-- The list of a mounted machine is what releasing the journal buffers in turn makes. -/
theorem mounted_lru {disk : BlockAddr → Block} (cache : J + 1 ≤ NBUF) :
    (Bio.mounted dev J disk).lru = touch binitLru (List.range' 1 J) := by
  have hsplit : List.range NBUF =
      0 :: (List.range' 1 J ++ List.range' (J + 1) (NBUF - (J + 1))) := by
    rw [show List.range' (J + 1) (NBUF - (J + 1)) = List.range' (1 + 1 * J) (NBUF - (J + 1)) by
      rw [Nat.one_mul, Nat.add_comm], List.range'_append, List.range_eq_range',
      show NBUF = J + (NBUF - (J + 1)) + 1 by omega, List.range'_succ]
    simp
  have hbefore : ((List.range' 1 J).filter fun b => decide (b ∉ List.range' 1 J)) = [] :=
    List.filter_eq_nil_iff.mpr fun b hb => by
      rw [decide_eq_true_eq, not_not]
      exact hb
  have hbehind : ((List.range' (J + 1) (NBUF - (J + 1))).filter
      fun b => decide (b ∉ List.range' 1 J)) = List.range' (J + 1) (NBUF - (J + 1)) := by
    apply List.filter_eq_self.mpr
    intro b hb
    rw [decide_eq_true_eq, List.mem_range'_1]
    have := List.mem_range'_1.mp hb
    omega
  rw [touch_eq binitLru_nodup List.nodup_range', binitLru_eq, List.filter_reverse, hsplit,
    List.filter_cons_of_pos (by simp),
    List.filter_append, hbefore, hbehind]
  simp [Bio.mounted]

/-- A file system whose journal is empty can be mounted. -/
theorem mounted_start {disk : BlockAddr → Block} (size : JsBlock.size (disk ⟨dev, 2⟩) = J)
    (head : JsBlock.headBlock (disk ⟨dev, 2⟩) = 3) (bounded : 0 < J ∧ J + 1 ≤ NBUF) :
    Start dev J (Bio.mounted dev J disk) := by
  have hsmall : J + 3 < 2 ^ 32 := by
    have := bounded.2
    unfold NBUF at this
    omega
  have hheader : (Bio.mounted dev J disk).bufs 1 =
      ⟨true, true, false, ⟨dev, 3⟩, 0, disk ⟨dev, 3⟩⟩ := if_pos bounded.1
  refine ⟨?_, ?_, fun b hb => ?_⟩
  · exact
      { base :=
          { unlocked := rfl, separate := Nat.one_ne_zero, jsb_busy := rfl, jsb_addr := rfl
            header_busy := congrArg Buf.busy hheader, header_addr := congrArg Buf.addr hheader
            size := size, head := head, super := rfl
            untested := rfl, bounded := ⟨bounded.1, hsmall⟩ }
        ct := rfl
        shape := Shape.idle rfl
        known := by simp
        tail_known := fun n hn => by cases hn
        jtail := le_refl 3
        jtail_idle := fun _ => rfl
        ready := ⟨List.nodup_nil, by simp [waiting], by simp [waiting], by simp [waiting]⟩
        home := by simp [waiting] }
  · rw [mounted_lru bounded.2]
    apply touch_perm
    intro b hb
    rw [binitLru_eq, List.mem_reverse, List.mem_range]
    exact lt_of_lt_of_le (List.mem_range'_1.mp hb).2 (by rw [Nat.add_comm]; exact bounded.2)
  · by_cases h0 : b = 0
    · exact Or.inl h0
    · right
      simp only [Bio.mounted, if_neg h0] at hb
      split at hb
      · exact beq_iff_eq.mp hb
      · cases hb

/-- The disk as `mkfs` leaves its journal: `jinit` writes an empty journal of
`NJB - 1` blocks. -/
def jinit : BlockAddr → Block :=
  Function.update (fun _ => Block.zero) ⟨1, 2⟩ (JsBlock.reset (Block.zero.setWord 0 (NJB - 1)))

theorem jinit_start : Start 1 200 (Bio.mounted 1 200 jinit) :=
  mounted_start (by decide +kernel) (by decide +kernel) (by decide)

/-- The state after a sequence of calls. -/
def runCalls (cs : List Call) (s : Bio) : Bio :=
  cs.foldl (fun s c => endState (c.run.run s)) s

/-- Whether the calls all return, and each starts in a state that passes a test. -/
def replays (test : Call → Bio → Bool) : List Call → Bio → Bool
  | [], _ => true
  | c :: cs, s =>
    test c s && returned (c.run.run s) && replays test cs (endState (c.run.run s))

theorem run_of_replays (test : Call → Bio → Bool) {step : Call → Bio → Bio → Prop}
    (sound : ∀ c s t, test c s = true → c.run.run s = .ok () t → step c s t)
    (h : replays test cs s₀ = true) : Run step s₀ cs (runCalls cs s₀) := by
  induction cs generalizing s₀ with
  | nil => exact Run.start
  | cons c cs ih =>
    simp only [replays, Bool.and_eq_true] at h
    exact Run.cons (sound c s₀ _ h.1.1 (eq_ok_of_returned h.1.2)) (ih h.2)

/-- A transaction of one zero block. -/
def oneBlock (sector : Nat) : Call := .trans [(⟨1, sector⟩, Block.zero)]

/-- Two commits, a flush between them. -/
theorem pending_eq_unflushed_example :
    let s := runCalls [oneBlock 300, .flush, oneBlock 301] (Bio.mounted 1 200 jinit)
    s.pendingTxns = [[(⟨1, 301⟩, Block.zero)]] ∧ s.AtMostOnePending ∧
      ∃ t, jfullFlush.run s = .ok () t ∧ t.mtnHead = none := by
  intro s
  have hrun : Run (SparseStep 1 200) (Bio.mounted 1 200 jinit)
      [oneBlock 300, .flush, oneBlock 301] s :=
    run_of_replays (fun c s => decide (s.AtMostOnePending ∧ c.Legal 1 200 s))
      (fun c s t h hok => ⟨(of_decide_eq_true h).1, (of_decide_eq_true h).2, hok⟩)
      (by decide +kernel)
  have hfew : s.AtMostOnePending := by decide +kernel
  obtain ⟨hpending, hflush⟩ := pending_eq_unflushed jinit_start hrun
  obtain ⟨t, hok, hnone, -, -⟩ := hflush hfew
  exact ⟨hpending, hfew, t, hok, hnone⟩

/-- Without the restriction transactions get lost: after three commits the second
one is not on the list, and after two commits a flush leaves the second one on the
list, its home sector unwritten and its buffer busy. -/
theorem committed_txn_lost :
    let three := [oneBlock 300, oneBlock 301, oneBlock 302]
    let two := [oneBlock 300, oneBlock 301, Call.flush]
    let s := runCalls three (Bio.mounted 1 200 jinit)
    let t := runCalls two (Bio.mounted 1 200 jinit)
    Start 1 200 (Bio.mounted 1 200 jinit) ∧
      Run (CallStep 1 200) (Bio.mounted 1 200 jinit) three s ∧
      (s.pendingTxns.map fun txn => txn.map Prod.fst) = [[⟨1, 300⟩], [⟨1, 302⟩]] ∧
      Run (CallStep 1 200) (Bio.mounted 1 200 jinit) two t ∧
      t.mtnHead = some 1 ∧
      (homeWrites 1 200 t.log).map Prod.fst = [⟨1, 300⟩] ∧
      ∃ b, (t.bufs b).busy = true ∧ (t.bufs b).addr = ⟨1, 301⟩ := by
  have hlegal : ∀ cs,
      replays (fun c s => decide (c.Legal 1 200 s)) cs (Bio.mounted 1 200 jinit) = true →
      Run (CallStep 1 200) (Bio.mounted 1 200 jinit) cs (runCalls cs (Bio.mounted 1 200 jinit)) :=
    fun cs h => run_of_replays _ (fun c s t htest hok => ⟨of_decide_eq_true htest, hok⟩) h
  refine ⟨jinit_start, hlegal _ (by decide +kernel), by decide +kernel,
    hlegal _ (by decide +kernel), by decide +kernel, by decide +kernel, 202, by decide +kernel,
    by decide +kernel⟩

end Runs

end Xv6
