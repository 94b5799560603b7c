/-
# The write-ahead rule

Every write to a home sector is preceded by a record of it in the journal, provided
no flush starts while the head of the pending list has been overtaken by commits the
tail does not know about: such a flush writes home a transaction whose record an
earlier flush has thrown away.
-/

import Xv6.Journal.Pending

namespace Xv6

open Math Bio

/-- Every write outside the journal finds its own record in the journal. -/
def WriteAhead (dev J : Nat) : (BlockAddr → Block) → List (BlockAddr × Block) → Prop
  | _, [] => True
  | disk, w :: ws =>
    (¬ InJournal dev J w.1 → w ∈ (journalRecords dev disk).flatten) ∧
      WriteAhead dev J (Function.update disk w.1 w.2) ws

/-- `mtn_head` is null, `mtn_tail`, or the node behind `mtn_tail`. -/
def Bio.FlushSafe (s : Bio) : Prop :=
  s.mtnHead = none ∨ s.mtnHead = s.mtnTail ∨
    s.mtnHead = s.mtnTail.bind fun tail => (s.nodes tail).next

instance (s : Bio) : Decidable s.FlushSafe :=
  inferInstanceAs (Decidable (s.mtnHead = none ∨ s.mtnHead = s.mtnTail ∨
    s.mtnHead = s.mtnTail.bind fun tail => (s.nodes tail).next))

/-- Calls of which the flushes start in a safe state. -/
def SafeStep (dev J : Nat) (c : Call) (s t : Bio) : Prop :=
  CallStep dev J c s t ∧ (c = .flush → s.FlushSafe)

section Rule

variable {dev J : Nat} {disk : BlockAddr → Block}

theorem WriteAhead.append {ws vs : List (BlockAddr × Block)} (first : WriteAhead dev J disk ws)
    (second : WriteAhead dev J (applyWrites ws disk) vs) : WriteAhead dev J disk (ws ++ vs) := by
  induction ws generalizing disk with
  | nil => exact second
  | cons w ws ih => exact ⟨first.1, ih first.2 second⟩

theorem writeAhead_of_journal {ws : List (BlockAddr × Block)}
    (journal : ∀ w ∈ ws, InJournal dev J w.1) : WriteAhead dev J disk ws := by
  induction ws generalizing disk with
  | nil => trivial
  | cons w ws ih =>
    exact ⟨fun h => absurd (journal w List.mem_cons_self) h,
      ih fun v hv => journal v (List.mem_cons_of_mem _ hv)⟩

/-- Home writes leave the records in place, so recorded writes may follow each other. -/
theorem writeAhead_of_recorded {txns : List Txn} {ws : List (BlockAddr × Block)}
    (recorded : ∀ disk' : BlockAddr → Block,
      (∀ j, 2 ≤ j → j ≤ J + 2 → disk' ⟨dev, j⟩ = disk ⟨dev, j⟩) →
        journalRecords dev disk' = txns)
    (home : ∀ w ∈ ws, IsHome dev J w.1) (inside : ∀ w ∈ ws, w ∈ txns.flatten) :
    WriteAhead dev J disk ws := by
  induction ws generalizing disk with
  | nil => trivial
  | cons w ws ih =>
    refine ⟨fun _ => ?_, ih ?_ (fun v hv => home v (List.mem_cons_of_mem _ hv))
      (fun v hv => inside v (List.mem_cons_of_mem _ hv))⟩
    · rw [recorded disk fun _ _ _ => rfl]
      exact inside w List.mem_cons_self
    · intro disk' same
      apply recorded
      intro j hlow hhigh
      rw [same j hlow hhigh, Function.update_of_ne]
      exact ((home w List.mem_cons_self).sector_ne ⟨hlow, hhigh⟩).symm

/-- The rule, spelled out for one write of a log. -/
theorem WriteAhead.mem {pre post : List (BlockAddr × Block)} {w : BlockAddr × Block}
    (rule : WriteAhead dev J disk (pre ++ w :: post)) (outside : ¬ InJournal dev J w.1) :
    w ∈ (journalRecords dev (applyWrites pre disk)).flatten := by
  induction pre generalizing disk with
  | nil => exact rule.1 outside
  | cons v pre ih => exact ih rule.2

end Rule

/-- The invariant of runs with safe flushes. -/
structure Ahead (dev J : Nat) (s₀ s : Bio) (st : Bool) (ns : List NodeId) (txns : List Txn)
    (ws : List (BlockAddr × Block)) : Prop where
  inv : Inv dev J s st ns
  recorded : Recorded dev J s txns
  -- the transaction that the next flush writes home
  first : st = false → ∀ n ∈ ns.head?, s.pairs (s.nodes n).trans ∈ txns
  log : s.log = s₀.log ++ ws
  disk : s.disk = applyWrites ws s₀.disk
  rule : WriteAhead dev J s₀.disk ws

section Steps

variable {dev J : Nat} {s₀ s t : Bio} {st : Bool} {ns : List NodeId} {txns : List Txn}
  {ws : List (BlockAddr × Block)}

theorem Ahead.trans {vs : Txn} (ahead : Ahead dev J s₀ s st ns txns ws)
    (step : CallStep dev J (.trans vs) s t) :
    ∃ ns' txns' ws', Ahead dev J s₀ t st ns' txns' ws' := by
  obtain ⟨⟨nonempty, short, fits, home⟩, run⟩ := step
  obtain ⟨u, bs, fills, ct, -, rfl⟩ := ahead.inv.trans_eq_ok home nonempty run
  have hbase := fills.base ahead.inv.base
  have hsize : u.ct.size = vs.length := by
    rw [ct]
    exact fills.length
  have hjtail : u.jtailBnum = s.jtailBnum := by rw [fills.filled.same]
  have hlog : u.log = s.log := by rw [fills.filled.same]
  have hdisk : u.disk = s.disk := by rw [fills.filled.same]
  have hhome : ∀ b ∈ u.ct.bufs, IsHome dev J (u.bufs b).addr := by
    rw [ct]
    exact fills.home home
  have hjsb : u.jsb = s.jsb := by
    have hbuf := fills.filled.busy _ ahead.inv.base.jsb_busy
    rw [fills.filled.same]
    exact congrArg Buf.data hbuf
  have hrecorded : Recorded dev J u txns :=
    ⟨by rw [hdisk]; exact ahead.recorded.holds, by rw [hjtail]; exact ahead.recorded.jtail,
      ahead.recorded.room, by rw [hjsb]; exact ahead.recorded.tail⟩
  have hcommit := recorded_committed hrecorded.holds hrecorded.jtail hbase
    (by rw [hsize]; exact List.length_pos_iff.mpr nonempty)
    (by rw [hsize]; exact short.trans (by decide))
    (by rw [hsize, hjtail]; exact fits) hhome
  have hnew : u.pairs u.ct = vs.reverse := by
    rw [ct]
    exact fills.pairs
  refine ⟨_, _, ws ++ u.commitWrites, ahead.inv.commit fills ct home, hcommit, ?_, ?_, ?_, ?_⟩
  · rintro rfl n hn
    rw [if_neg (by simp)] at hn
    cases ns with
    | nil =>
      obtain rfl : s.nextNode = n := by simpa [pushNode] using hn
      rw [ahead.inv.pairs_new fills ct home, hnew]
      exact List.mem_append_right _ (List.mem_singleton_self _)
    | cons m ms =>
      obtain rfl : m = n := by simpa [pushNode] using hn
      rw [ahead.inv.pairs_old fills ct List.mem_cons_self]
      exact List.mem_append_left _ (ahead.first rfl m (by simp))
  · rw [← List.append_assoc, ← ahead.log, ← hlog]
    rfl
  · rw [applyWrites_append, ← ahead.disk, ← hdisk]
    rfl
  · apply ahead.rule.append
    exact writeAhead_of_journal (commitWrites_inJournal hbase
      (by rw [hjtail]; exact ahead.inv.jtail) (by rw [hsize, hjtail]; exact fits)
      fun b hb => (hhome b hb).1)

/-- The writes of a flush obey the rule when the transactions it writes are recorded. -/
theorem writeAhead_flush {ms : List NodeId} (base : Base dev J s)
    (recorded : Recorded dev J s txns)
    (home : ∀ b ∈ s.waiting ms, IsHome dev J (s.bufs b).addr)
    (inside : ∀ n ∈ ms, s.pairs (s.nodes n).trans ∈ txns) :
    WriteAhead dev J s.disk (s.flushWrites ms) := by
  apply WriteAhead.append
  · apply writeAhead_of_recorded (fun disk' same => recorded.journalRecords_eq base same)
    · intro w hw
      obtain ⟨b, hb, rfl⟩ := List.mem_map.mp hw
      exact home b hb
    · intro w hw
      obtain ⟨b, hb, rfl⟩ := List.mem_map.mp hw
      obtain ⟨n, hn, hbn⟩ := List.mem_flatMap.mp hb
      exact List.mem_flatten.mpr ⟨_, inside n hn, List.mem_map_of_mem hbn⟩
  · apply writeAhead_of_journal
    intro w hw
    rw [List.mem_singleton.mp hw, base.jsb_addr]
    exact ⟨rfl, le_refl 2, Nat.le_add_left 2 J⟩

/-- A flush of recorded transactions keeps the invariant. -/
theorem Ahead.flushedTo {st' : Bool} {ns' ms : List NodeId} {stop : Option NodeId}
    (ahead : Ahead dev J s₀ s st ns txns ws) (inv : Inv dev J (s.flushedTo ms stop) st' ns')
    (home : ∀ b ∈ s.waiting ms, IsHome dev J (s.bufs b).addr)
    (inside : ∀ n ∈ ms, s.pairs (s.nodes n).trans ∈ txns) (last : st' = false → ns' = []) :
    Ahead dev J s₀ (s.flushedTo ms stop) st' ns' [] (ws ++ s.flushWrites ms) := by
  have hbase := ahead.inv.base
  have hout : s.jsblockBuf ∉ s.waiting ms := fun hmem => hbase.jsb_notHome (home _ hmem)
  refine ⟨inv, Recorded.flushedTo hout, fun hst n hn => ?_, ?_, ?_, ?_⟩
  · rw [last hst] at hn
    simp at hn
  · rw [flushedTo_log hout, ahead.log, List.append_assoc]
  · rw [flushedTo_disk hout, ahead.disk, applyWrites_append]
  · apply ahead.rule.append
    rw [← ahead.disk]
    exact writeAhead_flush hbase ahead.recorded home inside

theorem Ahead.flush (ahead : Ahead dev J s₀ s st ns txns ws) (safe : s.FlushSafe)
    (run : jfullFlush.run s = .ok () t) :
    ∃ st' ns' txns' ws', Ahead dev J s₀ t st' ns' txns' ws' := by
  cases hshape : ahead.inv.shape with
  | idle head =>
    rw [jfullFlush_idle head] at run
    obtain rfl := (EStateM.Result.ok.inj run).2
    exact ⟨_, _, _, _, ahead⟩
  | @one n =>
    obtain ⟨hrun, hinv⟩ := ahead.inv.flush
    rw [hrun] at run
    obtain rfl := (EStateM.Result.ok.inj run).2
    refine ⟨_, _, _, _, ahead.flushedTo hinv ahead.inv.home ?_ fun _ => rfl⟩
    simpa using ahead.first rfl n (by simp)
  | @two n m =>
    obtain ⟨hrun, hinv⟩ := ahead.inv.flush
    rw [hrun] at run
    obtain rfl := (EStateM.Result.ok.inj run).2
    refine ⟨_, _, _, _, ahead.flushedTo hinv (fun b hb => ahead.inv.home b ?_) ?_ (by simp)⟩
    · simp only [waiting, List.flatMap_cons, List.flatMap_nil, List.append_nil] at hb ⊢
      exact List.mem_append_left _ hb
    · simpa using ahead.first rfl n (by simp)
  | @stale h tail m head htail hne next last =>
    -- the head is not null and not the tail, so it is the node behind the tail
    have hclean : (s.nodes tail).next = some h := by
      rcases safe with hs | hs | hs
      · simp [head] at hs
      · simp [head, htail, hne] at hs
      · simpa [head, htail] using hs.symm
    obtain ⟨hrun, hinv⟩ := ahead.inv.flush_stale htail hclean
    rw [hrun] at run
    obtain rfl := (EStateM.Result.ok.inj run).2
    exact ⟨_, _, _, _, ahead.flushedTo hinv (by simp [waiting]) (by simp) (by simp)⟩

end Steps

section Runs

variable {dev J : Nat} {s₀ s : Bio} {cs : List Call}

/-- In every run in which all flushes start in a safe state, a write outside the
journal comes when the journal on disk already holds, between `head_block` and
`tail_block`, a record of that sector with that data. -/
theorem home_write_recorded (start : Start dev J s₀)
    (empty : JsBlock.tailBlock s₀.jsb ≤ 3) (run : Run (SafeStep dev J) s₀ cs s)
    {pre post : List (BlockAddr × Block)} {w : BlockAddr × Block}
    (log : s.log = s₀.log ++ (pre ++ w :: post)) (outside : ¬ InJournal dev J w.1) :
    w ∈ (journalRecords dev (applyWrites pre s₀.disk)).flatten := by
  obtain ⟨st, ns, txns, ws, ahead⟩ : ∃ st ns txns ws, Ahead dev J s₀ s st ns txns ws := by
    refine Run.invariant (motive := fun _ s => ∃ st ns txns ws, Ahead dev J s₀ s st ns txns ws)
      ⟨false, [], [], [], start.inv, ?_, by simp, by simp, rfl, trivial⟩ ?_ run
    · have hjtail : s₀.jtailBnum = 3 := by
        apply start.inv.jtail_idle
        cases hshape : start.inv.shape with
        | idle head => exact head
      exact ⟨trivial, hjtail, Nat.zero_le J, Or.inr ⟨rfl, empty⟩⟩
    · rintro cs c s t ⟨st, ns, txns, ws, ahead⟩ ⟨step, safe⟩
      cases c with
      | trans vs =>
        obtain ⟨ns', txns', ws', h⟩ := ahead.trans step
        exact ⟨_, _, _, _, h⟩
      | flush => exact ahead.flush (safe rfl) step.2
  have hws : ws = pre ++ w :: post := List.append_cancel_left (ahead.log.symm.trans log)
  exact WriteAhead.mem (hws ▸ ahead.rule) outside

/-- A commit and a flush: the fourth write goes home, and its record is there. -/
theorem home_write_recorded_example :
    let s := runCalls [oneBlock 300, .flush] (Bio.mounted 1 200 jinit)
    ∃ pre w post, s.log = pre ++ w :: post ∧ w.1 = ⟨1, 300⟩ ∧
      w ∈ (journalRecords 1 (applyWrites pre (Bio.mounted 1 200 jinit).disk)).flatten := by
  intro s
  have hrun : Run (SafeStep 1 200) (Bio.mounted 1 200 jinit) [oneBlock 300, .flush] s :=
    run_of_replays (fun c s => decide (c.Legal 1 200 s ∧ s.FlushSafe))
      (fun c s t h hok => ⟨⟨(of_decide_eq_true h).1, hok⟩, fun _ => (of_decide_eq_true h).2⟩)
      (by decide +kernel)
  have hfourth : s.log[3]?.map Prod.fst = some ⟨1, 300⟩ := by decide +kernel
  have hempty : JsBlock.tailBlock (Bio.mounted 1 200 jinit).jsb ≤ 3 := by decide +kernel
  clear_value s
  obtain ⟨w, hw, haddr⟩ := Option.map_eq_some_iff.mp hfourth
  obtain ⟨hlen, rfl⟩ := List.getElem?_eq_some_iff.mp hw
  have hlog : s.log = s.log.take 3 ++ s.log[3] :: s.log.drop 4 := by
    rw [← List.drop_eq_getElem_cons hlen, List.take_append_drop]
  refine ⟨_, _, _, hlog, haddr,
    home_write_recorded jinit_start hempty hrun (hlog.trans (List.nil_append _).symm) ?_⟩
  rw [haddr]
  exact fun h => absurd h.2.2 (by decide)

/-- Without the restriction the rule is broken: two commits, a flush, and one more
commit leave a journal that records only the last transaction, and the next flush
starts by writing the second transaction home. -/
theorem home_write_unrecorded :
    let cs := [oneBlock 300, oneBlock 301, .flush, oneBlock 302]
    let s := runCalls cs (Bio.mounted 1 200 jinit)
    Start 1 200 (Bio.mounted 1 200 jinit) ∧ JsBlock.tailBlock (Bio.mounted 1 200 jinit).jsb ≤ 3 ∧
      Run (CallStep 1 200) (Bio.mounted 1 200 jinit) cs s ∧
      (journalRecords 1 s.disk).map (fun txn => txn.map Prod.fst) = [[⟨1, 302⟩]] ∧
      ((endState (jfullFlush.run s)).log.drop s.log.length).map Prod.fst = [⟨1, 301⟩] := by
  refine ⟨jinit_start, by decide +kernel, ?_, by decide +kernel, by decide +kernel⟩
  exact run_of_replays (fun c s => decide (c.Legal 1 200 s))
    (fun c s t htest hok => ⟨of_decide_eq_true htest, hok⟩) (by decide +kernel)

end Runs

end Xv6
