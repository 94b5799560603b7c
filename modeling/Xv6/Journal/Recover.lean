/-
# Reading the journal back

`pbjFSck` on a machine that has just started: it reads the super block and the whole
journal into the first buffers of the cache, walks over the records, gives every data
block its home sector and collects the transactions on the pending list.
-/

import Xv6.Journal.Pending

namespace Xv6

open Math Bio

/-- Buffer `b` as `pbjFSck` holds it: the contents of journal block `b`, and the sector
and dirty flag that the scanning loop may change. -/
def readBuf (dev : Nat) (disk : BlockAddr → Block) (b : Nat) (dirty : Bool) (sector : Nat) : Buf :=
  ⟨true, true, dirty, ⟨dev, sector⟩, 0, disk ⟨dev, b + 2⟩⟩

namespace Bio

/-- A started machine that has read `n` sectors from the journal super block on. -/
def reading (dev : Nat) (disk : BlockAddr → Block) (n : Nat) : Bio :=
  { Bio.boot disk with
    bufs := fun b : Nat =>
      if b < n then readBuf dev disk b false (b + 2) else Buf.unused }

/-- The effect of giving the `n` data blocks behind the header at index `k` their
home sectors. -/
def retargeted (s : Bio) (jt : Block) (k n : Nat) : Bio :=
  { s with
    bufs := fun b : Nat =>
      if k + 2 ≤ b ∧ b < k + 2 + n then
        { s.bufs b with
          addr := ⟨(s.bufs b).addr.dev, JTrans.blocklist jt (b - (k + 2))⟩, dirty := true }
      else s.bufs b }

end Bio

/-- The buffers of the journal blocks, in order. -/
def journalBufs (J : Nat) : List BufId := List.range' 1 J

variable {i n b k : Nat}

section Reading

variable {dev J : Nat} {disk : BlockAddr → Block}

theorem journalBufs_getElem? (hi : i < J) : (journalBufs J)[i]? = some (i + 1) := by
  rw [journalBufs, List.getElem?_range' hi]
  congr 1
  omega

theorem reading_zero (dev : Nat) : Bio.boot disk = Bio.reading dev disk 0 := by
  simp only [Bio.reading, Nat.not_lt_zero, if_false]
  rfl

theorem reading_bufs_of_lt (hb : b < n) :
    (Bio.reading dev disk n).bufs b = readBuf dev disk b false (b + 2) := if_pos hb

theorem reading_bufs_of_le (hb : n ≤ b) :
    (Bio.reading dev disk n).bufs b = Buf.unused := if_neg (Nat.not_lt.mpr hb)

theorem bread_reading (room : n < NBUF) :
    (bread ⟨dev, n + 2⟩).run (Bio.reading dev disk n) =
      .ok n (Bio.reading dev disk (n + 1)) := by
  have hmiss : (Bio.reading dev disk n).cached ⟨dev, n + 2⟩ = none := by
    rw [Bio.cached_none_iff]
    intro c _ hlive heq
    rcases Nat.lt_or_ge c n with hc | hc
    · rw [reading_bufs_of_lt hc] at heq
      have haddr : c + 2 = n + 2 := (BlockAddr.mk.inj heq).2
      exact absurd (Nat.add_right_cancel haddr) hc.ne
    · rw [reading_bufs_of_le hc] at hlive
      cases hlive
  have hvictim : (Bio.reading dev disk n).victim = some n := by
    have hlru : (Bio.reading dev disk n).lru = (List.range NBUF).reverse := binitLru_eq
    rw [Bio.victim, hlru, List.reverse_reverse, List.find?_range_eq_some]
    refine ⟨?_, List.mem_range.mpr room, fun j hj => ?_⟩
    · rw [reading_bufs_of_le (le_refl n)]
      rfl
    · rw [reading_bufs_of_lt hj]
      rfl
  rw [bread_miss hmiss hvictim]
  congr 1
  apply Bio.ext
  case bufs =>
    funext c
    change (Function.update _ n _) c = _
    rcases lt_trichotomy c n with hc | rfl | hc
    · rw [Function.update_of_ne hc.ne, reading_bufs_of_lt hc,
        reading_bufs_of_lt (Nat.lt_succ_of_lt hc)]
    · rw [Function.update_self, reading_bufs_of_le (le_refl c),
        reading_bufs_of_lt (Nat.lt_succ_self c)]
      rfl
    · rw [Function.update_of_ne hc.ne', reading_bufs_of_le hc.le, reading_bufs_of_le hc]
  all_goals rfl

theorem mapM_bread_reading (room : k + n + 1 ≤ NBUF) :
    ((List.range' k n).mapM fun bnum => bread ⟨dev, bnum + 3⟩).run
        (Bio.reading dev disk (k + 1)) =
      .ok (List.range' (k + 1) n) (Bio.reading dev disk (k + n + 1)) := by
  induction n generalizing k with
  | zero => rfl
  | succ n ih =>
    have hread : (bread ⟨dev, k + 3⟩).run (Bio.reading dev disk (k + 1)) =
        .ok (k + 1) (Bio.reading dev disk (k + 1 + 1)) := bread_reading (by omega)
    rw [List.range'_succ, List.mapM_cons, run_bind_of_ok hread,
      run_bind_of_ok (ih (by omega)), EStateM.run_pure, List.range'_succ,
      show k + 1 + n + 1 = k + (n + 1) + 1 by omega]

/-- Reading the journal fills the first buffers with it. -/
theorem readJournal_run (size : JsBlock.size (disk ⟨dev, 2⟩) = J) (room : J + 1 ≤ NBUF) :
    (readJournal dev).run (Bio.boot disk) =
      .ok (journalBufs J) (Bio.reading dev disk (J + 1)) := by
  have hfirst : (bread ⟨dev, 2⟩).run (Bio.boot disk) = .ok 0 (Bio.reading dev disk 1) := by
    rw [reading_zero dev]
    exact bread_reading (n := 0) (by decide)
  have hsize : JsBlock.size (Bio.reading dev disk 1).jsb = J := size
  have hrest : ((List.range' 0 J).mapM fun bnum => bread ⟨dev, bnum + 3⟩).run
      (Bio.reading dev disk (0 + 1)) =
        .ok (List.range' (0 + 1) J) (Bio.reading dev disk (0 + J + 1)) :=
    mapM_bread_reading (by omega)
  rw [Nat.zero_add, Nat.zero_add] at hrest
  rw [readJournal, run_bind_of_ok hfirst, run_modify_bind, run_get_bind]
  change ((List.range (JsBlock.size (Bio.reading dev disk 1).jsb)).mapM
    fun bnum => bread ⟨dev, bnum + 3⟩ : BioM (List BufId)).run (Bio.reading dev disk 1) = _
  rw [hsize, List.range_eq_range']
  exact hrest

end Reading

/-! ### One record -/

section Retarget

variable {J k : Nat} {s : Bio} {jt : Block}

theorem sub32_of_le {a : Nat} (le : b ≤ a) (lt : a < 2 ^ 32) : sub32 a b = a - b := by
  have hb : b % 2 ^ 32 = b := Nat.mod_eq_of_lt (lt_of_le_of_lt le lt)
  rw [sub32, hb, show a + (2 ^ 32 - b) = a - b + 2 ^ 32 by omega, Nat.add_mod_right,
    Nat.mod_eq_of_lt (by omega)]

theorem retargeted_zero : s.retargeted jt k 0 = s := by
  apply Bio.ext
  case bufs =>
    funext b
    exact if_neg (by omega)
  all_goals rfl

theorem retarget_run (jt : Block) (room : k + 1 + n < J) :
    (retarget (journalBufs J) (k + 1 + n) (JTrans.blocklist jt n)).run (s.retargeted jt k n) =
      .ok (k + 2 + n) (s.retargeted jt k (n + 1)) := by
  have hget : (journalBufs J)[k + 1 + n]? = some (k + 2 + n) := by
    rw [journalBufs_getElem? room]
    congr 1
    omega
  have hself : (s.retargeted jt k n).bufs (k + 2 + n) = s.bufs (k + 2 + n) :=
    if_neg (by omega)
  simp only [retarget, hget, run_modify_bind, EStateM.run_pure]
  congr 1
  apply Bio.ext
  case bufs =>
    refine funext fun (b : Nat) => ?_
    change Function.update (s.retargeted jt k n).bufs (k + 2 + n) _ b = _
    by_cases hb : b = k + 2 + n
    · subst hb
      rw [Function.update_self, hself]
      refine Eq.trans ?_ (if_pos (by omega)).symm
      rw [show k + 2 + n - (k + 2) = n by omega]
    · rw [Function.update_of_ne hb]
      by_cases hin : k + 2 ≤ b ∧ b < k + 2 + n
      · exact (if_pos hin).trans (if_pos (by omega)).symm
      · exact (if_neg hin).trans (if_neg (by omega)).symm
  all_goals rfl

theorem mapM_retarget_run (jt : Block) {m : Nat} (room : k + 2 + i + m ≤ J)
    (short : i + m + 1 ≤ JTrans.capacity) :
    ((List.range' i m).mapM fun i => do
        let sector ← blocklistEntry jt (i + 1)
        retarget (journalBufs J) (k + 2 + i) sector).run (s.retargeted jt k (i + 1)) =
      .ok (List.range' (k + 3 + i) m) (s.retargeted jt k (i + 1 + m)) := by
  induction m generalizing i with
  | zero => rfl
  | succ m ih =>
    have hentry : ∀ t : Bio, (blocklistEntry jt (i + 1)).run t =
        .ok (JTrans.blocklist jt (i + 1)) t := by
      intro t
      rw [blocklistEntry, if_pos (by omega), EStateM.run_pure]
    have hone : (retarget (journalBufs J) (k + 2 + i) (JTrans.blocklist jt (i + 1))).run
        (s.retargeted jt k (i + 1)) = .ok (k + 3 + i) (s.retargeted jt k (i + 1 + 1)) := by
      have := retarget_run (s := s) (J := J) (k := k) jt (n := i + 1) (by omega)
      rw [show k + 1 + (i + 1) = k + 2 + i by omega,
        show k + 2 + (i + 1) = k + 3 + i by omega] at this
      exact this
    rw [List.range'_succ, List.mapM_cons, bind_assoc, run_bind_of_ok (hentry _),
      run_bind_of_ok hone, run_bind_of_ok (ih (by omega) (by omega)), EStateM.run_pure,
      List.range'_succ, show i + 1 + 1 + m = i + 1 + (m + 1) by omega,
      show k + 3 + (i + 1) = k + 3 + i + 1 by omega]

/-- All data blocks of one record get their home sectors. -/
theorem retargetRecord_run (pos : 0 < n) (room : k + 1 + n ≤ J)
    (short : n ≤ JTrans.capacity) {f : BufId → List BufId → BioM Bool} :
    (do
      let first ← retarget (journalBufs J) (k + 1) (JTrans.blocklist jt 0)
      let rest ← (List.range (n - 1)).mapM fun i => do
        let sector ← blocklistEntry jt (i + 1)
        retarget (journalBufs J) (k + 2 + i) sector
      f first rest : BioM Bool).run s =
      (f (k + 2) (List.range' (k + 3) (n - 1))).run (s.retargeted jt k n) := by
  have hfirst := retarget_run (s := s) (J := J) (k := k) jt (n := 0) (by omega)
  rw [retargeted_zero] at hfirst
  have hrest := mapM_retarget_run (s := s) (J := J) (k := k) jt (i := 0) (m := n - 1)
    (by omega) (by omega)
  rw [show 0 + 1 + (n - 1) = n by omega] at hrest
  rw [run_bind_of_ok hfirst, List.range_eq_range', run_bind_of_ok hrest]

end Retarget

/-! ### The scanning loop -/

/-- The state of the scanning loop once it has collected some transactions: node `i`
holds transaction `i`, and the buffers behind the last record are as they were read. -/
structure Scanning (dev : Nat) (disk : BlockAddr → Block) (J : Nat) (s : Bio) (txns : List Txn) :
    Prop where
  -- only the buffers and the pending list differ from a started machine
  frame : { s with
    bufs := (Bio.boot disk).bufs, nodes := (Bio.boot disk).nodes, nextNode := 0
    mtnHead := none, mtnTail := none } = Bio.boot disk
  nextNode : s.nextNode = txns.length
  head : s.mtnHead = if txns = [] then none else some 0
  tail : s.mtnTail = if txns = [] then none else some (txns.length - 1)
  read : ∀ b : Nat, b ≤ J → ∃ dirty sector, s.bufs b = readBuf dev disk b dirty sector
  fresh : ∀ b : Nat, b ≤ J → b ≤ 1 ∨ span txns < b → s.bufs b = readBuf dev disk b false (b + 2)
  others : ∀ b : Nat, J < b → s.bufs b = Buf.unused
  next : ∀ i < txns.length, (s.nodes i).next = if i + 1 < txns.length then some (i + 1) else none
  txns_eq : (List.range txns.length).map (fun i => s.pairs (s.nodes i).trans) = txns
  nodup : (s.waiting (List.range txns.length)).Nodup
  waits : ∀ b : Nat, b ∈ s.waiting (List.range txns.length) →
    1 < b ∧ b ≤ span txns ∧ (s.bufs b).dirty = true

/-- `s` with one more node at the end of the pending list. -/
def Bio.appended (s : Bio) (t : MemTrans) : Bio :=
  { s with
    nodes := fun i =>
      if i = s.nextNode then ⟨t, none⟩
      else if s.mtnTail = some i then { s.nodes i with next := some s.nextNode }
      else s.nodes i
    nextNode := s.nextNode + 1
    mtnHead := if s.mtnTail = none then some s.nextNode else s.mtnHead
    mtnTail := some s.nextNode }

section Scan

variable {dev J : Nat} {disk : BlockAddr → Block} {s : Bio} {txns : List Txn} {txn : Txn}

theorem appendPending_run (t : MemTrans) (tail : s.mtnTail ≠ some s.nextNode) :
    (appendPending t).run s = .ok () (s.appended t) := by
  cases ht : s.mtnTail with
  | none =>
    simp only [appendPending, run_get_bind, run_modify_bind, ht, EStateM.run_modify]
    congr 1
    apply Bio.ext
    case nodes =>
      funext i
      by_cases hi : i = s.nextNode <;> simp [newNode, Bio.appended, ht, hi]
    case mtnHead => simp [Bio.appended, ht]
    all_goals rfl
  | some n =>
    have hn : n ≠ s.nextNode := fun h => tail (h ▸ ht)
    simp only [appendPending, run_get_bind, run_modify_bind, ht, EStateM.run_modify]
    congr 1
    apply Bio.ext
    case nodes =>
      funext i
      by_cases hi : i = s.nextNode
      · subst hi
        simp [newNode, setNext, Bio.appended, hn.symm]
      · by_cases hin : i = n
        · subst hin
          simp [newNode, setNext, Bio.appended, ht, hi]
        · simp [newNode, setNext, Bio.appended, ht, hi, hin, Ne.symm hin]
    case mtnHead =>
      simp [newNode, setNext, Bio.appended, ht]
    all_goals rfl

theorem appended_next (s : Bio) (t : MemTrans) (i : NodeId) :
    ((s.appended t).nodes i).next =
      if i = s.nextNode then none
      else if s.mtnTail = some i then some s.nextNode else (s.nodes i).next := by
  simp only [Bio.appended]
  split
  · rfl
  · split <;> rfl

theorem appended_trans (s : Bio) (t : MemTrans) (i : NodeId) :
    ((s.appended t).nodes i).trans = if i = s.nextNode then t else (s.nodes i).trans := by
  simp only [Bio.appended]
  split
  · rfl
  · split <;> rfl

theorem reading_scanning (dev J : Nat) (disk : BlockAddr → Block) :
    Scanning dev disk J (Bio.reading dev disk (J + 1)) [] where
  frame := rfl
  nextNode := rfl
  head := rfl
  tail := rfl
  read b hb := ⟨_, _, reading_bufs_of_lt (Nat.lt_succ_of_le hb)⟩
  fresh b hb _ := reading_bufs_of_lt (Nat.lt_succ_of_le hb)
  others b hb := reading_bufs_of_le (Nat.succ_le_of_lt hb)
  next i hi := by simp at hi
  txns_eq := rfl
  nodup := List.nodup_nil
  waits b hb := by simp [waiting] at hb

/-- The state after one record. -/
def scanned (s : Bio) (jt : Block) (k n : Nat) : Bio :=
  (s.retargeted jt k n).appended ⟨List.range' (k + 2) n⟩

variable {jt : Block} {rest : List Txn}

theorem scanned_bufs_of_lt (hb : b < k + 2 ∨ k + 2 + n ≤ b) :
    (scanned s jt k n).bufs b = s.bufs b := if_neg (by omega)

theorem scanned_bufs_of_mem (hb : k + 2 ≤ b ∧ b < k + 2 + n) :
    (scanned s jt k n).bufs b =
      { s.bufs b with
        addr := ⟨(s.bufs b).addr.dev, JTrans.blocklist jt (b - (k + 2))⟩, dirty := true } :=
  if_pos hb

/-- The header that the loop looks at is in the buffer after the last record. -/
theorem Scanning.header (sc : Scanning dev disk J s txns) (room : span txns < J) :
    (s.bufs (span txns + 1)).data = disk ⟨dev, 3 + span txns⟩ := by
  rw [sc.fresh _ (by omega) (by omega), show 3 + span txns = span txns + 1 + 2 by omega]
  rfl

/-- The contents of the node that is added for a record. -/
theorem Scanning.pairs_new (sc : Scanning dev disk J s txns)
    (room : span txns + 1 + n ≤ J) (jt : Block) :
    (scanned s jt (span txns) n).pairs ⟨List.range' (span txns + 2) n⟩ =
      (List.range n).map fun i =>
        (⟨dev, JTrans.blocklist jt i⟩, disk ⟨dev, 3 + span txns + 1 + i⟩) := by
  apply List.ext_getElem
  · simp [Bio.pairs]
  · intro i hi _
    have hi' : i < n := by simpa [Bio.pairs] using hi
    simp only [Bio.pairs, List.getElem_map, List.getElem_range', List.getElem_range, one_mul]
    rw [scanned_bufs_of_mem (by omega), sc.fresh _ (by omega) (by omega)]
    rw [show span txns + 2 + i - (span txns + 2) = i by omega]
    change (_, disk ⟨dev, span txns + 2 + i + 2⟩) = _
    rw [show span txns + 2 + i + 2 = 3 + span txns + 1 + i by omega]
    rfl

/-- Nodes collected before keep their transactions. -/
theorem Scanning.scanned_trans (sc : Scanning dev disk J s txns) (hi : i < txns.length) :
    ((scanned s jt (span txns) n).nodes i).trans = (s.nodes i).trans := by
  have hne : i ≠ s.nextNode := by
    rw [sc.nextNode]
    omega
  exact (appended_trans ..).trans (if_neg hne)

theorem Scanning.scanned_trans_new (sc : Scanning dev disk J s txns) :
    ((scanned s jt (span txns) n).nodes txns.length).trans =
      ⟨List.range' (span txns + 2) n⟩ :=
  (appended_trans ..).trans (if_pos sc.nextNode.symm)

/-- The nodes stay linked in order. -/
theorem Scanning.scanned_next (sc : Scanning dev disk J s txns) (hi : i < txns.length + 1) :
    ((scanned s jt (span txns) n).nodes i).next =
      if i + 1 < txns.length + 1 then some (i + 1) else none := by
  have hnext := sc.nextNode
  refine (appended_next ..).trans ?_
  change (if i = s.nextNode then none else if s.mtnTail = some i then some s.nextNode
    else (s.nodes i).next) = _
  rw [hnext, sc.tail]
  rcases Nat.lt_succ_iff_lt_or_eq.mp hi with hi | rfl
  · have hne : txns ≠ [] := by
      rintro rfl
      simp at hi
    rw [if_neg hi.ne, if_neg hne, if_pos (Nat.succ_lt_succ hi)]
    by_cases hlast : txns.length - 1 = i
    · rw [if_pos (congrArg some hlast), show txns.length = i + 1 by omega]
    · rw [if_neg fun h => hlast (Option.some.inj h), sc.next i hi, if_pos (by omega)]
  · rw [if_pos rfl, if_neg (lt_irrefl _)]

theorem Scanning.scanned_waiting (sc : Scanning dev disk J s txns) (jt : Block) (n : Nat) :
    (scanned s jt (span txns) n).waiting (List.range (txns.length + 1)) =
      s.waiting (List.range txns.length) ++ List.range' (span txns + 2) n := by
  rw [List.range_succ, waiting, List.flatMap_append, List.flatMap_singleton,
    sc.scanned_trans_new]
  congr 1
  apply List.flatMap_congr
  intro i hi
  rw [sc.scanned_trans (List.mem_range.mp hi)]

/-- One round of the loop keeps its invariant. -/
theorem Scanning.step (sc : Scanning dev disk J s txns)
    (holds : Holds dev disk (3 + span txns) [txn]) (room : span txns + txn.length + 1 ≤ J) :
    Scanning dev disk J (scanned s (disk ⟨dev, 3 + span txns⟩) (span txns) txn.length)
      (txns ++ [txn]) := by
  obtain ⟨nonempty, -, -, count, record, -⟩ := holds
  have hpos := List.length_pos_iff.mpr nonempty
  have hspan : span (txns ++ [txn]) = span txns + txn.length + 1 := by
    rw [span_append, span, span]
    omega
  have hlen : (txns ++ [txn]).length = txns.length + 1 := by simp
  have hnext := sc.nextNode
  have hwaiting := sc.scanned_waiting (disk ⟨dev, 3 + span txns⟩) txn.length
  refine
    { frame := sc.frame
      nextNode := (congrArg (· + 1) hnext).trans hlen.symm
      head := ?_
      tail := ?_
      read := fun b hb => ?_
      fresh := fun b hb hlow => ?_
      others := fun b hb => ?_
      next := fun i hi => ?_
      txns_eq := ?_
      nodup := ?_
      waits := fun b hb => ?_ }
  · change (if s.mtnTail = none then some s.nextNode else s.mtnHead) = _
    rw [sc.tail, sc.head, hnext]
    cases txns <;> simp
  · change some s.nextNode = _
    rw [hnext]
    simp
  · obtain ⟨dirty, sector, hbuf⟩ := sc.read b hb
    by_cases hin : span txns + 2 ≤ b ∧ b < span txns + 2 + txn.length
    · rw [scanned_bufs_of_mem hin, hbuf]
      exact ⟨_, _, rfl⟩
    · rw [scanned_bufs_of_lt (by omega), hbuf]
      exact ⟨_, _, rfl⟩
  · rw [hspan] at hlow
    rw [scanned_bufs_of_lt (by omega)]
    exact sc.fresh b hb (by omega)
  · rw [scanned_bufs_of_lt (by omega)]
    exact sc.others b hb
  · rw [hlen] at hi ⊢
    exact sc.scanned_next hi
  · rw [hlen, List.range_succ, List.map_append, List.map_singleton]
    congr 1
    · refine Eq.trans (List.map_congr_left fun i hi => ?_) sc.txns_eq
      rw [sc.scanned_trans (List.mem_range.mp hi)]
      apply List.map_congr_left
      intro b hb
      have hb' : b ∈ s.waiting (List.range txns.length) := List.mem_flatMap.mpr ⟨i, hi, hb⟩
      have := (sc.waits b hb').2.1
      rw [scanned_bufs_of_lt (by omega)]
    · rw [sc.scanned_trans_new, sc.pairs_new (by omega), ← count]
      exact congrArg (fun x => [x]) record
  · rw [hlen, hwaiting, List.nodup_append]
    refine ⟨sc.nodup, List.nodup_range', fun a ha c hc heq => ?_⟩
    have := (sc.waits a ha).2.1
    have := (List.mem_range'_1.mp hc).1
    subst heq
    omega
  · rw [hlen, hwaiting] at hb
    rw [hspan]
    rcases List.mem_append.mp hb with hb | hb
    · have := sc.waits b hb
      rw [scanned_bufs_of_lt (by omega)]
      exact ⟨this.1, by omega, this.2.2⟩
    · have := List.mem_range'_1.mp hb
      rw [scanned_bufs_of_mem (by omega)]
      exact ⟨by omega, by omega, rfl⟩

theorem Scanning.jsb_eq (sc : Scanning dev disk J s txns) : s.jsb = disk ⟨dev, 2⟩ := by
  have hzero : s.jsblockBuf = 0 := congrArg Bio.jsblockBuf sc.frame
  rw [Bio.jsb, hzero, sc.fresh 0 (Nat.zero_le J) (by omega)]
  rfl

/-- The bound of the loop, counted in journal blocks. -/
theorem Scanning.bound (sc : Scanning dev disk J s txns) {m : Nat} (pos : 0 < m)
    (last : JsBlock.tailBlock (disk ⟨dev, 2⟩) + 1 = 3 + m) :
    sub32 (JsBlock.tailBlock s.jsb) 3 + 1 = m := by
  have hlt : JsBlock.tailBlock (disk ⟨dev, 2⟩) < 2 ^ 32 := Block.word_lt _ _
  rw [sc.jsb_eq, sub32_of_le (by omega) hlt]
  omega

/-- Only the data blocks of the first `n` collected transactions are dirty. -/
def OnlyWaitingDirty (s : Bio) (n : Nat) : Prop :=
  ∀ b : Nat, (s.bufs b).dirty = true → b ∈ s.waiting (List.range n)

theorem Scanning.step_dirty (sc : Scanning dev disk J s txns) (jt : Block) (n : Nat)
    (only : OnlyWaitingDirty s txns.length) :
    OnlyWaitingDirty (scanned s jt (span txns) n) (txns.length + 1) := by
  intro b hdirty
  rw [sc.scanned_waiting, List.mem_append]
  by_cases hin : span txns + 2 ≤ b ∧ b < span txns + 2 + n
  · exact Or.inr (List.mem_range'_1.mpr hin)
  · rw [scanned_bufs_of_lt (by omega)] at hdirty
    exact Or.inl (only b hdirty)

theorem reading_onlyWaitingDirty (dev J : Nat) (disk : BlockAddr → Block) :
    OnlyWaitingDirty (Bio.reading dev disk (J + 1)) 0 := by
  intro b hdirty
  rcases Nat.lt_or_ge b (J + 1) with hb | hb
  · rw [reading_bufs_of_lt hb] at hdirty
    cases hdirty
  · rw [reading_bufs_of_le hb] at hdirty
    cases hdirty

/-- Collecting one transaction more. -/
theorem Scanning.appendPending (sc : Scanning dev disk J s txns) (jt : Block) (n : Nat) :
    (Xv6.appendPending ⟨List.range' (span txns + 2) n⟩).run (s.retargeted jt (span txns) n) =
      .ok () (scanned s jt (span txns) n) := by
  apply appendPending_run
  change s.mtnTail ≠ some s.nextNode
  rw [sc.tail, sc.nextNode]
  split
  · simp
  next hne =>
    have := List.length_pos_iff.mpr hne
    intro h
    have := Option.some.inj h
    omega

/-- The loop walks over the records that start before the tail. -/
theorem scanJournal_prefix (fuel : Nat) (sc : Scanning dev disk J s txns)
    (holds : Holds dev disk (3 + span txns) rest) (room : span txns + span rest ≤ J)
    (before : 3 + (span txns + span rest) ≤ JsBlock.tailBlock (disk ⟨dev, 2⟩) + 1) :
    ∃ t, (scanJournal (journalBufs J) (fuel + rest.length) (span txns)).run s =
        (scanJournal (journalBufs J) fuel (span (txns ++ rest))).run t ∧
      Scanning dev disk J t (txns ++ rest) ∧
      (OnlyWaitingDirty s txns.length → OnlyWaitingDirty t (txns ++ rest).length) := by
  induction rest generalizing s txns with
  | nil =>
    rw [List.append_nil]
    exact ⟨s, rfl, sc, id⟩
  | cons txn rest ih =>
    have hsplit := holds_append.mp (show Holds dev disk (3 + span txns) ([txn] ++ rest) from holds)
    obtain ⟨nonempty, short, magic, count, -, -⟩ := hsplit.1
    have hlen := List.length_pos_iff.mpr nonempty
    rw [span] at room before
    have hone : span [txn] = txn.length + 1 := rfl
    have hspan : span (txns ++ [txn]) = span txns + txn.length + 1 := by
      rw [span_append, hone]
      omega
    -- the block numbers stay below the tail, so none of them wraps
    have hlt : JsBlock.tailBlock (disk ⟨dev, 2⟩) < 2 ^ 32 := Block.word_lt _ _
    have hbound : sub32 (JsBlock.tailBlock s.jsb) 3 = JsBlock.tailBlock (disk ⟨dev, 2⟩) - 3 := by
      rw [sc.jsb_eq, sub32_of_le (by omega) hlt]
    have hcount : (span txns + txn.length) % 2 ^ 32 - (span txns + 1) = txn.length - 1 := by
      rw [Nat.mod_eq_of_lt (by omega)]
      omega
    have hnext : (span txns + txn.length + 1) % 2 ^ 32 = span (txns ++ [txn]) := by
      rw [hspan, Nat.mod_eq_of_lt (by omega)]
    have hcons : (span txns + 2) :: List.range' (span txns + 3) (txn.length - 1) =
        List.range' (span txns + 2) txn.length := by
      obtain ⟨n, hn⟩ := Nat.exists_eq_add_of_lt hlen
      rw [hn, Nat.zero_add, List.range'_succ]
      rfl
    obtain ⟨t, hrun, ht, hdirty⟩ := ih (sc.step hsplit.1 (by omega))
      (by rw [hspan, show 3 + (span txns + txn.length + 1) = 3 + span txns + span [txn] by
            rw [hone]; omega]
          exact hsplit.2)
      (by rw [hspan]; omega) (by rw [hspan]; omega)
    rw [List.append_assoc, List.singleton_append] at hrun ht hdirty
    refine ⟨t, ?_, ht, fun only => hdirty ?_⟩
    · rw [List.length_cons, ← Nat.add_assoc, scanJournal, run_get_bind, run_ite,
        if_pos (by omega), journalBufs_getElem? (by omega)]
      simp only [sc.header (by omega), count, hcount]
      rw [retargetRecord_run hlen (by omega) short]
      simp only [magic, if_true]
      rw [hcons, run_bind_of_ok (sc.appendPending ..), hnext]
      exact hrun
    · rw [List.length_append, List.length_singleton]
      exact sc.step_dirty _ _ only

/-- The loop collects all records that are left and stops. -/
theorem scanJournal_run {fuel : Nat} (sc : Scanning dev disk J s txns)
    (holds : Holds dev disk (3 + span txns) rest) (room : span txns + span rest ≤ J)
    (last : JsBlock.tailBlock (disk ⟨dev, 2⟩) + 1 = 3 + (span txns + span rest))
    (some_rest : txns ≠ [] ∨ rest ≠ []) (enough : rest.length < fuel) :
    ∃ t, (scanJournal (journalBufs J) fuel (span txns)).run s = .ok true t ∧
      Scanning dev disk J t (txns ++ rest) ∧
      (OnlyWaitingDirty s txns.length → OnlyWaitingDirty t (txns ++ rest).length) := by
  have hpos : 0 < span txns + span rest := by
    have h1 := length_le_span txns
    have h2 := length_le_span rest
    rcases some_rest with h | h <;> have := List.length_pos_iff.mpr h <;> omega
  obtain ⟨left, rfl⟩ : ∃ left, fuel = left + 1 + rest.length :=
    ⟨fuel - rest.length - 1, by omega⟩
  obtain ⟨t, hrun, ht, hdirty⟩ := scanJournal_prefix (left + 1) sc holds room (by omega)
  have hbound := ht.bound (m := span txns + span rest) hpos last
  refine ⟨t, ?_, ht, hdirty⟩
  rw [hrun, scanJournal, run_get_bind, run_ite, if_neg (by rw [span_append]; omega),
    EStateM.run_pure]

/-- What `pbjFSck` collects from a started machine. -/
theorem collectJournal_run
    (head : JsBlock.headBlock (disk ⟨dev, 2⟩) = 3) (holds : Holds dev disk 3 rest)
    (room : span rest ≤ J)
    (last : JsBlock.tailBlock (disk ⟨dev, 2⟩) + 1 = 3 + span rest ∨
      (rest = [] ∧ JsBlock.tailBlock (disk ⟨dev, 2⟩) ≤ 3)) :
    ∃ t, (collectJournal (journalBufs J)).run (Bio.reading dev disk (J + 1)) = .ok true t ∧
      Scanning dev disk J t rest ∧ OnlyWaitingDirty t rest.length := by
  have hsc := reading_scanning dev J disk
  have hjsb := hsc.jsb_eq
  rw [collectJournal, run_get_bind, run_ite, hjsb, head]
  cases rest with
  | nil =>
    have htail : ¬ 3 < JsBlock.tailBlock (disk ⟨dev, 2⟩) := by
      rcases last with h | ⟨-, h⟩
      · rw [span] at h
        omega
      · omega
    rw [if_neg htail]
    exact ⟨_, rfl, hsc, reading_onlyWaitingDirty dev J disk⟩
  | cons txn rest =>
    have hlast := last.resolve_right fun h => by simp at h
    have hpos : 0 < txn.length := List.length_pos_iff.mpr holds.1
    have hlen := length_le_span (txn :: rest)
    have hfirst : sub32 3 3 = span [] := rfl
    have hfuel : (journalBufs J).length + 1 = J + 1 := by simp [journalBufs]
    rw [if_pos (by rw [span] at hlast; omega), hfirst, hfuel]
    have hnil : span ([] : List Txn) = 0 := rfl
    obtain ⟨t, hrun, ht, hdirty⟩ := scanJournal_run hsc holds (by omega) (by omega)
      (Or.inr (by simp)) (show (txn :: rest).length < J + 1 by omega)
    exact ⟨t, hrun, ht, hdirty (reading_onlyWaitingDirty dev J disk)⟩

end Scan

end Xv6
