/-
# The invariant of the pending list

Between calls the pending list has one of four shapes. `end_trans` puts a new node
after the tail and leaves the tail pointer where it was; `jfull_flush` stops after
the tail. So at most two nodes can be reached from the head, and once a flush has
left a node behind, the head has overtaken the tail for good.
-/

import Xv6.Journal.Calls

namespace Xv6

open Math Bio

/-- The part of the state that is the same between all calls: the two journal
buffers are held and nobody commits. -/
structure Base (dev J : Nat) (s : Bio) : Prop where
  unlocked : s.transWriteLock = false
  separate : s.jtransHeaderBuf ≠ s.jsblockBuf
  jsb_busy : (s.bufs s.jsblockBuf).busy = true
  jsb_addr : (s.bufs s.jsblockBuf).addr = ⟨dev, 2⟩
  header_busy : (s.bufs s.jtransHeaderBuf).busy = true
  header_addr : (s.bufs s.jtransHeaderBuf).addr = ⟨dev, 3⟩
  size : JsBlock.size s.jsb = J
  head : JsBlock.headBlock s.jsb = 3
  super : s.disk ⟨dev, 2⟩ = s.jsb
  untested : s.shouldPanic = 0
  bounded : 0 < J ∧ J + 3 < 2 ^ 32

/-- The pending nodes whose buffers are still to be written home. The flag tells
whether the head has overtaken the tail. -/
inductive Shape (s : Bio) : Bool → List NodeId → Prop
  | idle : s.mtnHead = none → Shape s false []
  | one {n : NodeId} : s.mtnHead = some n → s.mtnTail = some n → (s.nodes n).next = none →
      Shape s false [n]
  | two {n m : NodeId} : s.mtnHead = some n → s.mtnTail = some n → n ≠ m →
      (s.nodes n).next = some m → (s.nodes m).next = none → Shape s false [n, m]
  | stale {h t m : NodeId} : s.mtnHead = some h → s.mtnTail = some t → h ≠ t →
      (s.nodes t).next = some m → (s.nodes h).next = none → Shape s true [h]

/-- The invariant between calls. -/
structure Inv (dev J : Nat) (s : Bio) (overtaken : Bool) (ns : List NodeId) : Prop where
  base : Base dev J s
  ct : s.ct = MemTrans.empty
  shape : Shape s overtaken ns
  known : ∀ n ∈ ns, n < s.nextNode
  tail_known : ∀ n, s.mtnTail = some n → n < s.nextNode
  jtail : 3 ≤ s.jtailBnum
  jtail_idle : s.mtnHead = none → s.jtailBnum = 3
  ready : s.Flushable (s.waiting ns)
  home : ∀ b ∈ s.waiting ns, IsHome dev J (s.bufs b).addr

/-- The pending nodes after a commit: a node that was behind the first is dropped. -/
def pushNode : List NodeId → NodeId → List NodeId
  | [], k => [k]
  | n :: _, k => [n, k]

variable {c : BufId}

section Commit

variable {s u : Bio}

theorem committed_bufs_of_notMem (jsb : c ≠ s.jsblockBuf)
    (header : c ≠ s.jtransHeaderBuf) (outside : c ∉ s.ct.bufs) : s.committed.bufs c = s.bufs c := by
  change s.committedBufs c = _
  rw [committedBufs, if_neg jsb, if_neg header, if_neg outside]

theorem committed_bufs_of_mem (jsb : c ≠ s.jsblockBuf)
    (header : c ≠ s.jtransHeaderBuf) (inside : c ∈ s.ct.bufs) :
    s.committed.bufs c =
      { s.bufs c with busy := true, valid := true, dirty := true, faliable := s.shouldPanic } := by
  change s.committedBufs c = _
  rw [committedBufs, if_neg jsb, if_neg header, if_pos inside]

theorem committed_bufs_jsb :
    s.committed.bufs s.jsblockBuf =
      { s.bufs s.jsblockBuf with
        valid := true, dirty := false
        data := JsBlock.setTail s.jsb (s.jtailBnum + s.ct.size) } := by
  change s.committedBufs s.jsblockBuf = _
  rw [committedBufs, if_pos rfl]

theorem committed_bufs_header (separate : s.jtransHeaderBuf ≠ s.jsblockBuf) :
    s.committed.bufs s.jtransHeaderBuf =
      { s.bufs s.jtransHeaderBuf with
        busy := true, valid := true, dirty := false, data := s.headerBlock } := by
  change s.committedBufs s.jtransHeaderBuf = _
  rw [committedBufs, if_neg separate, if_pos rfl]

/-- A commit does not change where buffers live. -/
@[simp] theorem committed_addr (s : Bio) (c : BufId) :
    (s.committed.bufs c).addr = (s.bufs c).addr := by
  change (s.committedBufs c).addr = _
  unfold committedBufs
  split
  · rfl
  · split
    · rfl
    · split <;> rfl

theorem committed_jsb : s.committed.jsb = JsBlock.setTail s.jsb (s.jtailBnum + s.ct.size) :=
  congrArg Buf.data committed_bufs_jsb

theorem IsHome.sector_ne {dev J : Nat} {a : BlockAddr} (home : IsHome dev J a) {k : Nat}
    (journal : 2 ≤ k ∧ k ≤ J + 2) : a ≠ ⟨dev, k⟩ := by
  rintro rfl
  rcases home.2.1 with h | h
  · exact absurd journal.1 (not_le.mpr h)
  · exact absurd journal.2 (not_le.mpr h)

end Commit

section Fill

variable {dev J : Nat} {s u : Bio} {st : Bool} {ns : List NodeId} {ws : Txn} {bs : List BufId}

theorem Base.jsb_notHome (base : Base dev J s) :
    ¬ IsHome dev J (s.bufs s.jsblockBuf).addr := fun home =>
  home.sector_ne ⟨le_refl 2, by omega⟩ base.jsb_addr

theorem Base.header_notHome (base : Base dev J s) :
    ¬ IsHome dev J (s.bufs s.jtransHeaderBuf).addr := fun home =>
  home.sector_ne ⟨by omega, by have := base.bounded; omega⟩ base.header_addr

/-- Filling a transaction leaves the fixed part alone. -/
theorem Fills.base (fills : Fills s u ws bs) (base : Base dev J s) : Base dev J u := by
  have hjsb := fills.filled.busy _ base.jsb_busy
  have hheader := fills.filled.busy _ base.header_busy
  rw [fills.filled.same]
  exact
    { unlocked := base.unlocked
      separate := base.separate
      jsb_busy := by rw [← base.jsb_busy]; exact congrArg Buf.busy hjsb
      jsb_addr := by rw [← base.jsb_addr]; exact congrArg Buf.addr hjsb
      header_busy := by rw [← base.header_busy]; exact congrArg Buf.busy hheader
      header_addr := by rw [← base.header_addr]; exact congrArg Buf.addr hheader
      size := by rw [← base.size]; exact congrArg (JsBlock.size ∘ Buf.data) hjsb
      head := by rw [← base.head]; exact congrArg (JsBlock.headBlock ∘ Buf.data) hjsb
      super := base.super.trans (congrArg Buf.data hjsb).symm
      untested := base.untested
      bounded := base.bounded }

theorem Fills.home (fills : Fills s u ws bs) (home : ∀ w ∈ ws, IsHome dev J w.1) :
    ∀ b ∈ bs, IsHome dev J (u.bufs b).addr := by
  intro b hb
  have hmem : ((u.bufs b).addr, (u.bufs b).data) ∈ ws.reverse := by
    rw [← fills.pairs]
    exact List.mem_map_of_mem hb
  exact home _ (List.mem_reverse.mp hmem)

theorem Fills.length (fills : Fills s u ws bs) : bs.length = ws.length := by
  have := congrArg List.length fills.pairs
  simpa [Bio.pairs] using this

theorem Inv.ct_bufs (inv : Inv dev J s st ns) (fills : Fills s u ws bs) : u.ct = ⟨bs⟩ := by
  have hct := fills.ct
  rw [inv.ct, MemTrans.empty, List.append_nil] at hct
  exact MemTrans.ext hct

theorem Inv.tail_ne_none (inv : Inv dev J s st ns) : s.mtnHead ≠ none → s.mtnTail ≠ none := by
  intro pending
  cases inv.shape with
  | idle head => exact absurd head pending
  | one _ tail => simp [tail]
  | two _ tail => simp [tail]
  | stale _ tail => simp [tail]

theorem Inv.commitReady (inv : Inv dev J s st ns) (fills : Fills s u ws bs)
    (home : ∀ w ∈ ws, IsHome dev J w.1) : CommitReady u := by
  have hbase := fills.base inv.base
  have hct := inv.ct_bufs fills
  refine
    { unlocked := hbase.unlocked
      busy := ?_
      jsb_busy := hbase.jsb_busy
      separate := hbase.separate
      header_notMem := ?_
      jsb_notMem := ?_
      tail := ?_ }
  · rw [hct]
    exact fills.busy
  · rw [hct]
    exact fun hmem => hbase.header_notHome (fills.home home _ hmem)
  · rw [hct]
    exact fun hmem => hbase.jsb_notHome (fills.home home _ hmem)
  · rw [fills.filled.same]
    exact inv.tail_ne_none

/-- A transaction that gets committed, step by step: filled, then `Bio.committed`. -/
theorem Inv.trans_eq_ok {t : Bio} (inv : Inv dev J s st ns)
    (home : ∀ w ∈ ws, IsHome dev J w.1) (nonempty : ws ≠ [])
    (run : (Call.trans ws).run.run s = .ok () t) :
    ∃ u bs, Fills s u ws bs ∧ u.ct = ⟨bs⟩ ∧ u.Room (ws.length + 1) ∧ t = u.committed := by
  obtain ⟨⟨⟩, u, hfill, hend⟩ := run_bind_eq_ok_iff.mp run
  obtain ⟨bs, fills⟩ := fill_eq_ok hfill
  have hct := inv.ct_bufs fills
  have hsize : u.ct.size = ws.length := by
    rw [hct]
    exact fills.length
  rcases endTrans_eq_ok (inv.commitReady fills home) hend with ⟨hzero, -⟩ | ⟨-, hroom, ht⟩
  · rw [hsize] at hzero
    exact absurd (List.length_eq_zero_iff.mp hzero) nonempty
  · rw [hsize] at hroom
    exact ⟨u, bs, fills, hct, hroom, ht⟩

end Fill

section Keep

variable {dev J : Nat} {s u : Bio} {st : Bool} {ns : List NodeId} {ws : Txn} {bs : List BufId}

theorem disk_committed_super (jsb_addr : (u.bufs u.jsblockBuf).addr = ⟨dev, 2⟩) :
    u.committed.disk ⟨dev, 2⟩ = u.committed.jsb := by
  rw [committed_jsb]
  change applyWrites u.commitWrites u.disk ⟨dev, 2⟩ = _
  rw [commitWrites, applyWrites_append, jsb_addr]
  exact Function.update_self ..

theorem Base.committed (base : Base dev J u) : Base dev J u.committed where
  unlocked := base.unlocked
  separate := base.separate
  jsb_busy := (congrArg Buf.busy (committed_bufs_jsb (s := u))).trans base.jsb_busy
  jsb_addr := by
    rw [committed_addr]
    exact base.jsb_addr
  header_busy := congrArg Buf.busy (committed_bufs_header base.separate)
  header_addr := by
    rw [committed_addr]
    exact base.header_addr
  size := by rw [committed_jsb, JsBlock.size_setTail, base.size]
  head := by rw [committed_jsb, JsBlock.headBlock_setTail, base.head]
  super := disk_committed_super base.jsb_addr
  untested := base.untested
  bounded := base.bounded

variable {b : BufId}

theorem Fills.apart (fills : Fills s u ws bs) (busy : (s.bufs b).busy = true) :
    b ∉ bs := fun hmem => by
  have hfree := fills.free b hmem
  rw [busy] at hfree
  exact Bool.false_ne_true hfree.symm

/-- A commit leaves the buffers that waited before as they were. -/
theorem Fills.committed_old (fills : Fills s u ws bs) (base : Base dev J s) (ct : u.ct = ⟨bs⟩)
    (busy : (s.bufs b).busy = true) (home : IsHome dev J (s.bufs b).addr) :
    u.committed.bufs b = s.bufs b := by
  have hbase := fills.base base
  have hkeep := fills.filled.busy b busy
  rw [← hkeep] at home ⊢
  apply committed_bufs_of_notMem
  · rintro rfl
    exact hbase.jsb_notHome home
  · rintro rfl
    exact hbase.header_notHome home
  · rw [ct]
    exact fills.apart busy

/-- A commit leaves the buffers of its transaction busy and dirty. -/
theorem Fills.committed_new (fills : Fills s u ws bs) (base : Base dev J s) (ct : u.ct = ⟨bs⟩)
    (home : ∀ w ∈ ws, IsHome dev J w.1) (hb : b ∈ bs) :
    u.committed.bufs b =
      { u.bufs b with busy := true, valid := true, dirty := true, faliable := 0 } := by
  have hbase := fills.base base
  have hhome := fills.home home b hb
  rw [← hbase.untested]
  apply committed_bufs_of_mem
  · rintro rfl
    exact hbase.jsb_notHome hhome
  · rintro rfl
    exact hbase.header_notHome hhome
  · rw [ct]
    exact hb

theorem Fills.flushable (fills : Fills s u ws bs) (base : Base dev J s) (ct : u.ct = ⟨bs⟩)
    (home : ∀ w ∈ ws, IsHome dev J w.1) {l : List BufId} (ready : s.Flushable l)
    (old : ∀ b ∈ l, IsHome dev J (s.bufs b).addr) : u.committed.Flushable (l ++ bs) := by
  have hnew := fun b hb => fills.committed_new (b := b) base ct home hb
  have hold := fun b hb => fills.committed_old (b := b) base ct (ready.busy b hb) (old b hb)
  exact
    { nodup := by
        rw [List.nodup_append]
        refine ⟨ready.nodup, fills.nodup, fun b hb c hc heq => ?_⟩
        exact fills.apart (ready.busy b hb) (heq ▸ hc)
      busy := List.forall_mem_append.mpr
        ⟨fun b hb => by rw [hold b hb]; exact ready.busy b hb, fun b hb => by rw [hnew b hb]⟩
      dirty := List.forall_mem_append.mpr
        ⟨fun b hb => by rw [hold b hb]; exact ready.dirty b hb, fun b hb => by rw [hnew b hb]⟩
      sound := List.forall_mem_append.mpr
        ⟨fun b hb => by rw [hold b hb]; exact ready.sound b hb, fun b hb => by rw [hnew b hb]⟩ }

/-! ### The pending list after a commit -/

/-- The nodes after a commit, field by field. -/
theorem committed_nodes (s : Bio) (n : NodeId) :
    s.committed.nodes n =
      { trans := if n = s.nextNode then s.ct else (s.nodes n).trans
        next :=
          if s.mtnHead ≠ none ∧ s.mtnTail = some n then some s.nextNode
          else if n = s.nextNode then none else (s.nodes n).next } := by
  change s.linkedNodes s.ct n = _
  cases hh : s.mtnHead with
  | none => by_cases hn : n = s.nextNode <;> simp [linkedNodes, hh, hn]
  | some h =>
    cases ht : s.mtnTail with
    | none => by_cases hn : n = s.nextNode <;> simp [linkedNodes, hh, ht, hn]
    | some tail =>
      by_cases hn : n = s.nextNode
      · subst hn
        by_cases htail : tail = s.nextNode
        · simp [linkedNodes, hh, ht, htail]
        · simp [linkedNodes, hh, ht, htail, Ne.symm htail]
      · by_cases htail : tail = n
        · subst htail
          simp [linkedNodes, hh, ht, hn]
        · simp [linkedNodes, hh, ht, htail, Ne.symm htail, hn]

theorem Fills.nodes_trans (fills : Fills s u ws bs) (ct : u.ct = ⟨bs⟩) (n : NodeId) :
    (u.committed.nodes n).trans = if n = s.nextNode then ⟨bs⟩ else (s.nodes n).trans := by
  rw [committed_nodes, ct, fills.filled.same]

/-- A commit adds its node at the end, or in the place of the second one. -/
theorem Inv.shape_committed (inv : Inv dev J s st ns) (fills : Fills s u ws bs) :
    Shape u.committed st (if st then ns else pushNode ns s.nextNode) := by
  have hhead : u.mtnHead = s.mtnHead := by rw [fills.filled.same]
  have htail : u.mtnTail = s.mtnTail := by rw [fills.filled.same]
  have hnext : u.nextNode = s.nextNode := by rw [fills.filled.same]
  have hnodes : u.nodes = s.nodes := by rw [fills.filled.same]
  have hcommitted : u.committed.mtnHead =
      if s.mtnHead = none then some s.nextNode else s.mtnHead := by
    rw [← hhead, ← hnext]
    rfl
  have hcommitted' : u.committed.mtnTail =
      if s.mtnHead = none then some s.nextNode else s.mtnTail := by
    rw [← hhead, ← hnext, ← htail]
    rfl
  cases hshape : inv.shape with
  | idle head =>
    refine Shape.one (n := s.nextNode) ?_ ?_ ?_
    · simp [hcommitted, head]
    · simp [hcommitted', head]
    · simp [committed_nodes, hhead, hnext, head]
  | @one n head tail next | @two n m head tail _ _ _ =>
    have hn : n ≠ s.nextNode := (inv.tail_known n tail).ne
    refine Shape.two (n := n) (m := s.nextNode) ?_ ?_ hn ?_ ?_
    · simp [hcommitted, head]
    · simp [hcommitted', head, tail]
    · simp [committed_nodes, hhead, htail, hnext, head, tail]
    · simp [committed_nodes, hhead, htail, hnext, head, tail, hn]
  | @stale h t m head tail hne next last =>
    have hh : h ≠ s.nextNode := (inv.known h (by simp)).ne
    refine Shape.stale (h := h) (t := t) (m := s.nextNode) ?_ ?_ hne ?_ ?_
    · simp [hcommitted, head]
    · simp [hcommitted', head, tail]
    · simp [committed_nodes, hhead, htail, hnext, head, tail]
    · simp [committed_nodes, hhead, htail, hnext, hnodes, head, tail, hh, hne.symm, last]

theorem waiting_take_append_drop (s : Bio) (ns : List NodeId) (k : Nat) :
    s.waiting ns = s.waiting (ns.take k) ++ s.waiting (ns.drop k) := by
  rw [waiting, waiting, waiting, ← List.flatMap_append, List.take_append_drop]

/-- What waits after a commit: the first pending transaction and, unless the head
has overtaken the tail, the new one. -/
theorem Inv.waiting_committed (inv : Inv dev J s st ns) (fills : Fills s u ws bs)
    (ct : u.ct = ⟨bs⟩) :
    u.committed.waiting (if st then ns else pushNode ns s.nextNode) =
      s.waiting (ns.take 1) ++ if st then [] else bs := by
  have hold : ∀ n ∈ ns, (u.committed.nodes n).trans = (s.nodes n).trans := fun n hn => by
    rw [fills.nodes_trans ct, if_neg (inv.known n hn).ne]
  have hnew : (u.committed.nodes s.nextNode).trans = ⟨bs⟩ := by
    rw [fills.nodes_trans ct, if_pos rfl]
  cases hshape : inv.shape with
  | idle => simp [waiting, pushNode, hnew]
  | @one n | @two n => simp [waiting, pushNode, hnew, hold n (by simp)]
  | @stale h => simp [waiting, hold h (by simp)]

/-- Commits keep the invariant. -/
theorem Inv.commit (inv : Inv dev J s st ns) (fills : Fills s u ws bs) (ct : u.ct = ⟨bs⟩)
    (home : ∀ w ∈ ws, IsHome dev J w.1) :
    Inv dev J u.committed st (if st then ns else pushNode ns s.nextNode) := by
  have hnext : u.committed.nextNode = s.nextNode + 1 := by
    rw [fills.filled.same]
    rfl
  have hwaiting := inv.waiting_committed fills ct
  have hready : s.Flushable (s.waiting (ns.take 1)) := by
    have hall := inv.ready
    rw [waiting_take_append_drop s ns 1] at hall
    exact hall.left
  have hhome : ∀ b ∈ s.waiting (ns.take 1), IsHome dev J (s.bufs b).addr := by
    intro b hb
    apply inv.home b
    rw [waiting_take_append_drop s ns 1]
    exact List.mem_append_left _ hb
  have hflush := fills.flushable inv.base ct home hready hhome
  refine
    { base := (fills.base inv.base).committed
      ct := rfl
      shape := inv.shape_committed fills
      known := ?_
      tail_known := ?_
      jtail := ?_
      jtail_idle := ?_
      ready := ?_
      home := ?_ }
  · rw [hnext]
    intro n hn
    have hmem : n ∈ ns ∨ n = s.nextNode := by
      cases st with
      | true => exact Or.inl (by simpa using hn)
      | false =>
        cases ns with
        | nil => exact Or.inr (by simpa [pushNode] using hn)
        | cons m ms =>
          have : n = m ∨ n = s.nextNode := by simpa [pushNode] using hn
          exact this.imp (fun h => by simp [h]) id
    rcases hmem with h | h
    · exact Nat.lt_succ_of_lt (inv.known n h)
    · exact h ▸ Nat.lt_succ_self _
  · rw [hnext]
    intro n hn
    have htail : u.committed.mtnTail = if s.mtnHead = none then some s.nextNode else s.mtnTail := by
      rw [fills.filled.same]
      rfl
    rw [htail] at hn
    split at hn
    · cases hn
      exact Nat.lt_succ_self _
    · exact Nat.lt_succ_of_lt (inv.tail_known n hn)
  · have hjtail : u.committed.jtailBnum = s.jtailBnum + u.ct.size + 1 := by
      rw [fills.filled.same]
      rfl
    have := inv.jtail
    omega
  · have hhead : u.committed.mtnHead =
        if s.mtnHead = none then some s.nextNode else s.mtnHead := by
      rw [fills.filled.same]
      rfl
    intro hnone
    rw [hhead] at hnone
    split at hnone
    · cases hnone
    · contradiction
  · rw [hwaiting]
    cases st with
    | true => simpa using hflush.left
    | false => simpa using hflush
  · rw [hwaiting]
    intro b hb
    rw [committed_addr]
    rcases List.mem_append.mp hb with h | h
    · rw [fills.filled.busy b (hready.busy b h)]
      exact hhome b h
    · apply fills.home home b
      cases st with
      | true => simp at h
      | false => simpa using h

/-- The contents of a pending transaction do not change by a commit. -/
theorem Inv.pairs_old (inv : Inv dev J s st ns) (fills : Fills s u ws bs) (ct : u.ct = ⟨bs⟩)
    {n : NodeId} (hn : n ∈ ns) :
    u.committed.pairs (u.committed.nodes n).trans = s.pairs (s.nodes n).trans := by
  rw [fills.nodes_trans ct, if_neg (inv.known n hn).ne]
  apply List.map_congr_left
  intro b hb
  have hmem : b ∈ s.waiting ns := List.mem_flatMap.mpr ⟨n, hn, hb⟩
  rw [fills.committed_old inv.base ct (inv.ready.busy b hmem) (inv.home b hmem)]

theorem Inv.pairs_new (inv : Inv dev J s st ns) (fills : Fills s u ws bs) (ct : u.ct = ⟨bs⟩)
    (home : ∀ w ∈ ws, IsHome dev J w.1) :
    u.committed.pairs (u.committed.nodes s.nextNode).trans = ws.reverse := by
  rw [fills.nodes_trans ct, if_pos rfl, ← fills.pairs]
  apply List.map_congr_left
  intro b hb
  rw [fills.committed_new inv.base ct home hb]

end Keep

/-- The sector writes of a flush: the buffers that wait, then the emptied super block. -/
def Bio.flushWrites (s : Bio) (ms : List NodeId) : List (BlockAddr × Block) :=
  s.pairs ⟨s.waiting ms⟩ ++ [((s.bufs s.jsblockBuf).addr, JsBlock.reset s.jsb)]

section Flush

variable {dev J : Nat} {s : Bio} {st : Bool} {ns : List NodeId} {ms : List NodeId}
  {stop : Option NodeId}

theorem flushedTo_log (outside : s.jsblockBuf ∉ s.waiting ms) :
    (s.flushedTo ms stop).log = s.log ++ s.flushWrites ms := by
  have hkeep : (s.flushed (s.waiting ms)).bufs s.jsblockBuf = s.bufs s.jsblockBuf :=
    flushed_bufs_of_notMem outside
  change (s.log ++ s.pairs ⟨s.waiting ms⟩) ++
    [(((s.flushed (s.waiting ms)).bufs s.jsblockBuf).addr,
      JsBlock.reset ((s.flushed (s.waiting ms)).bufs s.jsblockBuf).data)] = _
  rw [hkeep, flushWrites, List.append_assoc]
  rfl

theorem flushedTo_disk (outside : s.jsblockBuf ∉ s.waiting ms) :
    (s.flushedTo ms stop).disk = applyWrites (s.flushWrites ms) s.disk := by
  have hkeep : (s.flushed (s.waiting ms)).bufs s.jsblockBuf = s.bufs s.jsblockBuf :=
    flushed_bufs_of_notMem outside
  change Function.update (applyWrites (s.pairs ⟨s.waiting ms⟩) s.disk)
    ((s.flushed (s.waiting ms)).bufs s.jsblockBuf).addr
    (JsBlock.reset ((s.flushed (s.waiting ms)).bufs s.jsblockBuf).data) = _
  rw [hkeep, flushWrites, applyWrites_append]
  rfl

theorem flushedTo_bufs_of_notMem (jsb : c ≠ s.jsblockBuf) (outside : c ∉ s.waiting ms) :
    (s.flushedTo ms stop).bufs c = s.bufs c :=
  (Function.update_of_ne jsb ..).trans (flushed_bufs_of_notMem outside)

theorem flushedTo_bufs_of_mem (jsb : c ≠ s.jsblockBuf) (inside : c ∈ s.waiting ms) :
    (s.flushedTo ms stop).bufs c =
      { s.bufs c with busy := false, valid := true, dirty := false } :=
  (Function.update_of_ne jsb ..).trans (flushed_bufs_of_mem inside)

theorem flushedTo_bufs_jsb (stop : Option NodeId) (outside : s.jsblockBuf ∉ s.waiting ms) :
    (s.flushedTo ms stop).bufs s.jsblockBuf =
      { s.bufs s.jsblockBuf with
        busy := true, valid := true, dirty := false, data := JsBlock.reset s.jsb } := by
  have hkeep : (s.flushed (s.waiting ms)).bufs s.jsblockBuf = s.bufs s.jsblockBuf :=
    flushed_bufs_of_notMem outside
  refine (Function.update_self ..).trans ?_
  change { (s.flushed (s.waiting ms)).bufs s.jsblockBuf with
    busy := true, valid := true, dirty := false,
    data := JsBlock.reset ((s.flushed (s.waiting ms)).bufs s.jsblockBuf).data } = _
  rw [hkeep]
  rfl

theorem Base.flushedTo (base : Base dev J s)
    (home : ∀ b ∈ s.waiting ms, IsHome dev J (s.bufs b).addr) :
    Base dev J (s.flushedTo ms stop) := by
  have hjsb := flushedTo_bufs_jsb stop fun hmem => base.jsb_notHome (home _ hmem)
  have hheader : (s.flushedTo ms stop).bufs s.jtransHeaderBuf = s.bufs s.jtransHeaderBuf :=
    flushedTo_bufs_of_notMem base.separate fun hmem => base.header_notHome (home _ hmem)
  have hdata : (s.flushedTo ms stop).jsb = JsBlock.reset s.jsb := congrArg Buf.data hjsb
  exact
    { unlocked := base.unlocked
      separate := base.separate
      jsb_busy := congrArg Buf.busy hjsb
      jsb_addr := (congrArg Buf.addr hjsb).trans base.jsb_addr
      header_busy := (congrArg Buf.busy hheader).trans base.header_busy
      header_addr := (congrArg Buf.addr hheader).trans base.header_addr
      size := by rw [hdata, JsBlock.size_reset, base.size]
      head := by rw [hdata, JsBlock.headBlock_reset]
      super := by
        rw [hdata, flushedTo_disk fun hmem => base.jsb_notHome (home _ hmem), flushWrites,
          applyWrites_append, base.jsb_addr]
        exact Function.update_self ..
      untested := base.untested
      bounded := base.bounded }

/-- A flush writes the first pending transaction home. A second one is left behind,
and the head pointer has then overtaken the tail pointer. -/
theorem Inv.flush {n : NodeId} {rest : List NodeId} (inv : Inv dev J s false (n :: rest)) :
    jfullFlush.run s = .ok () (s.flushedTo [n] rest.head?) ∧
      Inv dev J (s.flushedTo [n] rest.head?) (!rest.isEmpty) rest := by
  have hsplit : s.waiting (n :: rest) = s.waiting [n] ++ s.waiting rest :=
    waiting_take_append_drop s (n :: rest) 1
  have hready := inv.ready
  rw [hsplit] at hready
  have hhome : ∀ b ∈ s.waiting [n], IsHome dev J (s.bufs b).addr := fun b hb =>
    inv.home b (by rw [hsplit]; exact List.mem_append_left _ hb)
  have hhome' : ∀ b ∈ s.waiting rest, IsHome dev J (s.bufs b).addr := fun b hb =>
    inv.home b (by rw [hsplit]; exact List.mem_append_right _ hb)
  have hkeep : ∀ b ∈ s.waiting rest, (s.flushedTo [n] rest.head?).bufs b = s.bufs b := by
    intro b hb
    apply flushedTo_bufs_of_notMem
    · rintro rfl
      exact inv.base.jsb_notHome (hhome' _ hb)
    · exact fun hb' => List.disjoint_of_nodup_append hready.nodup hb' hb
  have hflushable : (s.flushedTo [n] rest.head?).Flushable (s.waiting rest) :=
    { nodup := (List.nodup_append.mp hready.nodup).2.1
      busy := fun b hb => by
        rw [hkeep b hb]; exact hready.busy b (List.mem_append_right _ hb)
      dirty := fun b hb => by
        rw [hkeep b hb]; exact hready.dirty b (List.mem_append_right _ hb)
      sound := fun b hb => by
        rw [hkeep b hb]; exact hready.sound b (List.mem_append_right _ hb) }
  have hhead : s.mtnHead = some n ∧ s.mtnTail = some n ∧ (s.nodes n).next = rest.head? ∧
      some n ≠ rest.head? := by
    cases hshape : inv.shape with
    | one head tail next => exact ⟨head, tail, next, by simp⟩
    | two head tail hne next _ => exact ⟨head, tail, next, by simpa using hne⟩
  obtain ⟨head, tail, next, hne⟩ := hhead
  constructor
  · rw [← next]
    apply jfullFlush_path inv.base.unlocked (by simp [head]) tail _ (by simp) hready.left
    rw [head, next]
    exact ⟨rfl, hne, next⟩
  · exact
      { base := inv.base.flushedTo hhome
        ct := inv.ct
        shape := by
          cases hshape : inv.shape with
          | one head tail next => exact Shape.idle rfl
          | two _ tail' apart next' last => exact Shape.stale rfl tail' (Ne.symm apart) next' last
        known := fun m hm => inv.known m (List.mem_cons_of_mem _ hm)
        tail_known := inv.tail_known
        jtail := le_refl 3
        jtail_idle := fun _ => rfl
        ready := hflushable
        home := fun b hb => by rw [hkeep b hb]; exact hhome' b hb }

/-- When the head is right behind the tail, a flush only empties the journal. -/
theorem Inv.flush_stale {h t : NodeId} (inv : Inv dev J s true [h]) (tail : s.mtnTail = some t)
    (next : (s.nodes t).next = some h) :
    jfullFlush.run s = .ok () (s.flushedTo [] (some h)) ∧
      Inv dev J (s.flushedTo [] (some h)) true [h] := by
  have hhead : s.mtnHead = some h := by
    cases hshape : inv.shape with
    | stale head => exact head
  have hkeep : ∀ b ∈ s.waiting [h], (s.flushedTo [] (some h)).bufs b = s.bufs b := by
    intro b hb
    apply flushedTo_bufs_of_notMem
    · rintro rfl
      exact inv.base.jsb_notHome (inv.home _ hb)
    · simp [waiting]
  constructor
  · rw [← next]
    apply jfullFlush_path inv.base.unlocked (by simp [hhead]) tail _ (by simp)
    · exact ⟨List.nodup_nil, by simp [waiting], by simp [waiting], by simp [waiting]⟩
    · rw [hhead, next]
      exact rfl
  · exact
      { base := inv.base.flushedTo (by simp [waiting])
        ct := inv.ct
        shape := by
          cases hshape : inv.shape with
          | stale head tail hne next last => exact Shape.stale rfl tail hne next last
        known := inv.known
        tail_known := inv.tail_known
        jtail := le_refl 3
        jtail_idle := fun _ => rfl
        ready :=
          { nodup := inv.ready.nodup
            busy := fun b hb => by rw [hkeep b hb]; exact inv.ready.busy b hb
            dirty := fun b hb => by rw [hkeep b hb]; exact inv.ready.dirty b hb
            sound := fun b hb => by rw [hkeep b hb]; exact inv.ready.sound b hb }
        home := fun b hb => by rw [hkeep b hb]; exact inv.home b hb }

end Flush

end Xv6
