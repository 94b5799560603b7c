/-
# What `jfull_flush` does

Flushing one transaction writes its buffers home in order and releases them. How
far the walk over the pending list goes depends only on where the two list
pointers stand relative to each other.
-/

import Xv6.Bio.Commit

namespace Xv6

open Math Bio

/-- The LRU list after releasing buffers one by one. -/
def touch (lru bs : List BufId) : List BufId := bs.foldl (fun l b => b :: l.erase b) lru

section Touch

variable {lru bs : List BufId}

@[simp] theorem touch_nil (lru : List BufId) : touch lru [] = lru := rfl

@[simp] theorem touch_cons (lru : List BufId) (b : BufId) (bs : List BufId) :
    touch lru (b :: bs) = touch (b :: lru.erase b) bs := rfl

/-- Each buffer released goes to the front. -/
theorem touch_eq (nodup : lru.Nodup) (once : bs.Nodup) :
    touch lru bs = bs.reverse ++ lru.filter (· ∉ bs) := by
  induction bs generalizing lru with
  | nil => simp
  | cons b bs ih =>
    obtain ⟨hnot, honce⟩ := List.nodup_cons.mp once
    have hnodup : (b :: lru.erase b).Nodup := List.nodup_cons.mpr
      ⟨fun h => (nodup.mem_erase_iff.mp h).1 rfl, nodup.erase b⟩
    have hrest : (lru.erase b).filter (· ∉ bs) = lru.filter (· ∉ b :: bs) := by
      rw [nodup.erase_eq_filter, List.filter_filter]
      congr 1
      funext c
      by_cases hc : c = b <;> simp [hc]
    rw [touch_cons, ih hnodup honce, List.filter_cons_of_pos (by simpa using hnot), hrest]
    simp

theorem touch_perm (inside : ∀ b ∈ bs, b ∈ lru) : (touch lru bs).Perm lru := by
  induction bs generalizing lru with
  | nil => exact List.Perm.refl _
  | cons b bs ih =>
    have hone : (b :: lru.erase b).Perm lru :=
      (List.perm_cons_erase (inside b List.mem_cons_self)).symm
    rw [touch_cons]
    exact (ih fun c hc => hone.mem_iff.mpr (inside c (List.mem_cons_of_mem _ hc))).trans hone

end Touch

namespace Bio

/-- The effect of flushing the buffers of one transaction. -/
def flushed (s : Bio) (bs : List BufId) : Bio :=
  { s with
    bufs := fun c =>
      if c ∈ bs then { s.bufs c with busy := false, valid := true, dirty := false }
      else s.bufs c
    lru := touch s.lru bs
    disk := applyWrites (s.pairs ⟨bs⟩) s.disk
    log := s.log ++ s.pairs ⟨bs⟩ }

/-- The effect of emptying the journal on disk. -/
def resetJournal (s : Bio) : Bio :=
  { s with
    bufs := Function.update s.bufs s.jsblockBuf
      { s.bufs s.jsblockBuf with
        busy := true, valid := true, dirty := false, data := JsBlock.reset s.jsb }
    disk := Function.update s.disk (s.bufs s.jsblockBuf).addr (JsBlock.reset s.jsb)
    log := s.log ++ [((s.bufs s.jsblockBuf).addr, JsBlock.reset s.jsb)]
    jtailBnum := 3 }

/-- A transaction whose buffers wait to be written home. -/
structure Flushable (s : Bio) (bs : List BufId) : Prop where
  nodup : bs.Nodup
  busy : ∀ b ∈ bs, (s.bufs b).busy = true
  dirty : ∀ b ∈ bs, (s.bufs b).dirty = true
  sound : ∀ b ∈ bs, (s.bufs b).faliable = 0

/-- The buffers of a list of pending nodes. -/
def waiting (s : Bio) (ns : List NodeId) : List BufId := ns.flatMap fun n => (s.nodes n).trans.bufs

/-- The nodes that the loop of `jfull_flush` visits from `curr` on, up to `stop`. -/
def Path (nodes : NodeId → MemTransNode) (stop : Option NodeId) :
    Option NodeId → List NodeId → Prop
  | curr, [] => curr = stop
  | curr, n :: ns => curr = some n ∧ some n ≠ stop ∧ Path nodes stop (nodes n).next ns

/-- The effect of a flush that visits the nodes `ns` and stops at `stop`. -/
def flushedTo (s : Bio) (ns : List NodeId) (stop : Option NodeId) : Bio :=
  { (s.flushed (s.waiting ns)).resetJournal with mtnHead := stop }

end Bio

section Flush

variable {s : Bio} {bs cs : List BufId}

theorem flushBufs_run (ready : s.Flushable bs) : (flushBufs bs).run s = .ok () (s.flushed bs) := by
  induction bs generalizing s with
  | nil =>
    simp only [flushBufs, flushed, Bio.pairs]
    simp
  | cons b bs ih =>
    have hb : b ∈ b :: bs := List.mem_cons_self
    obtain ⟨hnot, hnodup⟩ := List.nodup_cons.mp ready.nodup
    have hrw := ideRw_dirty (ready.busy b hb) (ready.dirty b hb)
    have hrel : (jbrelse b).run (s.written b) = .ok () (s.flushed [b]) := by
      rw [jbrelse_busy (by simpa [Bio.written] using ready.busy b hb)]
      congr 1
      apply Bio.ext
      case bufs =>
        funext c
        by_cases hc : c = b
        · subst hc
          simp [Bio.written, Bio.flushed, Bio.setBuf]
        · simp [Bio.written, Bio.flushed, Bio.setBuf, hc]
      all_goals rfl
    have hstep : (do
        let s ← get
        if (s.bufs b).faliable ≠ 0 then throw (Stop.panic "Testing PBj0!")
        else
          ideRw b
          jbrelse b : BioM Unit).run s = .ok () (s.flushed [b]) := by
      rw [run_get_bind, run_ite, if_neg (by simpa using ready.sound b hb),
        run_bind_of_ok hrw, hrel]
    have hkeep : ∀ c ∈ bs, (s.flushed [b]).bufs c = s.bufs c := by
      intro c hc
      have hne : c ≠ b := fun h => hnot (h ▸ hc)
      simp [Bio.flushed, hne]
    have hrest : (s.flushed [b]).Flushable bs :=
      { nodup := hnodup
        busy := fun c hc => by rw [hkeep c hc]; exact ready.busy c (List.mem_cons_of_mem _ hc)
        dirty := fun c hc => by rw [hkeep c hc]; exact ready.dirty c (List.mem_cons_of_mem _ hc)
        sound := fun c hc => by rw [hkeep c hc]; exact ready.sound c (List.mem_cons_of_mem _ hc) }
    have hpairs : (s.flushed [b]).pairs ⟨bs⟩ = s.pairs ⟨bs⟩ :=
      List.map_congr_left fun c hc => by rw [hkeep c hc]
    unfold flushBufs at ih ⊢
    rw [run_forM_cons, run_bind_of_ok hstep, ih hrest]
    congr 1
    apply Bio.ext
    case bufs =>
      funext c
      by_cases hc : c = b
      · subst hc
        simp [Bio.flushed, hnot]
      · by_cases hm : c ∈ bs <;> simp [Bio.flushed, hc, hm]
    case disk =>
      change applyWrites ((s.flushed [b]).pairs ⟨bs⟩) _ = _
      rw [hpairs]
      rfl
    case log =>
      change (s.log ++ _) ++ (s.flushed [b]).pairs ⟨bs⟩ = _
      rw [hpairs, List.append_assoc]
      rfl
    all_goals rfl

theorem flushed_bufs_of_notMem {c : BufId} (outside : c ∉ bs) :
    (s.flushed bs).bufs c = s.bufs c := if_neg outside

theorem flushed_bufs_of_mem {c : BufId} (inside : c ∈ bs) :
    (s.flushed bs).bufs c = { s.bufs c with busy := false, valid := true, dirty := false } :=
  if_pos inside

theorem touch_append (lru bs cs : List BufId) : touch lru (bs ++ cs) = touch (touch lru bs) cs :=
  List.foldl_append ..

/-- Flushing one transaction after another is flushing all their buffers. -/
theorem flushed_flushed (apart : ∀ c ∈ cs, c ∉ bs) :
    (s.flushed bs).flushed cs = s.flushed (bs ++ cs) := by
  have hpairs : (s.flushed bs).pairs ⟨cs⟩ = s.pairs ⟨cs⟩ :=
    List.map_congr_left fun c hc => by rw [flushed_bufs_of_notMem (apart c hc)]
  have happend : s.pairs ⟨bs ++ cs⟩ = s.pairs ⟨bs⟩ ++ s.pairs ⟨cs⟩ := List.map_append
  apply Bio.ext
  case bufs =>
    funext c
    by_cases hc : c ∈ cs
    · simp [Bio.flushed, hc, apart c hc]
    · by_cases hb : c ∈ bs <;> simp [Bio.flushed, hc, hb]
  case lru => exact (touch_append ..).symm
  case disk =>
    change applyWrites ((s.flushed bs).pairs ⟨cs⟩) (applyWrites (s.pairs ⟨bs⟩) s.disk) =
      applyWrites (s.pairs ⟨bs ++ cs⟩) s.disk
    rw [hpairs, happend, applyWrites_append]
  case log =>
    change (s.log ++ s.pairs ⟨bs⟩) ++ (s.flushed bs).pairs ⟨cs⟩ = s.log ++ s.pairs ⟨bs ++ cs⟩
    rw [hpairs, happend, List.append_assoc]
  all_goals rfl

theorem Bio.Flushable.left (ready : s.Flushable (bs ++ cs)) :
    s.Flushable bs where
  nodup := (List.nodup_append.mp ready.nodup).1
  busy b hb := ready.busy b (List.mem_append_left _ hb)
  dirty b hb := ready.dirty b (List.mem_append_left _ hb)
  sound b hb := ready.sound b (List.mem_append_left _ hb)

theorem Bio.Flushable.right (ready : s.Flushable (bs ++ cs)) : (s.flushed bs).Flushable cs := by
  have hkeep : ∀ c ∈ cs, (s.flushed bs).bufs c = s.bufs c := fun c hc =>
    flushed_bufs_of_notMem fun hb => List.disjoint_of_nodup_append ready.nodup hb hc
  exact
    { nodup := (List.nodup_append.mp ready.nodup).2.1
      busy := fun b hb => by rw [hkeep b hb]; exact ready.busy b (List.mem_append_right _ hb)
      dirty := fun b hb => by rw [hkeep b hb]; exact ready.dirty b (List.mem_append_right _ hb)
      sound := fun b hb => by rw [hkeep b hb]; exact ready.sound b (List.mem_append_right _ hb) }

/-- The loop of `jfull_flush` writes home the buffers of every node it visits. -/
theorem flushNodes_run {stop curr : Option NodeId} {ns : List NodeId} {fuel : Nat}
    (path : Path s.nodes stop curr ns) (enough : ns.length < fuel)
    (ready : s.Flushable (s.waiting ns)) :
    (flushNodes stop fuel curr).run s = .ok () (s.flushed (s.waiting ns)) := by
  induction ns generalizing s curr fuel with
  | nil =>
    cases fuel with
    | zero => simp at enough
    | succ fuel =>
      have hstop : curr = stop := path
      unfold flushNodes
      rw [if_pos hstop]
      exact flushBufs_run ready
  | cons n ns ih =>
    obtain ⟨rfl, hstop, hpath⟩ := path
    have hsplit : s.waiting (n :: ns) = (s.nodes n).trans.bufs ++ s.waiting ns := rfl
    rw [hsplit] at ready
    cases fuel with
    | zero => simp at enough
    | succ fuel =>
      have hrest : (flushNodes stop fuel (s.nodes n).next).run
          (s.flushed (s.nodes n).trans.bufs) =
            .ok () ((s.flushed (s.nodes n).trans.bufs).flushed (s.waiting ns)) :=
        ih hpath (by simpa using enough) ready.right
      rw [flushNodes, if_neg hstop]
      simp only [run_get_bind]
      rw [run_bind_of_ok (flushBufs_run ready.left), hrest, hsplit]
      congr 1
      exact flushed_flushed fun c hc hb => List.disjoint_of_nodup_append ready.nodup hb hc

theorem writeJsblock_reset (s : Bio) :
    (writeJsblock JsBlock.reset).run s = .ok ()
      { s.resetJournal with jtailBnum := s.jtailBnum } := by
  let marked := s.setBuf s.jsblockBuf
    { s.bufs s.jsblockBuf with
      busy := true, dirty := true, data := JsBlock.reset (s.bufs s.jsblockBuf).data }
  have hrw : (ideRw s.jsblockBuf).run marked = .ok () (marked.written s.jsblockBuf) :=
    ideRw_dirty (by simp [marked]) (by simp [marked])
  simp only [writeJsblock, run_get_bind, run_modify_bind]
  rw [hrw]
  simp [marked, Bio.written, Bio.setBuf, Bio.jsb, Bio.resetJournal]

/-- `jfull_flush` in closed form, for the nodes it visits. -/
theorem jfullFlush_path {tail : NodeId} {ns : List NodeId} (unlocked : s.transWriteLock = false)
    (pending : s.mtnHead ≠ none) (tail_eq : s.mtnTail = some tail)
    (path : Path s.nodes (s.nodes tail).next s.mtnHead ns) (enough : ns.length < s.nextNode + 2)
    (ready : s.Flushable (s.waiting ns)) :
    jfullFlush.run s = .ok () (s.flushedTo ns (s.nodes tail).next) := by
  let locked : Bio := { s with transWriteLock := true }
  have hacq : acquireSl.run s = .ok () locked := by simp [acquireSl, unlocked, locked]
  have hready : locked.Flushable (locked.waiting ns) :=
    ⟨ready.nodup, ready.busy, ready.dirty, ready.sound⟩
  have hloop := flushNodes_run (s := locked) path enough hready
  simp only [jfullFlush, run_get_bind]
  rw [if_neg pending, run_bind_of_ok hacq, tail_eq]
  simp only
  rw [run_bind_of_ok hloop, run_bind_of_ok (writeJsblock_reset _)]
  simp only [releaseSl, run_modify_bind, EStateM.run_modify]
  congr 1
  apply Bio.ext
  case transWriteLock => exact unlocked.symm
  all_goals rfl

end Flush

end Xv6
