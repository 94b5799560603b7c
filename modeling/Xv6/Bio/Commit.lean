/-
# What `end_trans` does

The journal writes of a commit, one buffer after another. The journal fills up in
the middle of a transaction exactly when it has no room left; what happens then
depends on whether other transactions are pending.
-/

import Xv6.Bio.Journal

namespace Xv6

open Math

namespace Bio

/-- The effect of `jbwrite` before the test for a full journal. -/
def jwritten (s : Bio) (b : BufId) : Bio :=
  { s.setBuf b { s.bufs b with busy := true, valid := true, dirty := false } with
    disk := Function.update s.disk ⟨(s.bufs b).addr.dev, s.jtailBnum⟩ (s.bufs b).data
    log := s.log ++ [(⟨(s.bufs b).addr.dev, s.jtailBnum⟩, (s.bufs b).data)]
    jtailBnum := s.jtailBnum + 1
    jwrites := s.jwrites ++ [s.jtailBnum] }

/-- The effect of journaling one buffer of a transaction. -/
def journaled (s : Bio) (b : BufId) : Bio :=
  (s.jwritten b).setBuf b
    { s.bufs b with busy := true, valid := true, dirty := true, faliable := s.shouldPanic }

/-- The effect of journaling the buffers of a transaction in order. -/
def journaledAll (s : Bio) (bs : List BufId) : Bio := bs.foldl journaled s

@[simp] theorem journaledAll_nil (s : Bio) : s.journaledAll [] = s := rfl

@[simp] theorem journaledAll_cons (s : Bio) (b : BufId) (bs : List BufId) :
    s.journaledAll (b :: bs) = (s.journaled b).journaledAll bs := rfl

/-- The journal blocks written for a list of buffers, from sector `k` on. -/
def journalWrites (s : Bio) : Nat → List BufId → List (BlockAddr × Block)
  | _, [] => []
  | k, b :: bs =>
    (⟨(s.bufs b).addr.dev, k⟩, (s.bufs b).data) :: s.journalWrites (k + 1) bs

/-- The state in which `end_trans` writes its first journal block. -/
def headed (s : Bio) : Bio :=
  { s.setBuf s.jtransHeaderBuf
      { s.bufs s.jtransHeaderBuf with
        busy := true, dirty := true
        data := JTrans.fill (s.bufs s.jtransHeaderBuf).data
          (s.ct.bufs.map fun b => (s.bufs b).addr.sector) } with
    transWriteLock := true }

/-- The room test of `jbwrite`, for `n` more journal blocks: the journal does not
fill up, or it does and there is nothing to flush. -/
def Room (s : Bio) (n : Nat) : Prop :=
  s.mtnHead = none ∨ s.jtailBnum + n ≤ JsBlock.size s.jsb + 2

end Bio

open Bio

section Jbwrite

variable {s : Bio} {b : BufId}

@[simp] theorem jfullFlush_idle (idle : s.mtnHead = none) : jfullFlush.run s = .ok () s := by
  simp [jfullFlush, idle]

theorem jfullFlush_locked (pending : s.mtnHead ≠ none) (locked : s.transWriteLock = true) :
    jfullFlush.run s = .error .spin s := by
  have hacq : acquireSl.run s = .error .spin s := by simp [acquireSl, locked]
  simp only [jfullFlush, run_get_bind, pending, if_false]
  exact run_bind_of_error hacq

theorem jbwrite_busy (busy : (s.bufs b).busy = true) :
    (jbwrite b).run s =
      (if s.jtailBnum + 1 > JsBlock.size s.jsb + 2 then jfullFlush else pure ()).run
        (s.jwritten b) := by
  let aimed := s.setBuf b
    { s.bufs b with addr := ⟨(s.bufs b).addr.dev, s.jtailBnum⟩, dirty := true }
  have hrw : (ideRw b).run aimed = .ok () (aimed.written b) :=
    ideRw_dirty (by simpa [aimed] using busy) (by simp [aimed])
  simp only [jbwrite, run_get_bind, run_modify_bind]
  rw [run_bind_of_ok hrw]
  simp only [run_get_bind, run_modify_bind]
  have hstate : ∀ t : Bio, t = s.jwritten b →
      (if t.jtailBnum > JsBlock.size t.jsb + 2 then jfullFlush else pure ()).run t =
        (if s.jtailBnum + 1 > JsBlock.size s.jsb + 2 then jfullFlush else pure ()).run
          (s.jwritten b) := by
    rintro t rfl
    have hjsb : (s.jwritten b).jsb = s.jsb := by
      unfold Bio.jsb jwritten
      by_cases hj : s.jsblockBuf = b <;> simp [Bio.setBuf, hj]
    rw [hjsb]
    rfl
  apply hstate
  simp [aimed, jwritten, Bio.written, Bio.setBuf, busy]

theorem jbwrite_room (busy : (s.bufs b).busy = true) (room : s.Room 1) :
    (jbwrite b).run s = .ok () (s.jwritten b) := by
  rw [jbwrite_busy busy]
  split
  next full =>
    rcases room with idle | fits
    · exact jfullFlush_idle idle
    · omega
  next => rfl

theorem jbwrite_full (busy : (s.bufs b).busy = true) (locked : s.transWriteLock = true)
    (full : ¬ s.Room 1) : (jbwrite b).run s = .error .spin (s.jwritten b) := by
  simp only [Room, not_or, not_le] at full
  rw [jbwrite_busy busy, if_pos (by omega)]
  exact jfullFlush_locked full.1 locked

theorem journalBuf_room (busy : (s.bufs b).busy = true) (room : s.Room 1) :
    (journalBuf b).run s = .ok () (s.journaled b) := by
  rw [journalBuf, run_bind_of_ok (jbwrite_room busy room)]
  simp [journaled, jwritten]

theorem journalBuf_full (busy : (s.bufs b).busy = true) (locked : s.transWriteLock = true)
    (full : ¬ s.Room 1) : (journalBuf b).run s = .error .spin (s.jwritten b) := by
  rw [journalBuf, run_bind_of_error (jbwrite_full busy locked full)]

end Jbwrite

section JournalAll

variable {s : Bio}

theorem journaled_bufs (s : Bio) (b c : BufId) :
    (s.journaled b).bufs c =
      if c = b then
        { s.bufs b with busy := true, valid := true, dirty := true, faliable := s.shouldPanic }
      else s.bufs c := by
  by_cases h : c = b
  · subst h
    simp [journaled]
  · rw [journaled, setBuf_bufs_of_ne _ _ _ h, if_neg h, jwritten]
    exact setBuf_bufs_of_ne _ _ _ h

@[simp] theorem journaled_addr (s : Bio) (b c : BufId) :
    ((s.journaled b).bufs c).addr = (s.bufs c).addr := by
  rw [journaled_bufs]
  split <;> simp_all

@[simp] theorem journaled_data (s : Bio) (b c : BufId) :
    ((s.journaled b).bufs c).data = (s.bufs c).data := by
  rw [journaled_bufs]
  split <;> simp_all

@[simp] theorem journaled_jsb (s : Bio) (b : BufId) : (s.journaled b).jsb = s.jsb :=
  journaled_data s b _

theorem journaled_busy {b c : BufId} (busy : (s.bufs c).busy = true) :
    ((s.journaled b).bufs c).busy = true := by
  rw [journaled_bufs]
  split
  · rfl
  · exact busy

theorem journalWrites_congr {s t : Bio} {bs : List BufId}
    (addr : ∀ c ∈ bs, (t.bufs c).addr = (s.bufs c).addr)
    (data : ∀ c ∈ bs, (t.bufs c).data = (s.bufs c).data) (k : Nat) :
    t.journalWrites k bs = s.journalWrites k bs := by
  induction bs generalizing k with
  | nil => rfl
  | cons b bs ih =>
    rw [journalWrites, journalWrites, addr b List.mem_cons_self, data b List.mem_cons_self,
      ih (fun c hc => addr c (List.mem_cons_of_mem _ hc))
        (fun c hc => data c (List.mem_cons_of_mem _ hc))]

/-- Journaling a list of buffers, in closed form. -/
theorem journaledAll_eq (s : Bio) (bs : List BufId) :
    s.journaledAll bs =
      { s with
        bufs := fun c =>
          if c ∈ bs then
            { s.bufs c with
              busy := true, valid := true, dirty := true, faliable := s.shouldPanic }
          else s.bufs c
        disk := applyWrites (s.journalWrites s.jtailBnum bs) s.disk
        log := s.log ++ s.journalWrites s.jtailBnum bs
        jtailBnum := s.jtailBnum + bs.length
        jwrites := s.jwrites ++ List.range' s.jtailBnum bs.length } := by
  induction bs generalizing s with
  | nil => simp [journalWrites]
  | cons b bs ih =>
    rw [journaledAll_cons, ih]
    have hw : (s.journaled b).journalWrites (s.jtailBnum + 1) bs =
        s.journalWrites (s.jtailBnum + 1) bs :=
      journalWrites_congr (fun c _ => journaled_addr s b c) (fun c _ => journaled_data s b c) _
    have hb : (fun c => if c ∈ bs then
          { (s.journaled b).bufs c with
            busy := true, valid := true, dirty := true, faliable := s.shouldPanic }
        else (s.journaled b).bufs c) =
        fun c => if c ∈ b :: bs then
          { s.bufs c with
            busy := true, valid := true, dirty := true, faliable := s.shouldPanic }
        else s.bufs c := by
      funext c
      rw [journaled_bufs]
      by_cases hc : c = b
      · subst hc
        by_cases hm : c ∈ bs <;> simp [hm]
      · by_cases hm : c ∈ bs <;> simp [hc, hm]
    apply Bio.ext
    case bufs => exact hb
    case disk =>
      change applyWrites ((s.journaled b).journalWrites (s.jtailBnum + 1) bs) _ = _
      rw [hw, journalWrites, applyWrites_cons]
      rfl
    case log =>
      change (s.log ++ [_]) ++ (s.journaled b).journalWrites (s.jtailBnum + 1) bs = _
      rw [hw, List.append_assoc]
      rfl
    case jtailBnum =>
      change s.jtailBnum + 1 + bs.length = s.jtailBnum + (bs.length + 1)
      omega
    case jwrites =>
      change (s.jwrites ++ [_]) ++ List.range' (s.jtailBnum + 1) bs.length = _
      rw [List.append_assoc]
      rfl
    all_goals rfl

theorem forM_journalBuf_room {bs : List BufId} (busy : ∀ b ∈ bs, (s.bufs b).busy = true)
    (room : s.Room bs.length) : (bs.forM journalBuf).run s = .ok () (s.journaledAll bs) := by
  induction bs generalizing s with
  | nil => rfl
  | cons b bs ih =>
    have hone : s.Room 1 := by
      rcases room with idle | fits
      · exact Or.inl idle
      · rw [List.length_cons] at fits
        exact Or.inr (by omega)
    have hrest : (s.journaled b).Room bs.length := by
      rcases room with idle | fits
      · exact Or.inl idle
      · right
        rw [journaled_jsb]
        rw [List.length_cons] at fits
        change s.jtailBnum + 1 + bs.length ≤ _
        omega
    rw [run_forM_cons, run_bind_of_ok (journalBuf_room (busy b List.mem_cons_self) hone)]
    exact ih (fun c hc => journaled_busy (busy c (List.mem_cons_of_mem _ hc))) hrest

/-- A transaction that does not fit behind pending ones makes `jbwrite` flush, and
the flush spins on the lock that `end_trans` holds. By then the journal is full. -/
theorem forM_journalBuf_full {bs : List BufId} (busy : ∀ b ∈ bs, (s.bufs b).busy = true)
    (locked : s.transWriteLock = true) (start : s.jtailBnum ≤ JsBlock.size s.jsb + 2)
    (full : ¬ s.Room bs.length) :
    ∃ s', (bs.forM journalBuf).run s = .error .spin s' ∧
      s'.jwrites = s.jwrites ++
        List.range' s.jtailBnum (JsBlock.size s.jsb + 3 - s.jtailBnum) := by
  induction bs generalizing s with
  | nil =>
    simp only [Room, not_or, not_le, List.length_nil] at full
    omega
  | cons b bs ih =>
    have hb := busy b List.mem_cons_self
    rw [run_forM_cons]
    by_cases hone : s.Room 1
    · rw [run_bind_of_ok (journalBuf_room hb hone)]
      simp only [Room, not_or, not_le, List.length_cons] at full
      have hfits : s.jtailBnum + 1 ≤ JsBlock.size s.jsb + 2 := hone.resolve_left full.1
      have hfull : ¬ (s.journaled b).Room bs.length := by
        simp only [Room, not_or, not_le, journaled_jsb]
        refine ⟨full.1, ?_⟩
        change _ < s.jtailBnum + 1 + bs.length
        omega
      obtain ⟨s', hrun, hwrites⟩ :=
        ih (fun c hc => journaled_busy (busy c (List.mem_cons_of_mem _ hc))) locked
          (by rw [journaled_jsb]; exact hfits) hfull
      refine ⟨s', hrun, ?_⟩
      rw [hwrites, journaled_jsb,
        show JsBlock.size s.jsb + 3 - s.jtailBnum =
          (JsBlock.size s.jsb + 3 - (s.jtailBnum + 1)) + 1 by omega, List.range'_succ]
      exact List.append_assoc ..
    · refine ⟨_, run_bind_of_error (journalBuf_full hb locked hone), ?_⟩
      simp only [Room, not_or, not_le] at hone
      rw [show JsBlock.size s.jsb + 3 - s.jtailBnum = 1 by omega]
      rfl

end JournalAll

/-! ### The whole of `end_trans` -/

namespace Bio

/-- The header block of the current transaction. -/
def headerBlock (s : Bio) : Block :=
  JTrans.fill (s.bufs s.jtransHeaderBuf).data (s.ct.bufs.map fun b => (s.bufs b).addr.sector)

/-- The sector writes of a commit: header, data blocks, journal super block. -/
def commitWrites (s : Bio) : List (BlockAddr × Block) :=
  (⟨(s.bufs s.jtransHeaderBuf).addr.dev, s.jtailBnum⟩, s.headerBlock) ::
    s.journalWrites (s.jtailBnum + 1) s.ct.bufs ++
      [((s.bufs s.jsblockBuf).addr, JsBlock.setTail s.jsb (s.jtailBnum + s.ct.size))]

/-- The state once all blocks of the transaction are in the journal. -/
def onJournal (s : Bio) : Bio :=
  { s with
    bufs := fun c =>
      if c = s.jtransHeaderBuf then
        { s.bufs c with busy := true, valid := true, dirty := false, data := s.headerBlock }
      else if c ∈ s.ct.bufs then
        { s.bufs c with busy := true, valid := true, dirty := true, faliable := s.shouldPanic }
      else s.bufs c
    disk := applyWrites ((⟨(s.bufs s.jtransHeaderBuf).addr.dev, s.jtailBnum⟩, s.headerBlock) ::
      s.journalWrites (s.jtailBnum + 1) s.ct.bufs) s.disk
    log := s.log ++ (⟨(s.bufs s.jtransHeaderBuf).addr.dev, s.jtailBnum⟩, s.headerBlock) ::
      s.journalWrites (s.jtailBnum + 1) s.ct.bufs
    jtailBnum := s.jtailBnum + s.ct.size + 1
    transWriteLock := true
    jwrites := s.jwrites ++ List.range' s.jtailBnum (s.ct.size + 1) }

/-- The effect of writing the super block with the tail at the last journal block. -/
def supered (s : Bio) (t : MemTrans) : Bio :=
  { s with
    bufs := Function.update s.bufs s.jsblockBuf
      { s.bufs s.jsblockBuf with
        valid := true, dirty := false, data := JsBlock.setTail s.jsb (s.jtailBnum - 1) }
    disk := Function.update s.disk (s.bufs s.jsblockBuf).addr
      (JsBlock.setTail s.jsb (s.jtailBnum - 1))
    log := s.log ++ [((s.bufs s.jsblockBuf).addr, JsBlock.setTail s.jsb (s.jtailBnum - 1))]
    commits := s.commits ++ [s.pairs t] }

/-- The pending-list nodes after a commit: the new node is put after the tail. -/
def linkedNodes (s : Bio) (t : MemTrans) : NodeId → MemTransNode :=
  let fresh := Function.update s.nodes s.nextNode ⟨t, none⟩
  match s.mtnHead, s.mtnTail with
  | some _, some tail =>
    Function.update fresh tail { fresh tail with next := some s.nextNode }
  | _, _ => fresh

/-- The pending list after a commit. -/
def linked (s : Bio) (t : MemTrans) : Bio :=
  { s with
    nodes := s.linkedNodes t
    nextNode := s.nextNode + 1
    mtnHead := if s.mtnHead = none then some s.nextNode else s.mtnHead
    mtnTail := if s.mtnHead = none then some s.nextNode else s.mtnTail }

/-- The buffers after a commit. -/
def committedBufs (s : Bio) : BufId → Buf := fun c =>
  if c = s.jsblockBuf then
    { s.bufs c with
      valid := true, dirty := false
      data := JsBlock.setTail s.jsb (s.jtailBnum + s.ct.size) }
  else if c = s.jtransHeaderBuf then
    { s.bufs c with busy := true, valid := true, dirty := false, data := s.headerBlock }
  else if c ∈ s.ct.bufs then
    { s.bufs c with busy := true, valid := true, dirty := true, faliable := s.shouldPanic }
  else s.bufs c

/-- The state after a commit. -/
def committed (s : Bio) : Bio :=
  { s.linked s.ct with
    bufs := s.committedBufs
    disk := applyWrites s.commitWrites s.disk
    log := s.log ++ s.commitWrites
    jtailBnum := s.jtailBnum + s.ct.size + 1
    ct := MemTrans.empty
    jwrites := s.jwrites ++ List.range' s.jtailBnum (s.ct.size + 1)
    commits := s.commits ++ [s.pairs s.ct] }

end Bio

/-- What `end_trans` relies on when it starts: nobody else commits, the buffers
involved are busy, and the header, the super block and the transaction are kept in
different buffers. -/
structure CommitReady (s : Bio) : Prop where
  unlocked : s.transWriteLock = false
  busy : ∀ b ∈ s.ct.bufs, (s.bufs b).busy = true
  jsb_busy : (s.bufs s.jsblockBuf).busy = true
  separate : s.jtransHeaderBuf ≠ s.jsblockBuf
  header_notMem : s.jtransHeaderBuf ∉ s.ct.bufs
  jsb_notMem : s.jsblockBuf ∉ s.ct.bufs
  tail : s.mtnHead ≠ none → s.mtnTail ≠ none

section EndTrans

variable {s : Bio}

theorem endTrans_empty (empty : s.ct.size = 0) : endTrans.run s = .ok () s := by
  simp [endTrans, empty]

/-- `end_trans` up to the point where it starts writing to the journal. -/
theorem endTrans_start (nonempty : 0 < s.ct.size) (unlocked : s.transWriteLock = false) :
    endTrans.run s =
      (jbwrite s.jtransHeaderBuf >>= fun _ => s.ct.bufs.forM journalBuf >>= fun _ =>
        commitSuper s.ct >>= fun _ => linkPending s.ct >>= fun _ =>
          releaseSl >>= fun _ => resetcurtrans).run s.headed := by
  have hacq : acquireSl.run s = .ok () { s with transWriteLock := true } := by
    simp [acquireSl, unlocked]
  simp only [endTrans, run_get_bind]
  rw [if_pos nonempty, run_bind_of_ok hacq]
  rfl

@[simp] theorem headed_jsb (separate : s.jtransHeaderBuf ≠ s.jsblockBuf) :
    s.headed.jsb = s.jsb := by
  change ((s.setBuf _ _).bufs s.jsblockBuf).data = _
  rw [setBuf_bufs_of_ne _ _ _ (Ne.symm separate)]
  rfl

theorem jwritten_busy {b c : BufId} (busy : (s.bufs c).busy = true) :
    ((s.jwritten b).bufs c).busy = true := by
  by_cases h : c = b
  · subst h
    simp [jwritten]
  · rw [jwritten]
    change ((s.setBuf _ _).bufs c).busy = true
    rw [setBuf_bufs_of_ne _ _ _ h]
    exact busy

@[simp] theorem jwritten_data (s : Bio) (b c : BufId) :
    ((s.jwritten b).bufs c).data = (s.bufs c).data := by
  by_cases h : c = b
  · subst h
    simp [jwritten]
  · rw [jwritten]
    change ((s.setBuf _ _).bufs c).data = _
    rw [setBuf_bufs_of_ne _ _ _ h]

theorem headed_busy {c : BufId} (busy : (s.bufs c).busy = true) :
    (s.headed.bufs c).busy = true := by
  by_cases h : c = s.jtransHeaderBuf
  · subst h
    simp [headed]
  · change ((s.setBuf _ _).bufs c).busy = true
    rw [setBuf_bufs_of_ne _ _ _ h]
    exact busy

theorem headed_header_busy : (s.headed.bufs s.jtransHeaderBuf).busy = true := by
  simp [headed]

theorem commitSuper_busy {t : MemTrans} (busy : (s.bufs s.jsblockBuf).busy = true)
    (outside : s.jsblockBuf ∉ t.bufs) : (commitSuper t).run s = .ok () (s.supered t) := by
  let marked := s.setBuf s.jsblockBuf
    { s.bufs s.jsblockBuf with
      dirty := true, data := JsBlock.setTail (s.bufs s.jsblockBuf).data (s.jtailBnum - 1) }
  have hrw : (ideRw s.jsblockBuf).run marked = .ok () (marked.written s.jsblockBuf) :=
    ideRw_dirty (by simpa [marked] using busy) (by simp [marked])
  have hpairs : (marked.written s.jsblockBuf).pairs t = s.pairs t := by
    unfold Bio.pairs
    apply List.map_congr_left
    intro b hb
    have hne : b ≠ s.jsblockBuf := fun h => outside (h ▸ hb)
    simp [marked, Bio.written, Bio.setBuf, hne]
  simp only [commitSuper, run_get_bind, run_modify_bind]
  rw [run_bind_of_ok hrw, EStateM.run_modify, hpairs]
  simp [marked, supered, Bio.written, Bio.setBuf, Bio.jsb]

theorem linkPending_run (t : MemTrans) (tail : s.mtnHead ≠ none → s.mtnTail ≠ none) :
    (linkPending t).run s = .ok () (s.linked t) := by
  cases hh : s.mtnHead with
  | none => simp [linkPending, linked, linkedNodes, newNode, hh]
  | some h =>
    obtain ⟨n, hn⟩ := Option.ne_none_iff_exists'.mp (tail (by simp [hh]))
    simp [linkPending, linked, linkedNodes, newNode, setNext, hh, hn]

/-- Journaling the header and then the transaction's buffers. -/
theorem journaledAll_headed (outside : s.jtransHeaderBuf ∉ s.ct.bufs) :
    (s.headed.jwritten s.jtransHeaderBuf).journaledAll s.ct.bufs = s.onJournal := by
  have hkeep : ∀ c ≠ s.jtransHeaderBuf,
      (s.headed.jwritten s.jtransHeaderBuf).bufs c = s.bufs c := by
    intro c hc
    change ((s.headed.setBuf _ _).bufs c) = _
    rw [setBuf_bufs_of_ne _ _ _ hc]
    exact setBuf_bufs_of_ne _ _ _ hc
  have hne : ∀ c ∈ s.ct.bufs, c ≠ s.jtransHeaderBuf := fun c hc h => outside (h ▸ hc)
  have hwrites : (s.headed.jwritten s.jtransHeaderBuf).journalWrites (s.jtailBnum + 1)
      s.ct.bufs = s.journalWrites (s.jtailBnum + 1) s.ct.bufs :=
    journalWrites_congr (fun c hc => congrArg Buf.addr (hkeep c (hne c hc)))
      (fun c hc => congrArg Buf.data (hkeep c (hne c hc))) _
  have hheader : s.headed.bufs s.jtransHeaderBuf =
      { s.bufs s.jtransHeaderBuf with busy := true, dirty := true, data := s.headerBlock } :=
    setBuf_bufs_self ..
  rw [journaledAll_eq]
  apply Bio.ext
  case bufs =>
    funext c
    by_cases hc : c = s.jtransHeaderBuf
    · subst hc
      simp [onJournal, outside, jwritten, headed, headerBlock]
    · simp [onJournal, hc, hkeep c hc]
      rfl
  case disk =>
    change applyWrites ((s.headed.jwritten s.jtransHeaderBuf).journalWrites (s.jtailBnum + 1)
      s.ct.bufs) (Function.update s.disk ⟨(s.headed.bufs s.jtransHeaderBuf).addr.dev, _⟩
        (s.headed.bufs s.jtransHeaderBuf).data) = _
    rw [hwrites, hheader]
    rfl
  case log =>
    change (s.log ++ [(⟨(s.headed.bufs s.jtransHeaderBuf).addr.dev, _⟩,
      (s.headed.bufs s.jtransHeaderBuf).data)]) ++
        (s.headed.jwritten s.jtransHeaderBuf).journalWrites
        (s.jtailBnum + 1) s.ct.bufs = _
    rw [hwrites, hheader, List.append_assoc]
    rfl
  case jtailBnum =>
    change s.jtailBnum + 1 + s.ct.size = s.jtailBnum + s.ct.size + 1
    omega
  case jwrites =>
    change (s.jwrites ++ [s.jtailBnum]) ++ List.range' (s.jtailBnum + 1) s.ct.size = _
    rw [List.append_assoc]
    rfl
  all_goals rfl

theorem pairs_onJournal (outside : s.jtransHeaderBuf ∉ s.ct.bufs) :
    s.onJournal.pairs s.ct = s.pairs s.ct := by
  unfold Bio.pairs
  apply List.map_congr_left
  intro b hb
  have hne : b ≠ s.jtransHeaderBuf := fun h => outside (h ▸ hb)
  simp [onJournal, hne, hb]

/-- With room in the journal `end_trans` commits: it returns, and its effect is
`Bio.committed`. -/
theorem endTrans_room (ready : CommitReady s) (nonempty : 0 < s.ct.size)
    (room : s.Room (s.ct.size + 1)) : endTrans.run s = .ok () s.committed := by
  have hjsb := headed_jsb ready.separate
  have hone : s.headed.Room 1 := by
    rcases room with idle | fits
    · exact Or.inl idle
    · refine Or.inr ?_
      rw [hjsb]
      change s.jtailBnum + 1 ≤ _
      omega
  have hjsb1 : (s.headed.jwritten s.jtransHeaderBuf).jsb = s.jsb :=
    (jwritten_data s.headed _ _).trans hjsb
  have hrest : (s.headed.jwritten s.jtransHeaderBuf).Room s.ct.bufs.length := by
    rcases room with idle | fits
    · exact Or.inl idle
    · refine Or.inr ?_
      rw [hjsb1]
      change s.jtailBnum + 1 + s.ct.size ≤ _
      omega
  have hsuper : (s.onJournal.bufs s.jsblockBuf) = s.bufs s.jsblockBuf := by
    simp [onJournal, ready.separate.symm, ready.jsb_notMem]
  have hcommit : (commitSuper s.ct).run s.onJournal = .ok () (s.onJournal.supered s.ct) :=
    commitSuper_busy (by rw [← ready.jsb_busy]; exact congrArg Buf.busy hsuper)
      ready.jsb_notMem
  have hlink : (linkPending s.ct).run (s.onJournal.supered s.ct) =
      .ok () ((s.onJournal.supered s.ct).linked s.ct) := linkPending_run _ ready.tail
  have htail : s.onJournal.jtailBnum - 1 = s.jtailBnum + s.ct.size := rfl
  have hjsblock : s.onJournal.jsblockBuf = s.jsblockBuf := rfl
  have hjsb2 : s.onJournal.jsb = s.jsb := congrArg Buf.data hsuper
  rw [endTrans_start nonempty ready.unlocked,
    run_bind_of_ok (jbwrite_room headed_header_busy hone),
    run_bind_of_ok (forM_journalBuf_room
      (fun b hb => jwritten_busy (headed_busy (ready.busy b hb))) hrest),
    journaledAll_headed ready.header_notMem, run_bind_of_ok hcommit, run_bind_of_ok hlink]
  simp only [releaseSl, resetcurtrans, run_modify_bind, EStateM.run_modify]
  congr 1
  apply Bio.ext
  case bufs =>
    funext c
    change Function.update s.onJournal.bufs s.jsblockBuf _ c = s.committedBufs c
    unfold committedBufs
    by_cases hc : c = s.jsblockBuf
    · subst hc
      rw [Function.update_self, if_pos rfl, htail]
      simp only [Bio.jsb, hjsblock, hsuper]
    · rw [Function.update_of_ne hc, if_neg hc]
      rfl
  case disk =>
    change Function.update s.onJournal.disk (s.onJournal.bufs s.jsblockBuf).addr
      (JsBlock.setTail s.onJournal.jsb (s.onJournal.jtailBnum - 1)) =
        applyWrites s.commitWrites s.disk
    rw [hsuper, hjsb2, htail, commitWrites, applyWrites_append]
    rfl
  case log =>
    change s.onJournal.log ++ [((s.onJournal.bufs s.jsblockBuf).addr,
      JsBlock.setTail s.onJournal.jsb (s.onJournal.jtailBnum - 1))] = _
    rw [hsuper, hjsb2, htail, onJournal, List.append_assoc]
    rfl
  case commits =>
    change s.commits ++ [s.onJournal.pairs s.ct] = s.commits ++ [s.pairs s.ct]
    rw [pairs_onJournal ready.header_notMem]
  case transWriteLock => exact ready.unlocked.symm
  all_goals rfl

/-- Without room `end_trans` ends up spinning on the lock it holds, after it has
written one block, or all blocks up to the end of the journal. -/
theorem endTrans_full (ready : CommitReady s) (nonempty : 0 < s.ct.size)
    (full : ¬ s.Room (s.ct.size + 1)) :
    ∃ s', endTrans.run s = .error .spin s' ∧
      s'.jwrites = s.jwrites ++
        List.range' s.jtailBnum (max 1 (JsBlock.size s.jsb + 3 - s.jtailBnum)) := by
  have hjsb := headed_jsb ready.separate
  have hjsb1 : (s.headed.jwritten s.jtransHeaderBuf).jsb = s.jsb :=
    (jwritten_data s.headed _ _).trans hjsb
  simp only [Room, not_or, not_le] at full
  rw [endTrans_start nonempty ready.unlocked]
  by_cases hone : s.headed.Room 1
  · rw [run_bind_of_ok (jbwrite_room headed_header_busy hone)]
    have hfits : s.jtailBnum + 1 ≤ JsBlock.size s.jsb + 2 := by
      rw [← hjsb]
      exact hone.resolve_left full.1
    have hfull : ¬ (s.headed.jwritten s.jtransHeaderBuf).Room s.ct.bufs.length := by
      simp only [Room, not_or, not_le, hjsb1]
      refine ⟨full.1, ?_⟩
      change _ < s.jtailBnum + 1 + s.ct.size
      omega
    obtain ⟨s', hrun, hwrites⟩ := forM_journalBuf_full
      (fun b hb => jwritten_busy (headed_busy (ready.busy b hb))) rfl
      (by rw [hjsb1]; exact hfits) hfull
    refine ⟨s', run_bind_of_error hrun, ?_⟩
    rw [hwrites, hjsb1,
      show max 1 (JsBlock.size s.jsb + 3 - s.jtailBnum) =
        (JsBlock.size s.jsb + 3 - (s.jtailBnum + 1)) + 1 by omega, List.range'_succ]
    exact List.append_assoc ..
  · refine ⟨_, run_bind_of_error (jbwrite_full headed_header_busy rfl hone), ?_⟩
    simp only [Room, not_or, not_le, hjsb] at hone
    have htail : JsBlock.size s.jsb + 2 < s.jtailBnum + 1 := hone.2
    rw [show max 1 (JsBlock.size s.jsb + 3 - s.jtailBnum) = 1 by omega]
    rfl

/-- The ways in which `end_trans` returns: with nothing to do, or after a commit. -/
theorem endTrans_eq_ok {t : Bio} (ready : CommitReady s) (run : endTrans.run s = .ok () t) :
    (s.ct.size = 0 ∧ t = s) ∨
      (0 < s.ct.size ∧ s.Room (s.ct.size + 1) ∧ t = s.committed) := by
  rcases Nat.eq_zero_or_pos s.ct.size with empty | nonempty
  · rw [endTrans_empty empty] at run
    exact Or.inl ⟨empty, (EStateM.Result.ok.inj run).2.symm⟩
  · right
    by_cases room : s.Room (s.ct.size + 1)
    · rw [endTrans_room ready nonempty room] at run
      exact ⟨nonempty, room, (EStateM.Result.ok.inj run).2.symm⟩
    · obtain ⟨s', hs', -⟩ := endTrans_full ready nonempty room
      rw [hs'] at run
      cases run

end EndTrans

end Xv6
