/-
# Transactions as calls

A process fills a transaction block by block (`bread`, change the data, `bwrite`,
`brelse`) and commits it; somebody flushes now and then. This file says what the
filling of a transaction does to the cache and to everything else.
-/

import Xv6.Bio.Flush

namespace Xv6

open Math Bio

/-- Change one block inside the current transaction. -/
def putBlock (w : BlockAddr × Block) : BioM Unit := do
  let b ← bread w.1
  modify fun s => s.setBuf b { s.bufs b with data := w.2 }
  bwrite b
  brelse b

/-- What processes ask of the journal: commit a transaction, or flush. -/
inductive Call where
  | trans (ws : Txn)
  | flush

/-- The code behind a call. -/
def Call.run : Call → BioM Unit
  | .trans ws => do
    ws.forM putBlock
    endTrans
  | .flush => jfullFlush

/-- Sectors of the device that belong to neither the journal super block nor the journal. -/
def IsHome (dev J : Nat) (a : BlockAddr) : Prop :=
  a.dev = dev ∧ (a.sector < 2 ∨ J + 2 < a.sector) ∧ a.sector < 2 ^ 32

instance (dev J : Nat) (a : BlockAddr) : Decidable (IsHome dev J a) := by
  unfold IsHome
  infer_instance

/-- The journal super block and the journal. -/
def InJournal (dev J : Nat) (a : BlockAddr) : Prop := a.dev = dev ∧ 2 ≤ a.sector ∧ a.sector ≤ J + 2

variable {a : BlockAddr}

theorem InJournal.not_isHome {dev J : Nat} (inside : InJournal dev J a) : ¬ IsHome dev J a := by
  rintro ⟨-, h | h, -⟩
  · exact absurd inside.2.1 (not_le.mpr h)
  · exact absurd inside.2.2 (not_le.mpr h)

/-- `t` is `s` up to the transaction being filled and the buffers it holds: busy
buffers, the disk, the journal and the pending list are as they were. -/
structure Filled (s t : Bio) : Prop where
  busy : ∀ c, (s.bufs c).busy = true → t.bufs c = s.bufs c
  same : t = { s with bufs := t.bufs, ct := t.ct }

section Filling

variable {s t : Bio}

theorem Filled.refl (s : Bio) : Filled s s := ⟨fun _ _ => rfl, rfl⟩

variable {b : BufId} {w : BlockAddr × Block} {ws : Txn}

/-- The buffer that `bread` hands out is busy and stands for the block asked for. -/
theorem handed_of_bread (read : (bread a).run s = .ok b t) :
    (s.handed a b).busy = true ∧ (s.handed a b).valid = true ∧ (s.handed a b).addr = a := by
  obtain ⟨-, hfree, -, hit | miss⟩ := bread_eq_ok read
  · obtain ⟨-, hlive, haddr⟩ := Bio.cached_some hit
    have hvalid : (s.bufs b).valid = true := by simpa [Buf.live, hfree] using hlive
    simp [Bio.handed, hit, hvalid, haddr]
  · simp [Bio.handed, miss]

/-- The effect of putting a block into a transaction, given the buffer of the block. -/
theorem putBlock_of_bread (read : (bread w.1).run s = .ok b t) :
    (putBlock w).run s = .ok ()
      { s.setBuf b { s.handed w.1 b with data := w.2, dirty := true } with
        ct := ⟨b :: s.ct.bufs⟩ } := by
  have hbusy := (handed_of_bread read).1
  obtain ⟨-, -, rfl, -⟩ := bread_eq_ok read
  let stored := s.setBuf b { s.handed w.1 b with data := w.2 }
  let filled : Bio :=
    { s.setBuf b { s.handed w.1 b with data := w.2, dirty := true } with
      ct := ⟨b :: s.ct.bufs⟩ }
  have hstore : ((s.setBuf b (s.handed w.1 b)).setBuf b
      { (s.setBuf b (s.handed w.1 b)).bufs b with data := w.2 }) = stored := by
    simp [stored, Bio.setBuf]
  have hwrite : (bwrite b).run stored = .ok () filled := by
    rw [bwrite_busy (by simp [stored, hbusy])]
    simp [stored, filled, Bio.setBuf]
  have hrelse : (brelse b).run filled = .ok () filled := by
    apply brelse_dirty
    · simp [filled, hbusy]
    · simp [filled]
    · simp [filled, MemTrans.size]
  rw [putBlock, run_bind_of_ok read, run_modify_bind, hstore, run_bind_of_ok hwrite, hrelse]

/-- A block put into a transaction: a buffer nobody held is now part of it. -/
theorem putBlock_eq_ok (run : (putBlock w).run s = .ok () t) :
    ∃ b buf, (s.bufs b).busy = false ∧ b ∈ s.lru ∧
      buf.busy = true ∧ buf.valid = true ∧ buf.dirty = true ∧ buf.addr = w.1 ∧ buf.data = w.2 ∧
      t = { s.setBuf b buf with ct := ⟨b :: s.ct.bufs⟩ } := by
  obtain ⟨b, u, hread, -⟩ := run_bind_eq_ok_iff.mp run
  obtain ⟨hmem, hfree, -, -⟩ := bread_eq_ok hread
  obtain ⟨hbusy, hvalid, haddr⟩ := handed_of_bread hread
  rw [putBlock_of_bread hread] at run
  exact ⟨b, { s.handed w.1 b with data := w.2, dirty := true }, hfree, hmem, hbusy, hvalid, rfl,
    haddr, rfl, (EStateM.Result.ok.inj run).2.symm⟩

/-- Putting a block into a transaction can only stop in `bread`. -/
theorem putBlock_eq_error {e : Stop} (run : (putBlock w).run s = .error e t) : t = s := by
  rcases run_bind_eq_error_iff.mp run with hread | ⟨b, u, hread, -⟩
  · exact bread_eq_error hread
  · rw [putBlock_of_bread hread] at run
    cases run

/-- The buffers that filling a transaction with `ws` has added to it. -/
structure Fills (s t : Bio) (ws : Txn) (bs : List BufId) : Prop where
  filled : Filled s t
  others : ∀ c, c ∉ bs → t.bufs c = s.bufs c
  ct : t.ct.bufs = bs ++ s.ct.bufs
  nodup : bs.Nodup
  free : ∀ b ∈ bs, (s.bufs b).busy = false
  lru : ∀ b ∈ bs, b ∈ s.lru
  busy : ∀ b ∈ bs, (t.bufs b).busy = true
  valid : ∀ b ∈ bs, (t.bufs b).valid = true
  dirty : ∀ b ∈ bs, (t.bufs b).dirty = true
  -- `bwrite` pushes at the front, so the transaction holds the writes in reverse
  pairs : t.pairs ⟨bs⟩ = ws.reverse

theorem Filled.trans {u : Bio} (first : Filled s u) (second : Filled u t) : Filled s t where
  busy c hc := by rw [second.busy c (by rw [first.busy c hc]; exact hc), first.busy c hc]
  same := by
    rw [second.same, first.same]

theorem fill_eq_ok (run : (ws.forM putBlock).run s = .ok () t) : ∃ bs, Fills s t ws bs := by
  induction ws generalizing s with
  | nil =>
    obtain rfl := (EStateM.Result.ok.inj run).2
    refine ⟨[], Filled.refl s, fun _ _ => rfl, rfl, List.nodup_nil, ?_, ?_, ?_, ?_, ?_,
      rfl⟩ <;> simp
  | cons w ws ih =>
    rw [run_forM_cons] at run
    obtain ⟨⟨⟩, u, hput, hrest⟩ := run_bind_eq_ok_iff.mp run
    obtain ⟨b, buf, hfree, hmem, hbusy, hvalid, hdirty, haddr, hdata, rfl⟩ :=
      putBlock_eq_ok hput
    obtain ⟨bs, h⟩ := ih hrest
    have hfirst : Filled s { s.setBuf b buf with ct := ⟨b :: s.ct.bufs⟩ } := by
      refine ⟨fun c hc => setBuf_bufs_of_ne _ _ _ ?_, rfl⟩
      rintro rfl
      rw [hfree] at hc
      exact Bool.false_ne_true hc
    -- `b` is busy from now on, so nothing later touches it
    have hb : t.bufs b = buf := by
      rw [h.filled.busy b (by simpa using hbusy)]
      simp
    have hfresh : ∀ c ∈ bs, c ≠ b := by
      rintro c hc rfl
      have := h.free c hc
      simp [hbusy] at this
    refine ⟨bs ++ [b], hfirst.trans h.filled, ?_, ?_, ?_, ?_, ?_, ?_, ?_, ?_, ?_⟩
    · intro c hc
      simp only [List.mem_append, List.mem_singleton, not_or] at hc
      rw [h.others c hc.1]
      exact setBuf_bufs_of_ne _ _ _ hc.2
    · rw [h.ct]
      simp
    · rw [List.nodup_append]
      exact ⟨h.nodup, List.nodup_singleton b, fun c hc d hd =>
        List.mem_singleton.mp hd ▸ hfresh c hc⟩
    · refine List.forall_mem_append.mpr ⟨fun c hc => ?_, by simpa using hfree⟩
      simpa [setBuf_bufs_of_ne _ _ _ (hfresh c hc)] using h.free c hc
    · exact List.forall_mem_append.mpr ⟨h.lru, by simpa using hmem⟩
    · exact List.forall_mem_append.mpr ⟨h.busy, by simpa [hb] using hbusy⟩
    · exact List.forall_mem_append.mpr ⟨h.valid, by simpa [hb] using hvalid⟩
    · exact List.forall_mem_append.mpr ⟨h.dirty, by simpa [hb] using hdirty⟩
    · have hlast : t.pairs ⟨bs ++ [b]⟩ = t.pairs ⟨bs⟩ ++ [w] := by
        simp [Bio.pairs, hb, haddr, hdata]
      rw [hlast, h.pairs, List.reverse_cons]

/-- Filling a transaction returns when its blocks are different, nobody holds one of
them, and there are enough buffers. -/
theorem fill_returns (held : List BufId) (nodup : s.lru.Nodup)
    (distinct : (ws.map Prod.fst).Nodup) (busy : ∀ b, (s.bufs b).busy = true → b ∈ held)
    (apart : ∀ b ∈ held, (s.bufs b).addr ∉ ws.map Prod.fst)
    (room : held.length + ws.length ≤ s.lru.length) : ∃ t, (ws.forM putBlock).run s = .ok () t := by
  induction ws generalizing s held with
  | nil => exact ⟨s, rfl⟩
  | cons w ws ih =>
    rw [List.map_cons, List.nodup_cons] at distinct
    -- a buffer for the block: the cached one is free, and otherwise some buffer is
    obtain ⟨b, u, hread⟩ : ∃ b u, (bread w.1).run s = .ok b u := by
      cases hc : s.cached w.1 with
      | some b =>
        have hfree : (s.bufs b).busy = false := by
          cases hb : (s.bufs b).busy with
          | false => rfl
          | true =>
            exact absurd (by rw [(Bio.cached_some hc).2.2]; simp) (apart b (busy b hb))
        exact ⟨b, _, bread_hit hc hfree⟩
      | none =>
        obtain ⟨c, hc', hfree⟩ : ∃ c ∈ s.lru, (s.bufs c).busy = false := by
          by_contra hall
          have hsub : s.lru ⊆ held := fun c hc' => busy c (by
            by_contra hbusy
            exact hall ⟨c, hc', by simpa using hbusy⟩)
          have := (nodup.subperm hsub).length_le
          rw [List.length_cons] at room
          omega
        obtain ⟨b, hb⟩ := Bio.exists_victim hc' hfree
        exact ⟨b, _, bread_miss hc hb⟩
    have hput := putBlock_of_bread hread
    obtain ⟨-, -, haddr⟩ := handed_of_bread hread
    obtain ⟨-, hfree, -, -⟩ := bread_eq_ok hread
    obtain ⟨t, ht⟩ := ih
      (s := { s.setBuf b { s.handed w.1 b with data := w.2, dirty := true } with
        ct := ⟨b :: s.ct.bufs⟩ }) (b :: held) nodup distinct.2
      (fun c hc => by
        by_cases hcb : c = b
        · simp [hcb]
        · rw [show ({ s.setBuf b _ with ct := _ } : Bio).bufs c = s.bufs c from
            setBuf_bufs_of_ne _ _ _ hcb] at hc
          exact List.mem_cons_of_mem _ (busy c hc))
      (fun c hc => by
        by_cases hcb : c = b
        · subst hcb
          rw [show ({ s.setBuf c _ with ct := _ } : Bio).bufs c =
            { s.handed w.1 c with data := w.2, dirty := true } from setBuf_bufs_self _ _ _]
          change (s.handed w.1 c).addr ∉ _
          rw [haddr]
          exact distinct.1
        · rw [show ({ s.setBuf b _ with ct := _ } : Bio).bufs c = s.bufs c from
            setBuf_bufs_of_ne _ _ _ hcb]
          have hmem := apart c ((List.mem_cons.mp hc).resolve_left hcb)
          exact fun h => hmem (List.mem_cons_of_mem _ h))
      (by
        rw [List.length_cons] at room ⊢
        change _ ≤ s.lru.length
        omega)
    exact ⟨t, by rw [run_forM_cons, run_bind_of_ok hput, ht]⟩

end Filling

end Xv6
