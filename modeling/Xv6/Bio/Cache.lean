/-
# The buffer cache

`bget`, `bread`, `bwrite`, `brelse` and `jbrelse` of `bio.c` over the disk driver
`ide_rw`. A call that would sleep for a busy buffer stops the computation with the
buffer it waits for: who may wake it is a question about the other processes.
-/

import Xv6.Bio.State

namespace Xv6

open Math Bio

/-- The effect of writing a buffer to its sector. -/
def Bio.written (s : Bio) (b : BufId) : Bio :=
  { s.setBuf b { s.bufs b with valid := true, dirty := false } with
    disk := Function.update s.disk (s.bufs b).addr (s.bufs b).data
    log := s.log ++ [((s.bufs b).addr, (s.bufs b).data)] }

/-- `ide_rw`: write a dirty buffer to its sector, or read an invalid one. -/
def ideRw (b : BufId) : BioM Unit := do
  let s ← get
  let buf := s.bufs b
  if !buf.busy then
    throw (.panic "ide_rw: buf not busy")
  else if buf.valid && !buf.dirty then
    throw (.panic "ide_rw: nothing to do")
  else if buf.dirty then
    modify fun s => s.written b
  else
    modify fun s => s.setBuf b { buf with valid := true, data := s.disk buf.addr }

/-- The cached buffer for a block: the first live one on the list. -/
def Bio.cached (s : Bio) (a : BlockAddr) : Option BufId :=
  s.lru.find? fun b => (s.bufs b).live && (s.bufs b).addr = a

/-- The buffer that `bget` recycles: the least recently used one that is not busy. -/
def Bio.victim (s : Bio) : Option BufId :=
  s.lru.reverse.find? fun b => !(s.bufs b).busy

/-- `bget`: the cached buffer of a block, or a recycled one. -/
def bget (a : BlockAddr) : BioM BufId := do
  let s ← get
  match s.cached a with
  | some b =>
    if (s.bufs b).busy then
      throw (.sleep b)
    else
      modify fun s => s.setBuf b { s.bufs b with busy := true }
      pure b
  | none =>
    match s.victim with
    | some b =>
      modify fun s =>
        s.setBuf b { s.bufs b with busy := true, valid := false, dirty := false, addr := a }
      pure b
    | none => throw (.panic "bget: no buffers")

/-- `bread`: a busy buffer with the contents of the block. -/
def bread (a : BlockAddr) : BioM BufId := do
  let b ← bget a
  let s ← get
  if (s.bufs b).valid then pure b
  else
    ideRw b
    pure b

/-- `bwrite`: mark a buffer dirty and add it to the current transaction. -/
def bwrite (b : BufId) : BioM Unit := do
  let s ← get
  if !(s.bufs b).busy then
    throw (.panic "bwrite")
  else
    modify fun s =>
      { s.setBuf b { s.bufs b with dirty := true } with ct := ⟨b :: s.ct.bufs⟩ }

/-- `jbrelse`: clear `B_BUSY` and move the buffer to the front of the list. -/
def jbrelse (b : BufId) : BioM Unit := do
  let s ← get
  if !(s.bufs b).busy then
    throw (.panic "brelse")
  else
    modify fun s =>
      { s.setBuf b { s.bufs b with busy := false } with lru := b :: s.lru.erase b }

/-- `brelse`: a dirty buffer stays busy while the transaction is open. -/
def brelse (b : BufId) : BioM Unit := do
  let s ← get
  if !(s.bufs b).busy then
    throw (.panic "brelse")
  else if s.ct.size = 0 || !(s.bufs b).dirty then
    jbrelse b
  else
    pure ()

/-! ### What the driver and a release leave alone -/

/-- The shared variables apart from the buffers, their list and the disk. -/
def Bio.frame (s : Bio) : Bio :=
  { s with bufs := fun _ => Buf.unused, lru := [], disk := fun _ => Block.zero, log := [] }

theorem ideRw_keeps_frame (b : BufId) : Keeps Bio.frame (ideRw b) := by
  refine Keeps.get.bind fun s => (Keeps.throw _).ite <| (Keeps.throw _).ite <|
    Keeps.ite (Keeps.modify ?_) (Keeps.modify ?_)
  · exact fun _ => rfl
  · exact fun _ => rfl

theorem jbrelse_keeps_frame (b : BufId) : Keeps Bio.frame (jbrelse b) := by
  refine Keeps.get.bind fun _ => (Keeps.throw _).ite (Keeps.modify ?_)
  exact fun _ => rfl

/-! ### What each operation does -/

section Effects

variable {s s' : Bio} {a : BlockAddr} {b : BufId}

theorem ideRw_dirty (busy : (s.bufs b).busy = true) (dirty : (s.bufs b).dirty = true) :
    (ideRw b).run s = .ok () (s.written b) := by
  simp [ideRw, busy, dirty]

theorem ideRw_invalid (busy : (s.bufs b).busy = true) (dirty : (s.bufs b).dirty = false)
    (invalid : (s.bufs b).valid = false) :
    (ideRw b).run s = .ok () (s.setBuf b
      { s.bufs b with valid := true, data := s.disk (s.bufs b).addr }) := by
  simp [ideRw, busy, dirty, invalid]

/-- A buffer found in the cache is live and stands for the block asked for. -/
theorem Bio.cached_some (h : s.cached a = some b) :
    b ∈ s.lru ∧ (s.bufs b).live = true ∧ (s.bufs b).addr = a := by
  have hmem := List.mem_of_find?_eq_some h
  have hprop := List.find?_some h
  simp only [Bool.and_eq_true, decide_eq_true_eq] at hprop
  exact ⟨hmem, hprop.1, hprop.2⟩

/-- A block is not in the cache when no live buffer stands for it. -/
theorem Bio.cached_none_iff :
    s.cached a = none ↔ ∀ c ∈ s.lru, (s.bufs c).live = true → (s.bufs c).addr ≠ a := by
  simp [Bio.cached]

theorem Bio.victim_some (h : s.victim = some b) : b ∈ s.lru ∧ (s.bufs b).busy = false := by
  have hmem := List.mem_of_find?_eq_some h
  have hprop := List.find?_some h
  exact ⟨List.mem_reverse.mp hmem, by simpa using hprop⟩

theorem Bio.exists_victim {c : BufId} (hc : c ∈ s.lru) (free : (s.bufs c).busy = false) :
    ∃ b, s.victim = some b := by
  rw [← Option.isSome_iff_exists, Bio.victim, List.find?_isSome]
  exact ⟨c, List.mem_reverse.mpr hc, by simpa using free⟩

/-- The buffer `bread` hands out for a block, with flag `dirty` as found. -/
def Bio.handed (s : Bio) (a : BlockAddr) (b : BufId) : Buf :=
  match s.cached a with
  | some _ => { s.bufs b with busy := true }
  | none =>
    { s.bufs b with
      busy := true, valid := true, dirty := false, addr := a, data := s.disk a }

theorem bread_hit (hit : s.cached a = some b) (free : (s.bufs b).busy = false) :
    (bread a).run s = .ok b (s.setBuf b { s.bufs b with busy := true }) := by
  have hvalid : (s.bufs b).valid = true := by
    have hlive := (Bio.cached_some hit).2.1
    simpa [Buf.live, free] using hlive
  have hget : (bget a).run s = .ok b (s.setBuf b { s.bufs b with busy := true }) := by
    simp [bget, hit, free]
  rw [bread, run_bind_of_ok hget]
  simp [hvalid]

theorem bread_miss (miss : s.cached a = none) (found : s.victim = some b) :
    (bread a).run s = .ok b (s.setBuf b
      { s.bufs b with
        busy := true, valid := true, dirty := false, addr := a, data := s.disk a }) := by
  have hget : (bget a).run s = .ok b (s.setBuf b
      { s.bufs b with busy := true, valid := false, dirty := false, addr := a }) := by
    simp [bget, miss, found]
  rw [bread, run_bind_of_ok hget, EStateM.run_bind, EStateM.run_get]
  simp only [setBuf_bufs_self, Bool.false_eq_true, if_false]
  rw [run_bind_of_ok (ideRw_invalid (by simp) (by simp) (by simp))]
  simp [Bio.setBuf]

/-- `bread` returns a buffer that nobody held, busy and with the block's contents;
no other buffer changes. -/
theorem bread_eq_ok (h : (bread a).run s = .ok b s') :
    b ∈ s.lru ∧ (s.bufs b).busy = false ∧ s' = s.setBuf b (s.handed a b) ∧
      (s.cached a = some b ∨ s.cached a = none) := by
  cases hc : s.cached a with
  | some c =>
    cases hbusy : (s.bufs c).busy with
    | true => simp [bread, bget, hc, hbusy] at h
    | false =>
      rw [bread_hit hc hbusy] at h
      cases h
      exact ⟨(Bio.cached_some hc).1, hbusy, by simp [Bio.handed, hc], Or.inl rfl⟩
  | none =>
    cases hv : s.victim with
    | none => simp [bread, bget, hc, hv] at h
    | some c =>
      rw [bread_miss hc hv] at h
      cases h
      exact ⟨(Bio.victim_some hv).1, (Bio.victim_some hv).2, by simp [Bio.handed, hc],
        Or.inr rfl⟩

theorem bread_sleep (hit : s.cached a = some b) (busy : (s.bufs b).busy = true) :
    (bread a).run s = .error (.sleep b) s := by
  have hget : (bget a).run s = .error (.sleep b) s := by simp [bget, hit, busy]
  rw [bread, run_bind_of_error hget]

theorem bread_panic (miss : s.cached a = none) (full : s.victim = none) :
    (bread a).run s = .error (.panic "bget: no buffers") s := by
  have hget : (bget a).run s = .error (.panic "bget: no buffers") s := by simp [bget, miss, full]
  rw [bread, run_bind_of_error hget]

/-- A `bread` that does not return has changed nothing. -/
theorem bread_eq_error {e : Stop} (h : (bread a).run s = .error e s') : s' = s := by
  cases hc : s.cached a with
  | some c =>
    cases hbusy : (s.bufs c).busy with
    | true =>
      rw [bread_sleep hc hbusy] at h
      exact (EStateM.Result.error.inj h).2.symm
    | false =>
      rw [bread_hit hc hbusy] at h
      cases h
  | none =>
    cases hv : s.victim with
    | none =>
      rw [bread_panic hc hv] at h
      exact (EStateM.Result.error.inj h).2.symm
    | some c =>
      rw [bread_miss hc hv] at h
      cases h

theorem bwrite_busy (busy : (s.bufs b).busy = true) :
    (bwrite b).run s = .ok ()
      { s.setBuf b { s.bufs b with dirty := true } with ct := ⟨b :: s.ct.bufs⟩ } := by
  simp [bwrite, busy]

theorem jbrelse_busy (busy : (s.bufs b).busy = true) :
    (jbrelse b).run s = .ok ()
      { s.setBuf b { s.bufs b with busy := false } with lru := b :: s.lru.erase b } := by
  simp [jbrelse, busy]

/-- While a transaction is open, releasing one of its dirty buffers does nothing. -/
theorem brelse_dirty (busy : (s.bufs b).busy = true) (dirty : (s.bufs b).dirty = true)
    (opened : s.ct.size ≠ 0) : (brelse b).run s = .ok () s := by
  simp [brelse, busy, dirty, opened]

end Effects

end Xv6
