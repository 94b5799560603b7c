/-
# The buffer list as linked records

`bio.c` keeps its buffers on a ring through `bufhead`; the model of the buffer cache keeps them in a
list. Here the links themselves are modelled: `binit` builds the ring, `jbrelse` takes a buffer out
and puts it in behind `bufhead`, and `bget` walks along the links, forward for a cached block and
backward for a buffer to recycle. In every run the ring holds each buffer once, in the order of the
last releases, and each operation does what its counterpart on the list does.
-/

import Xv6.Bio.Cache
import Xv6.Math.Links
import Xv6.Math.Runs

namespace Xv6

open Math

/-- The buffers and their links. The head of the ring is `bufhead`. -/
structure BufTable where
  links : Links BufId
  bufs : BufId → Buf

/-- Kernel code that holds `buf_table_lock`. -/
abbrev BufTableM := EStateM Stop BufTable

namespace BufTable

/-- Overwrite one buffer. -/
def setBuf (t : BufTable) (b : BufId) (buf : Buf) : BufTable :=
  { t with bufs := Function.update t.bufs b buf }

/-- The buffer stands for the block. -/
def standsFor (t : BufTable) (a : BlockAddr) (b : BufId) : Bool :=
  (t.bufs b).live && (t.bufs b).addr = a

/-- The buffer as `bget` recycles it for a block. -/
def recycled (t : BufTable) (b : BufId) (a : BlockAddr) : BufTable :=
  t.setBuf b { t.bufs b with busy := true, valid := false, dirty := false, addr := a }

/-- `binit`. What is in the buffers does not matter to the ring. -/
def binit (bufs : BufId → Buf) : BufTable :=
  ⟨(List.range NBUF).foldl Links.insert Links.empty, bufs⟩

/-- `bget`, with both of its loops along the links. -/
def bget (a : BlockAddr) : BufTableM BufId := do
  let t ← get
  match Links.search t.links.next (t.standsFor a) (NBUF + 1) (t.links.next none) with
  | none => throw .diverge
  | some (some b) =>
    if (t.bufs b).busy then
      throw (.sleep b)
    else
      set (t.setBuf b { t.bufs b with busy := true })
      pure b
  | some none =>
    match Links.search t.links.prev (fun b => !(t.bufs b).busy) (NBUF + 1)
      (t.links.prev none) with
    | none => throw .diverge
    | some (some b) =>
      set (t.recycled b a)
      pure b
    | some none => throw (.panic "bget: no buffers")

/-- `jbrelse`. -/
def jbrelse (b : BufId) : BufTableM Unit := do
  let t ← get
  if !(t.bufs b).busy then
    throw (.panic "brelse")
  else
    set { t.setBuf b { t.bufs b with busy := false } with
      links := (t.links.unlink b).insert b }

/-! ### The operations on a ring that holds a list -/

section Ring

variable {t : BufTable} {xs ys : List BufId} {b : BufId}

theorem holds_foldl_insert {L : Links BufId} (holds : L.Holds xs)
    (nodup : (ys.reverse ++ xs).Nodup) : (ys.foldl Links.insert L).Holds (ys.reverse ++ xs) := by
  induction ys generalizing L xs with
  | nil => exact holds
  | cons y ys ih =>
    rw [List.reverse_cons, List.append_assoc, List.singleton_append] at nodup ⊢
    have hy : y ∉ xs := (List.nodup_cons.mp nodup.of_append_right).1
    exact ih (holds.insert hy) nodup

theorem binit_links (bufs : BufId → Buf) :
    (binit bufs).links = (List.range NBUF).foldl Links.insert Links.empty := by
  rw [binit]

theorem binit_holds (bufs : BufId → Buf) : (binit bufs).links.Holds Bio.binitLru := by
  have hnodup := Bio.binitLru_nodup
  rw [binit_links, Bio.binitLru_eq] at *
  generalize List.range NBUF = ys at *
  rw [← List.append_nil ys.reverse] at hnodup ⊢
  exact holds_foldl_insert Links.holds_empty hnodup

/-- `bget` in terms of the list. Both loops end. -/
theorem bget_run (holds : t.links.Holds xs) (size : xs.length ≤ NBUF) (a : BlockAddr) :
    (bget a).run t = match xs.find? (t.standsFor a) with
      | some b =>
        if (t.bufs b).busy then .error (.sleep b) t
        else .ok b (t.setBuf b { t.bufs b with busy := true })
      | none => match xs.reverse.find? fun b => !(t.bufs b).busy with
        | some b => .ok b (t.recycled b a)
        | none => .error (.panic "bget: no buffers") t := by
  have hforward : Links.search t.links.next (t.standsFor a) (NBUF + 1) (t.links.next none) =
      some (xs.find? (t.standsFor a)) := holds.path.search_next _ (by omega)
  have hbackward : Links.search t.links.prev (fun b => !(t.bufs b).busy) (NBUF + 1)
      (t.links.prev none) = some (xs.reverse.find? fun b => !(t.bufs b).busy) := by
    have hpath : t.links.Path none (xs ++ []) := by
      rw [List.append_nil]
      exact holds.path
    exact hpath.search_prev _ (by omega)
  rw [bget, run_get_bind, hforward, hbackward]
  cases xs.find? (t.standsFor a) with
  | some b =>
    cases hbusy : (t.bufs b).busy with
    | true => simp [hbusy]
    | false =>
      simp only [hbusy]
      rfl
  | none =>
    cases xs.reverse.find? fun b => !(t.bufs b).busy with
    | some b => rfl
    | none => rfl

theorem jbrelse_run (busy : (t.bufs b).busy = true) :
    (jbrelse b).run t = .ok () { t.setBuf b { t.bufs b with busy := false } with
      links := (t.links.unlink b).insert b } := by
  simp [jbrelse, busy]

/-- Releasing a buffer moves it to the front. -/
theorem release_holds (holds : t.links.Holds xs) (mem : b ∈ xs) :
    ((t.links.unlink b).insert b).Holds (b :: xs.erase b) := by
  obtain ⟨ys, zs, rfl⟩ := List.append_of_mem mem
  have hnodup := List.nodup_middle.mp holds.nodup
  have hb : b ∉ ys ++ zs := (List.nodup_cons.mp hnodup).1
  have hys : b ∉ ys := fun h => hb (List.mem_append_left zs h)
  rw [List.erase_append_right _ hys, List.erase_cons_head]
  exact holds.unlink.insert hb

end Ring

/-! ### Runs -/

/-- What happens to the table. -/
inductive Op where
  /-- `bget` returns a buffer. -/
  | bget (a : BlockAddr)
  /-- `jbrelse` of a buffer of the table. -/
  | jbrelse (b : BufId)
  /-- Other code such as `ide_rw` and `jbwrite` changes the fields of a buffer. -/
  | change (b : BufId) (buf : Buf)

/-- The operation leads from one table to the other. -/
def Step : Op → BufTable → BufTable → Prop
  | .bget a, t, t' => ∃ b, (bget a).run t = .ok b t'
  | .jbrelse b, t, t' => b < NBUF ∧ (jbrelse b).run t = .ok () t'
  | .change b buf, t, t' => t' = t.setBuf b buf

/-- The buffers that the operations release, the last one first. -/
def releases (ops : List Op) : List BufId :=
  (ops.filterMap fun
    | .jbrelse b => some b
    | _ => none).reverse

/-- With the given releases, the last one first: `b` was released later than `c`, which may not
have been released at all, or neither of them was released. -/
def Newer (rs : List BufId) (b c : BufId) : Prop :=
  rs.idxOf b < rs.idxOf c ∨ b ∉ rs ∧ c ∉ rs

/-- The ring holds every buffer, in the order of the last releases. -/
structure IsLru (t : BufTable) (rs xs : List BufId) : Prop where
  holds : t.links.Holds xs
  perm : xs.Perm (List.range NBUF)
  newer : xs.Pairwise (Newer rs)

section Invariant

variable {t t' : BufTable} {rs xs : List BufId} {b c : BufId}

theorem IsLru.length (lru : t.IsLru rs xs) : xs.length = NBUF := by
  rw [lru.perm.length_eq, List.length_range]

theorem IsLru.mem_iff (lru : t.IsLru rs xs) : b ∈ xs ↔ b < NBUF := by
  rw [lru.perm.mem_iff, List.mem_range]

theorem binit_isLru (bufs : BufId → Buf) : (binit bufs).IsLru [] Bio.binitLru where
  holds := binit_holds bufs
  perm := by
    rw [Bio.binitLru_eq]
    exact List.reverse_perm _
  newer := List.pairwise_of_forall fun _ _ => .inr ⟨List.not_mem_nil, List.not_mem_nil⟩

/-- A change to the fields of the buffers leaves the ring alone. -/
theorem IsLru.of_links (lru : t.IsLru rs xs) (same : t'.links = t.links) : t'.IsLru rs xs :=
  ⟨same ▸ lru.holds, lru.perm, lru.newer⟩

theorem Newer.cons {a : BufId} (newer : Newer rs b c) (hb : b ≠ a) (hc : c ≠ a) :
    Newer (a :: rs) b c := by
  unfold Newer
  rw [List.idxOf_cons_ne _ hb.symm, List.idxOf_cons_ne _ hc.symm]
  rcases newer with h | ⟨hb', hc'⟩
  · exact .inl (Nat.succ_lt_succ h)
  · exact .inr ⟨List.not_mem_cons_of_ne_of_not_mem hb hb',
      List.not_mem_cons_of_ne_of_not_mem hc hc'⟩

theorem Newer.le (newer : Newer rs b c) : rs.idxOf b ≤ rs.idxOf c := by
  rcases newer with h | ⟨hb, hc⟩
  · exact h.le
  · rw [List.idxOf_of_notMem hb, List.idxOf_of_notMem hc]

theorem IsLru.release (lru : t.IsLru rs xs) (mem : b ∈ xs)
    (links : t'.links = (t.links.unlink b).insert b) :
    t'.IsLru (b :: rs) (b :: xs.erase b) where
  holds := links ▸ release_holds lru.holds mem
  perm := (List.perm_cons_erase mem).symm.trans lru.perm
  newer := by
    have hne {c : BufId} (hc : c ∈ xs.erase b) : c ≠ b :=
      ((lru.holds.nodup.mem_erase_iff).mp hc).1
    refine List.pairwise_cons.mpr ⟨fun c hc => .inl ?_, ?_⟩
    · rw [List.idxOf_cons_self, List.idxOf_cons_ne _ (hne hc).symm]
      exact Nat.succ_pos _
    · exact (lru.newer.sublist List.erase_sublist).imp_of_mem
        fun hc hd newer => newer.cons (hne hc) (hne hd)

/-- What `bget` and `jbrelse` leave of the links. -/
theorem bget_links {a : BlockAddr} (lru : t.IsLru rs xs) (done : (bget a).run t = .ok b t') :
    t'.links = t.links := by
  rw [bget_run lru.holds lru.length.le] at done
  split at done
  · split at done
    · cases done
    · cases done
      rfl
  · split at done
    · cases done
      rfl
    · cases done

theorem Step.isLru {op : Op} {ops : List Op} (step : Step op t t')
    (lru : t.IsLru (releases ops) xs) : ∃ ys, t'.IsLru (releases (ops ++ [op])) ys := by
  have hreleases : releases (ops ++ [op]) = releases [op] ++ releases ops := by
    simp only [releases, List.filterMap_append, List.reverse_append]
  rw [hreleases]
  cases op with
  | bget a =>
    obtain ⟨b, hdone⟩ := step
    exact ⟨xs, lru.of_links (bget_links lru hdone)⟩
  | jbrelse b =>
    obtain ⟨hb, hdone⟩ := step
    cases hbusy : (t.bufs b).busy with
    | false => simp [jbrelse, hbusy] at hdone
    | true =>
      rw [jbrelse_run hbusy] at hdone
      cases hdone
      exact ⟨_, lru.release (lru.mem_iff.mpr hb) rfl⟩
  | change b buf =>
    obtain rfl := step
    exact ⟨xs, lru.of_links rfl⟩

theorem isLru_of_run {bufs : BufId → Buf} {ops : List Op} (run : Run Step (binit bufs) ops t) :
    ∃ xs, t.IsLru (releases ops) xs := by
  induction run with
  | start => exact ⟨_, binit_isLru bufs⟩
  | snoc _ hstep ih =>
    obtain ⟨xs, lru⟩ := ih
    exact hstep.isLru lru

/-- A buffer that is recycled is, among those that are not busy, the one whose last release is the
oldest. -/
theorem IsLru.bget_recycles (lru : t.IsLru rs xs) {a : BlockAddr}
    (uncached : ∀ b < NBUF, (t.bufs b).live → (t.bufs b).addr ≠ a)
    (free : ∃ b < NBUF, (t.bufs b).busy = false) :
    ∃ b < NBUF, (t.bufs b).busy = false ∧ (bget a).run t = .ok b (t.recycled b a) ∧
      ∀ c < NBUF, (t.bufs c).busy = false → rs.idxOf c ≤ rs.idxOf b := by
  have hcached : xs.find? (t.standsFor a) = none := by
    refine List.find?_eq_none.mpr fun b hb h => ?_
    obtain ⟨hlive, haddr⟩ := Bool.and_eq_true_iff.mp h
    exact uncached b (lru.mem_iff.mp hb) hlive (of_decide_eq_true haddr)
  have hrun := bget_run lru.holds lru.length.le a
  rw [hcached] at hrun
  cases hfound : xs.reverse.find? fun b => !(t.bufs b).busy with
  | none =>
    obtain ⟨b, hb, hbusy⟩ := free
    have hmem := List.mem_reverse.mpr (lru.mem_iff.mpr hb)
    have hnot := List.find?_eq_none.mp hfound b hmem
    rw [hbusy] at hnot
    exact absurd rfl hnot
  | some b =>
    rw [hfound] at hrun
    obtain ⟨hbusy, older, newer, hsplit, hskipped⟩ := List.find?_eq_some_iff_append.mp hfound
    have hxs : xs = newer.reverse ++ b :: older.reverse := by
      rw [← List.reverse_reverse xs, hsplit]
      simp
    have hb : b < NBUF := lru.mem_iff.mp (by simp [hxs])
    refine ⟨b, hb, by simpa using hbusy, hrun, fun c hc hidle => ?_⟩
    -- what comes behind the buffer on the ring is busy, so another free one comes before it
    have hmem := lru.mem_iff.mpr hc
    rw [hxs] at hmem
    rcases List.mem_append.mp hmem with hbefore | hbehind
    · have hpairs := lru.newer
      rw [hxs] at hpairs
      exact ((List.pairwise_append.mp hpairs).2.2 c hbefore b List.mem_cons_self).le
    · rcases List.mem_cons.mp hbehind with rfl | hbehind
      · exact le_rfl
      · have := hskipped c (List.mem_reverse.mp hbehind)
        simp [hidle] at this

end Invariant

/-- In every run the ring is an LRU list. Following `next` from `bufhead` visits every buffer once
and comes back, `prev` undoes `next`, the buffers stand in the order of their last releases with
those never released at the end, and `bget` recycles the buffer whose last release is the
oldest. -/
theorem buffer_list_is_lru {bufs : BufId → Buf} {ops : List Op} {t : BufTable}
    (run : Run Step (binit bufs) ops t) :
    (∃ xs : List BufId, xs.Perm (List.range NBUF) ∧
      (∀ k ≤ NBUF, t.links.next^[k + 1] none = xs[k]?) ∧
      xs.Pairwise (Newer (releases ops))) ∧
    (∀ p : Option BufId, (∀ b ∈ p, b < NBUF) →
      t.links.prev (t.links.next p) = p ∧ t.links.next (t.links.prev p) = p) ∧
    ∀ a, (∀ b < NBUF, (t.bufs b).live → (t.bufs b).addr ≠ a) →
      (∃ b < NBUF, (t.bufs b).busy = false) →
      ∃ b < NBUF, (t.bufs b).busy = false ∧ (bget a).run t = .ok b (t.recycled b a) ∧
        ∀ c < NBUF, (t.bufs c).busy = false →
          (releases ops).idxOf c ≤ (releases ops).idxOf b := by
  obtain ⟨xs, lru⟩ := isLru_of_run run
  refine ⟨⟨xs, lru.perm, fun k hk => lru.holds.path.iterate_next (lru.length ▸ hk), lru.newer⟩,
    fun p hp => ?_, fun a => lru.bget_recycles⟩
  have hmem : p = none ∨ ∃ x ∈ xs, p = some x := by
    cases p with
    | none => exact .inl rfl
    | some b => exact .inr ⟨b, lru.mem_iff.mpr (hp b rfl), rfl⟩
  exact ⟨lru.holds.path.prev_next p hmem, lru.holds.path.next_prev p hmem⟩

/-- A block is read and its buffer released: the walk still comes back to `bufhead`. -/
theorem buffer_list_is_lru_after_release :
    ∃ b t, Run Step (binit fun _ => Buf.unused) [.bget ⟨1, 1⟩, .jbrelse b] t ∧
      (∀ c < NBUF, c ≠ b → (t.bufs c).busy = false) ∧ t.links.next^[NBUF + 1] none = none := by
  have hstart : Run Step (binit fun _ => Buf.unused) [] (binit fun _ => Buf.unused) := Run.start
  obtain ⟨b, hb, -, hget, -⟩ := (buffer_list_is_lru hstart).2.2 ⟨1, 1⟩
    (fun _ _ live => absurd live Bool.false_ne_true) ⟨0, by decide, rfl⟩
  have hbusy : (((binit fun _ => Buf.unused).recycled b ⟨1, 1⟩).bufs b).busy = true := by
    simp [recycled, setBuf]
  have hread : Step (.bget ⟨1, 1⟩) _ _ := ⟨b, hget⟩
  have hrelease : Step (.jbrelse b) _ _ := ⟨hb, jbrelse_run hbusy⟩
  have hrun := (hstart.snoc hread).snoc hrelease
  refine ⟨b, _, hrun, fun c _ hc => ?_, ?_⟩
  · simp [recycled, setBuf, hc]
    rfl
  · obtain ⟨xs, hperm, hnext, -⟩ := (buffer_list_is_lru hrun).1
    have hlength : xs.length = NBUF := by rw [hperm.length_eq, List.length_range]
    rw [hnext NBUF le_rfl, List.getElem?_eq_none hlength.le]

/-! ### The list of the buffer cache -/

/-- The ring holds the list of the cache, with the same buffers. -/
structure Represents (t : BufTable) (s : Bio) : Prop where
  holds : t.links.Holds s.lru
  size : s.lru.length ≤ NBUF
  bufs : t.bufs = s.bufs

/-- Both ways to run an operation end alike, in states that correspond. -/
def Agree {α : Type} : EStateM.Result Stop BufTable α → EStateM.Result Stop Bio α → Prop
  | .ok x t, .ok y s => x = y ∧ t.Represents s
  | .error e t, .error f s => e = f ∧ t.Represents s
  | _, _ => False

section Refinement

variable {t : BufTable} {s : Bio}

theorem binit_represents (disk : BlockAddr → Block) :
    (binit fun _ => Buf.unused).Represents (Bio.boot disk) :=
  ⟨binit_holds _, Bio.binitLru_length.le, rfl⟩

theorem Represents.setBuf (rep : t.Represents s) (b : BufId) (buf : Buf) :
    (t.setBuf b buf).Represents (s.setBuf b buf) :=
  ⟨rep.holds, rep.size, by rw [BufTable.setBuf, Bio.setBuf, rep.bufs]⟩

theorem bget_refines (rep : t.Represents s) (a : BlockAddr) :
    Agree ((bget a).run t) ((Xv6.bget a).run s) := by
  have hcached : s.lru.find? (t.standsFor a) = s.cached a := by
    unfold Bio.cached standsFor
    rw [rep.bufs]
  have hvictim : (s.lru.reverse.find? fun b => !(t.bufs b).busy) = s.victim := by
    unfold Bio.victim
    rw [rep.bufs]
  rw [bget_run rep.holds rep.size, hcached, hvictim, Xv6.bget, run_get_bind]
  cases s.cached a with
  | some b =>
    simp only [rep.bufs]
    split
    · exact ⟨rfl, rep⟩
    · exact ⟨rfl, rep.setBuf b _⟩
  | none =>
    cases s.victim with
    | some b =>
      simp only [recycled, rep.bufs]
      exact ⟨rfl, rep.setBuf b _⟩
    | none => exact ⟨rfl, rep⟩

theorem jbrelse_refines (rep : t.Represents s) {b : BufId} (mem : b ∈ s.lru) :
    Agree ((jbrelse b).run t) ((Xv6.jbrelse b).run s) := by
  rw [jbrelse, Xv6.jbrelse, run_get_bind, run_get_bind, rep.bufs]
  cases hbusy : (s.bufs b).busy with
  | false => exact ⟨rfl, rep⟩
  | true =>
    refine ⟨rfl, release_holds rep.holds mem, ?_, (rep.setBuf b _).bufs⟩
    rw [← (List.perm_cons_erase mem).length_eq]
    exact rep.size

end Refinement

end BufTable

end Xv6
