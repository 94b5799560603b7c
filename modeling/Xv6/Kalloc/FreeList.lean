/-
# The free list of the page allocator

Seen as a list of spans, `kfree` gives a span back and `kalloc` takes one from the first
run that is long enough. The loops walk through the memory they change: each is described
by the list it leaves behind and by the bytes it may touch.
-/

import Xv6.Kalloc.Model
import Xv6.Math.Spans

namespace Xv6

open Math

theorem int32_of_lt {w : Nat} (small : w < 2 ^ 31) : int32 w = w := if_pos small

theorem word32_of_lt {i : Nat} (small : i < 2 ^ 32) : word32 i = i := by
  unfold word32
  omega

/-- The bytes in which a pointer to a run is stored. -/
def RunRef.cell : RunRef → Set Nat
  | .freelist => ∅
  | .next r => Set.Ico r (r + 4)

variable {x n a : Nat} {t : Kmem} {qs : List Span}

namespace Kmem

/-- From the pointer `p` on, the runs of the list are the spans `rs`. -/
def Linked (s : Kmem) : Nat → List Span → Prop
  | p, [] => p = 0
  | p, r :: rs => p = r.start ∧ p ≠ 0 ∧ s.len p = r.len ∧ s.Linked (s.next p) rs

/-! ### The fields of a run -/

section Fields

variable {s t : Kmem} {q r p : Nat} {n : Int} {rp : RunRef}

theorem next_setLen (apart : q + 4 ≤ r + 4 ∨ r + 8 ≤ q) : (s.setLen r n).next q = s.next q :=
  ByteMem.load32_store32_of_apart (by omega)

theorem len_setNext (apart : r + 4 ≤ q + 4 ∨ q + 8 ≤ r) : (s.setNext r p).len q = s.len q :=
  congrArg int32 (ByteMem.load32_store32_of_apart (by omega))

theorem len_setLen_self (nonneg : 0 ≤ n) (small : n < 2 ^ 31) : (s.setLen r n).len r = n := by
  unfold len setLen
  rw [ByteMem.load32_store32_self _ _ (by unfold word32; omega)]
  unfold word32 int32
  rw [if_pos (by omega)]
  omega

theorem next_setNext_self (small : p < 2 ^ 32) : (s.setNext r p).next r = p :=
  ByteMem.load32_store32_self _ _ small

theorem setLen_of_apart (apart : x < r + 4 ∨ r + 8 ≤ x) :
    (s.setLen r n).mem x = s.mem x := ByteMem.store32_of_apart (by omega)

theorem setNext_of_apart (apart : x < r ∨ r + 4 ≤ x) :
    (s.setNext r p).mem x = s.mem x := ByteMem.store32_of_apart apart

theorem assign_of_apart (outside : x ∉ rp.cell) : (s.assign rp p).mem x = s.mem x := by
  cases rp with
  | freelist => rfl
  | next r =>
    apply setNext_of_apart
    by_contra hx
    exact outside ⟨by omega, by omega⟩

theorem deref_assign (small : p < 2 ^ 32) : (s.assign rp p).deref rp = p := by
  cases rp with
  | freelist => rfl
  | next r => exact next_setNext_self small

theorem next_congr (same : ∀ x, r ≤ x → x < r + 4 → t.mem x = s.mem x) : t.next r = s.next r :=
  ByteMem.load32_congr same

theorem len_congr (same : ∀ x, r + 4 ≤ x → x < r + 8 → t.mem x = s.mem x) :
    t.len r = s.len r :=
  congrArg int32 (ByteMem.load32_congr fun x hle hlt => same x hle (by omega))

end Fields

variable {s : Kmem}

/-- A list of runs only depends on the bytes of the runs. -/
theorem Linked.congr {p : Nat} {rs : List Span} (linked : s.Linked p rs)
    (header : ∀ r ∈ rs, 8 ≤ r.len) (same : ∀ x ∈ spanBytes rs, t.mem x = s.mem x) :
    t.Linked p rs := by
  induction rs generalizing p with
  | nil => exact linked
  | cons r rs ih =>
    obtain ⟨rfl, hne, hlen, hrest⟩ := linked
    obtain ⟨hr, hrs⟩ := List.forall_mem_cons.mp header
    have hsame : ∀ x, r.start ≤ x → x < r.start + 8 → t.mem x = s.mem x := fun x hle hlt =>
      same x ⟨r, List.mem_cons_self, hle, by unfold Span.stop; omega⟩
    refine ⟨rfl, hne, (len_congr fun x hle hlt => hsame x (by omega) hlt).trans hlen, ?_⟩
    rw [next_congr fun x hle hlt => hsame x hle (by omega)]
    exact ih hrest hrs fun x ⟨q, hq, hx⟩ => same x ⟨q, List.mem_cons_of_mem _ hq, hx⟩

/-- A run in front of a list. -/
theorem Linked.insert {rp : RunRef} {p : Span} {q : Nat}
    (linked : s.Linked q qs) (null : p.start ≠ 0) (len : p.len < 2 ^ 31)
    (small : q < 2 ^ 32) (room : 8 ≤ p.len) (header : ∀ r ∈ qs, 8 ≤ r.len)
    (apart : Disjoint p.bytes (spanBytes qs)) (cell : Disjoint rp.cell p.bytes)
    (cell' : Disjoint rp.cell (spanBytes qs)) :
    (((s.setLen p.start p.len).setNext p.start q).assign rp p.start).Linked p.start (p :: qs) := by
  have hfield {x : Nat} (hle : p.start ≤ x) (hlt : x < p.start + 8) : x ∉ rp.cell := fun hx =>
    Set.disjoint_left.mp cell hx ⟨hle, by unfold Span.stop; omega⟩
  refine ⟨rfl, null, ?_, ?_⟩
  · rw [len_congr fun x hle hlt => assign_of_apart (hfield (by omega) hlt), len_setNext (by omega),
      len_setLen_self (by omega) (by omega)]
  · rw [next_congr fun x hle hlt => assign_of_apart (hfield hle (by omega)),
      next_setNext_self small]
    refine linked.congr header fun x hx => ?_
    have hp : ¬ (p.start ≤ x ∧ x < p.start + 8) := fun hin =>
      Set.disjoint_left.mp apart ⟨hin.1, by unfold Span.stop; omega⟩ hx
    rw [assign_of_apart fun hcell => Set.disjoint_left.mp cell' hcell hx,
      setNext_of_apart (by omega), setLen_of_apart (by omega)]

/-- A run that gets a new length. -/
theorem Linked.resize {r : Span} {rs : List Span}
    (linked : s.Linked r.start (r :: rs)) (small : n < 2 ^ 31) (room : 8 ≤ r.len)
    (header : ∀ q ∈ rs, 8 ≤ q.len) (apart : Disjoint r.bytes (spanBytes rs)) :
    (s.setLen r.start n).Linked r.start (⟨r.start, n⟩ :: rs) := by
  obtain ⟨-, hne, -, hrest⟩ := linked
  refine ⟨rfl, hne, len_setLen_self (by omega) (by omega), ?_⟩
  rw [next_setLen (by omega)]
  refine hrest.congr header fun x hx => setLen_of_apart ?_
  by_contra hin
  exact Set.disjoint_left.mp apart ⟨by omega, by unfold Span.stop; omega⟩ hx

end Kmem

/-! ### The loops -/

/-- The memory that `kinit` gave to the allocator. -/
structure Pool where
  lo : Nat
  hi : Nat
  positive : 0 < lo
  top : hi < 2 ^ 32
  small : hi - lo < 2 ^ 31

/-- A span of whole pages inside the pool. -/
structure Pool.Holds (pool : Pool) (r : Span) : Prop where
  pages : PAGE ∣ r.len
  nonempty : 0 < r.len
  lower : pool.lo ≤ r.start
  upper : r.stop ≤ pool.hi

section Loop

variable {pool : Pool} {s : Kmem} {rp : RunRef} {p r q : Span} {rs : List Span} {fuel : Nat}

theorem Pool.Holds.page_le (holds : pool.Holds r) : PAGE ≤ r.len :=
  Nat.le_of_dvd holds.nonempty holds.pages

theorem Pool.Holds.header (holds : pool.Holds r) : 8 ≤ r.len :=
  le_trans (by decide) holds.page_le

theorem Pool.Holds.merge (holds : pool.Holds r) (holds' : pool.Holds q)
    (touch : r.stop = q.start) : pool.Holds ⟨r.start, r.len + q.len⟩ where
  pages := Nat.dvd_add holds.pages holds'.pages
  nonempty := Nat.add_pos_left holds.nonempty _
  lower := holds.lower
  upper := by
    have := holds'.upper
    simp only [Span.stop] at *
    omega

/-- One round of the loop of `kfree`. -/
theorem kfreeLoop_succ (p : Nat) (len : Int) (pend fuel : Nat) (rp : RunRef) (s : Kmem) :
    (kfreeLoop p len pend (fuel + 1) rp).run s =
      if s.deref rp ≠ 0 ∧ s.deref rp ≤ pend then
        if s.deref rp ≤ p ∧ p < word32 (s.deref rp + s.len (s.deref rp)) then
          .error (.panic "freeing free page") s
        else if pend = s.deref rp then
          let s₁ := s.setLen p (len + s.len (s.deref rp))
          .ok () ((s₁.setNext p (s₁.next (s.deref rp))).assign rp p)
        else if word32 (s.deref rp + s.len (s.deref rp)) = p then
          (mergeNext (s.deref rp) pend).run (s.setLen (s.deref rp) (s.len (s.deref rp) + len))
        else (kfreeLoop p len pend fuel (.next (s.deref rp))).run s
      else .ok () (((s.setLen p len).setNext p (s.deref rp)).assign rp p) := by
  rw [kfreeLoop, run_get_bind]
  simp only [run_ite, run_modify_bind]
  rfl

theorem disjoint_bytes (apart : p.Apart r) : Disjoint p.bytes r.bytes := by
  refine Set.disjoint_left.mpr fun x hp hr => ?_
  rw [Span.mem_bytes] at hp hr
  unfold Span.Apart Span.stop at apart
  omega

theorem disjoint_spanBytes (apart : ∀ r ∈ rs, p.Apart r) : Disjoint p.bytes (spanBytes rs) := by
  refine Set.disjoint_left.mpr ?_
  rintro x hp ⟨r, hr, hx⟩
  exact Set.disjoint_left.mp (disjoint_bytes (apart r hr)) hp hx

theorem Kmem.Linked.deref_lt (linked : s.Linked a qs)
    (within : ∀ r ∈ qs, pool.Holds r) : a < 2 ^ 32 := by
  cases qs with
  | nil =>
    rw [show a = 0 from linked]
    decide
  | cons r qs =>
    obtain ⟨rfl, -⟩ := linked
    have := (within r List.mem_cons_self).upper
    have := pool.top
    unfold Span.stop at *
    omega

/-- Merging with the next run only changes the header of the run. -/
theorem mergeNext_run (linked : s.Linked r.start (r :: rs))
    (within : ∀ q ∈ r :: rs, pool.Holds q) (sorted : ∀ q ∈ rs, r.stop ≤ q.start) :
    ∃ t, (mergeNext r.start r.stop).run s = .ok () t ∧ t.Linked r.start (joinNext r rs) ∧
      (∀ x, x < r.start ∨ r.start + 8 ≤ x → t.mem x = s.mem x) ∧ t.freelist = s.freelist := by
  obtain ⟨-, hne, hlen, hrest⟩ := id linked
  obtain ⟨hwr, hwrs⟩ := List.forall_mem_cons.mp within
  cases rs with
  | nil =>
    have hlast : s.next r.start = 0 := hrest
    refine ⟨s, ?_, linked, fun _ _ => rfl, rfl⟩
    rw [mergeNext, run_get_bind, run_ite, if_neg (by simp [hlast])]
    rfl
  | cons q qs =>
    obtain ⟨hq, hne', hlen', hrest'⟩ := hrest
    rw [joinNext]
    by_cases htouch : r.stop = q.start
    · have hqpos := (hwrs q List.mem_cons_self).nonempty
      have hqupper := (hwrs q List.mem_cons_self).upper
      have hrlower := hwr.lower
      have hrheader := hwr.header
      have hsmall := pool.small
      have hpos := pool.positive
      have hstop : r.stop = r.start + r.len := rfl
      have hqstop : q.stop = q.start + q.len := rfl
      -- the length of `r` grows first, then its link skips `q`
      have hlink : (s.setLen r.start ↑(r.len + q.len)).next r.start = q.start := by
        rw [Kmem.next_setLen (by omega), hq]
      have hskip : (s.setLen r.start ↑(r.len + q.len)).next q.start = s.next q.start :=
        Kmem.next_setLen (by omega)
      refine ⟨(s.setLen r.start ↑(r.len + q.len)).setNext r.start (s.next q.start), ?_, ?_, ?_, rfl⟩
      · rw [mergeNext, run_get_bind, run_ite, if_pos ⟨hne', by rw [hq, htouch]⟩, run_modify_bind,
          hq, hlen, ← hq, hlen', hq, ← Nat.cast_add]
        change EStateM.Result.ok () ((s.setLen r.start ↑(r.len + q.len)).setNext r.start
          ((s.setLen r.start ↑(r.len + q.len)).next
            ((s.setLen r.start ↑(r.len + q.len)).next r.start))) = _
        rw [hlink, hskip]
      · rw [if_pos htouch]
        refine ⟨rfl, hne, ?_, ?_⟩
        · rw [Kmem.len_setNext (by omega), Kmem.len_setLen_self (by omega) (by omega)]
        · rw [hq] at hrest'
          rw [Kmem.next_setNext_self
            (hrest'.deref_lt fun x hx => hwrs x (List.mem_cons_of_mem _ hx))]
          refine hrest'.congr (fun x hx => (hwrs x (List.mem_cons_of_mem _ hx)).header) ?_
          rintro x ⟨y, hy, hx⟩
          have hbehind := sorted y (List.mem_cons_of_mem _ hy)
          have := hx.1
          rw [Kmem.setNext_of_apart (by omega), Kmem.setLen_of_apart (by omega)]
      · intro x hx
        rw [Kmem.setNext_of_apart (by omega), Kmem.setLen_of_apart (by omega)]
    · refine ⟨s, ?_, by rw [if_neg htouch]; exact linked, fun _ _ => rfl, rfl⟩
      rw [mergeNext, run_get_bind, run_ite, if_neg (by rw [hq]; exact fun h => htouch h.2.symm)]
      rfl

/-- What a loop over the list starting at `*rp` may do to the memory: it changes the cell
`rp` and bytes of the given spans. -/
structure Kmem.Touches (s t : Kmem) (rp : RunRef) (rs : List Span) : Prop where
  mem : ∀ x, x ∉ rp.cell → x ∉ spanBytes rs → t.mem x = s.mem x
  freelist : rp ≠ .freelist → t.freelist = s.freelist

theorem Kmem.Touches.insert {b : Nat} {n : Int} (room : 8 ≤ p.len) :
    s.Touches (((s.setLen p.start n).setNext p.start a).assign rp b) rp (p :: rs) where
  mem x hcell hx := by
    have hout : ¬ (p.start ≤ x ∧ x < p.start + 8) := fun hin =>
      hx ⟨p, List.mem_cons_self, hin.1, by unfold Span.stop; omega⟩
    rw [assign_of_apart hcell, setNext_of_apart (by omega), setLen_of_apart (by omega)]
  freelist hrp := by
    cases rp with
    | freelist => exact absurd rfl hrp
    | next r => rfl

theorem RunRef.cell_next_subset (header : 8 ≤ r.len) : (RunRef.next r.start).cell ⊆ r.bytes := by
  intro x hx
  refine ⟨hx.1, ?_⟩
  have := hx.2
  unfold Span.stop
  omega

theorem Kmem.Touches.perm (touches : s.Touches t rp rs)
    (perm : qs.Perm rs) : s.Touches t rp qs where
  mem x hcell hx := touches.mem x hcell fun ⟨r, hr, hin⟩ => hx ⟨r, perm.mem_iff.mpr hr, hin⟩
  freelist := touches.freelist

/-- A reference to a run reads the same when its cell was left alone. -/
theorem Kmem.deref_congr (freelist : t.freelist = s.freelist)
    (same : ∀ x ∈ rp.cell, t.mem x = s.mem x) : t.deref rp = s.deref rp := by
  cases rp with
  | freelist => exact freelist
  | next a => exact Kmem.next_congr fun x hle hlt => same x ⟨hle, hlt⟩

/-- A loop that went on behind the run `r` leaves `r` where it was. -/
theorem Kmem.Touches.behind {rs' : List Span}
    (touches : s.Touches t (.next r.start) qs) (rest : t.Linked (t.next r.start) rs')
    (deref : s.deref rp = r.start) (null : r.start ≠ 0) (len : s.len r.start = r.len)
    (header : 8 ≤ r.len) (apart : Disjoint r.bytes (spanBytes qs))
    (cell : Disjoint rp.cell (spanBytes (r :: qs))) :
    t.Linked (t.deref rp) (r :: rs') ∧ s.Touches t rp (r :: qs) := by
  have hcell := RunRef.cell_next_subset header
  have hsame : ∀ x, x ∉ spanBytes (r :: qs) → t.mem x = s.mem x := fun x hx => by
    rw [spanBytes_cons] at hx
    exact touches.mem x (fun hin => hx (Or.inl (hcell hin))) fun hin => hx (Or.inr hin)
  have hfree := touches.freelist (by simp)
  have hderef : t.deref rp = r.start := (Kmem.deref_congr hfree fun x hx =>
    hsame x (Set.disjoint_left.mp cell hx)).trans deref
  refine ⟨⟨hderef, hderef ▸ null, ?_, hderef ▸ rest⟩, fun x _ hx => hsame x hx, fun _ => hfree⟩
  rw [hderef, ← len]
  refine Kmem.len_congr fun x hle hlt => touches.mem x (fun hin => ?_) ?_
  · have := hin.2
    omega
  · exact Set.disjoint_left.mp apart ⟨by omega, by unfold Span.stop; omega⟩

theorem not_mem_cons (h : x ∉ spanBytes (p :: r :: rs)) :
    ¬ (r.start ≤ x ∧ x < r.stop) := fun hin =>
  h ⟨r, List.mem_cons_of_mem _ List.mem_cons_self, hin⟩

/-- The loop of `kfree` gives the span back to the list. -/
theorem kfreeLoop_run (hp : pool.Holds p) (linked : s.Linked (s.deref rp) rs)
    (separated : Separated rs) (within : ∀ r ∈ rs, pool.Holds r) (apart : ∀ r ∈ rs, p.Apart r)
    (cell : Disjoint rp.cell (spanBytes (p :: rs))) (enough : rs.length < fuel) :
    ∃ t, (kfreeLoop p.start p.len p.stop fuel rp).run s = .ok () t ∧
      t.Linked (t.deref rp) (giveBack p rs) ∧ s.Touches t rp (p :: rs) := by
  have hpool := pool.positive
  have htop := pool.top
  have hsmall := pool.small
  have hlower := hp.lower
  have hupper := hp.upper
  have hheader := hp.header
  rw [spanBytes_cons, Set.disjoint_union_right] at cell
  induction rs generalizing s rp fuel with
  | nil =>
    obtain ⟨fuel, rfl⟩ := Nat.exists_eq_add_one_of_ne_zero (Nat.ne_zero_of_lt enough)
    have hnull : s.deref rp = 0 := linked
    refine ⟨((s.setLen p.start p.len).setNext p.start (s.deref rp)).assign rp p.start, ?_, ?_,
      Kmem.Touches.insert hheader⟩
    · rw [kfreeLoop_succ, if_neg (by simp [hnull])]
    · rw [Kmem.deref_assign (by unfold Span.stop at *; omega)]
      exact Kmem.Linked.insert linked (by omega) (by unfold Span.stop at *; omega)
        (by omega) hheader (by simp) (by simp) cell.1 (by simp)
  | cons r rs ih =>
    obtain ⟨fuel, rfl⟩ := Nat.exists_eq_add_one_of_ne_zero (Nat.ne_zero_of_lt enough)
    obtain ⟨hr, hrs⟩ := List.pairwise_cons.mp separated
    obtain ⟨hwr, hwrs⟩ := List.forall_mem_cons.mp within
    obtain ⟨hpr, hprs⟩ := List.forall_mem_cons.mp apart
    obtain ⟨hderef, hne, hlen, hrest⟩ := id linked
    have hrlower := hwr.lower
    have hrupper := hwr.upper
    have hrheader := hwr.header
    have hrpos := hwr.nonempty
    have hppos := hp.nonempty
    have hheaders : ∀ q ∈ rs, 8 ≤ q.len := fun q hq => (hwrs q hq).header
    rw [hderef] at hne hlen hrest
    have hrend : word32 (r.start + s.len r.start) = r.stop := by
      rw [hlen, ← Nat.cast_add, word32_of_lt (by unfold Span.stop at *; omega)]
      rfl
    have hnull : p.start ≠ 0 := by omega
    have hstop : r.stop = r.start + r.len := rfl
    have hpstop : p.stop = p.start + p.len := rfl
    have hapart : p.stop ≤ r.start ∨ r.stop ≤ p.start := hpr
    have hpbytes := disjoint_spanBytes hprs
    have hrbytes : Disjoint r.bytes (spanBytes rs) :=
      disjoint_spanBytes fun q hq => Or.inl (hr q hq).le
    rw [kfreeLoop_succ, hderef, hrend, giveBack]
    by_cases hbefore : p.stop < r.start
    · -- the list goes on behind the range: insert in front of `r`
      rw [if_neg (by omega), if_pos hbefore]
      refine ⟨_, rfl, ?_, Kmem.Touches.insert hheader⟩
      rw [Kmem.deref_assign (by omega)]
      exact Kmem.Linked.insert (hderef ▸ linked) (by omega) (by omega) (by omega) hheader
        (List.forall_mem_cons.mpr ⟨hrheader, hheaders⟩) (disjoint_spanBytes apart) cell.1 cell.2
    rw [if_pos ⟨hne, by omega⟩, if_neg (by omega), if_neg hbefore]
    by_cases hnext : p.stop = r.start
    · -- `p` takes the place of `r`
      rw [if_pos hnext, if_pos hnext]
      have hsame : (s.setLen p.start (p.len + s.len r.start)).next r.start = s.next r.start :=
        Kmem.next_setLen (by omega)
      refine ⟨_, rfl, ?_, ?_⟩
      · rw [Kmem.deref_assign (by omega), hsame, hlen, ← Nat.cast_add]
        refine Kmem.Linked.insert (p := ⟨p.start, p.len + r.len⟩) hrest hnull
          (by simp only; omega) (hrest.deref_lt hwrs) (by simp only; omega) hheaders ?_ ?_ ?_
        · rw [bytes_merge hnext]
          exact hpbytes.union_left hrbytes
        · rw [bytes_merge hnext]
          exact cell.1.union_right (cell.2.mono_right (spanBytes_cons r rs ▸ Set.subset_union_left))
        · exact cell.2.mono_right (spanBytes_cons r rs ▸ Set.subset_union_right)
      · exact Kmem.Touches.insert hheader
    rw [if_neg hnext, if_neg hnext]
    by_cases hprev : r.stop = p.start
    · -- `r` grows by the range, and perhaps by the run behind it
      rw [if_pos hprev, if_pos hprev, hlen, ← Nat.cast_add]
      have hgrown := (hderef ▸ linked).resize (n := r.len + p.len)
        (by omega) hrheader hheaders hrbytes
      obtain ⟨t, hrun, ht, hmem, hfree⟩ :=
        mergeNext_run (r := ⟨r.start, r.len + p.len⟩) hgrown
          (List.forall_mem_cons.mpr ⟨hwr.merge hp hprev, hwrs⟩) (fun q hq => by
            have hgap := hr q hq
            have hpq := hprs q hq
            simp only [Span.Apart, Span.stop] at *
            omega)
      have hend : (⟨r.start, r.len + p.len⟩ : Span).stop = p.stop := by
        simp only [Span.stop] at *
        omega
      rw [hend] at hrun
      have hsame : ∀ x, x < r.start ∨ r.start + 8 ≤ x → t.mem x = s.mem x := fun x hx => by
        rw [hmem x hx, Kmem.setLen_of_apart (by omega)]
      refine ⟨t, hrun, ?_, fun x _ hx => hsame x ?_, fun _ => hfree⟩
      · have hderef' : t.deref rp = s.deref rp := by
          cases rp with
          | freelist => exact hfree
          | next a =>
            refine Kmem.next_congr fun x hle hlt => hsame x ?_
            by_contra hin
            exact Set.disjoint_left.mp cell.2 ⟨hle, hlt⟩
              ⟨r, List.mem_cons_self, by omega, by omega⟩
        rw [hderef', hderef]
        exact ht
      · have := not_mem_cons hx
        omega
    rw [if_neg hprev, if_neg hprev]
    -- `r` lies in front of the range and does not touch it
    have hbehind : r.stop < p.start := by omega
    have hcell : (RunRef.next r.start).cell ⊆ r.bytes := RunRef.cell_next_subset hrheader
    have hpr' : Disjoint r.bytes p.bytes := (disjoint_bytes hpr).symm
    have hbehindLinked : s.Linked (s.deref (.next r.start)) rs := hrest
    obtain ⟨t, hrun, ht, htouch⟩ := ih hbehindLinked hrs hwrs
      hprs ⟨hpr'.mono_left hcell, hrbytes.mono_left hcell⟩ (by simpa using enough)
    obtain ⟨hlinked, htouch'⟩ := htouch.behind ht hderef hne hlen hrheader
      (spanBytes_cons p rs ▸ hpr'.union_right hrbytes) (by
        rw [spanBytes_cons, Set.disjoint_union_right] at cell
        simp only [spanBytes_cons, Set.disjoint_union_right]
        exact ⟨cell.2.1, cell.1, cell.2.2⟩)
    refine ⟨t, hrun, hlinked, htouch'.perm (List.Perm.swap r p rs)⟩

/-- One round of the loop of `kalloc`. -/
theorem kallocLoop_succ (n : Int) (fuel : Nat) (rp : RunRef) (s : Kmem) :
    (kallocLoop n (fuel + 1) rp).run s =
      if s.deref rp ≠ 0 then
        if s.len (s.deref rp) = n then .ok (s.deref rp) (s.assign rp (s.next (s.deref rp)))
        else if s.len (s.deref rp) > n then
          let s₁ := s.setLen (s.deref rp) (s.len (s.deref rp) - n)
          .ok (word32 (s.deref rp + s₁.len (s.deref rp))) s₁
        else (kallocLoop n fuel (.next (s.deref rp))).run s
      else .ok 0 s := by
  rw [kallocLoop, run_get_bind]
  simp only [run_ite, run_modify_bind]
  rfl

/-- The loop of `kalloc` takes from the first run that is long enough. -/
theorem kallocLoop_some {rest : List Span} (linked : s.Linked (s.deref rp) rs)
    (separated : Separated rs) (within : ∀ r ∈ rs, pool.Holds r)
    (cell : Disjoint rp.cell (spanBytes rs)) (enough : rs.length < fuel)
    (taken : takeFirst n rs = some (a, rest)) :
    ∃ t, (kallocLoop n fuel rp).run s = .ok a t ∧ t.Linked (t.deref rp) rest ∧
      s.Touches t rp rs := by
  induction rs generalizing s rp fuel rest with
  | nil => cases taken
  | cons r rs ih =>
    obtain ⟨fuel, rfl⟩ := Nat.exists_eq_add_one_of_ne_zero (Nat.ne_zero_of_lt enough)
    obtain ⟨hr, hrs⟩ := List.pairwise_cons.mp separated
    obtain ⟨hwr, hwrs⟩ := List.forall_mem_cons.mp within
    obtain ⟨hderef, hne, hlen, hrest⟩ := id linked
    rw [hderef] at hne hlen hrest
    have hcells := cell
    rw [spanBytes_cons, Set.disjoint_union_right] at hcells
    have hrheader := hwr.header
    have hrupper := hwr.upper
    have hrlower := hwr.lower
    have hpos := pool.positive
    have htop := pool.top
    have hsmall := pool.small
    have hstop : r.stop = r.start + r.len := rfl
    have hheaders : ∀ q ∈ rs, 8 ≤ q.len := fun q hq => (hwrs q hq).header
    have hrbytes : Disjoint r.bytes (spanBytes rs) :=
      disjoint_spanBytes fun q hq => Or.inl (hr q hq).le
    rw [kallocLoop_succ, hderef, if_pos hne, hlen]
    rcases takeFirst_cons taken with ⟨same, rfl, rfl⟩ | ⟨longer, rfl, rfl⟩ |
      ⟨short, qs, hfound, rfl⟩
    · -- the whole run: unlink it
      rw [if_pos (by exact_mod_cast same)]
      refine ⟨_, rfl, ?_, fun x hx _ => Kmem.assign_of_apart hx, fun hrp => ?_⟩
      · rw [Kmem.deref_assign (hrest.deref_lt hwrs)]
        exact hrest.congr hheaders fun x hx =>
          Kmem.assign_of_apart fun hin => Set.disjoint_left.mp hcells.2 hin hx
      · cases rp with
        | freelist => exact absurd rfl hrp
        | next a => rfl
    · -- the end of the run: its header stays
      rw [if_neg (by exact_mod_cast longer.ne'), if_pos (by exact_mod_cast longer),
        ← Nat.cast_sub longer.le]
      have hcut := (hderef ▸ linked).resize (n := r.len - n) (by omega) hrheader hheaders hrbytes
      have hsame : ∀ x, x ∉ r.bytes → (s.setLen r.start ↑(r.len - n)).mem x = s.mem x := by
        intro x hx
        refine Kmem.setLen_of_apart ?_
        by_contra hin
        exact hx ⟨by omega, by omega⟩
      refine ⟨_, ?_, ?_, fun x _ hx => hsame x ?_, fun _ => rfl⟩
      · dsimp only
        rw [Kmem.len_setLen_self (by omega) (by omega), ← Nat.cast_add, word32_of_lt (by omega)]
      · have hderef' : (s.setLen r.start ↑(r.len - n)).deref rp = s.deref rp :=
          Kmem.deref_congr rfl fun x hx => hsame x (Set.disjoint_left.mp hcells.1 hx)
        rw [hderef', hderef]
        exact hcut
      · exact fun hin => hx (spanBytes_cons r rs ▸ Or.inl hin)
    · rw [if_neg (by exact_mod_cast short.ne), if_neg (by exact_mod_cast short.not_gt)]
      have hbehindLinked : s.Linked (s.deref (.next r.start)) rs := hrest
      obtain ⟨t, hrun, ht, htouch⟩ := ih hbehindLinked hrs hwrs
        (hrbytes.mono_left (RunRef.cell_next_subset hrheader)) (by simpa using enough) hfound
      exact ⟨t, hrun, htouch.behind ht hderef hne hlen hrheader hrbytes cell⟩

/-- With no run long enough the loop of `kalloc` returns the null pointer. -/
theorem kallocLoop_none (linked : s.Linked (s.deref rp) rs)
    (enough : rs.length < fuel) (taken : takeFirst n rs = none) :
    (kallocLoop n fuel rp).run s = .ok 0 s := by
  induction rs generalizing rp fuel with
  | nil =>
    obtain ⟨fuel, rfl⟩ := Nat.exists_eq_add_one_of_ne_zero (Nat.ne_zero_of_lt enough)
    have hnull : s.deref rp = 0 := linked
    rw [kallocLoop_succ, if_neg (by simp [hnull])]
  | cons r rs ih =>
    obtain ⟨fuel, rfl⟩ := Nat.exists_eq_add_one_of_ne_zero (Nat.ne_zero_of_lt enough)
    obtain ⟨hderef, hne, hlen, hrest⟩ := linked
    unfold takeFirst at taken
    split at taken
    next => cases taken
    next other =>
      split at taken
      next => cases taken
      next longer =>
        rw [kallocLoop_succ, if_pos hne, hlen, if_neg (by exact_mod_cast other),
          if_neg (by exact_mod_cast longer)]
        have hbehindLinked : s.Linked (s.deref (.next (s.deref rp))) rs := hrest
        exact ih hbehindLinked (by simpa using enough) (Option.map_eq_none_iff.mp taken)

end Loop

/-! ### The calls -/

/-- The runs of the free list: sorted, with gaps between them, whole pages of the pool. -/
structure Kmem.FreeList (pool : Pool) (s : Kmem) (rs : List Span) : Prop where
  linked : s.Linked s.freelist rs
  separated : Separated rs
  holds : ∀ r ∈ rs, pool.Holds r

/-- The bytes on the free list. -/
def Kmem.freeBytes (s : Kmem) : Set Nat := {x | ∃ rs, s.Linked s.freelist rs ∧ x ∈ spanBytes rs}

/-- The bytes of the pool. -/
def Pool.bytes (pool : Pool) : Set Nat := Set.Ico pool.lo pool.hi

section Calls

variable {pool : Pool} {s : Kmem} {p : Span} {rs : List Span} {n : Nat}

theorem Kmem.Linked.unique (linked : s.Linked a rs) (linked' : s.Linked a qs) : rs = qs := by
  induction rs generalizing a qs with
  | nil =>
    cases qs with
    | nil => rfl
    | cons q qs => exact absurd linked linked'.2.1
  | cons r rs ih =>
    cases qs with
    | nil => exact absurd linked' linked.2.1
    | cons q qs =>
      obtain ⟨hstart, -, hlen, hrest⟩ := linked
      obtain ⟨hstart', -, hlen', hrest'⟩ := linked'
      rw [hlen] at hlen'
      have hrq : r = q := by
        cases r with
        | mk start len =>
          cases q with
          | mk start' len' =>
            simp only [Span.mk.injEq]
            exact ⟨hstart.symm.trans hstart', by exact_mod_cast hlen'⟩
      rw [hrq, ih hrest hrest']

theorem Kmem.FreeList.freeBytes_eq (free : s.FreeList pool rs) : s.freeBytes = spanBytes rs := by
  ext x
  constructor
  · rintro ⟨qs, hlinked, hx⟩
    rwa [free.linked.unique hlinked]
  · exact fun hx => ⟨rs, free.linked, hx⟩

theorem Kmem.FreeList.length_lt (free : s.FreeList pool rs) : rs.length < maxRuns := by
  have hbound : rs.length * PAGE ≤ pool.hi - pool.lo := free.separated.length_mul_le
    (fun r hr => (free.holds r hr).page_le)
    fun r hr => ⟨(free.holds r hr).lower, (free.holds r hr).upper⟩
  have := pool.top
  unfold PAGE at hbound
  unfold maxRuns
  omega

/-- `kfree` of a range that is not free gives it back to the list, and changes no other bytes than
those of the range and of the list. -/
theorem Kmem.FreeList.kfree_frame (free : s.FreeList pool rs) (holds : pool.Holds p)
    (taken : Disjoint p.bytes s.freeBytes) :
    ∃ t, (Xv6.kfree p.start p.len).run s = .ok () t ∧ t.FreeList pool (giveBack p rs) ∧
      ∀ x, x ∉ p.bytes → x ∉ s.freeBytes → t.mem x = s.mem x := by
  have hpos := holds.nonempty
  have hlower := holds.lower
  have hupper := holds.upper
  have htop := pool.top
  have hstop : p.stop = p.start + p.len := rfl
  rw [free.freeBytes_eq] at taken
  have hapart : ∀ r ∈ rs, p.Apart r := by
    intro r hr
    by_contra hnot
    have hrpos := (free.holds r hr).nonempty
    unfold Span.Apart at hnot
    -- otherwise the later of the two starts is a common byte
    have hp : max p.start r.start ∈ p.bytes := by
      rw [Span.mem_bytes]
      unfold Span.stop at *
      omega
    have hr' : max p.start r.start ∈ r.bytes := by
      rw [Span.mem_bytes]
      unfold Span.stop at *
      omega
    exact Set.disjoint_left.mp taken hp ⟨r, hr, hr'⟩
  let filled : Kmem := { s with mem := s.mem.memset p.start p.len 1 }
  have hlinked : filled.Linked (filled.deref .freelist) rs :=
    free.linked.congr (fun r hr => (free.holds r hr).header) fun x hx => by
      refine ByteMem.memset_of_apart ?_
      by_contra hin
      exact Set.disjoint_left.mp taken (Span.mem_bytes.mpr ⟨by omega, by omega⟩) hx
  obtain ⟨t, hrun, ht, htouches⟩ := kfreeLoop_run holds hlinked free.separated free.holds
    hapart (Set.empty_disjoint _) free.length_lt
  refine ⟨t, ?_, ⟨ht, free.separated.giveBack hapart,
    forall_mem_giveBack (fun _ _ h h' touch => h.merge h' touch) holds free.holds⟩, ?_⟩
  · rw [Xv6.kfree, if_neg, run_modify_bind, ← Nat.cast_add, word32_of_lt (by omega)]
    · exact hrun
    · have hdvd : (PAGE : Int) ∣ (p.len : Int) := Int.natCast_dvd_natCast.mpr holds.pages
      rw [Int.tmod_eq_zero_of_dvd hdvd]
      omega
  · intro x hp hfree
    rw [free.freeBytes_eq] at hfree
    rw [htouches.mem x (Set.notMem_empty x) (by rw [spanBytes_cons]; exact not_or.mpr ⟨hp, hfree⟩)]
    refine ByteMem.memset_of_apart ?_
    rw [Span.mem_bytes] at hp
    omega

/-- `kfree` of a range that is not free gives it back to the list. -/
theorem Kmem.FreeList.kfree (free : s.FreeList pool rs) (holds : pool.Holds p)
    (taken : Disjoint p.bytes s.freeBytes) :
    ∃ t, (Xv6.kfree p.start p.len).run s = .ok () t ∧ t.FreeList pool (giveBack p rs) := by
  obtain ⟨t, hrun, hfree, -⟩ := free.kfree_frame holds taken
  exact ⟨t, hrun, hfree⟩

/-- `kalloc` takes a block from the list and changes no bytes outside of the list, or it returns
the null pointer and changes nothing. -/
theorem Kmem.FreeList.kalloc_frame (free : s.FreeList pool rs) (positive : 0 < n)
    (pages : PAGE ∣ n) :
    (takeFirst n rs = none ∧ (Xv6.kalloc n).run s = .ok 0 s) ∨
      ∃ a rest t, takeFirst n rs = some (a, rest) ∧ (Xv6.kalloc n).run s = .ok a t ∧
        t.FreeList pool rest ∧ ∀ x, x ∉ s.freeBytes → t.mem x = s.mem x := by
  have hrun : Xv6.kalloc n = kallocLoop n maxRuns .freelist := by
    have hdvd : (PAGE : Int) ∣ (n : Int) := Int.natCast_dvd_natCast.mpr pages
    rw [Xv6.kalloc, if_neg]
    rw [Int.tmod_eq_zero_of_dvd hdvd]
    omega
  rw [hrun]
  cases htaken : takeFirst n rs with
  | none =>
    exact Or.inl ⟨rfl, kallocLoop_none free.linked free.length_lt htaken⟩
  | some found =>
    obtain ⟨a, rest⟩ := found
    have hhead : s.Linked (s.deref .freelist) rs := free.linked
    obtain ⟨t, ht, hlinked, htouches⟩ := kallocLoop_some hhead free.separated free.holds
      (Set.empty_disjoint _) free.length_lt htaken
    refine Or.inr ⟨a, rest, t, rfl, ht, ⟨hlinked, free.separated.takeFirst htaken,
      fun q hq => ?_⟩, fun x hx => htouches.mem x (Set.notMem_empty x) ?_⟩
    swap
    · rwa [free.freeBytes_eq] at hx
    obtain ⟨r, hr, hstart, hlen⟩ := takeFirst_rest htaken q hq
    have hheld := free.holds r hr
    have hpos := hheld.nonempty
    have hupper := hheld.upper
    refine ⟨?_, by omega, hstart ▸ hheld.lower, by unfold Span.stop at *; omega⟩
    rcases hlen with h | ⟨h, -⟩
    · exact h ▸ hheld.pages
    · exact h ▸ Nat.dvd_sub hheld.pages pages

/-- `kalloc` takes a block from the list, or returns the null pointer and changes nothing. -/
theorem Kmem.FreeList.kalloc (free : s.FreeList pool rs) (positive : 0 < n) (pages : PAGE ∣ n) :
    (takeFirst n rs = none ∧ (Xv6.kalloc n).run s = .ok 0 s) ∨
      ∃ a rest t, takeFirst n rs = some (a, rest) ∧ (Xv6.kalloc n).run s = .ok a t ∧
        t.FreeList pool rest := by
  rcases free.kalloc_frame positive pages with h | ⟨a, rest, t, htaken, hrun, hrest, -⟩
  · exact .inl h
  · exact .inr ⟨a, rest, t, htaken, hrun, hrest⟩

/-- What `kalloc` has returned can be freed, and then the list is as it was before. -/
theorem Kmem.FreeList.kfree_taken {rest : List Span}
    (free : s.FreeList pool rs) (positive : 0 < n) (pages : PAGE ∣ n)
    (taken : takeFirst n rs = some (a, rest)) (left : t.FreeList pool rest) :
    a ≠ 0 ∧ ∃ u, (Xv6.kfree a n).run t = .ok () u ∧ u.FreeList pool rs := by
  obtain ⟨r, hr, hstart, hstop⟩ := takeFirst_mem taken
  have hheld := free.holds r hr
  have hlower := hheld.lower
  have hpool := pool.positive
  have hholds : pool.Holds ⟨a, n⟩ :=
    ⟨pages, positive, hlower.trans hstart, hstop.le.trans hheld.upper⟩
  have hgone : Disjoint (⟨a, n⟩ : Span).bytes t.freeBytes := by
    rw [left.freeBytes_eq, (spanBytes_takeFirst free.separated taken).2]
    exact Set.disjoint_sdiff_right
  obtain ⟨u, hrun, hfree⟩ := left.kfree hholds hgone
  refine ⟨by omega, u, hrun, ?_⟩
  rwa [giveBack_takeFirst free.separated (fun q hq => (free.holds q hq).nonempty) taken] at hfree

end Calls

end Xv6
