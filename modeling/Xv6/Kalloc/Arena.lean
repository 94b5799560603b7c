/-
# Runs of the page allocator

Whatever sequence of calls the kernel makes, the free list stays sorted and coalesced and
covers exactly the memory of the pool that is not handed out. Those who hold memory may
write to it between the calls.
-/

import Xv6.Kalloc.FreeList
import Xv6.Math.Runs

namespace Xv6

open Math

/-! ### Runs of calls -/

/-- What happens to the memory of the pool: calls of the allocator, and writes to memory by
those who hold it. -/
inductive KmemCall where
  | kalloc (n : Int)
  | kfree (v : Nat) (len : Int)
  | use (m : ByteMem)

/-- The allocator together with the bytes that are handed out and not yet freed. -/
structure Arena where
  kmem : Kmem
  out : Set Nat

/-- A call as the kernel makes it: `kalloc` of a positive number of whole pages, `kfree` of
whole pages of the pool that are not free, writes only to memory that is handed out. -/
def Arena.Legal (pool : Pool) (a : Arena) : KmemCall → Prop
  | .kalloc n => 0 < n ∧ (PAGE : Int) ∣ n
  | .kfree v len => 0 < len ∧ (PAGE : Int) ∣ len ∧
      Set.Ico v (v + len.toNat) ⊆ pool.bytes \ a.kmem.freeBytes
  | .use m => ∀ x ∉ a.out, m x = a.kmem.mem x

/-- A legal call that returns. -/
inductive Arena.Step (pool : Pool) : KmemCall → Arena → Arena → Prop
  | kalloc {a : Arena} {n : Int} {p : Nat} {t : Kmem} : a.Legal pool (.kalloc n) →
      (Xv6.kalloc n).run a.kmem = .ok p t →
      Step pool (.kalloc n) a ⟨t, if p = 0 then a.out else a.out ∪ Set.Ico p (p + n.toNat)⟩
  | kfree {a : Arena} {v : Nat} {len : Int} {t : Kmem} : a.Legal pool (.kfree v len) →
      (Xv6.kfree v len).run a.kmem = .ok () t →
      Step pool (.kfree v len) a ⟨t, a.out \ Set.Ico v (v + len.toNat)⟩
  | use {a : Arena} {m : ByteMem} : a.Legal pool (.use m) →
      Step pool (.use m) a ⟨{ a.kmem with mem := m }, a.out⟩

/-- The invariant of the allocator: the runs of the free list are exactly the pool without
the bytes that are handed out. -/
structure Arena.Exact (pool : Pool) (a : Arena) (rs : List Span) : Prop where
  list : a.kmem.FreeList pool rs
  bytes : spanBytes rs = pool.bytes \ a.out

section Runs

variable {pool : Pool} {a b : Arena} {rs : List Span} {c : KmemCall}

theorem Arena.Exact.spanBytes_subset (exact : a.Exact pool rs) : spanBytes rs ⊆ pool.bytes :=
  exact.bytes ▸ Set.sdiff_subset

/-- The span of a legal `kfree`. -/
theorem Arena.Exact.holds {v : Nat} {len : Int} (legal : a.Legal pool (.kfree v len)) :
    ∃ n : Nat, len = n ∧ pool.Holds ⟨v, n⟩ ∧
      Disjoint (⟨v, n⟩ : Span).bytes a.kmem.freeBytes := by
  obtain ⟨hpos, hpages, hinside⟩ := legal
  obtain ⟨n, rfl⟩ := Int.eq_ofNat_of_zero_le hpos.le
  rw [Int.toNat_natCast] at hinside
  have hn : 0 < n := by exact_mod_cast hpos
  have hfirst := (hinside (a := v) ⟨le_rfl, by omega⟩).1
  have hlast := (hinside (a := v + n - 1) ⟨by omega, by omega⟩).1
  refine ⟨n, rfl, ⟨Int.natCast_dvd_natCast.mp hpages, hn, hfirst.1, ?_⟩, ?_⟩
  · have := hlast.2
    simp only [Span.stop]
    omega
  · exact Set.disjoint_left.mpr fun x hx => (hinside hx).2

theorem Arena.Exact.step (exact : a.Exact pool rs) (step : Arena.Step pool c a b) :
    ∃ qs, b.Exact pool qs := by
  cases step with
  | @kalloc _ n p t legal run =>
    obtain ⟨n, rfl⟩ := Int.eq_ofNat_of_zero_le legal.1.le
    have hn : 0 < n := by exact_mod_cast legal.1
    rcases exact.list.kalloc hn (Int.natCast_dvd_natCast.mp legal.2) with
      ⟨-, hrun⟩ | ⟨q, rest, u, htaken, hrun, hfree⟩
    · rw [hrun] at run
      obtain ⟨rfl, rfl⟩ := EStateM.Result.ok.inj run
      exact ⟨rs, exact.list, by simpa using exact.bytes⟩
    · rw [hrun] at run
      obtain ⟨rfl, rfl⟩ := EStateM.Result.ok.inj run
      obtain ⟨hsub, hrest⟩ := spanBytes_takeFirst exact.list.separated htaken
      have hne : q ≠ 0 := by
        have hmem := exact.spanBytes_subset (hsub (a := q) ⟨le_rfl, by simp [Span.stop, hn]⟩)
        have := pool.positive
        have := hmem.1
        omega
      refine ⟨rest, hfree, ?_⟩
      rw [hrest, exact.bytes, if_neg hne, Int.toNat_natCast, Set.sdiff_sdiff]
      rfl
  | @kfree _ v len t legal run =>
    obtain ⟨n, rfl, hholds, hdisjoint⟩ := Arena.Exact.holds legal
    obtain ⟨u, hrun, hfree⟩ := exact.list.kfree hholds hdisjoint
    rw [hrun] at run
    obtain ⟨-, rfl⟩ := EStateM.Result.ok.inj run
    refine ⟨_, hfree, ?_⟩
    rw [spanBytes_giveBack, exact.bytes, Int.toNat_natCast]
    ext x
    have hin : x ∈ (⟨v, n⟩ : Span).bytes → x ∈ pool.bytes := fun hx => (legal.2.2 hx).1
    have hiff : x ∈ (⟨v, n⟩ : Span).bytes ↔ x ∈ Set.Ico v (v + n) := Iff.rfl
    simp only [Set.mem_union, Set.mem_sdiff, ← hiff]
    tauto
  | @use _ m legal =>
    -- the headers of the runs lie in free bytes, which nobody else writes to
    refine ⟨rs, ⟨?_, exact.list.separated, exact.list.holds⟩, exact.bytes⟩
    refine exact.list.linked.congr (fun r hr => (exact.list.holds r hr).header) fun x hx => ?_
    rw [exact.bytes] at hx
    exact legal x hx.2

/-- Giving the whole pool to an empty allocator. -/
theorem Arena.exact_init {m : ByteMem} {s₀ : Kmem}
    (init : (Xv6.kfree pool.lo (pool.hi - pool.lo)).run ⟨m, 0⟩ = .ok () s₀) :
    (⟨s₀, ∅⟩ : Arena).Exact pool [⟨pool.lo, pool.hi - pool.lo⟩] := by
  -- a length that is not a positive number of pages would have stopped the call
  have hlegal : ¬ ((pool.hi : Int) - pool.lo ≤ 0 ∨ ((pool.hi : Int) - pool.lo).tmod PAGE ≠ 0) := by
    intro hbad
    rw [Xv6.kfree, if_pos hbad] at init
    cases init
  rw [not_or, not_not] at hlegal
  have hcast : (pool.hi : Int) - pool.lo = (pool.hi - pool.lo : Nat) := by omega
  rw [hcast] at init hlegal
  have hholds : pool.Holds ⟨pool.lo, pool.hi - pool.lo⟩ :=
    ⟨Int.natCast_dvd_natCast.mp (Int.dvd_of_tmod_eq_zero hlegal.2), by simp only; omega, le_rfl,
      by simp only [Span.stop]; omega⟩
  have hempty : (⟨m, 0⟩ : Kmem).FreeList pool [] := ⟨rfl, List.Pairwise.nil, by simp⟩
  obtain ⟨t, hrun, hfree⟩ := hempty.kfree hholds (by rw [hempty.freeBytes_eq]; simp)
  rw [hrun] at init
  obtain ⟨-, rfl⟩ := EStateM.Result.ok.inj init
  refine ⟨hfree, ?_⟩
  rw [spanBytes_cons, spanBytes_nil, Set.union_empty, Set.sdiff_empty]
  change Set.Ico pool.lo (pool.lo + (pool.hi - pool.lo)) = Set.Ico pool.lo pool.hi
  congr 1
  omega

/-- The invariant along runs that start with the whole pool. -/
theorem Arena.exact_of_run {m : ByteMem} {s₀ : Kmem} {calls : List KmemCall}
    (init : (Xv6.kfree pool.lo (pool.hi - pool.lo)).run ⟨m, 0⟩ = .ok () s₀)
    (run : Run (Arena.Step pool) ⟨s₀, ∅⟩ calls a) : ∃ rs, a.Exact pool rs :=
  run.invariant (motive := fun _ b => ∃ rs, b.Exact pool rs) ⟨_, Arena.exact_init init⟩
    fun _ _ _ _ ⟨_, h⟩ hstep => h.step hstep

/-- The page allocator. After any sequence of legal calls the free list is sorted and fully
coalesced, its runs are whole pages, and they are exactly the pool without the bytes handed
out; every legal `kalloc` returns, and what it returns was free; every legal `kfree`
returns. -/
theorem kalloc_kfree_exact {m : ByteMem} {s₀ : Kmem} {calls : List KmemCall}
    (init : (kfree pool.lo (pool.hi - pool.lo)).run ⟨m, 0⟩ = .ok () s₀)
    (run : Run (Arena.Step pool) ⟨s₀, ∅⟩ calls a) :
    (∃ rs, a.Exact pool rs) ∧
      (∀ n, a.Legal pool (.kalloc n) → ∃ p t, (kalloc n).run a.kmem = .ok p t ∧
        (p ≠ 0 → Set.Ico p (p + n.toNat) ⊆ a.kmem.freeBytes)) ∧
      ∀ v len, a.Legal pool (.kfree v len) → ∃ t, (kfree v len).run a.kmem = .ok () t := by
  obtain ⟨rs, exact⟩ := Arena.exact_of_run init run
  refine ⟨⟨rs, exact⟩, fun n legal => ?_, fun v len legal => ?_⟩
  · obtain ⟨n, rfl⟩ := Int.eq_ofNat_of_zero_le legal.1.le
    rcases exact.list.kalloc (by exact_mod_cast legal.1) (Int.natCast_dvd_natCast.mp legal.2) with
      ⟨-, hrun⟩ | ⟨p, rest, t, htaken, hrun, -⟩
    · exact ⟨0, a.kmem, hrun, fun h => absurd rfl h⟩
    · refine ⟨p, t, hrun, fun _ => ?_⟩
      rw [exact.list.freeBytes_eq, Int.toNat_natCast]
      exact (spanBytes_takeFirst exact.list.separated htaken).1
  · obtain ⟨n, rfl, hholds, hdisjoint⟩ := Arena.Exact.holds legal
    obtain ⟨t, hrun, -⟩ := exact.list.kfree hholds hdisjoint
    exact ⟨t, hrun⟩

/-- The pool that `kinit` sets up behind a kernel that ends at `kend`. -/
def kinitPool (kend : Nat) (fits : kstart kend + 256 * PAGE < 2 ^ 32) : Pool where
  lo := kstart kend
  hi := kstart kend + 256 * PAGE
  positive := by
    unfold kstart PAGE
    omega
  top := fits
  small := by
    rw [Nat.add_sub_cancel_left]
    decide

theorem kinit_eq_kfree (kend : Nat) (fits : kstart kend + 256 * PAGE < 2 ^ 32) :
    kinit kend = kfree (kinitPool kend fits).lo
      ((kinitPool kend fits).hi - (kinitPool kend fits).lo) := by
  rw [kinit, kinitPool, Nat.cast_add, add_sub_cancel_left]
  rfl

/-! ### A run in which freed pages are merged -/

theorem Kmem.FreeList.kalloc_step {s : Kmem} {n p : Nat} {rest : List Span}
    (free : s.FreeList pool rs) (out : Set Nat) (positive : 0 < n) (pages : PAGE ∣ n)
    (taken : takeFirst n rs = some (p, rest)) :
    ∃ t, Arena.Step pool (.kalloc n) ⟨s, out⟩ ⟨t, out ∪ Set.Ico p (p + n)⟩ ∧
      t.FreeList pool rest := by
  rcases free.kalloc positive pages with ⟨hnone, -⟩ | ⟨q, qs, t, hsome, hrun, hrest⟩
  · rw [taken] at hnone
    cases hnone
  · obtain ⟨rfl, rfl⟩ := Prod.mk.inj (Option.some.inj (taken.symm.trans hsome))
    have hlegal : (⟨s, out⟩ : Arena).Legal pool (.kalloc n) :=
      ⟨Int.natCast_pos.mpr positive, Int.natCast_dvd_natCast.mpr pages⟩
    have hstep := Arena.Step.kalloc hlegal hrun
    rw [if_neg (free.kfree_taken positive pages taken hrest).1, Int.toNat_natCast] at hstep
    exact ⟨t, hstep, hrest⟩

theorem Kmem.FreeList.kfree_step {s : Kmem} {r : Span} (free : s.FreeList pool rs) (out : Set Nat)
    (holds : pool.Holds r) (apart : ∀ q ∈ rs, r.Apart q) :
    ∃ t, Arena.Step pool (.kfree r.start r.len) ⟨s, out⟩ ⟨t, out \ r.bytes⟩ ∧
      t.FreeList pool (giveBack r rs) := by
  have hdisjoint : Disjoint r.bytes s.freeBytes := by
    rw [free.freeBytes_eq]
    exact disjoint_spanBytes apart
  obtain ⟨t, hrun, hrest⟩ := free.kfree holds hdisjoint
  refine ⟨t, .kfree ⟨Int.natCast_pos.mpr holds.nonempty, Int.natCast_dvd_natCast.mpr holds.pages,
    fun x hx => ⟨⟨holds.lower.trans hx.1, hx.2.trans_le holds.upper⟩, fun hfree => ?_⟩⟩ hrun, hrest⟩
  exact Set.disjoint_left.mp hdisjoint hx hfree

/-- Two pages are taken and given back, the upper one first. -/
def mergingCalls : List KmemCall :=
  [.kalloc 4096, .kalloc 4096, .kfree 0x200000 4096, .kfree 0x1ff000 4096]

/-- Behind a kernel that ends at 1 MiB, the second `kfree` joins three runs into one. -/
theorem mergingCalls_run :
    ∃ s₀ a, (kinit 0x100000).run ⟨fun _ => 0, 0⟩ = .ok () s₀ ∧
      Run (Arena.Step (kinitPool 0x100000 (by decide))) ⟨s₀, ∅⟩ mergingCalls a ∧ a.out = ∅ := by
  set pool := kinitPool 0x100000 (by decide) with hpool
  have hlo : pool.lo = 0x101000 := rfl
  have hhi : pool.hi = 0x201000 := rfl
  have hempty : (⟨fun _ => 0, 0⟩ : Kmem).FreeList pool [] := ⟨rfl, List.Pairwise.nil, by simp⟩
  have hholds (start len : Nat) (pages : PAGE ∣ len) (pos : 0 < len) (low : 0x101000 ≤ start)
      (high : start + len ≤ 0x201000) : pool.Holds ⟨start, len⟩ := ⟨pages, pos, low, high⟩
  obtain ⟨s₀, hinit, h₀⟩ := hempty.kfree
    (hholds 0x101000 0x100000 (by decide) (by decide) (by decide) (by decide))
    (by rw [hempty.freeBytes_eq]; simp)
  obtain ⟨s₁, hstep₁, h₁⟩ := h₀.kalloc_step ∅ (by decide) (by decide)
    (by decide : takeFirst 4096 _ = some (0x200000, [⟨0x101000, 0xff000⟩]))
  obtain ⟨s₂, hstep₂, h₂⟩ := h₁.kalloc_step _ (by decide) (by decide)
    (by decide : takeFirst 4096 _ = some (0x1ff000, [⟨0x101000, 0xfe000⟩]))
  obtain ⟨s₃, hstep₃, h₃⟩ := h₂.kfree_step _
    (hholds 0x200000 4096 (by decide) (by decide) (by decide) (by decide))
    (by simp [Span.Apart, Span.stop])
  obtain ⟨s₄, hstep₄, h₄⟩ := h₃.kfree_step _
    (hholds 0x1ff000 4096 (by decide) (by decide) (by decide) (by decide))
    (by simp [giveBack, Span.Apart, Span.stop])
  refine ⟨s₀, _, hinit, (((Run.start.snoc hstep₁).snoc hstep₂).snoc hstep₃).snoc hstep₄, ?_⟩
  ext x
  simp only [Span.bytes, Span.stop, Set.mem_sdiff, Set.mem_union, Set.mem_Ico,
    Set.mem_empty_iff_false, false_or, iff_false]
  omega

/-- After the pages were merged again, the list is one run of the whole pool. -/
theorem kalloc_kfree_exact_kinit :
    ∃ s₀ a, (kinit 0x100000).run ⟨fun _ => 0, 0⟩ = .ok () s₀ ∧
      Run (Arena.Step (kinitPool 0x100000 (by decide))) ⟨s₀, ∅⟩ mergingCalls a ∧
      ∃ rs, a.Exact (kinitPool 0x100000 (by decide)) rs ∧
        spanBytes rs = Set.Ico 0x101000 0x201000 := by
  obtain ⟨s₀, a, hinit, hrun, hout⟩ := mergingCalls_run
  obtain ⟨⟨rs, hexact⟩, -⟩ :=
    kalloc_kfree_exact (m := fun _ => 0) (kinit_eq_kfree .. ▸ hinit) hrun
  refine ⟨s₀, a, hinit, hrun, rs, hexact, ?_⟩
  rw [hexact.bytes, hout, Set.sdiff_empty]
  rfl

/-! ### `kalloc` fails only when it must -/

/-- In every state that legal calls lead to, `kalloc` of a positive number of whole pages returns;
it returns a null pointer if and only if no range of so many bytes of the pool is without a byte
that is handed out, and otherwise the free bytes lose exactly the range returned. -/
theorem kalloc_fails_only_if_no_room {m : ByteMem} {s₀ : Kmem} {calls : List KmemCall} {n : Int}
    (init : (kfree pool.lo (pool.hi - pool.lo)).run ⟨m, 0⟩ = .ok () s₀)
    (run : Run (Arena.Step pool) ⟨s₀, ∅⟩ calls a) (positive : 0 < n) (pages : (PAGE : Int) ∣ n) :
    a.kmem.freeBytes = pool.bytes \ a.out ∧
    ∃ p t, (kalloc n).run a.kmem = .ok p t ∧
      (p = 0 ↔ ¬ ∃ x, Set.Ico x (x + n.toNat) ⊆ pool.bytes \ a.out) ∧
      (p = 0 → t.freeBytes = pool.bytes \ a.out) ∧
      (p ≠ 0 → Set.Ico p (p + n.toNat) ⊆ pool.bytes \ a.out ∧
        t.freeBytes = (pool.bytes \ a.out) \ Set.Ico p (p + n.toNat)) := by
  obtain ⟨rs, exact⟩ := Arena.exact_of_run init run
  obtain ⟨n, rfl⟩ := Int.eq_ofNat_of_zero_le positive.le
  have hn : 0 < n := by exact_mod_cast positive
  have hpages : PAGE ∣ n := Int.natCast_dvd_natCast.mp pages
  rw [Int.toNat_natCast, exact.list.freeBytes_eq, ← exact.bytes]
  refine ⟨rfl, ?_⟩
  rcases exact.list.kalloc hn hpages with ⟨hnone, hrun⟩ | ⟨p, rest, t, htaken, hrun, hrest⟩
  · refine ⟨0, a.kmem, hrun, iff_of_true rfl ?_, fun _ => exact.list.freeBytes_eq,
      fun h => absurd rfl h⟩
    -- every run is shorter than `n`, and a free range lies in one run
    rintro ⟨x, hx⟩
    obtain ⟨r, hr, hstart, hstop⟩ := exact.list.separated.exists_span hn hx
    have hshort := takeFirst_eq_none.mp hnone r hr
    unfold Span.stop at hstop
    omega
  · obtain ⟨hsub, hleft⟩ := spanBytes_takeFirst exact.list.separated htaken
    have hp := (exact.list.kfree_taken hn hpages htaken hrest).1
    refine ⟨p, t, hrun, iff_of_false hp (not_not.mpr ⟨p, hsub⟩), fun h => absurd h hp,
      fun _ => ⟨hsub, ?_⟩⟩
    rw [hrest.freeBytes_eq, hleft]
    rfl

/-- After the pages were merged again, all 256 pages can be had at once, and 257 cannot. -/
theorem kalloc_fails_kinit :
    ∃ s₀ a, (kinit 0x100000).run ⟨fun _ => 0, 0⟩ = .ok () s₀ ∧
      Run (Arena.Step (kinitPool 0x100000 (by decide))) ⟨s₀, ∅⟩ mergingCalls a ∧
      (∃ t, (kalloc (256 * PAGE : Nat)).run a.kmem = .ok 0x101000 t ∧ t.freeBytes = ∅) ∧
      ∃ t, (kalloc (257 * PAGE : Nat)).run a.kmem = .ok 0 t := by
  obtain ⟨s₀, a, hinit, hrun, hout⟩ := mergingCalls_run
  have hroom (k : Nat) (hk : 0 < k) := (kalloc_fails_only_if_no_room (m := fun _ => 0)
    (n := (k * PAGE : Nat)) (kinit_eq_kfree .. ▸ hinit) hrun (by unfold PAGE; omega)
    (Int.natCast_dvd_natCast.mpr (Nat.dvd_mul_left ..))).2
  simp only [Int.toNat_natCast, hout, Set.sdiff_empty] at hroom
  refine ⟨s₀, a, hinit, hrun, ?_, ?_⟩
  · obtain ⟨p, t, hkalloc, hiff, -, htaken⟩ := hroom 256 (by decide)
    have hp : p ≠ 0 := fun h => hiff.mp h ⟨0x101000, subset_rfl⟩
    obtain ⟨hsub, hleft⟩ := htaken hp
    have hlow := (hsub (a := p) ⟨le_rfl, by unfold PAGE; omega⟩).1
    have hhigh := (hsub (a := p + 256 * PAGE - 1) ⟨by unfold PAGE; omega, by unfold PAGE; omega⟩).2
    obtain rfl : p = 0x101000 := by
      change 0x101000 ≤ p at hlow
      change p + 256 * 4096 - 1 < 0x201000 at hhigh
      omega
    refine ⟨t, hkalloc, ?_⟩
    rw [hleft]
    exact Set.sdiff_self
  · obtain ⟨p, t, hkalloc, hiff, -⟩ := hroom 257 (by decide)
    obtain rfl : p = 0 := by
      refine hiff.mpr ?_
      rintro ⟨x, hx⟩
      have hlow := (hx (a := x) ⟨le_rfl, by unfold PAGE; omega⟩).1
      have hhigh := (hx (a := x + 257 * PAGE - 1)
        ⟨by unfold PAGE; omega, by unfold PAGE; omega⟩).2
      change 0x101000 ≤ x at hlow
      change x + 257 * 4096 - 1 < 0x201000 at hhigh
      omega
    exact ⟨t, hkalloc⟩

end Runs

end Xv6
