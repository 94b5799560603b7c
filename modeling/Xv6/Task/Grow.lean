/-
# Growing a process

`sbrk` takes a new block for the whole image, copies the old image, clears what follows and gives
the old block back. `kalloc` stops the kernel unless the new size is a positive number of pages,
and for a negative `n` the copy is longer than the new block and the length of the clearing wraps
around. So `sbrk` does what it should for whole pages up, and for whole pages down only if there
is no memory.
-/

import Xv6.Fs.Owners
import Xv6.Task.Image

namespace Xv6

open Math

namespace Task

/-- `sbrk(n)` returns; it stores into the new block only; and it fails and changes nothing, or
returns the old size, with the old image as far as it fits followed by zeros. -/
def SbrkSafe (s : Task) (n : Int) : Prop :=
  ∃ r t, (sysSbrk (some n)).run s = .ok r t ∧ s.StoresInside t ∧
    (r = -1 ∧ t.mem = s.mem ∧ t.sz = s.sz ∧ t.kmem = s.kmem ∨
      r = s.sz ∧ (t.sz : Int) = s.sz + n ∧
        (∀ i < min s.sz t.sz, t.bytes (t.mem + i) = s.bytes (s.mem + i)) ∧
        ∀ i, s.sz ≤ i → i < t.sz → t.bytes (t.mem + i) = 0)

/-- The new size is a positive number of pages, and it is not smaller than the old one unless there
is no room for it. -/
def Growable (s : Task) (n : Int) : Prop :=
  0 < s.sz + n ∧ s.sz + n < 2 ^ 31 ∧ (PAGE : Int) ∣ n ∧
    (0 ≤ n ∨ ¬ ∃ x, Set.Ico x (x + (s.sz + n).toNat) ⊆ s.kmem.freeBytes)

/-- The signed value of a word that holds a number that is not negative. -/
theorem int32_word32 {i : Int} (nonneg : 0 ≤ i) (small : i < 2 ^ 31) : int32 (word32 i) = i := by
  unfold int32 word32
  split <;> omega

section Runs

variable {s : Task} {pool : Pool} {rs : List Span} {n : Int}

/-- `growproc` with a new block at `a`, before the old image is given back. -/
def copied (s : Task) (u : Kmem) (a : Nat) (n : Int) : Task :=
  let block : Span := ⟨a, word32 (s.sz + n)⟩
  ({ s with kmem := u }.stored block a s.sz fun i => u.mem ((s.mem + i) % 2 ^ 32)).stored block
    (a + s.sz) (word32 n) fun _ => 0

theorem growproc_panics {e : Halt}
    (panics : (kalloc (int32 (word32 (s.sz + n)))).run s.kmem = .error e s.kmem) :
    (growproc n).run s = .error (.kmem e) s := by
  rw [growproc, run_get_bind]
  exact run_bind_of_error (onKmem_run_of_error panics)

theorem growproc_no_room (full : (kalloc (int32 (word32 (s.sz + n)))).run s.kmem = .ok 0 s.kmem) :
    (growproc n).run s = .ok (-1) s := by
  rw [growproc, run_get_bind]
  exact run_bind_of_ok (onKmem_run_of_ok full)

theorem growproc_took {u : Kmem} {a : Nat} (nonzero : a ≠ 0)
    (took : (kalloc (int32 (word32 (s.sz + n)))).run s.kmem = .ok a u) :
    (growproc n).run s = (do
      onKmem (kfree s.mem (int32 s.sz))
      modify fun t => { t with mem := a, sz := word32 (t.sz + n) }
      pure (int32 s.sz) : TaskM Int).run (s.copied u a n) := by
  rw [growproc, run_get_bind, run_bind_of_ok (onKmem_run_of_ok took), if_neg nonzero]
  rfl

/-- `sbrk` passes the result of `growproc` on. -/
theorem sysSbrk_run {r : Int} {t : Task} (run : (growproc n).run s = .ok r t) :
    (sysSbrk (some n)).run s = .ok (if r < 0 then -1 else r) t :=
  run_bind_of_ok run

theorem sysSbrk_run_iff {r : Int} {t : Task} :
    (sysSbrk (some n)).run s = .ok r t ↔
      ∃ r', (growproc n).run s = .ok r' t ∧ r = if r' < 0 then -1 else r' := by
  constructor
  · intro hrun
    obtain ⟨r', u, hgrow, hpure⟩ := run_bind_eq_ok_iff.mp hrun
    cases hpure
    exact ⟨r', hgrow, rfl⟩
  · rintro ⟨r', hgrow, rfl⟩
    exact sysSbrk_run hgrow

variable (ready : s.Ready pool rs)

include ready

/-- `kalloc` accepts the new size if it is a positive number of pages. -/
theorem Ready.kalloc_panics (int : -2 ^ 31 ≤ n ∧ n < 2 ^ 31)
    (bad : ¬ (0 < s.sz + n ∧ s.sz + n < 2 ^ 31 ∧ (PAGE : Int) ∣ n)) :
    (kalloc (int32 (word32 (s.sz + n)))).run s.kmem = .error (.panic "kalloc") s.kmem := by
  have hsz := ready.sz_lt
  have hpages : (PAGE : Int) ∣ s.sz := Int.natCast_dvd_natCast.mpr ready.image.pages
  rw [kalloc, if_pos]
  · rfl
  by_cases hpos : 0 < (s.sz : Int) + n
  · by_cases hsmall : (s.sz : Int) + n < 2 ^ 31
    · left
      rw [int32_word32 hpos.le hsmall]
      intro htmod
      refine bad ⟨hpos, hsmall, (Int.dvd_add_right hpages).mp (Int.dvd_of_tmod_eq_zero htmod)⟩
    · right
      unfold int32 word32
      split <;> omega
  · right
    unfold int32 word32
    split <;> omega

/-- The size that `kalloc` gets, if it accepts it. -/
theorem Ready.new_size (positive : 0 < s.sz + n) (small : s.sz + n < 2 ^ 31)
    (pages : (PAGE : Int) ∣ n) :
    ∃ m : Nat, s.sz + n = m ∧ 0 < m ∧ PAGE ∣ m ∧ word32 (s.sz + n) = m ∧
      int32 (word32 (s.sz + n)) = m := by
  obtain ⟨m, hm⟩ := Int.eq_ofNat_of_zero_le positive.le
  have hsz : (PAGE : Int) ∣ s.sz := Int.natCast_dvd_natCast.mpr ready.image.pages
  refine ⟨m, hm, by omega, ?_, ?_, by rw [int32_word32 positive.le small, hm]⟩
  · exact Int.natCast_dvd_natCast.mp (hm ▸ Int.dvd_add hsz pages)
  · unfold word32
    omega

/-- Growing by `k` bytes, with a new block at `a`: the old image is copied and followed by zeros,
and then given back. -/
theorem Ready.grows {u : Kmem} {a k : Nat} {rest : List Span} (small : s.sz + k < 2 ^ 31)
    (nonzero : a ≠ 0) (run : (kalloc (s.sz + k : Nat)).run s.kmem = .ok a u)
    (took : Kmem.Took pool s.kmem u rest ⟨a, s.sz + k⟩) :
    ∃ t, (growproc k).run s = .ok s.sz t ∧ t.sz = s.sz + k ∧
      s.StoresInside t ∧
      (∀ i < s.sz, t.bytes (t.mem + i) = s.bytes (s.mem + i)) ∧
      ∀ i, s.sz ≤ i → i < s.sz + k → t.bytes (t.mem + i) = 0 := by
  set block : Span := ⟨a, s.sz + k⟩ with hblock
  have hstart : block.start = a := rfl
  have hlen : block.len = s.sz + k := rfl
  have htop : block.start + block.len < 2 ^ 32 := took.holds.upper.trans_lt pool.top
  have hold : s.mem + s.sz < 2 ^ 32 := ready.image.upper.trans_lt pool.top
  have hword : word32 ((s.sz : Int) + k) = s.sz + k := by
    rw [← Nat.cast_add, word32_of_lt (by omega)]
  have hk : word32 (k : Int) = k := word32_of_lt (by omega)
  have hsize : int32 (word32 ((s.sz : Int) + k)) = (s.sz + k : Nat) := by
    rw [hword, int32_of_lt small]
  let taken : Task := { s with kmem := u }
  let moved := taken.stored block (block.start + 0) s.sz fun i => u.mem ((s.mem + i) % 2 ^ 32)
  have hcopied : s.copied u a k = moved.stored block (block.start + s.sz) k fun _ => 0 := by
    rw [copied, hword, hk]
    rfl
  set c := s.copied u a k with hc
  have hin₁ : Store.Inside ⟨block, (block.start + 0) % 2 ^ 32, s.sz⟩ :=
    (inside_iff htop).mpr (.inr (by omega))
  have hin₂ : Store.Inside ⟨block, (block.start + s.sz) % 2 ^ 32, k⟩ :=
    (inside_iff htop).mpr (.inr (by omega))
  have hctook : Kmem.Took pool s.kmem c.kmem rest block := by
    rw [hcopied]
    exact took_stored (took_stored (s := taken) took hin₁) hin₂
  obtain ⟨hapart, hgone⟩ := hctook.disjoint ready.taken
  obtain ⟨v, hkfree, -, hkept⟩ := hctook.left.kfree_frame ready.image hgone
  -- so the new block stays as the two stores left it
  have hnew : ∀ i < s.sz + k, v.mem (a + i) = c.bytes (a + i) := by
    intro i hi
    have hmem : a + i ∈ block.bytes := Span.mem_bytes.mpr ⟨by omega, by omega⟩
    exact hkept _ (fun h => Set.disjoint_left.mp hapart h hmem)
      (Set.disjoint_left.mp hctook.apart hmem)
  refine ⟨{ c with kmem := v, mem := a, sz := s.sz + k }, ?_, rfl, ?_, ?_, ?_⟩
  · rw [growproc_took nonzero (hsize ▸ run)]
    have hsz : int32 s.sz = s.sz := int32_of_lt ready.sz_lt
    rw [hsz, run_bind_of_ok (onKmem_run_of_ok hkfree), run_modify_bind]
    have hcsz : c.sz = s.sz := by rw [hcopied]; rfl
    simp only [hcsz, hword]
    rfl
  · have hstores : s.StoresInside c := by
      rw [hcopied]
      exact (storesInside_split (t := moved) suffix_stored suffix_stored).mpr
        ⟨storesInside_stored.mpr hin₁, storesInside_stored.mpr hin₂⟩
    exact hstores
  · intro i hi
    change v.mem (a + i) = _
    rw [hnew i (by omega), hcopied, stored_of_not_mem, stored_of_mem (by omega) (by omega)
      (by omega)]
    · have hmem : s.mem + i ∈ (⟨s.mem, s.sz⟩ : Span).bytes :=
        Span.mem_bytes.mpr ⟨by simp, by simp [hi]⟩
      have hoff : a + i - (block.start + 0) = i := by omega
      rw [hoff, Nat.mod_eq_of_lt (by omega)]
      exact took.same _ (Set.disjoint_left.mp ready.taken hmem)
    · have hmod : (block.start + s.sz) % 2 ^ 32 = a + s.sz :=
        Nat.mod_eq_of_lt (by omega)
      rw [hmod, wrapped_eq_Ico (by omega)]
      intro h
      have := h.1
      omega
  · intro i hlow hi
    change v.mem (a + i) = _
    rw [hnew i hi, hcopied, stored_of_mem]
    all_goals omega

theorem Ready.sbrkSafe (int : -2 ^ 31 ≤ n ∧ n < 2 ^ 31) (growable : s.Growable n) :
    s.SbrkSafe n := by
  obtain ⟨hpos, hsmall, hpages, hgrows⟩ := growable
  obtain ⟨m, hm, hmpos, hmpages, -, harg⟩ := ready.new_size hpos hsmall hpages
  rcases ready.free.kalloc_took hmpos hmpages with
    ⟨-, hrun⟩ | ⟨a, rest, u, hnonzero, -, hrun, htook⟩
  · have hgrow := growproc_no_room (s := s) (n := n) (harg.symm ▸ hrun)
    exact ⟨-1, s, sysSbrk_run hgrow, .of_eq rfl, .inl ⟨rfl, rfl, rfl, rfl⟩⟩
  · -- there is room, so `n` is not negative
    have hn : 0 ≤ n := by
      refine hgrows.resolve_right (not_not.mpr ⟨a, ?_⟩)
      rw [hm]
      exact htook.was
    obtain ⟨k, rfl⟩ := Int.eq_ofNat_of_zero_le hn
    obtain rfl : m = s.sz + k := by exact_mod_cast hm.symm
    obtain ⟨t, hgrow, hsz, hstores, hold, hzero⟩ :=
      ready.grows (by exact_mod_cast hsmall) hnonzero hrun htook
    have hsbrk := sysSbrk_run hgrow
    rw [if_neg (by omega)] at hsbrk
    refine ⟨s.sz, t, hsbrk, hstores, .inr ⟨rfl, by rw [hsz]; rfl, ?_, ?_⟩⟩
    · exact fun i hi => hold i (by omega)
    · exact fun i hlow hi => hzero i hlow (by omega)

theorem Ready.growable (int : -2 ^ 31 ≤ n ∧ n < 2 ^ 31) (safe : s.SbrkSafe n) :
    s.Growable n := by
  obtain ⟨r, t, hsbrk, hinside, -⟩ := safe
  obtain ⟨r', hgrow, -⟩ := sysSbrk_run_iff.mp hsbrk
  by_cases hgood : 0 < s.sz + n ∧ s.sz + n < 2 ^ 31 ∧ (PAGE : Int) ∣ n
  swap
  · rw [growproc_panics (ready.kalloc_panics int hgood)] at hgrow
    cases hgrow
  obtain ⟨hpos, hsmall, hpages⟩ := hgood
  refine ⟨hpos, hsmall, hpages, ?_⟩
  obtain ⟨m, hm, hmpos, hmpages, hword, harg⟩ := ready.new_size hpos hsmall hpages
  rcases ready.free.kalloc_took hmpos hmpages with
    ⟨hroom, -⟩ | ⟨a, rest, u, hnonzero, -, hrun, htook⟩
  · right
    rwa [hm]
  · left
    by_contra hneg
    rw [growproc_took hnonzero (harg.symm ▸ hrun)] at hgrow
    obtain ⟨_, v, hkfree, hend⟩ := run_bind_eq_ok_iff.mp hgrow
    obtain ⟨v, -, rfl⟩ := zoom_run_eq_ok hkfree
    cases hend
    -- the copy is longer than the block
    let block : Span := ⟨a, word32 (s.sz + n)⟩
    let moved := { s with kmem := u }.stored block (block.start + 0) s.sz fun i =>
      u.mem ((s.mem + i) % 2 ^ 32)
    have hmoved := ((storesInside_split (u := s.copied u a n) (t := moved) suffix_stored
      suffix_stored).mp hinside).1
    have htop : block.start + block.len < 2 ^ 32 := by
      rw [show block = ⟨a, m⟩ from congrArg _ hword]
      exact htook.holds.upper.trans_lt pool.top
    have hlen : block.len = m := hword
    have hfits := (inside_iff htop).mp (storesInside_stored.mp hmoved)
    omega

/-- `sbrk(n)` is safe for a process of whole pages exactly if the new size is a positive number of
pages that fits into an `int`, and `n` is not negative or there is no room for the new image. -/
theorem sbrkSafe_iff_growable (int : -2 ^ 31 ≤ n ∧ n < 2 ^ 31) : s.SbrkSafe n ↔ s.Growable n :=
  ⟨ready.growable int, ready.sbrkSafe int⟩

end Runs

/-! ### A process of two pages -/

/-- The pages from the second to the sixth. -/
def twoPagesPool : Pool := ⟨PAGE, 6 * PAGE, PAGE_pos, by decide, by decide⟩

/-- A process of two pages, with three free pages behind it. -/
def twoPages : Task where
  fs := blankFs
  kmem := ⟨ByteMem.store32 (fun _ => 0) (3 * PAGE + 4) (3 * PAGE), 3 * PAGE⟩
  cwd := none
  mem := PAGE
  sz := 2 * PAGE
  name := []
  eip := 0
  esp := 0
  stores := []

theorem twoPages_ready : twoPages.Ready twoPagesPool [⟨3 * PAGE, 3 * PAGE⟩] := by
  have hfree : twoPages.kmem.FreeList twoPagesPool [⟨3 * PAGE, 3 * PAGE⟩] := by
    have hlast : twoPages.kmem.next (3 * PAGE) = 0 := by decide +kernel
    refine ⟨⟨rfl, by decide, by decide +kernel, hlast⟩, List.pairwise_singleton _ _, ?_⟩
    intro r hr
    obtain rfl := List.mem_singleton.mp hr
    exact ⟨⟨3, rfl⟩, by decide, by decide, by decide⟩
  refine ⟨hfree, ⟨⟨2, rfl⟩, by decide, by decide, by decide⟩, ?_⟩
  rw [hfree.freeBytes_eq, Set.disjoint_left]
  rintro x hx ⟨r, hr, hxr⟩
  obtain rfl := List.mem_singleton.mp hr
  have hlow : x < PAGE + 2 * PAGE := (Span.mem_bytes.mp hx).2
  have hhigh : 3 * PAGE ≤ x := (Span.mem_bytes.mp hxr).1
  omega

/-- It can grow by a page. -/
theorem sbrkSafe_iff_growable_page : twoPages.Growable PAGE ∧ twoPages.SbrkSafe PAGE := by
  have hgrowable : twoPages.Growable PAGE :=
    ⟨by decide, by decide, dvd_rfl, .inl (by decide)⟩
  exact ⟨hgrowable, (sbrkSafe_iff_growable twoPages_ready (by decide)).mpr hgrowable⟩

/-- Growing by one byte stops the kernel, and giving up a page is not safe either. -/
theorem sbrk_one_panics :
    twoPages.Ready twoPagesPool [⟨3 * PAGE, 3 * PAGE⟩] ∧
      (sysSbrk (some 1)).run twoPages = .error (.kmem (.panic "kalloc")) twoPages ∧
      ¬ twoPages.SbrkSafe 1 ∧ ¬ twoPages.SbrkSafe (-PAGE) := by
  have hgrow : (growproc 1).run twoPages = .error (.kmem (.panic "kalloc")) twoPages :=
    growproc_panics (twoPages_ready.kalloc_panics (by decide) (by decide))
  refine ⟨twoPages_ready, run_bind_of_error hgrow, ?_, ?_⟩
  · rintro ⟨r, t, hsbrk, -⟩
    obtain ⟨r', hrun, -⟩ := sysSbrk_run_iff.mp hsbrk
    rw [hgrow] at hrun
    cases hrun
  · intro hsafe
    obtain ⟨-, -, -, hnonneg | hroom⟩ := twoPages_ready.growable (by decide) hsafe
    · exact absurd hnonneg (by decide)
    · refine hroom ⟨3 * PAGE, ?_⟩
      rw [twoPages_ready.free.freeBytes_eq]
      rintro x ⟨hlow, hhigh⟩
      have hhigh' : x < 3 * PAGE + PAGE := hhigh
      have htop : x < 3 * PAGE + 3 * PAGE := by omega
      exact ⟨_, List.mem_singleton_self _, Span.mem_bytes.mpr ⟨hlow, htop⟩⟩

end Task

end Xv6
