/-
# The sizes that `malloc` asks for

`morecore` asks `sbrk` for `nunits` headers, and for no less than `PAGE` headers. In the kernel
`growproc` hands the new size of the process to `kalloc`, which takes whole pages only. The least
size is a number of pages; a larger one is whatever the request comes to in units of 8 bytes. So
the sizes are whole pages as long as the requests that no free block has room for are small, or
happen to end on the page grid.
-/

import Xv6.Umalloc.Tiles

namespace Xv6

open Math

namespace Umalloc

/-- A size that `growproc` can add to a number of pages: a positive multiple of `PAGE` that is an
`int`. -/
def WholePages (n : Nat) : Prop := 0 < n ∧ n < 2 ^ 31 ∧ PAGE ∣ n

instance (n : Nat) : Decidable (WholePages n) := by
  unfold WholePages
  infer_instance

/-- From `freep` on the pointers lead to a block with room for `nbytes` bytes and a header. -/
def Heap.HasRoom (s : Heap) (nbytes : Nat) : Prop :=
  s.freep ≠ 0 ∧ ∃ k, nbytes + HEADER ≤ s.size (s.ptr^[k] s.freep) * HEADER

/-- A `malloc` that asks for whole pages, or for nothing: the request with its header is not
above `PAGE` units, or in units it ends on the page grid, or a free block has room for it. -/
def Program.OnGrid (a : Program) : HeapCall → Prop
  | .malloc nbytes => nbytes + HEADER ≤ PAGE * HEADER ∨
      PAGE ∣ (nbytes + HEADER + (HEADER - 1)) / HEADER * HEADER ∨ a.heap.HasRoom nbytes
  | .free _ => True
  | .use _ => True

section Sizes

variable {image : Image} {grants : Nat → Bool} {a b : Program} {c : HeapCall} {nbytes : Nat}

theorem offers_unitsFor {s : Heap} (small : nbytes ≤ 2 ^ 31 - 32768) :
    s.Offers (unitsFor nbytes) ↔ s.HasRoom nbytes := by
  refine and_congr_right fun _ => exists_congr fun k => ?_
  unfold unitsFor HEADER
  omega

/-- The size for a request is a number of pages if the request is small or ends on the grid. -/
theorem morecoreSize_wholePages (small : nbytes ≤ 2 ^ 31 - 32768) :
    WholePages (morecoreSize (unitsFor nbytes)) ↔ nbytes + HEADER ≤ PAGE * HEADER ∨
      PAGE ∣ (nbytes + HEADER + (HEADER - 1)) / HEADER * HEADER := by
  unfold WholePages morecoreSize unitsFor HEADER PAGE
  split <;> omega

/-- What one call adds to the sizes. -/
theorem Program.Step.sbrks (inv : a.Untouched image ∨ ∃ l, a.Tiles image l)
    (step : Program.Step image grants c a b) :
    b.heap.sbrks = a.heap.sbrks ∧ a.OnGrid c ∨
    ∃ n, b.heap.sbrks = n :: a.heap.sbrks ∧ (WholePages n ↔ a.OnGrid c) := by
  cases step with
  | malloc legal run =>
    obtain ⟨p, t, hrun, -, hasks, -⟩ := malloc_run grants inv legal
    rw [hrun] at run
    cases run
    rcases hasks with ⟨hoffers, hsame⟩ | ⟨hnone, hmore⟩
    · exact .inl ⟨hsame, .inr (.inr ((offers_unitsFor legal).mp hoffers))⟩
    · refine .inr ⟨_, hmore, (morecoreSize_wholePages legal).trans ?_⟩
      -- no free block has room, so the third way is closed
      have hfull : ¬ a.heap.HasRoom _ := fun h => hnone ((offers_unitsFor legal).mpr h)
      exact or_congr_right (or_iff_left hfull).symm
  | free legal run => exact .inl ⟨(keeps_free _).of_ok run, trivial⟩
  | use legal => exact .inl ⟨rfl, trivial⟩

/-- The sizes behind one call are whole pages if those before it were and the call is on the
grid. -/
theorem Program.Step.wholePages_iff (inv : a.Untouched image ∨ ∃ l, a.Tiles image l)
    (step : Program.Step image grants c a b) :
    (∀ n ∈ b.heap.sbrks, WholePages n) ↔ (∀ n ∈ a.heap.sbrks, WholePages n) ∧ a.OnGrid c := by
  rcases step.sbrks inv with ⟨hsame, hgrid⟩ | ⟨n, hmore, hiff⟩
  · rw [hsame, and_iff_left hgrid]
  · rw [hmore, List.forall_mem_cons, hiff, and_comm]

end Sizes

/-- The sizes that a program makes `morecore` pass to `sbrk`, with any answers. All of them are
positive multiples of `PAGE` if and only if every `malloc` of the run is on the grid. -/
theorem sbrk_sizes_iff_onGrid {image : Image} {grants : Nat → Bool} {m : ByteMem}
    {calls : List HeapCall} {a : Program} (top : image.lo < 2 ^ 32)
    (run : Run (Program.Step image grants) ⟨⟨m, 0, image.lo, []⟩, []⟩ calls a) :
    (∀ n ∈ a.heap.sbrks, WholePages n) ↔
      Run (fun c a b => Program.Step image grants c a b ∧ a.OnGrid c)
        ⟨⟨m, 0, image.lo, []⟩, []⟩ calls a := by
  constructor
  · intro hwhole
    induction run with
    | start => exact .start
    | snoc hrun hstep ih =>
      obtain ⟨hbefore, hgrid⟩ := (hstep.wholePages_iff (Program.inv_of_run top hrun)).mp hwhole
      exact (ih hbefore).snoc ⟨hstep, hgrid⟩
  · intro hgood
    clear run
    induction hgood with
    | start => exact fun _ h => nomatch h
    | snoc hrun hstep ih =>
      have hinv := Program.inv_of_run top (hrun.mono fun _ _ _ h => h.1)
      exact (hstep.1.wholePages_iff hinv).mpr ⟨ih, hstep.2⟩

/-- The run of one `malloc` in a program with its static header at 4096 and the memory behind
it. -/
theorem malloc_step {nbytes : Nat} (asked : List Nat) (legal : nbytes ≤ 2 ^ 31 - 32768)
    (done : returnedWith (fun _ t => decide (t.sbrks = asked))
      ((malloc 4096 (fun _ => true) nbytes).run ⟨fun _ => 0, 0, 8192, []⟩) = true) :
    ∃ a, Run (Program.Step ⟨4096, 8192, by decide, by decide⟩ fun _ => true)
      ⟨⟨fun _ => 0, 0, 8192, []⟩, []⟩ [.malloc nbytes] a ∧ a.heap.sbrks = asked := by
  obtain ⟨p, t, hrun, ht⟩ := exists_of_returnedWith done
  exact ⟨_, Run.start.snoc (.malloc legal hrun), of_decide_eq_true ht⟩

/-- `malloc(100)` is small: it makes `morecore` ask for eight pages. -/
theorem sbrk_sizes_iff_onGrid_small :
    ∃ a, Run (fun c a b => Program.Step ⟨4096, 8192, by decide, by decide⟩ (fun _ => true) c a b ∧
        a.OnGrid c) ⟨⟨fun _ => 0, 0, 8192, []⟩, []⟩ [.malloc 100] a ∧ a.heap.sbrks = [32768] := by
  obtain ⟨a, hrun, hasked⟩ := malloc_step [32768] (by decide : 100 ≤ 2 ^ 31 - 32768)
    (by decide +kernel)
  refine ⟨a, (sbrk_sizes_iff_onGrid (by decide) hrun).mp ?_, hasked⟩
  rw [hasked]
  decide

/-- `malloc(40000)` makes `morecore` ask for 40008 bytes, which is no multiple of `PAGE`. -/
theorem malloc_asks_off_grid :
    ∃ a, Run (Program.Step ⟨4096, 8192, by decide, by decide⟩ fun _ => true)
        ⟨⟨fun _ => 0, 0, 8192, []⟩, []⟩ [.malloc 40000] a ∧
      ¬ ∀ n ∈ a.heap.sbrks, WholePages n := by
  obtain ⟨a, hrun, hasked⟩ := malloc_step [40008] (by decide : 40000 ≤ 2 ^ 31 - 32768)
    (by decide +kernel)
  refine ⟨a, hrun, ?_⟩
  rw [hasked]
  decide

end Umalloc

end Xv6
