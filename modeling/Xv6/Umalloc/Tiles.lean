/-
# The heap of a user program

Whatever sequence of calls a program makes, the free blocks and the blocks it holds tile the
memory that came from `sbrk`, and every call returns. Between the calls the program may write to
the memory it was given.
-/

import Xv6.Umalloc.Search
import Xv6.Math.Runs

namespace Xv6

open Math

namespace Umalloc

variable {image : Image} {grants : Nat → Bool} {s t u : Heap} {l m : List Span} {n : Nat}

/-! ### More memory -/

/-- The ring has grown by the memory that came from `sbrk`. -/
structure Grown (image : Image) (s u : Heap) (l m : List Span) : Prop where
  ring : Ring image u m
  freep : ∃ f ∈ m, u.freep = f.start
  brk : s.brk ≤ u.brk
  bytes : spanBytes m = spanBytes l ∪ Set.Ico s.brk u.brk
  same : ∀ x, ¬ (image.base ≤ x ∧ x < image.base + 8) → x ∉ spanBytes l →
    x ∉ Set.Ico s.brk u.brk → u.mem x = s.mem x

theorem Grown.refl (ring : Ring image s l) (freep : ∃ f ∈ l, s.freep = f.start) :
    Grown image s s l l :=
  ⟨ring, freep, le_rfl, by simp, fun _ _ _ _ => rfl⟩

theorem keeps_findPrev (bp fuel p : Nat) : Keeps Heap.sbrks (findPrev bp fuel p) := by
  induction fuel generalizing p with
  | zero => exact .throw _
  | succ fuel ih => exact .bind .get fun s => .ite (.pure _) (.ite (.pure _) (ih _))

theorem keeps_attach (h n : Nat) : Keeps Heap.sbrks (attach h n) :=
  .bind .get fun _ => .ite (.bind (.modify fun _ => rfl) fun _ => .modify fun _ => rfl)
    (.modify fun _ => rfl)

/-- `free` asks for no memory. -/
theorem keeps_free (ap : Nat) : Keeps Heap.sbrks (Umalloc.free ap) :=
  .bind .get fun _ => .bind (keeps_findPrev _ _ _) fun _ => .bind .get fun _ =>
    .bind (keeps_attach _ _) fun _ => .bind (keeps_attach _ _) fun _ => .modify fun _ => rfl

/-- The size that `morecore` asks `sbrk` for. -/
def morecoreSize (nu : Nat) : Nat := (if nu < PAGE then PAGE else nu) * HEADER % 2 ^ 32

/-- `morecore` fails, or the ring grows and has a block that is large enough. -/
theorem Ring.morecore (grants : Nat → Bool) (ring : Ring image s l)
    (freep : ∃ f ∈ l, s.freep = f.start) (small : n ≤ 2 ^ 28) :
    (Umalloc.morecore grants n).run s = .ok 0 { s with sbrks := morecoreSize n :: s.sbrks } ∨
    ∃ u m, (Umalloc.morecore grants n).run s = .ok u.freep u ∧ u.freep ≠ 0 ∧
      u.sbrks = morecoreSize n :: s.sbrks ∧ Grown image s u l m ∧ ∃ r ∈ m, 8 * n ≤ r.len := by
  set nu := if n < PAGE then PAGE else n with hnu
  have hpage : PAGE = 4096 := rfl
  have hle : n ≤ nu ∧ 4096 ≤ nu ∧ nu ≤ 2 ^ 28 := by
    rw [hnu]
    split <;> omega
  have hmod : nu * HEADER % 2 ^ 32 = 8 * nu := by
    unfold HEADER
    omega
  have hask : morecoreSize n = 8 * nu := hmod
  have hstart : (Umalloc.morecore grants n).run s = ((sbrk grants (8 * nu)) >>= fun p =>
      if p = 2 ^ 32 - 1 then pure 0
      else do
        modify fun s => s.setSize p nu
        Umalloc.free (advance p 1)
        let s ← get
        pure s.freep).run s := by
    rw [← hmod]
    rfl
  rw [hstart]
  by_cases hgrant : grants s.sbrks.length = true ∧ 8 * nu < 2 ^ 31 ∧ s.brk + 8 * nu < 2 ^ 32
  · right
    have hsbrk : (sbrk grants (8 * nu)).run s =
        .ok s.brk { s with brk := s.brk + 8 * nu, sbrks := 8 * nu :: s.sbrks } := by
      rw [sbrk, run_get_bind, run_ite, if_pos hgrant]
      rfl
    -- the new memory gets a header and is freed
    set v : Heap :=
      Heap.setSize { s with brk := s.brk + 8 * nu, sbrks := 8 * nu :: s.sbrks } s.brk nu with hv
    have hvbrk : v.brk = s.brk + 8 * nu := rfl
    have hsame (x : Nat) (h : x < s.brk ∨ s.brk + 8 ≤ x) : v.mem x = s.mem x :=
      Heap.setSize_of_apart (s := { s with brk := s.brk + 8 * nu, sbrks := 8 * nu :: s.sbrks }) h
    have hlow : ∀ r ∈ l, r.start + 8 ≤ s.brk := by
      intro r hr
      have hroom := image.room
      have hle := ring.start
      rcases ring.node r hr with rfl | h
      · change image.base + 8 ≤ s.brk
        omega
      · have := h.header
        have := h.upper
        unfold Span.stop at this
        omega
    have hring : Ring image v l := by
      refine ⟨ring.seg.congr fun r hr x hle hx => hsame x ?_, ring.head, ring.separated,
        fun r hr => (ring.node r hr).imp_right fun h => ⟨h.header, h.lower, ?_⟩, by omega, ?_⟩
      · have := hlow r hr
        omega
      · have := h.upper
        omega
      · have := ring.start
        omega
    have hholds : image.Holds v ⟨s.brk, 8 * nu⟩ := by
      refine ⟨by change 8 ≤ 8 * nu; omega, ring.start, ?_⟩
      rw [hvbrk]
      exact le_rfl
    have hlen : (⟨s.brk, 8 * nu⟩ : Span).len = 8 * v.size s.brk := by
      rw [hv, Heap.size_setSize (by omega)]
    have hapart : ∀ r ∈ l, (⟨s.brk, 8 * nu⟩ : Span).Apart r := by
      intro r hr
      right
      rcases ring.node r hr with rfl | h
      · have := hlow _ hr
        change image.base + 0 ≤ s.brk
        change image.base + 8 ≤ s.brk at this
        omega
      · exact h.upper
    obtain ⟨u, m, hfree, hring', hfreep, hbytes, ⟨r, hr, hlong⟩, hbrk, hframe⟩ :=
      hring.free freep hholds hlen hapart
    have hadvance : advance s.brk 1 = s.brk + 8 := by
      unfold advance HEADER
      omega
    have hico : (⟨s.brk, 8 * nu⟩ : Span).bytes = Set.Ico s.brk u.brk := by
      rw [hbrk, hvbrk]
      rfl
    have hsbrks : u.sbrks = v.sbrks := (keeps_free _).of_ok hfree
    rw [hask]
    refine ⟨u, m, ?_, ?_, hsbrks, ⟨hring', hfreep, ?_, ?_, fun x hbase hl hx => ?_⟩, r, hr, ?_⟩
    · rw [run_bind_of_ok hsbrk, run_ite, if_neg (by omega), run_modify_bind, hadvance,
        run_bind_of_ok hfree, run_get_bind]
      rfl
    · obtain ⟨f, hf, heq⟩ := hfreep
      have := hring'.base_le hf
      have := image.null
      omega
    · omega
    · rw [hbytes, hico, Set.union_comm]
    · rw [hframe x hbase (hico ▸ hx) hl, hsame x ?_]
      rw [Set.mem_Ico, hbrk, hvbrk] at hx
      omega
    · change 8 * nu ≤ r.len at hlong
      omega
  · left
    have hsbrk : (sbrk grants (8 * nu)).run s =
        .ok (2 ^ 32 - 1) { s with sbrks := 8 * nu :: s.sbrks } := by
      rw [sbrk, run_get_bind, run_ite, if_neg hgrant]
      rfl
    rw [hask]
    rw [run_bind_of_ok hsbrk, run_ite, if_pos rfl]
    rfl

/-- What a search for `n` units from the state `s` asks `sbrk` for: nothing if there is a block
that is large enough. -/
def Heap.Asks (s : Heap) (n : Nat) (asked : List Nat) : Prop :=
  s.Offers n ∧ asked = s.sbrks ∨ ¬ s.Offers n ∧ asked = morecoreSize n :: s.sbrks

/-- The loop of `malloc` returns: a block cut out of the ring, which may have grown before, or
the null pointer. -/
theorem Ring.mallocLoop (grants : Nat → Bool) (ring : Ring image s l)
    (freep : ∃ f ∈ l, s.freep = f.start) (some : 0 < n) (small : n ≤ 2 ^ 28) :
    (∃ asked, (mallocLoop grants n maxRounds s.freep (s.ptr s.freep)).run s =
        .ok 0 { s with sbrks := asked } ∧ s.Asks n asked) ∨
    ∃ b u t m l', (mallocLoop grants n maxRounds s.freep (s.ptr s.freep)).run s =
        .ok (b.start + 8) t ∧ b.len = 8 * n ∧ Grown image s u l m ∧ Took image u t m l' b ∧
        s.Asks n t.sbrks := by
  obtain ⟨f, hf, hfreep⟩ := id freep
  have hlength := ring.length_lt
  rw [hfreep]
  have hrounds : l.length < maxRounds := by
    unfold maxRounds
    omega
  rcases ring.search grants hf hfreep some hrounds with
    ⟨b, t, l', hrun, hlen, hlarge, hkept, htook⟩ | ⟨hshort, fuel', hfuel, hrun⟩
  · exact Or.inr ⟨b, s, t, l, l', hrun, hlen, Grown.refl ring freep, htook,
      .inl ⟨(ring.offers_iff freep).mpr hlarge, hkept⟩⟩
  · have hnone : ¬ s.Offers n := fun h => by
      obtain ⟨r, hr, henough⟩ := (ring.offers_iff freep).mp h
      exact absurd (hshort r hr) (not_lt.mpr henough)
    rw [hrun]
    rcases ring.morecore grants freep small with
      hfail | ⟨u, m, hmore, hne, hsbrks, hgrown, r, hr, hlong⟩
    · left
      refine ⟨_, ?_, .inr ⟨hnone, rfl⟩⟩
      rw [run_bind_of_ok hfail, run_ite, if_pos rfl, hfreep]
      rfl
    · right
      obtain ⟨g, hg, hgfreep⟩ := hgrown.freep
      have hlength' := hgrown.ring.length_lt
      rw [run_bind_of_ok hmore, run_ite, if_neg hne, run_get_bind, hgfreep]
      have hrounds' : m.length < fuel' := by
        unfold maxRounds at hfuel
        omega
      rcases hgrown.ring.search grants hg hgfreep some hrounds'
        with ⟨b, t, l', hrun', hlen, -, hkept, htook⟩ | ⟨hshort', -⟩
      · exact ⟨b, u, t, m, l', hrun', hlen, hgrown, htook, .inr ⟨hnone, hkept.trans hsbrks⟩⟩
      · exact absurd hlong (by have := hshort' r hr; omega)

/-! ### Programs -/

/-- What a program does with its heap: calls of the allocator, and writes to memory. -/
inductive HeapCall where
  | malloc (nbytes : Nat)
  | free (ap : Nat)
  | use (m : ByteMem)

/-- A heap with the blocks that the program holds. -/
structure Program where
  heap : Heap
  live : List Span

/-- A call that a program may make: `malloc` of a size that fits in an `int`,
`free` of a pointer that was returned and not freed, and writes that leave the static header and
the heap alone, except behind the headers of the blocks that the program holds. -/
def Program.Legal (image : Image) (a : Program) : HeapCall → Prop
  | .malloc nbytes => nbytes ≤ 2 ^ 31 - 32768
  | .free ap => ∃ r ∈ a.live, ap = r.start + 8
  | .use m => ∀ x, image.base ≤ x ∧ x < image.base + 8 ∨
      (image.lo ≤ x ∧ x < a.heap.brk ∧ ∀ r ∈ a.live, ¬ (r.start + 8 ≤ x ∧ x < r.stop)) →
      m x = a.heap.mem x

/-- The block of a pointer that `malloc` returned. -/
def Heap.block (s : Heap) (p : Nat) : Span := ⟨p - 8, 8 * s.size (p - 8)⟩

/-- A legal call that returns. -/
inductive Program.Step (image : Image) (grants : Nat → Bool) : HeapCall → Program → Program → Prop
  | malloc {a : Program} {nbytes p : Nat} {t : Heap} : a.Legal image (.malloc nbytes) →
      (Umalloc.malloc image.base grants nbytes).run a.heap = .ok p t →
      Step image grants (.malloc nbytes) a ⟨t, if p = 0 then a.live else t.block p :: a.live⟩
  | free {a : Program} {ap : Nat} {t : Heap} : a.Legal image (.free ap) →
      (Umalloc.free ap).run a.heap = .ok () t →
      Step image grants (.free ap) a ⟨t, a.live.filter fun r => r.start + 8 ≠ ap⟩
  | use {a : Program} {m : ByteMem} : a.Legal image (.use m) →
      Step image grants (.use m) a ⟨{ a.heap with mem := m }, a.live⟩

/-- The free blocks and the blocks of the program tile the memory. -/
structure Program.Tiles (image : Image) (a : Program) (l : List Span) : Prop where
  ring : Ring image a.heap l
  freep : ∃ f ∈ l, a.heap.freep = f.start
  holds : ∀ r ∈ a.live, image.Holds a.heap r ∧ r.len = 8 * a.heap.size r.start
  apart : a.live.Pairwise Span.Apart
  disjoint : Disjoint (spanBytes l) (spanBytes a.live)
  cover : spanBytes l ∪ spanBytes a.live = Set.Ico image.lo a.heap.brk

/-- Before the first call of `malloc` there is no list. -/
structure Program.Untouched (image : Image) (a : Program) : Prop where
  freep : a.heap.freep = 0
  live : a.live = []
  brk : a.heap.brk = image.lo
  top : a.heap.brk < 2 ^ 32

section Programs

variable {a : Program} {b : Span}

theorem unitsFor_bounds {nbytes : Nat} (small : nbytes ≤ 2 ^ 31 - 32768) :
    0 < unitsFor nbytes ∧ unitsFor nbytes ≤ 2 ^ 28 ∧ nbytes + 8 ≤ 8 * unitsFor nbytes := by
  unfold unitsFor HEADER
  omega

/-- The memory outside the ring, the static header and the new memory is left alone, so the
blocks of the program stay as they are. -/
theorem Program.Tiles.live_congr (tiles : a.Tiles image l) (brk : a.heap.brk ≤ t.brk)
    (same : ∀ x, ¬ (image.base ≤ x ∧ x < image.base + 8) → x ∉ spanBytes l →
      x ∉ Set.Ico a.heap.brk t.brk → t.mem x = a.heap.mem x) :
    ∀ r ∈ a.live, image.Holds t r ∧ r.len = 8 * t.size r.start := by
  intro r hr
  obtain ⟨hholds, hsize⟩ := tiles.holds r hr
  have hroom := image.room
  have hheader := hholds.header
  have hlower := hholds.lower
  have hupper := hholds.upper
  have hstop : r.stop = r.start + r.len := rfl
  refine ⟨⟨hheader, hlower, hupper.trans brk⟩, ?_⟩
  rw [Heap.size_congr fun x hle hx => same x (by omega) ?_ ?_]
  · exact hsize
  · exact Set.disjoint_right.mp tiles.disjoint ⟨r, hr, hle, by omega⟩
  · rintro ⟨h, -⟩
    omega

/-- What `malloc` returns is apart from every block of the program. -/
theorem Program.Tiles.apart_took (tiles : a.Tiles image l) {l' : List Span}
    (grown : Grown image a.heap u l m) (took : Took image u t m l' b) :
    Disjoint b.bytes (spanBytes a.live) := by
  refine Set.disjoint_left.mpr fun x hx hlive => ?_
  have hm := took.within hx
  rw [grown.bytes] at hm
  rcases hm with hl | hnew
  · exact Set.disjoint_left.mp tiles.disjoint hl hlive
  · have hcover : x ∈ Set.Ico image.lo a.heap.brk := tiles.cover ▸ Or.inr hlive
    exact absurd hcover.2 (not_lt.mpr hnew.1)

/-- Blocks without common bytes are apart. -/
theorem Span.Apart.of_disjoint {r q : Span} (hr : 0 < r.len) (hq : 0 < q.len)
    (h : Disjoint r.bytes q.bytes) : r.Apart q := by
  by_contra hnot
  unfold Span.Apart Span.stop at hnot
  have hr' : max r.start q.start ∈ r.bytes := by
    rw [Span.mem_bytes]
    omega
  have hq' : max r.start q.start ∈ q.bytes := by
    rw [Span.mem_bytes]
    omega
  exact Set.disjoint_left.mp h hr' hq'

/-- The program takes a block. -/
theorem Program.Tiles.took (tiles : a.Tiles image l) {l' : List Span}
    (grown : Grown image a.heap u l m) (took : Took image u t m l' b) :
    (⟨t, b :: a.live⟩ : Program).Tiles image l' := by
  have hbrk : a.heap.brk ≤ t.brk := by
    rw [took.brk]
    exact grown.brk
  have hsame : ∀ x, ¬ (image.base ≤ x ∧ x < image.base + 8) → x ∉ spanBytes l →
      x ∉ Set.Ico a.heap.brk t.brk → t.mem x = a.heap.mem x := by
    intro x hbase hl hnew
    rw [took.brk] at hnew
    have hm : x ∉ spanBytes m := by
      rw [grown.bytes]
      exact fun h => h.elim hl hnew
    rw [took.same x hbase hm, grown.same x hbase hl hnew]
  have hdisjoint := tiles.apart_took grown took
  refine ⟨took.ring, took.freep, ?_, ?_, ?_, ?_⟩
  · exact List.forall_mem_cons.mpr ⟨⟨took.holds, took.size⟩, tiles.live_congr hbrk hsame⟩
  · refine List.pairwise_cons.mpr ⟨fun r hr => ?_, tiles.apart⟩
    refine Span.Apart.of_disjoint (lt_of_lt_of_le (by decide) took.holds.header)
      (lt_of_lt_of_le (by decide) (tiles.holds r hr).1.header) ?_
    have hsub : r.bytes ⊆ spanBytes a.live := fun x hx => ⟨r, hr, hx⟩
    exact hdisjoint.mono_right hsub
  · rw [spanBytes_cons, took.rest, Set.disjoint_union_right]
    refine ⟨Set.disjoint_sdiff_left, ?_⟩
    refine Set.disjoint_left.mpr fun x hx hlive => ?_
    have hm := hx.1
    rw [grown.bytes] at hm
    rcases hm with hl | hnew
    · exact Set.disjoint_left.mp tiles.disjoint hl hlive
    · have hcover : x ∈ Set.Ico image.lo a.heap.brk := tiles.cover ▸ Or.inr hlive
      exact absurd hcover.2 (not_lt.mpr hnew.1)
  · rw [spanBytes_cons, took.rest, ← Set.union_assoc, Set.sdiff_union_of_subset took.within,
      grown.bytes, Set.union_right_comm, tiles.cover, took.brk]
    exact Set.Ico_union_Ico_eq_Ico tiles.ring.start grown.brk

/-- `malloc` sets the list up if there is none, and then searches it. -/
theorem malloc_start (grants : Nat → Bool) (inv : a.Untouched image ∨ ∃ l, a.Tiles image l)
    (nbytes : Nat) :
    ∃ v l, (malloc image.base grants nbytes).run a.heap =
        (mallocLoop grants (unitsFor nbytes) maxRounds v.freep (v.ptr v.freep)).run v ∧
      (⟨v, a.live⟩ : Program).Tiles image l ∧ v.sbrks = a.heap.sbrks ∧
      ∀ n, 0 < n → (v.Offers n ↔ a.heap.Offers n) := by
  rcases inv with fresh | ⟨l, tiles⟩
  · have hroom := image.room
    have htop := fresh.top
    have hbrk := fresh.brk
    set v : Heap := { (a.heap.setPtr image.base image.base).setSize image.base 0 with
      freep := image.base } with hv
    have hptr : v.ptr image.base = image.base := by
      change ((a.heap.setPtr image.base image.base).setSize image.base 0).ptr image.base = _
      rw [Heap.ptr_setSize, Heap.ptr_setPtr (by omega)]
    have hsize : v.size image.base = 0 :=
      Heap.size_setSize (s := a.heap.setPtr image.base image.base) (by decide)
    have hseg : v.Seg image.base [image.root] image.base := ⟨rfl, by rw [hsize]; rfl, hptr⟩
    have hempty : spanBytes [image.root] = ∅ := by
      rw [spanBytes_cons, spanBytes_nil, Set.union_empty]
      exact Set.Ico_self image.base
    have hring : Ring image v [image.root] :=
      ⟨hseg, rfl, List.pairwise_singleton _ _, fun r hr => Or.inl (List.mem_singleton.mp hr), htop,
        hbrk.ge⟩
    have hfreep : ∃ f ∈ [image.root], v.freep = f.start := ⟨_, List.mem_singleton_self _, rfl⟩
    refine ⟨v, [image.root], ?_, ⟨hring, hfreep, ?_, ?_, ?_, ?_⟩, rfl, fun n hn => ?_⟩
    · rw [malloc, run_get_bind]
      dsimp only
      rw [run_ite, if_pos fresh.freep, run_modify_bind, run_get_bind]
    · rw [fresh.live]
      exact fun r hr => nomatch hr
    · rw [fresh.live]
      exact List.Pairwise.nil
    · rw [hempty]
      exact Set.empty_disjoint _
    · rw [hempty, fresh.live, spanBytes_nil, Set.empty_union]
      change ∅ = Set.Ico image.lo a.heap.brk
      rw [hbrk, Set.Ico_self]
    · refine iff_of_false (fun h => ?_) fun h => h.1 fresh.freep
      obtain ⟨r, hr, henough⟩ := (hring.offers_iff hfreep).mp h
      rw [List.mem_singleton.mp hr] at henough
      change 8 * n ≤ 0 at henough
      omega
  · refine ⟨a.heap, l, ?_, tiles, rfl, fun _ _ => Iff.rfl⟩
    have hne : a.heap.freep ≠ 0 := by
      obtain ⟨f, hf, heq⟩ := tiles.freep
      have := tiles.ring.base_le hf
      have := image.null
      omega
    rw [malloc, run_get_bind]
    dsimp only
    rw [run_ite, if_neg hne, run_get_bind]

/-- Every legal `malloc` returns, and what it returns is a new block. -/
theorem malloc_run (grants : Nat → Bool) (inv : a.Untouched image ∨ ∃ l, a.Tiles image l)
    {nbytes : Nat}
    (small : nbytes ≤ 2 ^ 31 - 32768) :
    ∃ p t, (malloc image.base grants nbytes).run a.heap = .ok p t ∧
      (∃ l, (⟨t, if p = 0 then a.live else t.block p :: a.live⟩ : Program).Tiles image l) ∧
      a.heap.Asks (unitsFor nbytes) t.sbrks ∧
      (p ≠ 0 → nbytes + 8 ≤ (t.block p).len ∧ ∀ r ∈ a.live, (t.block p).Apart r) := by
  obtain ⟨v, l, hstart, tiles, hsbrks, hoffers⟩ := malloc_start grants inv nbytes
  obtain ⟨hpos, hsmall, hunits⟩ := unitsFor_bounds small
  have hasks {asked : List Nat} (h : v.Asks (unitsFor nbytes) asked) :
      a.heap.Asks (unitsFor nbytes) asked := by
    unfold Heap.Asks at h
    rw [hsbrks, hoffers _ hpos] at h
    exact h
  rw [hstart]
  rcases tiles.ring.mallocLoop grants tiles.freep hpos hsmall with
    ⟨asked, hnull, hasked⟩ | ⟨b, u, t, m, l', hrun, hlen, hgrown, htook, hasked⟩
  · refine ⟨0, _, hnull, ⟨l, ?_⟩, hasks hasked, fun h => absurd rfl h⟩
    rw [if_pos rfl]
    exact ⟨⟨tiles.ring.seg.congr fun _ _ _ _ _ => rfl, tiles.ring.head, tiles.ring.separated,
      fun r hr => (tiles.ring.node r hr).imp_right fun h => h.congr rfl, tiles.ring.top,
      tiles.ring.start⟩, tiles.freep, fun r hr => ⟨(tiles.holds r hr).1.congr rfl,
      (tiles.holds r hr).2⟩, tiles.apart, tiles.disjoint, tiles.cover⟩
  · have hblock : t.block (b.start + 8) = b := by
      unfold Heap.block
      rw [Nat.add_sub_cancel, ← htook.size]
    have htiles := tiles.took hgrown htook
    refine ⟨b.start + 8, t, hrun, ⟨l', ?_⟩, hasks hasked, fun _ => ?_⟩
    · rw [if_neg (Nat.succ_ne_zero _), hblock]
      exact htiles
    · rw [hblock]
      exact ⟨by omega, (List.pairwise_cons.mp htiles.apart).1⟩

/-- Every legal `free` returns and gives the block back. -/
theorem free_run (tiles : a.Tiles image l) {r : Span} (hr : r ∈ a.live) :
    ∃ t l', (free (r.start + 8)).run a.heap = .ok () t ∧
      (⟨t, a.live.filter fun q => q.start + 8 ≠ r.start + 8⟩ : Program).Tiles image l' := by
  obtain ⟨hholds, hsize⟩ := tiles.holds r hr
  have hapart : ∀ q ∈ l, r.Apart q := by
    intro q hq
    rcases tiles.ring.node q hq with rfl | h
    · right
      have hroom := image.room
      have := hholds.lower
      change image.base + 0 ≤ r.start
      omega
    · refine Span.Apart.of_disjoint (lt_of_lt_of_le (by decide) hholds.header)
        (lt_of_lt_of_le (by decide) h.header) ?_
      have hsub : q.bytes ⊆ spanBytes l := fun x hx => ⟨q, hq, hx⟩
      have hsub' : r.bytes ⊆ spanBytes a.live := fun x hx => ⟨r, hr, hx⟩
      exact (tiles.disjoint.mono hsub hsub').symm
  obtain ⟨t, l', hrun, hring, hfreep, hbytes, -, hbrk, hframe⟩ :=
    tiles.ring.free tiles.freep hholds hsize hapart
  set rest := a.live.filter fun q => q.start + 8 ≠ r.start + 8 with hrest
  have hmem {q : Span} : q ∈ rest ↔ q ∈ a.live ∧ q.start ≠ r.start := by
    rw [hrest, List.mem_filter]
    simp
  -- the other blocks have no byte of the block that is freed
  have hsymm : Std.Symm Span.Apart := ⟨fun _ _ h => h.symm⟩
  have hother {q : Span} (hq : q ∈ rest) : Disjoint q.bytes r.bytes := by
    obtain ⟨hlive, hne⟩ := hmem.mp hq
    have h := tiles.apart.forall hlive hr fun h => hne (h ▸ rfl)
    refine Set.disjoint_left.mpr fun x hx hx' => ?_
    rw [Span.mem_bytes] at hx hx'
    unfold Span.Apart Span.stop at h
    omega
  have hsplit : spanBytes a.live = r.bytes ∪ spanBytes rest := by
    ext x
    constructor
    · rintro ⟨q, hq, hx⟩
      by_cases hne : q.start = r.start
      · left
        by_cases heq : q = r
        · exact heq ▸ hx
        · have h := tiles.apart.forall hq hr heq
          have h₁ := (tiles.holds q hq).1.header
          have h₂ := hholds.header
          unfold Span.Apart Span.stop at h
          omega
      · exact Or.inr ⟨q, hmem.mpr ⟨hq, hne⟩, hx⟩
    · rintro (hx | ⟨q, hq, hx⟩)
      · exact ⟨r, hr, hx⟩
      · exact ⟨q, (hmem.mp hq).1, hx⟩
  refine ⟨t, l', hrun, hring, hfreep, fun q hq => ?_, tiles.apart.filter _, ?_, ?_⟩
  · obtain ⟨hlive, hne⟩ := hmem.mp hq
    obtain ⟨hqholds, hqsize⟩ := tiles.holds q hlive
    have hroom := image.room
    have hheader := hqholds.header
    have hlower := hqholds.lower
    refine ⟨hqholds.congr hbrk, ?_⟩
    rw [Heap.size_congr fun x hle hx => hframe x (by omega) ?_ ?_]
    · exact hqsize
    · exact Set.disjoint_left.mp (hother hq) ⟨hle, by unfold Span.stop; omega⟩
    · exact Set.disjoint_right.mp tiles.disjoint ⟨q, hlive, hle, by unfold Span.stop; omega⟩
  · rw [hbytes, Set.disjoint_union_left]
    constructor
    · refine Set.disjoint_right.mpr ?_
      rintro x ⟨q, hq, hx⟩
      exact Set.disjoint_left.mp (hother hq) hx
    · have hdisjoint := tiles.disjoint
      rw [hsplit] at hdisjoint
      exact (Set.disjoint_union_right.mp hdisjoint).2
  · rw [hbytes, Set.union_right_comm, Set.union_comm, ← hsplit, tiles.cover, hbrk]

/-- What the program writes does not touch the list. -/
theorem use_tiles (tiles : a.Tiles image l) {m : ByteMem} (legal : a.Legal image (.use m)) :
    (⟨{ a.heap with mem := m }, a.live⟩ : Program).Tiles image l := by
  have hkeep (x : Nat) (h : image.base ≤ x ∧ x < image.base + 8 ∨ x ∈ spanBytes l) :
      m x = a.heap.mem x := by
    refine legal x (h.imp_right fun hx => ?_)
    have hcover : x ∈ Set.Ico image.lo a.heap.brk := tiles.cover ▸ Or.inl hx
    refine ⟨hcover.1, hcover.2, fun r hr hin => ?_⟩
    exact Set.disjoint_left.mp tiles.disjoint hx ⟨r, hr, by omega, hin.2⟩
  have hheader {r : Span} (hr : r ∈ l) (x : Nat) (hle : r.start ≤ x) (hx : x < r.start + 8) :
      m x = a.heap.mem x := by
    refine hkeep x ?_
    rcases tiles.ring.node r hr with rfl | h
    · exact Or.inl ⟨hle, hx⟩
    · have := h.header
      exact Or.inr ⟨r, hr, hle, by unfold Span.stop; omega⟩
  refine ⟨⟨tiles.ring.seg.congr fun r hr => hheader hr, tiles.ring.head, tiles.ring.separated,
    fun r hr => (tiles.ring.node r hr).imp_right fun h => h.congr rfl, tiles.ring.top,
    tiles.ring.start⟩, tiles.freep, fun r hr => ?_, tiles.apart, tiles.disjoint, tiles.cover⟩
  obtain ⟨hholds, hsize⟩ := tiles.holds r hr
  refine ⟨hholds.congr rfl, ?_⟩
  have hlower := hholds.lower
  have hupper := hholds.upper
  have hlen := hholds.header
  have hstop : r.stop = r.start + r.len := rfl
  -- the header of a block is not behind a header
  have hown : ∀ x, r.start ≤ x → x < r.start + 8 → m x = a.heap.mem x := by
    intro x hle hx
    refine legal x (Or.inr ⟨by omega, by omega, fun q hq hin => ?_⟩)
    have hsymm : Std.Symm Span.Apart := ⟨fun _ _ h => h.symm⟩
    by_cases heq : q = r
    · subst heq
      omega
    · have h := tiles.apart.forall hq hr heq
      unfold Span.Apart Span.stop at *
      omega
  have hcongr : (⟨m, a.heap.freep, a.heap.brk, a.heap.sbrks⟩ : Heap).size r.start =
      a.heap.size r.start := Heap.size_congr hown
  rw [hcongr]
  exact hsize

theorem Program.Step.inv {a b : Program} {c : HeapCall}
    (inv : a.Untouched image ∨ ∃ l, a.Tiles image l) (step : Program.Step image grants c a b) :
    b.Untouched image ∨ ∃ l, b.Tiles image l := by
  cases step with
  | malloc legal run =>
    obtain ⟨p, t, hrun, htiles, -⟩ := malloc_run grants inv legal
    rw [hrun] at run
    cases run
    exact Or.inr htiles
  | free legal run =>
    obtain ⟨r, hr, rfl⟩ := legal
    rcases inv with fresh | ⟨l, tiles⟩
    · rw [fresh.live] at hr
      cases hr
    · obtain ⟨t, l', hrun, htiles⟩ := free_run tiles hr
      rw [hrun] at run
      cases run
      exact Or.inr ⟨l', htiles⟩
  | use legal =>
    rcases inv with fresh | ⟨l, tiles⟩
    · exact Or.inl ⟨fresh.freep, fresh.live, fresh.brk, fresh.top⟩
    · exact Or.inr ⟨l, use_tiles tiles legal⟩

theorem Program.inv_of_run {m : ByteMem} {calls : List HeapCall} (top : image.lo < 2 ^ 32)
    (run : Run (Program.Step image grants) ⟨⟨m, 0, image.lo, []⟩, []⟩ calls a) :
    a.Untouched image ∨ ∃ l, a.Tiles image l :=
  run.invariant (motive := fun _ b => b.Untouched image ∨ ∃ l, b.Tiles image l)
    (Or.inl ⟨rfl, rfl, rfl, top⟩) fun _ _ _ _ inv step => step.inv inv

/-- Walking along the ring, the address goes down once. -/
theorem Ring.one_descent (ring : Ring image s l) :
    ∃! x, x ∈ l.map Span.start ∧ s.ptr x ≤ x := by
  obtain ⟨xs, z, rfl⟩ : ∃ xs z, l = xs ++ [z] := by
    rcases List.eq_nil_or_concat l with rfl | ⟨xs, z, rfl⟩
    · cases ring.head
    · exact ⟨xs, z, List.concat_eq_append⟩
  refine ⟨z.start, ⟨List.mem_map.mpr ⟨z, List.mem_append_right _ List.mem_cons_self, rfl⟩, ?_⟩, ?_⟩
  · rw [ring.seg.ptr_eq]
    exact ring.base_le (List.mem_append_right _ List.mem_cons_self)
  · rintro _ ⟨hmem, hdown⟩
    obtain ⟨r, hr, rfl⟩ := List.mem_map.mp hmem
    rcases List.mem_append.mp hr with hr | hr
    · -- every other node is followed by one with a higher address
      obtain ⟨us, vs, rfl⟩ := List.append_of_mem hr
      have hseg := ring.seg
      have hsorted := ring.sorted
      rw [List.append_assoc, List.cons_append] at hseg hsorted
      rw [hseg.ptr_eq] at hdown
      have hbehind := (List.pairwise_cons.mp (List.pairwise_append.mp hsorted).2.1).1
      cases vs with
      | nil => exact absurd (hbehind z List.mem_cons_self) (not_lt.mpr hdown)
      | cons v vs => exact absurd (hbehind v List.mem_cons_self) (not_lt.mpr hdown)
    · rw [List.mem_singleton.mp hr]

end Programs

/-- The heap of a program, with any answers of `sbrk`. After any sequence of legal calls the free
list is a ring through `base`, sorted by address with one descent, its blocks do not touch, and
free blocks and blocks of the program tile the memory from `sbrk`. Every legal `malloc` returns,
and a pointer it returns has a block of at least `nbytes` bytes behind its header, apart from all
blocks of the program. Every legal `free` returns. -/
theorem umalloc_tiles {image : Image} {grants : Nat → Bool} {m : ByteMem} {calls : List HeapCall}
    {a : Program} (top : image.lo < 2 ^ 32)
    (run : Run (Program.Step image grants) ⟨⟨m, 0, image.lo, []⟩, []⟩ calls a) :
    (a.Untouched image ∨
      ∃ l, a.Tiles image l ∧ ∃! x, x ∈ l.map Span.start ∧ a.heap.ptr x ≤ x) ∧
    (∀ nbytes, a.Legal image (.malloc nbytes) →
      ∃ p t, (malloc image.base grants nbytes).run a.heap = .ok p t ∧
        (p ≠ 0 → nbytes + 8 ≤ (t.block p).len ∧ ∀ r ∈ a.live, (t.block p).Apart r)) ∧
    ∀ ap, a.Legal image (.free ap) → ∃ t, (free ap).run a.heap = .ok () t := by
  have hinv := Program.inv_of_run top run
  refine ⟨hinv.imp_right fun ⟨l, tiles⟩ => ⟨l, tiles, tiles.ring.one_descent⟩,
    fun nbytes legal => ?_, fun ap legal => ?_⟩
  · obtain ⟨p, t, hrun, -, -, hblock⟩ := malloc_run grants hinv legal
    exact ⟨p, t, hrun, hblock⟩
  · obtain ⟨r, hr, rfl⟩ := legal
    rcases hinv with fresh | ⟨l, tiles⟩
    · rw [fresh.live] at hr
      cases hr
    · obtain ⟨t, -, hrun, -⟩ := free_run tiles hr
      exact ⟨t, hrun⟩

/-- A program has its static header at 4096 and the memory behind it. After `malloc(100)`,
`malloc(200)` and `free` of the first block it holds the second one, and there are two free blocks
beside `base`. -/
theorem umalloc_tiles_free :
    ∃ a, Run (Program.Step ⟨4096, 8192, by decide, by decide⟩ fun _ => true)
        ⟨⟨fun _ => 0, 0, 8192, []⟩, []⟩ [.malloc 100, .malloc 200, .free 40856] a ∧
      a.live = [⟨40640, 208⟩] ∧ a.heap.ptr 8192 = 40848 ∧
      ∃ l, a.Tiles ⟨4096, 8192, by decide, by decide⟩ l := by
  set image : Image := ⟨4096, 8192, by decide, by decide⟩ with himage
  have hreturns : returnedWith (fun p t => decide (p = 40856 ∧ t.size 40848 = 14) &&
      returnedWith (fun q u => decide (q = 40648 ∧ u.size 40640 = 26) &&
        returnedWith (fun _ v => decide (v.ptr 8192 = 40848)) ((free 40856).run u))
        ((malloc 4096 (fun _ => true) 200).run t))
      ((malloc 4096 (fun _ => true) 100).run ⟨fun _ => 0, 0, 8192, []⟩) = true := by
    decide +kernel
  obtain ⟨p, t, hfirst, hreturns⟩ := exists_of_returnedWith hreturns
  obtain ⟨hp, hreturns⟩ := Bool.and_eq_true_iff.mp hreturns
  obtain ⟨q, u, hsecond, hreturns⟩ := exists_of_returnedWith hreturns
  obtain ⟨hq, hreturns⟩ := Bool.and_eq_true_iff.mp hreturns
  obtain ⟨_, v, hfree, hv⟩ := exists_of_returnedWith hreturns
  obtain ⟨rfl, ht⟩ := of_decide_eq_true hp
  obtain ⟨rfl, hu⟩ := of_decide_eq_true hq
  have hblock (w : Heap) (start units : Nat) (hsize : w.size start = units) :
      w.block (start + 8) = ⟨start, 8 * units⟩ := by
    rw [← hsize]
    rfl
  have hsteps : Run (Program.Step image fun _ => true) ⟨⟨fun _ => 0, 0, 8192, []⟩, []⟩
      [.malloc 100, .malloc 200, .free 40856] ⟨v, [⟨40640, 208⟩]⟩ := by
    have h₁ : Program.Step image (fun _ => true) (.malloc 100) ⟨⟨fun _ => 0, 0, 8192, []⟩, []⟩
        ⟨t, if 40856 = 0 then [] else [t.block 40856]⟩ :=
      .malloc (show 100 ≤ 2 ^ 31 - 32768 by decide) hfirst
    rw [if_neg (by decide), hblock t 40848 14 ht] at h₁
    have h₂ : Program.Step image (fun _ => true) (.malloc 200) ⟨t, [⟨40848, 112⟩]⟩
        ⟨u, if 40648 = 0 then [⟨40848, 112⟩] else [u.block 40648, ⟨40848, 112⟩]⟩ :=
      .malloc (show 200 ≤ 2 ^ 31 - 32768 by decide) hsecond
    rw [if_neg (by decide), hblock u 40640 26 hu] at h₂
    have h₃ : Program.Step image (fun _ => true) (.free 40856)
        ⟨u, [⟨40640, 208⟩, ⟨40848, 112⟩]⟩ ⟨v, [⟨40640, 208⟩]⟩ :=
      .free ⟨⟨40848, 112⟩, List.mem_cons_of_mem _ List.mem_cons_self, rfl⟩ hfree
    exact ((Run.start.snoc h₁).snoc h₂).snoc h₃
  refine ⟨_, hsteps, rfl, of_decide_eq_true hv, ?_⟩
  rcases (umalloc_tiles (by decide) hsteps).1 with fresh | ⟨l, tiles, -⟩
  · cases fresh.live
  · exact ⟨l, tiles⟩

end Umalloc

end Xv6
