/-
# The ring of free blocks

Seen as a list of spans that starts with the static header `base`, the free list is sorted and
separated, and the last block leads back to `base`. `free` finds the place of a block from any
node of the ring and joins it with its neighbours; `malloc` meets every node once.
-/

import Xv6.Umalloc.Model
import Xv6.Math.Spans

namespace Xv6

open Math

namespace Umalloc

namespace Heap

/-! ### The fields of a header -/

section Fields

variable {s t : Heap} {a b n x : Nat}

theorem ptr_congr (same : ∀ x, a ≤ x → x < a + 8 → t.mem x = s.mem x) : t.ptr a = s.ptr a :=
  ByteMem.load32_congr fun x hle hlt => same x hle (by omega)

theorem size_congr (same : ∀ x, a ≤ x → x < a + 8 → t.mem x = s.mem x) : t.size a = s.size a :=
  ByteMem.load32_congr fun x hle hlt => same x (by omega) (by omega)

theorem setPtr_of_apart (apart : x < a ∨ a + 8 ≤ x) : (s.setPtr a b).mem x = s.mem x :=
  ByteMem.store32_of_apart (by omega)

theorem setSize_of_apart (apart : x < a ∨ a + 8 ≤ x) : (s.setSize a n).mem x = s.mem x :=
  ByteMem.store32_of_apart (by omega)

theorem ptr_setPtr (small : b < 2 ^ 32) : (s.setPtr a b).ptr a = b :=
  ByteMem.load32_store32_self _ _ small

theorem size_setPtr : (s.setPtr a b).size a = s.size a :=
  ByteMem.load32_store32_of_apart (by omega)

theorem size_setSize (small : n < 2 ^ 32) : (s.setSize a n).size a = n := by
  unfold size setSize
  rw [Nat.mod_eq_of_lt small]
  exact ByteMem.load32_store32_self _ _ small

theorem ptr_setSize : (s.setSize a n).ptr a = s.ptr a :=
  ByteMem.load32_store32_of_apart (by omega)

theorem ptr_setSize_of_apart (apart : a + 8 ≤ b ∨ b + 8 ≤ a) :
    (s.setSize b n).ptr a = s.ptr a :=
  ptr_congr fun _ _ _ => setSize_of_apart (by omega)

theorem size_setSize_of_apart (apart : a + 8 ≤ b ∨ b + 8 ≤ a) :
    (s.setSize b n).size a = s.size a :=
  size_congr fun _ _ _ => setSize_of_apart (by omega)

theorem ptr_lt (s : Heap) (a : Nat) : s.ptr a < 2 ^ 32 := ByteMem.load32_lt _ _

end Fields

/-- From the pointer `a` on, the blocks of the list are the spans `l`, and the last one leads
to `e`. -/
def Seg (s : Heap) : Nat → List Span → Nat → Prop
  | a, [], e => a = e
  | a, r :: rs, e => a = r.start ∧ r.len = 8 * s.size a ∧ s.Seg (s.ptr a) rs e

namespace Seg

variable {s t : Heap} {a e m : Nat} {l l' : List Span} {r : Span}

theorem append : s.Seg a (l ++ l') e ↔ ∃ m, s.Seg a l m ∧ s.Seg m l' e := by
  induction l generalizing a with
  | nil => exact ⟨fun h => ⟨a, rfl, h⟩, fun ⟨m, h, h'⟩ => by rw [show a = m from h]; exact h'⟩
  | cons r l ih =>
    constructor
    · rintro ⟨ha, hlen, hrest⟩
      obtain ⟨m, h, h'⟩ := ih.mp hrest
      exact ⟨m, ⟨ha, hlen, h⟩, h'⟩
    · rintro ⟨m, ⟨ha, hlen, h⟩, h'⟩
      exact ⟨ha, hlen, ih.mpr ⟨m, h, h'⟩⟩

/-- A list of blocks only depends on their headers. -/
theorem congr (seg : s.Seg a l e)
    (same : ∀ r ∈ l, ∀ x, r.start ≤ x → x < r.start + 8 → t.mem x = s.mem x) : t.Seg a l e := by
  induction l generalizing a with
  | nil => exact seg
  | cons r l ih =>
    obtain ⟨rfl, hlen, hrest⟩ := seg
    obtain ⟨hr, hl⟩ := List.forall_mem_cons.mp same
    refine ⟨rfl, by rw [size_congr hr]; exact hlen, ?_⟩
    rw [ptr_congr hr]
    exact ih hrest hl

/-- A ring can be entered anywhere. -/
theorem rotate (seg : s.Seg a (l ++ r :: l') a) : s.Seg r.start (r :: l' ++ l) r.start := by
  obtain ⟨m, hl, hr⟩ := append.mp seg
  obtain rfl : m = r.start := hr.1
  exact append.mpr ⟨a, hr, hl⟩

theorem start_eq (seg : s.Seg a l e) : a = (l.head?.map Span.start).getD e := by
  cases l with
  | nil => exact seg
  | cons r l => exact seg.1

theorem size_eq (seg : s.Seg a l e) (mem : r ∈ l) : r.len = 8 * s.size r.start := by
  induction l generalizing a with
  | nil => cases mem
  | cons q l ih =>
    obtain ⟨rfl, hlen, hrest⟩ := seg
    rcases List.mem_cons.mp mem with rfl | mem
    · exact hlen
    · exact ih hrest mem

/-- The pointers lead from node to node. -/
theorem iterate_eq (seg : s.Seg a (l ++ r :: l') e) : s.ptr^[l.length] a = r.start := by
  induction l generalizing a with
  | nil => exact seg.1
  | cons q l ih =>
    obtain ⟨rfl, -, hrest⟩ := seg
    rw [List.length_cons, Function.iterate_succ_apply]
    exact ih hrest

/-- The successor of a node. -/
theorem ptr_eq (seg : s.Seg a (l ++ r :: l') e) :
    s.ptr r.start = (l'.head?.map Span.start).getD e := by
  obtain ⟨m, -, hr⟩ := append.mp seg
  obtain rfl : m = r.start := hr.1
  exact hr.2.2.start_eq

end Seg

end Heap

/-! ### Joining blocks -/

section Attach

variable {s : Heap} {r : Span} {l : List Span} {n e : Nat}

/-- `attach` puts a block in front of a list, joined with the first block if they touch. Only
its header changes. -/
theorem attach_run (seg : s.Seg n l e) (len : r.len = 8 * s.size r.start) (top : r.stop < 2 ^ 32)
    (ends : e < 2 ^ 32) (tops : ∀ q ∈ l, q.stop < 2 ^ 32) (behind : ∀ q ∈ l, r.start + 8 ≤ q.start)
    (last : l = [] → r.stop ≠ e) :
    ∃ t, (attach r.start n).run s = .ok () t ∧ t.Seg r.start (joinNext r l) e ∧
      (∀ x, x < r.start ∨ r.start + 8 ≤ x → t.mem x = s.mem x) ∧
      t.freep = s.freep ∧ t.brk = s.brk ∧ t.sbrks = s.sbrks := by
  have hadvance : advance r.start (s.size r.start) = r.stop := by
    unfold advance HEADER
    rw [Nat.mul_comm, ← len]
    exact Nat.mod_eq_of_lt top
  have hframe (b : Nat) : ∀ x, x < r.start ∨ r.start + 8 ≤ x →
      (s.setPtr r.start b).mem x = s.mem x := fun x hx => Heap.setPtr_of_apart hx
  rw [attach, run_get_bind, run_ite, hadvance]
  cases l with
  | nil =>
    have hn : n = e := seg
    rw [if_neg (hn ▸ last rfl)]
    refine ⟨_, rfl, ⟨rfl, ?_, ?_⟩, hframe n, rfl, rfl, rfl⟩
    · rw [Heap.size_setPtr]
      exact len
    · rw [Heap.ptr_setPtr (by omega)]
      exact hn
  | cons q l =>
    obtain ⟨hn, hqlen, hrest⟩ := id seg
    have hq := behind q List.mem_cons_self
    have hqtop := tops q List.mem_cons_self
    have hqstop : q.stop = q.start + q.len := rfl
    have hrstop : r.stop = r.start + r.len := rfl
    rw [joinNext]
    by_cases htouch : r.stop = q.start
    · -- the block grows by its neighbour and skips it
      rw [if_pos (by omega), if_pos htouch]
      set u := s.setSize r.start (s.size r.start + s.size n) with hu
      have hsize : u.size r.start = s.size r.start + s.size n :=
        Heap.size_setSize (by rw [hn] at hqlen ⊢; omega)
      have hptr : u.ptr n = s.ptr n := Heap.ptr_setSize_of_apart (by omega)
      refine ⟨u.setPtr r.start (u.ptr n), rfl, ⟨rfl, ?_, ?_⟩, fun x hx => ?_, rfl, rfl, rfl⟩
      · rw [Heap.size_setPtr, hsize]
        change r.len + q.len = _
        rw [hn] at hqlen ⊢
        omega
      · rw [Heap.ptr_setPtr (Heap.ptr_lt _ _), hptr]
        refine hrest.congr fun p hp x hle _ => ?_
        have hbehind := behind p (List.mem_cons_of_mem _ hp)
        rw [Heap.setPtr_of_apart (by omega), Heap.setSize_of_apart (by omega)]
      · rw [Heap.setPtr_of_apart hx, Heap.setSize_of_apart hx]
    · rw [if_neg (by rw [hn]; exact htouch), if_neg htouch]
      refine ⟨_, rfl, ⟨rfl, ?_, ?_⟩, hframe n, rfl, rfl, rfl⟩
      · rw [Heap.size_setPtr]
        exact len
      · rw [Heap.ptr_setPtr (by omega)]
        refine seg.congr fun p hp x hle _ => Heap.setPtr_of_apart ?_
        have hbehind := behind p hp
        omega

end Attach

/-! ### The ring -/

/-- Where the program has its static header, and where the memory from `sbrk` starts. -/
structure Image where
  base : Nat
  lo : Nat
  null : 0 < base
  room : base + 8 ≤ lo

/-- The static header, a block without units. -/
def Image.root (image : Image) : Span := ⟨image.base, 0⟩

/-- A block in the memory from `sbrk`. -/
structure Image.Holds (image : Image) (s : Heap) (r : Span) : Prop where
  header : 8 ≤ r.len
  lower : image.lo ≤ r.start
  upper : r.stop ≤ s.brk

/-- The free list is a ring through the static header, sorted by address, and no two blocks
touch. -/
structure Ring (image : Image) (s : Heap) (l : List Span) : Prop where
  seg : s.Seg image.base l image.base
  head : l.head? = some image.root
  separated : Separated l
  node : ∀ r ∈ l, r = image.root ∨ image.Holds s r
  top : s.brk < 2 ^ 32
  start : image.lo ≤ s.brk

section Nodes

variable {image : Image} {s t : Heap} {l l' : List Span} {r q : Span}

theorem Ring.root_mem (ring : Ring image s l) : image.root ∈ l := by
  cases l with
  | nil => cases ring.head
  | cons r l =>
    cases ring.head
    exact List.mem_cons_self

theorem Ring.stop_lt (ring : Ring image s l) (mem : r ∈ l) : r.stop < 2 ^ 32 := by
  have htop := ring.top
  have hstart := ring.start
  have hroom := image.room
  rcases ring.node r mem with rfl | holds
  · unfold Image.root Span.stop
    dsimp only
    omega
  · exact lt_of_le_of_lt holds.upper htop

theorem Ring.base_le (ring : Ring image s l) (mem : r ∈ l) : image.base ≤ r.start := by
  have hroom := image.room
  rcases ring.node r mem with rfl | holds
  · exact le_rfl
  · have := holds.lower
    omega

/-- The headers of the ring do not overlap. -/
theorem Ring.spaced (ring : Ring image s l) : l.Pairwise fun r q => r.start + 8 ≤ q.start := by
  refine List.Pairwise.imp_of_mem ?_ ring.separated
  intro r q hr hq hgap
  have hroom := image.room
  rcases ring.node r hr with rfl | holds
  · rcases ring.node q hq with rfl | holds'
    · exact absurd hgap (lt_irrefl _)
    · have := holds'.lower
      change image.base + 8 ≤ q.start
      omega
  · have := holds.header
    unfold Span.stop at hgap
    omega

theorem Ring.sorted (ring : Ring image s l) : l.Pairwise fun r q => r.start < q.start :=
  ring.spaced.imp fun h => lt_of_lt_of_le (by omega) h

/-- The place of a new block: in front of it is a node, and behind it the rest of the list. -/
theorem exists_place {l : List Span} (sorted : l.Pairwise fun r q => r.start < q.start) {a : Nat}
    (first : ∃ r ∈ l, r.start < a) :
    ∃ xs p ys, l = xs ++ p :: ys ∧ p.start < a ∧ ∀ y ∈ ys, a ≤ y.start := by
  induction l with
  | nil =>
    obtain ⟨r, hr, -⟩ := first
    cases hr
  | cons r l ih =>
    obtain ⟨hr, hl⟩ := List.pairwise_cons.mp sorted
    by_cases hmore : ∃ q ∈ l, q.start < a
    · obtain ⟨xs, p, ys, rfl, hp⟩ := ih hl hmore
      exact ⟨r :: xs, p, ys, rfl, hp⟩
    · refine ⟨[], r, l, rfl, ?_, fun y hy => ?_⟩
      · obtain ⟨q, hq, hlt⟩ := first
        rcases List.mem_cons.mp hq with rfl | hq
        · exact hlt
        · exact absurd ⟨q, hq, hlt⟩ hmore
      · by_contra hlt
        exact hmore ⟨y, hy, by omega⟩

theorem Ring.place (ring : Ring image s l) (holds : image.Holds s q)
    (apart : ∀ r ∈ l, q.Apart r) :
    ∃ xs p ys, l = xs ++ p :: ys ∧ p.start < q.start ∧ p.stop ≤ q.start ∧
      ∀ y ∈ ys, q.stop ≤ y.start := by
  have hlower := holds.lower
  have hheader := holds.header
  have hroom := image.room
  obtain ⟨xs, p, ys, rfl, hp, hys⟩ := exists_place ring.sorted (a := q.start)
    ⟨image.root, ring.root_mem, by change image.base < q.start; omega⟩
  refine ⟨xs, p, ys, rfl, hp, ?_, fun y hy => ?_⟩
  · have hpq := apart p (List.mem_append_right _ List.mem_cons_self)
    unfold Span.Apart Span.stop at *
    omega
  · have hyq := apart y (List.mem_append_right _ (List.mem_cons_of_mem _ hy))
    have hle := hys y hy
    rcases ring.node y (List.mem_append_right _ (List.mem_cons_of_mem _ hy)) with rfl | hy'
    · change q.start ≤ image.base at hle
      omega
    · have := hy'.header
      unfold Span.Apart Span.stop at *
      omega

/-- The loop of `free` walks over nodes behind which the block does not belong. -/
theorem findPrev_walk {a b e : Nat} {zs : List Span} (seg : s.Seg a zs e)
    (pass : ∀ z ∈ zs, ¬ (b > z.start ∧ b < s.ptr z.start) ∧
      ¬ (z.start ≥ s.ptr z.start ∧ (b > z.start ∨ b < s.ptr z.start))) (fuel : Nat) :
    (findPrev b (fuel + zs.length) a).run s = (findPrev b fuel e).run s := by
  induction zs generalizing a with
  | nil => rw [show a = e from seg]; rfl
  | cons z zs ih =>
    obtain ⟨rfl, -, hrest⟩ := seg
    obtain ⟨hz, hzs⟩ := List.forall_mem_cons.mp pass
    rw [List.length_cons, ← Nat.add_assoc, findPrev, run_get_bind, run_ite, if_neg hz.1, run_ite,
      if_neg hz.2]
    exact ih hrest hzs

/-- The block does not belong behind any other node than its predecessor. -/
theorem Ring.pass {xs ys : List Span} {p : Span} (ring : Ring image s (xs ++ p :: ys))
    (holds : image.Holds s q) (before : p.start < q.start) (behind : ∀ y ∈ ys, q.stop ≤ y.start)
    {z : Span} (mem : z ∈ xs ++ p :: ys) (ne : z ≠ p) :
    ¬ (q.start > z.start ∧ q.start < s.ptr z.start) ∧
      ¬ (z.start ≥ s.ptr z.start ∧ (q.start > z.start ∨ q.start < s.ptr z.start)) := by
  have hsorted := ring.sorted
  have hseg := ring.seg
  have hroom := image.room
  have hlower := holds.lower
  have hheader := holds.header
  have hstop : q.stop = q.start + q.len := rfl
  rcases List.mem_append.mp mem with hxs | hys
  · -- in front of the predecessor: the next node is not behind the block either
    obtain ⟨us, vs, rfl⟩ := List.append_of_mem hxs
    rw [List.append_assoc, List.cons_append] at hseg hsorted
    have hnext := hseg.ptr_eq
    have hz := (List.pairwise_cons.mp (List.pairwise_append.mp hsorted).2.1).1
    cases vs with
    | nil =>
      have hzp := hz p List.mem_cons_self
      change s.ptr z.start = p.start at hnext
      omega
    | cons v vs =>
      have hzv := hz v List.mem_cons_self
      have hvp := (List.pairwise_cons.mp
        (List.pairwise_cons.mp (List.pairwise_append.mp hsorted).2.1).2).1 p
        (List.mem_append_right _ List.mem_cons_self)
      change s.ptr z.start = v.start at hnext
      omega
  · -- behind the block: the list is sorted up to the end
    have hz' := (List.mem_cons.mp hys).resolve_left ne
    have hbehind := behind z hz'
    obtain ⟨us, vs, rfl⟩ := List.append_of_mem hz'
    rw [← List.cons_append, ← List.append_assoc] at hseg hsorted
    have hnext := hseg.ptr_eq
    cases vs with
    | nil =>
      change s.ptr z.start = image.base at hnext
      omega
    | cons v vs =>
      have hzv := (List.pairwise_cons.mp (List.pairwise_append.mp hsorted).2.1).1 v
        List.mem_cons_self
      change s.ptr z.start = v.start at hnext
      omega

/-- From every node the loop of `free` finds the predecessor of the block. -/
theorem Ring.findPrev {xs ys : List Span} {p f : Span} (ring : Ring image s (xs ++ p :: ys))
    (holds : image.Holds s q) (before : p.start < q.start) (behind : ∀ y ∈ ys, q.stop ≤ y.start)
    (mem : f ∈ xs ++ p :: ys) {fuel : Nat} (enough : (xs ++ p :: ys).length ≤ fuel) :
    (Umalloc.findPrev q.start fuel f.start).run s = .ok p.start s := by
  obtain ⟨us, vs, hsplit⟩ := List.append_of_mem mem
  have hring : s.Seg f.start (f :: vs ++ us) f.start := by
    have hseg := ring.seg
    rw [hsplit] at hseg
    exact hseg.rotate
  have hperm : (f :: vs ++ us).Perm (xs ++ p :: ys) := by
    rw [hsplit]
    exact List.perm_append_comm
  have hp : p ∈ f :: vs ++ us :=
    hperm.mem_iff.mpr (List.mem_append_right _ List.mem_cons_self)
  obtain ⟨zs, ws, hzs, hnot⟩ := List.eq_append_cons_of_mem hp
  rw [hzs] at hring hperm
  obtain ⟨m, hwalk, hat, -⟩ := Heap.Seg.append.mp hring
  have hlen := hperm.length_eq
  rw [List.length_append, List.length_cons] at hlen
  obtain ⟨fuel', rfl⟩ : ∃ n, fuel = n + 1 + zs.length := ⟨fuel - 1 - zs.length, by omega⟩
  have hpass : ∀ z ∈ zs, _ := fun z hz =>
    ring.pass holds before behind (hperm.mem_iff.mp (List.mem_append_left _ hz))
      fun h => hnot (h ▸ hz)
  rw [findPrev_walk hwalk hpass, hat, Umalloc.findPrev, run_get_bind, run_ite]
  -- at the predecessor one of the two tests succeeds
  have hnext := ring.seg.ptr_eq
  have hbase := ring.base_le (List.mem_append_right xs (List.mem_cons_self (a := p) (l := ys)))
  have hheader := holds.header
  cases ys with
  | nil =>
    change s.ptr p.start = image.base at hnext
    have hroom := image.room
    have hlower := holds.lower
    rw [if_neg (by omega), run_ite, if_pos ⟨by omega, Or.inl before⟩]
    rfl
  | cons y ys =>
    change s.ptr p.start = y.start at hnext
    have hy := behind y List.mem_cons_self
    unfold Span.stop at hy
    rw [if_pos ⟨before, by omega⟩]
    rfl

/-- The ring has fewer nodes than the address space has units. -/
theorem Ring.length_lt (ring : Ring image s l) : l.length < 2 ^ 30 := by
  obtain ⟨rs, rfl⟩ : ∃ rs, l = image.root :: rs := by
    cases l with
    | nil => cases ring.head
    | cons r l =>
      cases ring.head
      exact ⟨l, rfl⟩
  obtain ⟨hroot, hrs⟩ := List.pairwise_cons.mp ring.separated
  have hholds : ∀ r ∈ rs, image.Holds s r := by
    intro r hr
    refine (ring.node r (List.mem_cons_of_mem _ hr)).resolve_left ?_
    rintro rfl
    exact absurd (hroot _ hr) (lt_irrefl _)
  have hle := Separated.length_mul_le hrs (fun r hr => (hholds r hr).header)
    fun r hr => ⟨(hholds r hr).lower, (hholds r hr).upper⟩
  have htop := ring.top
  rw [List.length_cons]
  omega

theorem Image.Holds.merge (hr : image.Holds s r) (hq : image.Holds s q) (touch : r.stop = q.start) :
    image.Holds s ⟨r.start, r.len + q.len⟩ where
  header := hr.header.trans (Nat.le_add_right _ _)
  lower := hr.lower
  upper := by
    have := hq.upper
    unfold Span.stop at *
    dsimp only
    omega

theorem Image.Holds.congr (holds : image.Holds s r) (brk : t.brk = s.brk) : image.Holds t r :=
  ⟨holds.header, holds.lower, brk ▸ holds.upper⟩

theorem Ring.holds_of_lt (ring : Ring image s l) (mem : r ∈ l) (behind : image.base < r.start) :
    image.Holds s r := by
  refine (ring.node r mem).resolve_left ?_
  rintro rfl
  exact absurd behind (lt_irrefl _)

section Join

variable {xs ys : List Span} {p : Span} (ring : Ring image s (xs ++ p :: ys))
variable (holds : image.Holds s q) (before : p.stop ≤ q.start)
variable (behind : ∀ y ∈ ys, q.stop ≤ y.start)
include ring holds before behind

omit before in
/-- What stands behind the place of a block. -/
theorem Ring.holds_behind {y : Span} (mem : y ∈ ys) : image.Holds s y := by
  refine ring.holds_of_lt (List.mem_append_right _ (List.mem_cons_of_mem _ mem)) ?_
  have hy := behind y mem
  have hroom := image.room
  have hlower := holds.lower
  unfold Span.stop at hy
  omega

omit before in
theorem Ring.holds_join {z : Span} (mem : z ∈ joinNext q ys) :
    image.Holds s z ∧ q.start ≤ z.start := by
  rcases mem_joinNext mem with rfl | hz | ⟨y, hy, htouch, rfl⟩
  · exact ⟨holds, le_rfl⟩
  · refine ⟨ring.holds_behind holds behind hz, ?_⟩
    have := behind z hz
    unfold Span.stop at this
    omega
  · exact ⟨holds.merge (ring.holds_behind holds behind hy) htouch, le_rfl⟩

theorem Ring.separated_join : Separated (xs ++ joinNext p (joinNext q ys)) := by
  obtain ⟨hxs, hpys, hcross⟩ := List.pairwise_append.mp ring.separated
  have hys := (List.pairwise_cons.mp hpys).2
  refine List.pairwise_append.mpr ⟨hxs, ?_, fun x hx z hz => ?_⟩
  · refine Separated.joinNext (Separated.joinNext hys behind) fun z hz => ?_
    have := (ring.holds_join holds behind hz).2
    omega
  · have hxp := hcross x hx p List.mem_cons_self
    rcases start_of_mem_joinNext hz with h | h
    · rw [h]
      exact hxp
    · have := (ring.holds_join holds behind h).2
      unfold Span.stop at *
      omega

/-- A block put into its place. -/
theorem Ring.join (seg : t.Seg image.base (xs ++ joinNext p (joinNext q ys)) image.base)
    (brk : t.brk = s.brk) : Ring image t (xs ++ joinNext p (joinNext q ys)) := by
  have hroom := image.room
  have hlower := holds.lower
  have htouch {w : Span} (hw : w ∈ joinNext q ys) (h : p.stop = w.start) : p ≠ image.root := by
    rintro rfl
    have := (ring.holds_join holds behind hw).2
    change image.base = w.start at h
    omega
  refine ⟨seg, ?_, ring.separated_join holds before behind, fun z hz => ?_, brk ▸ ring.top,
    brk ▸ ring.start⟩
  · cases xs with
    | cons x xs => exact ring.head
    | nil =>
      have hp : p = image.root := Option.some.inj ring.head
      obtain ⟨n, rest, hjoin, -⟩ := joinNext_eq_cons q ys
      have hne : ¬ p.stop = (⟨q.start, n⟩ : Span).start := fun h =>
        htouch (hjoin ▸ List.mem_cons_self) h hp
      rw [List.nil_append, hjoin, joinNext, if_neg hne, hp]
      rfl
  · rcases List.mem_append.mp hz with hx | hz
    · exact (ring.node z (List.mem_append_left _ hx)).imp_right fun h => h.congr brk
    · have hp := ring.node p (List.mem_append_right _ List.mem_cons_self)
      rcases mem_joinNext hz with rfl | hz | ⟨w, hw, h, rfl⟩
      · exact hp.imp_right fun h => h.congr brk
      · exact Or.inr ((ring.holds_join holds behind hz).1.congr brk)
      · have hmerged := (hp.resolve_left (htouch hw h)).merge
          (ring.holds_join holds behind hw).1 h
        exact Or.inr (hmerged.congr brk)

end Join

/-- `free` puts a block into the ring: it returns, the ring has the bytes of the block in
addition, and no other memory than the block and the ring has changed. -/
theorem Ring.free (ring : Ring image s l) (freep : ∃ f ∈ l, s.freep = f.start)
    (holds : image.Holds s q) (len : q.len = 8 * s.size q.start) (apart : ∀ r ∈ l, q.Apart r) :
    ∃ t l', (Umalloc.free (q.start + 8)).run s = .ok () t ∧ Ring image t l' ∧
      (∃ f ∈ l', t.freep = f.start) ∧ spanBytes l' = q.bytes ∪ spanBytes l ∧
      (∃ r ∈ l', q.len ≤ r.len) ∧ t.brk = s.brk ∧
      ∀ x, ¬ (image.base ≤ x ∧ x < image.base + 8) → x ∉ q.bytes → x ∉ spanBytes l →
        t.mem x = s.mem x := by
  obtain ⟨xs, p, ys, rfl, hlt, hbefore, hbehind⟩ := ring.place holds apart
  obtain ⟨f, hf, hfreep⟩ := freep
  have hroom := image.room
  have hlower := holds.lower
  have hheader := holds.header
  have hqtop : q.stop < 2 ^ 32 := lt_of_le_of_lt holds.upper ring.top
  have hqstop : q.stop = q.start + q.len := rfl
  have hpmem : p ∈ xs ++ p :: ys := List.mem_append_right _ List.mem_cons_self
  have hptop := ring.stop_lt hpmem
  have hp8 : p.start + 8 ≤ q.start := by
    rcases ring.node p hpmem with rfl | h
    · change image.base + 8 ≤ q.start
      omega
    · have := h.header
      unfold Span.stop at hbefore
      omega
  have hbp : (q.start + 8 + 2 ^ 32 - HEADER) % 2 ^ 32 = q.start := by
    unfold HEADER
    omega
  obtain ⟨m, hxs, hpys⟩ := Heap.Seg.append.mp ring.seg
  obtain ⟨rfl, hplen, hys⟩ := hpys
  -- first the block is joined with what stands behind it
  obtain ⟨t₁, hrun₁, hseg₁, hsame₁, hfreep₁, hbrk₁, -⟩ := attach_run hys len hqtop (by omega)
    (fun y hy => lt_of_le_of_lt (ring.holds_behind holds hbehind hy).upper ring.top)
    (fun y hy => by have := hbehind y hy; omega) fun _ => by omega
  -- then its predecessor with the result
  have hplen₁ : p.len = 8 * t₁.size p.start := by
    rw [Heap.size_congr fun x hle hx => hsame₁ x (by omega)]
    exact hplen
  have hjoin {z : Span} (hz : z ∈ joinNext q ys) := ring.holds_join holds hbehind hz
  obtain ⟨t₂, hrun₂, hseg₂, hsame₂, hfreep₂, hbrk₂, -⟩ := attach_run hseg₁ hplen₁ hptop (by omega)
    (fun z hz => lt_of_le_of_lt (hjoin hz).1.upper ring.top)
    (fun z hz => by have := (hjoin hz).2; omega) fun h => by
      obtain ⟨n, rest, heq, -⟩ := joinNext_eq_cons q ys
      rw [heq] at h
      cases h
  have hseg : t₂.Seg image.base (xs ++ joinNext p (joinNext q ys)) image.base := by
    refine Heap.Seg.append.mpr ⟨p.start, hxs.congr fun x hx a hle ha => ?_, hseg₂⟩
    have hspace := (List.pairwise_append.mp ring.spaced).2.2 x hx p List.mem_cons_self
    rw [hsame₂ a (by omega), hsame₁ a (by omega)]
  have hring := ring.join holds hbefore hbehind hseg (hbrk₂.trans hbrk₁)
  obtain ⟨n₁, rest₁, heq₁, hle₁⟩ := joinNext_eq_cons q ys
  obtain ⟨n₂, rest₂, heq₂, -⟩ := joinNext_eq_cons p (joinNext q ys)
  refine ⟨{ t₂ with freep := p.start }, _, ?_, ⟨hring.seg.congr fun _ _ _ _ _ => rfl, hring.head,
    hring.separated, fun r hr => (hring.node r hr).imp_right fun h => h.congr rfl, hring.top,
    hring.start⟩, ⟨⟨p.start, n₂⟩, ?_, rfl⟩, ?_, ?_, hbrk₂.trans hbrk₁, fun x hbase hq hl => ?_⟩
  · have hrounds : (xs ++ p :: ys).length ≤ maxRounds := by
      have := ring.length_lt
      unfold maxRounds
      omega
    have hfind := ring.findPrev holds hlt hbehind hf hrounds
    rw [Umalloc.free, hbp, run_get_bind, hfreep, run_bind_of_ok hfind, run_get_bind,
      run_bind_of_ok hrun₁,
      run_bind_of_ok hrun₂]
    rfl
  · rw [heq₂]
    exact List.mem_append_right _ List.mem_cons_self
  · simp only [spanBytes_append, spanBytes_joinNext, spanBytes_cons]
    rw [Set.union_left_comm p.bytes, Set.union_left_comm (spanBytes xs)]
  · rw [heq₁]
    by_cases htouch : p.stop = q.start
    · refine ⟨⟨p.start, p.len + n₁⟩, List.mem_append_right _ ?_, by dsimp only; omega⟩
      rw [joinNext, if_pos htouch]
      exact List.mem_cons_self
    · refine ⟨⟨q.start, n₁⟩, List.mem_append_right _ ?_, hle₁⟩
      rw [joinNext, if_neg htouch]
      exact List.mem_cons_of_mem _ List.mem_cons_self
  · have hx₁ : ¬ (q.start ≤ x ∧ x < q.start + 8) := fun h => hq ⟨h.1, by unfold Span.stop; omega⟩
    have hx₂ : ¬ (p.start ≤ x ∧ x < p.start + 8) := by
      rintro ⟨hle, hx⟩
      rcases ring.node p hpmem with rfl | h
      · exact hbase ⟨hle, hx⟩
      · have := h.header
        exact hl ⟨p, hpmem, hle, by unfold Span.stop; omega⟩
    change t₂.mem x = s.mem x
    rw [hsame₂ x (by omega), hsame₁ x (by omega)]

end Nodes

end Umalloc

end Xv6
