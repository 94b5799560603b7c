/-
# Taking a block from the ring

The loop of `malloc` walks once around the ring and takes the block from the first node that is
large enough. If there is none it asks for more memory, and the second walk finds it.
-/

import Xv6.Umalloc.Ring

namespace Xv6

open Math

namespace Umalloc

variable {image : Image} {grants : Nat → Bool} {s t : Heap} {l : List Span} {r q : Span} {n : Nat}

theorem Ring.eq_of_start (ring : Ring image s l) (hr : r ∈ l) (hq : q ∈ l)
    (h : r.start = q.start) : r = q := by
  have hdistinct : (l.map Span.start).Nodup := List.pairwise_map.mpr (ring.sorted.imp ne_of_lt)
  exact List.inj_on_of_nodup_map hdistinct hr hq h

/-- What `malloc` did: it cut the block `b` out of the free memory. -/
structure Took (image : Image) (s t : Heap) (l l' : List Span) (b : Span) : Prop where
  ring : Ring image t l'
  freep : ∃ f ∈ l', t.freep = f.start
  size : b.len = 8 * t.size b.start
  holds : image.Holds t b
  within : b.bytes ⊆ spanBytes l
  rest : spanBytes l' = spanBytes l \ b.bytes
  same : ∀ x, ¬ (image.base ≤ x ∧ x < image.base + 8) → x ∉ spanBytes l → t.mem x = s.mem x
  brk : t.brk = s.brk

section Take

variable {A B : List Span} {k : Span} (ring : Ring image s (A ++ k :: r :: B))
include ring

theorem Ring.holds_second : image.Holds s r := by
  refine ring.holds_of_lt (List.mem_append_right _ (List.mem_cons_of_mem _ List.mem_cons_self)) ?_
  have hk := ring.base_le (r := k) (List.mem_append_right _ List.mem_cons_self)
  have hkr := (List.pairwise_cons.mp (List.pairwise_append.mp ring.sorted).2.1).1 r
    List.mem_cons_self
  omega

/-- The bytes of one node and of the others. -/
theorem Ring.disjoint_second : Disjoint (spanBytes (A ++ k :: B)) r.bytes := by
  obtain ⟨-, hkB, hcross⟩ := List.pairwise_append.mp ring.separated
  obtain ⟨hk, hrB⟩ := List.pairwise_cons.mp hkB
  have hB := (List.pairwise_cons.mp hrB).1
  refine Set.disjoint_left.mpr ?_
  rintro x ⟨z, hz, hx⟩ hxr
  have hgap : z.stop < r.start ∨ r.stop < z.start := by
    rcases List.mem_append.mp hz with hz | hz
    · exact Or.inl (hcross z hz r (List.mem_cons_of_mem _ List.mem_cons_self))
    · rcases List.mem_cons.mp hz with rfl | hz
      · exact Or.inl (hk r List.mem_cons_self)
      · exact Or.inr (hB z hz)
  rw [Span.mem_bytes] at hx hxr
  unfold Span.stop at hgap
  omega

omit ring in
/-- A byte that belongs to no node and not to the static header is in no header. -/
theorem Ring.header_apart {l : List Span} (ring : Ring image s l) {z : Span} (hz : z ∈ l) {x : Nat}
    (base : ¬ (image.base ≤ x ∧ x < image.base + 8)) (out : x ∉ spanBytes l) :
    x < z.start ∨ z.start + 8 ≤ x := by
  by_contra hin
  rcases ring.node z hz with rfl | h
  · change ¬ (x < image.base ∨ image.base + 8 ≤ x) at hin
    omega
  · have := h.header
    exact out ⟨z, hz, by omega, by unfold Span.stop; omega⟩

/-- A node that fits exactly leaves the ring. -/
theorem Ring.take_exact (mem : t.mem = (s.setPtr k.start (s.ptr r.start)).mem)
    (freep : t.freep = k.start) (brk : t.brk = s.brk) :
    Took image s t (A ++ k :: r :: B) (A ++ k :: B) r := by
  have hholds := ring.holds_second
  obtain ⟨-, hkB, hcross⟩ := List.pairwise_append.mp ring.spaced
  obtain ⟨hk, hrB⟩ := List.pairwise_cons.mp hkB
  have hkr := hk r List.mem_cons_self
  obtain ⟨m, hA, rfl, hklen, hrest⟩ := Heap.Seg.append.mp ring.seg
  obtain ⟨hnext, hrlen, hB⟩ := hrest
  rw [hnext] at hrlen hB
  have hsame (x : Nat) (h : x < k.start ∨ k.start + 8 ≤ x) : t.mem x = s.mem x := by
    rw [mem]
    exact Heap.setPtr_of_apart h
  have hsize : t.size k.start = s.size k.start := by
    rw [Heap.size, mem]
    exact Heap.size_setPtr
  have hptr : t.ptr k.start = s.ptr r.start := by
    rw [Heap.ptr, mem]
    exact Heap.ptr_setPtr (Heap.ptr_lt _ _)
  have hbytes : spanBytes (A ++ k :: r :: B) = r.bytes ∪ spanBytes (A ++ k :: B) := by
    simp only [spanBytes_append, spanBytes_cons]
    rw [Set.union_left_comm k.bytes, Set.union_left_comm (spanBytes A)]
  have hsub : List.Sublist (A ++ k :: B) (A ++ k :: r :: B) :=
    (List.Sublist.refl A).append (((List.sublist_cons_self r B)).cons_cons k)
  have hkmem : k ∈ A ++ k :: r :: B := List.mem_append_right _ List.mem_cons_self
  refine ⟨⟨?_, ?_, ring.separated.sublist hsub, fun z hz => ?_, brk ▸ ring.top, brk ▸ ring.start⟩,
    ⟨k, List.mem_append_right _ List.mem_cons_self, freep⟩, ?_, hholds.congr brk, ?_, ?_,
    fun x hbase hx => hsame x (ring.header_apart hkmem hbase hx), brk⟩
  · refine Heap.Seg.append.mpr ⟨k.start, ?_, rfl, hsize ▸ hklen, hptr ▸ ?_⟩
    · refine hA.congr fun z hz x hle hx => hsame x ?_
      have := hcross z hz k List.mem_cons_self
      omega
    · refine hB.congr fun z hz x hle hx => hsame x ?_
      have := hk z (List.mem_cons_of_mem _ hz)
      omega
  · have hhead := ring.head
    cases A with
    | nil | cons _ _ => exact hhead
  · exact (ring.node z (hsub.subset hz)).imp_right fun h => h.congr brk
  · rw [Heap.size_congr fun x hle hx => hsame x (by omega)]
    exact hrlen
  · rw [hbytes]
    exact Set.subset_union_left
  · rw [hbytes, Set.union_sdiff_left, ring.disjoint_second.sdiff_eq_left]

/-- A larger node gives its end away. -/
theorem Ring.take_end (shorter : 8 * n < r.len) (some : 0 < n)
    (mem : t.mem = ((s.setSize r.start (s.size r.start - n)).setSize
      (r.start + (r.len - 8 * n)) n).mem)
    (freep : t.freep = k.start) (brk : t.brk = s.brk) :
    Took image s t (A ++ k :: r :: B) (A ++ k :: ⟨r.start, r.len - 8 * n⟩ :: B)
      ⟨r.start + (r.len - 8 * n), 8 * n⟩ := by
  have hholds := ring.holds_second
  have htop := ring.top
  have hupper := hholds.upper
  have hlower := hholds.lower
  have hrstop : r.stop = r.start + r.len := rfl
  set front : Span := ⟨r.start, r.len - 8 * n⟩ with hfront
  set back : Span := ⟨r.start + (r.len - 8 * n), 8 * n⟩ with hback
  obtain ⟨-, hkB, hcross⟩ := List.pairwise_append.mp ring.spaced
  obtain ⟨hk, hrB⟩ := List.pairwise_cons.mp hkB
  have hB' := (List.pairwise_cons.mp hrB).1
  have hkr := hk r List.mem_cons_self
  obtain ⟨-, hkS, hcrossS⟩ := List.pairwise_append.mp ring.separated
  obtain ⟨hkS', hrS⟩ := List.pairwise_cons.mp hkS
  have hBS := (List.pairwise_cons.mp hrS).1
  obtain ⟨m, hA, rfl, hklen, hrest⟩ := Heap.Seg.append.mp ring.seg
  obtain ⟨hnext, hrlen, hB⟩ := hrest
  rw [hnext] at hrlen hB
  -- the new header lies in the node, behind its own header
  have hlong : 8 ≤ r.len - 8 * n := by omega
  have hsame (x : Nat) (h : x < r.start ∨ r.start + r.len ≤ x) : t.mem x = s.mem x := by
    rw [mem, Heap.setSize_of_apart (by omega), Heap.setSize_of_apart (by omega)]
  have hsize : t.size r.start = s.size r.start - n := by
    have h : t.size r.start = ((s.setSize r.start (s.size r.start - n)).setSize
        (r.start + (r.len - 8 * n)) n).size r.start := by rw [Heap.size, mem]; rfl
    rw [h, Heap.size_setSize_of_apart (by omega), Heap.size_setSize (by omega)]
  have hptr : t.ptr r.start = s.ptr r.start := by
    have h : t.ptr r.start = ((s.setSize r.start (s.size r.start - n)).setSize
        (r.start + (r.len - 8 * n)) n).ptr r.start := by rw [Heap.ptr, mem]; rfl
    rw [h, Heap.ptr_setSize_of_apart (by omega), Heap.ptr_setSize]
  have hbacksize : t.size back.start = n := by
    have h : t.size back.start = ((s.setSize r.start (s.size r.start - n)).setSize
        (r.start + (r.len - 8 * n)) n).size back.start := by rw [Heap.size, mem]; rfl
    rw [h, Heap.size_setSize (by omega)]
  have hmerge : r.bytes = front.bytes ∪ back.bytes := by
    rw [← bytes_merge (r := front) (q := back) rfl]
    unfold Span.bytes Span.stop
    dsimp only [front, back]
    congr 1
    omega
  have hbytes : spanBytes (A ++ k :: r :: B) =
      back.bytes ∪ spanBytes (A ++ k :: front :: B) := by
    simp only [spanBytes_append, spanBytes_cons, hmerge]
    rw [Set.union_comm front.bytes, Set.union_assoc, Set.union_left_comm k.bytes,
      Set.union_left_comm (spanBytes A)]
  have hdisjoint : Disjoint (spanBytes (A ++ k :: front :: B)) back.bytes := by
    have hrest := ring.disjoint_second.mono_right (hmerge ▸ Set.subset_union_right)
    have hown : Disjoint front.bytes back.bytes := Set.disjoint_left.mpr fun x hx hx' => by
      simp only [front, back, Span.mem_bytes] at hx hx'
      omega
    simp only [spanBytes_append, spanBytes_cons, Set.disjoint_union_left] at hrest ⊢
    exact ⟨hrest.1, hrest.2.1, hown, hrest.2.2⟩
  have hrmem : r ∈ A ++ k :: r :: B :=
    List.mem_append_right _ (List.mem_cons_of_mem _ List.mem_cons_self)
  refine ⟨⟨?_, ?_, ?_, fun z hz => ?_, brk ▸ ring.top, brk ▸ ring.start⟩,
    ⟨k, List.mem_append_right _ List.mem_cons_self, freep⟩, by rw [hbacksize], ?_, ?_, ?_,
    fun x hbase hx => hsame x ?_, brk⟩
  · refine Heap.Seg.append.mpr ⟨k.start, ?_, rfl, ?_, ?_⟩
    · refine hA.congr fun z hz x hle hx => hsame x ?_
      have := hcross z hz r (List.mem_cons_of_mem _ List.mem_cons_self)
      omega
    · rw [Heap.size_congr fun x hle hx => hsame x (by omega)]
      exact hklen
    · rw [Heap.ptr_congr fun x hle hx => hsame x (by omega), hnext]
      refine ⟨rfl, ?_, ?_⟩
      · rw [hsize]
        change r.len - 8 * n = _
        omega
      · rw [hptr]
        refine hB.congr fun z hz x hle hx => hsame x ?_
        have := hBS z hz
        omega
  · have hhead := ring.head
    cases A with
    | nil | cons _ _ => exact hhead
  · refine List.pairwise_append.mpr ⟨(List.pairwise_append.mp ring.separated).1,
      List.pairwise_cons.mpr ⟨fun z hz => ?_, List.pairwise_cons.mpr ⟨fun z hz => ?_,
        (List.pairwise_cons.mp hrS).2⟩⟩, fun a ha z hz => ?_⟩
    · rcases List.mem_cons.mp hz with rfl | hz
      · exact hkS' r List.mem_cons_self
      · exact hkS' z (List.mem_cons_of_mem _ hz)
    · have := hBS z hz
      unfold Span.stop at *
      dsimp only [front]
      omega
    · rcases List.mem_cons.mp hz with rfl | hz
      · exact hcrossS a ha _ List.mem_cons_self
      · rcases List.mem_cons.mp hz with rfl | hz
        · exact hcrossS a ha r (List.mem_cons_of_mem _ List.mem_cons_self)
        · exact hcrossS a ha z (List.mem_cons_of_mem _ (List.mem_cons_of_mem _ hz))
  · rcases List.mem_append.mp hz with hz | hz
    · exact (ring.node z (List.mem_append_left _ hz)).imp_right fun h => h.congr brk
    · rcases List.mem_cons.mp hz with rfl | hz
      · exact (ring.node _ (List.mem_append_right _ List.mem_cons_self)).imp_right
          fun h => h.congr brk
      · rcases List.mem_cons.mp hz with rfl | hz
        · refine Or.inr ⟨hlong, hlower, ?_⟩
          rw [brk]
          unfold Span.stop
          dsimp only [front]
          omega
        · exact (ring.node z (List.mem_append_right _ (List.mem_cons_of_mem _
            (List.mem_cons_of_mem _ hz)))).imp_right fun h => h.congr brk
  · refine ⟨by change 8 ≤ 8 * n; omega, by change image.lo ≤ r.start + _; omega, ?_⟩
    rw [brk]
    unfold Span.stop
    dsimp only [back]
    omega
  · rw [hbytes]
    exact Set.subset_union_left
  · rw [hbytes, Set.union_sdiff_left, hdisjoint.sdiff_eq_left]
  · by_contra hin
    exact hx ⟨r, hrmem, by omega, by omega⟩

end Take

/-! ### The loop -/

/-- The loop takes from a node that is large enough. -/
theorem Ring.mallocLoop_found (grants : Nat → Bool) {A B : List Span} {k : Span}
    (ring : Ring image s (A ++ k :: r :: B)) (enough : 8 * n ≤ r.len) (some : 0 < n) (fuel : Nat) :
    ∃ t l', (mallocLoop grants n (fuel + 1) k.start r.start).run s =
        .ok (r.start + (r.len - 8 * n) + 8) t ∧ t.sbrks = s.sbrks ∧
      Took image s t (A ++ k :: r :: B) l' ⟨r.start + (r.len - 8 * n), 8 * n⟩ := by
  have hholds := ring.holds_second
  have hrmem : r ∈ A ++ k :: r :: B :=
    List.mem_append_right _ (List.mem_cons_of_mem _ List.mem_cons_self)
  have hlen := ring.seg.size_eq hrmem
  have htop := ring.stop_lt hrmem
  have hstop : r.stop = r.start + r.len := rfl
  rw [mallocLoop, run_get_bind, run_ite, if_pos (by omega), run_ite]
  by_cases hexact : s.size r.start = n
  · have hcut : r.len - 8 * n = 0 := by omega
    have hspan : (⟨r.start + (r.len - 8 * n), 8 * n⟩ : Span) = r := by
      rw [hcut, Nat.add_zero, ← hexact, ← hlen]
    rw [if_pos hexact, hspan]
    refine ⟨{ s.setPtr k.start (s.ptr r.start) with freep := k.start }, _, ?_, rfl,
      ring.take_exact rfl rfl rfl⟩
    rw [run_modify_bind, hcut]
    refine congrArg (fun p => EStateM.Result.ok p _) ?_
    unfold advance HEADER
    omega
  · rw [if_neg hexact]
    have hadvance : advance r.start (s.size r.start - n) = r.start + (r.len - 8 * n) := by
      unfold advance HEADER
      omega
    have hsize : (s.setSize r.start (s.size r.start - n)).size r.start = s.size r.start - n :=
      Heap.size_setSize (by omega)
    refine ⟨{ (s.setSize r.start (s.size r.start - n)).setSize (r.start + (r.len - 8 * n)) n with
      freep := k.start }, _, ?_, rfl, ring.take_end (by omega) some rfl rfl rfl⟩
    rw [run_modify_bind, run_get_bind, hsize, hadvance, run_modify_bind]
    refine congrArg (fun p => EStateM.Result.ok p _) ?_
    unfold advance HEADER
    omega

/-- The loop walks over nodes that are too small, up to `freep`. -/
theorem mallocLoop_walk {a e prev : Nat} {zs : List Span} (seg : s.Seg a zs e)
    (pass : ∀ z ∈ zs, s.size z.start < n ∧ z.start ≠ s.freep) (fuel : Nat) :
    (mallocLoop grants n (fuel + zs.length) prev a).run s =
      (mallocLoop grants n fuel ((zs.getLast?.map Span.start).getD prev) e).run s := by
  induction zs generalizing a prev with
  | nil => rw [show a = e from seg]; rfl
  | cons z zs ih =>
    obtain ⟨rfl, -, hrest⟩ := seg
    obtain ⟨hz, hzs⟩ := List.forall_mem_cons.mp pass
    rw [List.length_cons, ← Nat.add_assoc, mallocLoop, run_get_bind, run_ite, if_neg (by omega),
      run_ite, if_neg hz.2, ih hrest hzs, List.getLast?_cons]
    cases zs with
    | nil => rfl
    | cons y ys => rw [List.getLast?_cons]; rfl

/-- One walk around the ring: it takes a block, or it ends at `freep` and no node was large
enough. -/
theorem Ring.search (grants : Nat → Bool) (ring : Ring image s l) {f : Span} (hf : f ∈ l)
    (freep : s.freep = f.start) (some : 0 < n) {fuel : Nat} (enough : l.length < fuel) :
    (∃ b t l', (mallocLoop grants n fuel f.start (s.ptr f.start)).run s = .ok (b.start + 8) t ∧
      b.len = 8 * n ∧ (∃ r ∈ l, 8 * n ≤ r.len) ∧ t.sbrks = s.sbrks ∧ Took image s t l l' b) ∨
    (∀ r ∈ l, r.len < 8 * n) ∧ ∃ fuel', fuel ≤ fuel' + l.length + 1 ∧
      (mallocLoop grants n fuel f.start (s.ptr f.start)).run s =
        (do
          let p ← morecore grants n
          if p = 0 then pure 0
          else
            let s ← get
            mallocLoop grants n fuel' p (s.ptr p)).run s := by
  obtain ⟨us, vs, hsplit⟩ := List.append_of_mem hf
  have hrotated : s.Seg f.start (f :: vs ++ us) f.start := by
    have hseg := ring.seg
    rw [hsplit] at hseg
    exact hseg.rotate
  have hperm : (f :: (vs ++ us)).Perm l := by
    rw [hsplit, ← List.cons_append]
    exact List.perm_append_comm
  have hlength := hperm.length_eq
  rw [List.length_cons] at hlength
  obtain ⟨-, hflen, hmain⟩ := hrotated
  change s.Seg (s.ptr f.start) (vs ++ us) f.start at hmain
  have hother : ∀ z ∈ vs ++ us, z.start ≠ s.freep := by
    intro z hz h
    have hnodup : (f :: (vs ++ us)).Nodup :=
      hperm.nodup_iff.mpr (ring.sorted.imp fun h h' => absurd (h' ▸ h) (lt_irrefl _))
    have heq := ring.eq_of_start (hperm.mem_iff.mp (List.mem_cons_of_mem _ hz)) hf (h.trans freep)
    exact (List.nodup_cons.mp hnodup).1 (heq ▸ hz)
  -- the walk ends behind `f`, with `f` itself as the last node
  have hlap : s.Seg (s.ptr f.start) (vs ++ us ++ [f]) (s.ptr f.start) :=
    Heap.Seg.append.mpr ⟨f.start, hmain, rfl, hflen, rfl⟩
  have hmem {z : Span} (hz : z ∈ vs ++ us ++ [f]) : z ∈ l := by
    refine hperm.mem_iff.mp ?_
    rcases List.mem_append.mp hz with hz | hz
    · exact List.mem_cons_of_mem _ hz
    · exact List.mem_cons.mpr (Or.inl (List.mem_singleton.mp hz))
  cases hfound : (vs ++ us ++ [f]).find? fun z => decide (n ≤ s.size z.start) with
  | some r =>
    left
    obtain ⟨hlarge, zs, ws, hzs, hsmall⟩ := List.find?_eq_some_iff_append.mp hfound
    have hrl : r ∈ l := hmem (hzs ▸ List.mem_append_right _ List.mem_cons_self)
    have hrlen := ring.seg.size_eq hrl
    have hlarge' : n ≤ s.size r.start := of_decide_eq_true hlarge
    have hrne : r ≠ image.root := by
      rintro rfl
      change 0 = _ at hrlen
      omega
    -- the nodes before it are not `f`
    have hpre : zs <+: vs ++ us := by
      have hlap' : zs <+: vs ++ us ++ [f] := ⟨r :: ws, hzs.symm⟩
      refine List.prefix_of_prefix_length_le hlap' (List.prefix_append _ _) ?_
      have := congrArg List.length hzs
      simp only [List.length_append, List.length_cons, List.length_nil] at this ⊢
      omega
    rw [hzs] at hlap
    obtain ⟨m, hwalk, hat, -⟩ := Heap.Seg.append.mp hlap
    subst hat
    have hpass : ∀ z ∈ zs, s.size z.start < n ∧ z.start ≠ s.freep := fun z hz => by
      refine ⟨?_, hother z (hpre.subset hz)⟩
      have := hsmall z hz
      simpa using this
    -- the last of them is the predecessor of `r` in the list
    obtain ⟨k, hk, hprev, hnext⟩ : ∃ k ∈ l, (zs.getLast?.map Span.start).getD f.start = k.start ∧
        s.ptr k.start = r.start := by
      rcases List.eq_nil_or_concat zs with rfl | ⟨ys, k, rfl⟩
      · exact ⟨f, hf, rfl, hwalk⟩
      · refine ⟨k, hmem (hzs ▸ List.mem_append_left _ ?_), ?_, ?_⟩
        · rw [List.concat_eq_append]
          exact List.mem_append_right _ List.mem_cons_self
        · rw [List.concat_eq_append, List.getLast?_append]
          rfl
        · rw [List.concat_eq_append] at hwalk
          exact hwalk.ptr_eq
    obtain ⟨A, B', hB'⟩ := List.append_of_mem hk
    obtain ⟨B, rfl⟩ : ∃ B, B' = r :: B := by
      have hptr := ring.seg
      rw [hB'] at hptr
      have hhead := hptr.ptr_eq
      rw [hnext] at hhead
      cases B' with
      | nil =>
        refine absurd (ring.eq_of_start hrl ring.root_mem ?_) hrne
        exact hhead
      | cons y B =>
        have hy : y ∈ l := hB' ▸ List.mem_append_right _ (List.mem_cons_of_mem _ List.mem_cons_self)
        exact ⟨B, by rw [ring.eq_of_start hrl hy hhead]⟩
    have hlen := hpre.length_le
    obtain ⟨fuel', rfl⟩ : ∃ m, fuel = m + 1 + zs.length := ⟨fuel - 1 - zs.length, by omega⟩
    subst hB'
    have henough : 8 * n ≤ r.len := by omega
    obtain ⟨t, l', hrun, hsbrks, htook⟩ := ring.mallocLoop_found grants henough some fuel'
    refine ⟨_, t, l', ?_, rfl, ⟨r, hrl, henough⟩, hsbrks, htook⟩
    rw [mallocLoop_walk hwalk hpass, hprev]
    exact hrun
  | none =>
    right
    have hsmall : ∀ z ∈ vs ++ us ++ [f], s.size z.start < n := fun z hz => by
      have := List.find?_eq_none.mp hfound z hz
      simpa using this
    have hall : ∀ r ∈ l, s.size r.start < n := fun r hr => by
      rcases List.mem_cons.mp (hperm.mem_iff.mpr hr) with rfl | h
      · exact hsmall r (List.mem_append_right _ List.mem_cons_self)
      · exact hsmall r (List.mem_append_left _ h)
    refine ⟨fun r hr => ?_, ?_⟩
    · have := hall r hr
      have := ring.seg.size_eq hr
      omega
    · obtain ⟨fuel', rfl⟩ : ∃ m, fuel = m + 1 + (vs ++ us).length :=
        ⟨fuel - 1 - (vs ++ us).length, by omega⟩
      refine ⟨fuel', by omega, ?_⟩
      rw [mallocLoop_walk hmain fun z hz => ⟨hsmall z (List.mem_append_left _ hz), hother z hz⟩,
        mallocLoop, run_get_bind, run_ite, if_neg (by have := hall f hf; omega), run_ite,
        if_pos freep.symm]

/-! ### What the ring offers -/

/-- From `freep` on the pointers lead to a block of `n` units or more. -/
def Heap.Offers (s : Heap) (n : Nat) : Prop :=
  s.freep ≠ 0 ∧ ∃ k, n ≤ s.size (s.ptr^[k] s.freep)

/-- The successor of a node is a node. -/
theorem Ring.ptr_mem (ring : Ring image s l) (hr : r ∈ l) : ∃ q ∈ l, s.ptr r.start = q.start := by
  obtain ⟨us, vs, rfl⟩ := List.append_of_mem hr
  rw [ring.seg.ptr_eq]
  cases vs with
  | nil => exact ⟨image.root, ring.root_mem, rfl⟩
  | cons q vs => exact ⟨q, by simp, rfl⟩

theorem Ring.iterate_mem (ring : Ring image s l) (hr : r ∈ l) (k : Nat) :
    ∃ q ∈ l, s.ptr^[k] r.start = q.start := by
  induction k with
  | zero => exact ⟨r, hr, rfl⟩
  | succ k ih =>
    obtain ⟨q, hq, heq⟩ := ih
    rw [Function.iterate_succ_apply', heq]
    exact ring.ptr_mem hq

theorem Ring.offers_iff (ring : Ring image s l) (freep : ∃ f ∈ l, s.freep = f.start) :
    s.Offers n ↔ ∃ r ∈ l, 8 * n ≤ r.len := by
  obtain ⟨f, hf, hfreep⟩ := freep
  constructor
  · rintro ⟨-, k, hk⟩
    obtain ⟨r, hr, heq⟩ := ring.iterate_mem hf k
    have hlen := ring.seg.size_eq hr
    rw [hfreep, heq] at hk
    exact ⟨r, hr, by omega⟩
  · rintro ⟨r, hr, henough⟩
    have hlen := ring.seg.size_eq hr
    refine ⟨?_, ?_⟩
    · have := ring.base_le hf
      have := image.null
      omega
    -- the ring, entered at `freep`, comes to the node
    obtain ⟨us, vs, hsplit⟩ := List.append_of_mem hf
    have hseg := ring.seg
    rw [hsplit] at hseg hr
    have hr' : r ∈ f :: vs ++ us := by
      rw [List.mem_append] at hr ⊢
      exact hr.symm
    obtain ⟨xs, ys, hxs⟩ := List.append_of_mem hr'
    have hrotated := hseg.rotate
    rw [hxs] at hrotated
    refine ⟨xs.length, ?_⟩
    rw [hfreep, hrotated.iterate_eq]
    omega

end Umalloc

end Xv6
