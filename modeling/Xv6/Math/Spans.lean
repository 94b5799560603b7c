/-
# Sorted lists of separated spans

A set of addresses kept as a list of spans that is sorted and fully coalesced: between
two neighbours there is a gap. Giving a span back merges it with what it touches; taking
one cuts it off the end of the first span that is long enough.
-/

import Mathlib

namespace Xv6.Math

/-- A span of addresses. -/
structure Span where
  start : Nat
  len : Nat
  deriving DecidableEq, Repr

namespace Span

/-- The first address behind a span. -/
def stop (r : Span) : Nat := r.start + r.len

/-- The addresses of a span. -/
def bytes (r : Span) : Set Nat := Set.Ico r.start r.stop

/-- Two spans without a common address. -/
def Apart (p r : Span) : Prop := p.stop ≤ r.start ∨ r.stop ≤ p.start

end Span

/-- The addresses of a list of spans. -/
def spanBytes (rs : List Span) : Set Nat := {x | ∃ r ∈ rs, x ∈ r.bytes}

/-- Sorted by address, and neighbours do not touch. -/
def Separated (rs : List Span) : Prop := rs.Pairwise fun r q => r.stop < q.start

/-- Put a span in front of a list, merged with the first span if they touch. -/
def joinNext (r : Span) : List Span → List Span
  | [] => [r]
  | q :: qs => if r.stop = q.start then ⟨r.start, r.len + q.len⟩ :: qs else r :: q :: qs

/-- Give a span back to a separated list. -/
def giveBack (p : Span) : List Span → List Span
  | [] => [p]
  | r :: rs =>
    if p.stop < r.start then p :: r :: rs
    else if p.stop = r.start then ⟨p.start, p.len + r.len⟩ :: rs
    else if r.stop = p.start then joinNext ⟨r.start, r.len + p.len⟩ rs
    else r :: giveBack p rs

/-- Take `n` addresses: a span of exactly that length, or the end of a longer one. -/
def takeFirst (n : Nat) : List Span → Option (Nat × List Span)
  | [] => none
  | r :: rs =>
    if r.len = n then some (r.start, rs)
    else if n < r.len then some (r.start + (r.len - n), ⟨r.start, r.len - n⟩ :: rs)
    else (takeFirst n rs).map fun found => (found.1, r :: found.2)

@[simp] theorem spanBytes_nil : spanBytes [] = ∅ := by
  ext x
  simp [spanBytes]

@[simp] theorem spanBytes_cons (r : Span) (rs : List Span) :
    spanBytes (r :: rs) = r.bytes ∪ spanBytes rs := by
  ext x
  simp [spanBytes]

@[simp] theorem spanBytes_append (rs qs : List Span) :
    spanBytes (rs ++ qs) = spanBytes rs ∪ spanBytes qs := by
  ext x
  simp only [spanBytes, List.mem_append, Set.mem_ofPred_eq, Set.mem_union, or_and_right, exists_or]

theorem Span.mem_bytes {r : Span} {x : Nat} : x ∈ r.bytes ↔ r.start ≤ x ∧ x < r.start + r.len :=
  Iff.rfl

/-! ### Giving a span back -/

section GiveBack

variable {p r q : Span} {rs : List Span}

/-- Two spans that touch are one. -/
theorem bytes_merge (touch : r.stop = q.start) :
    (⟨r.start, r.len + q.len⟩ : Span).bytes = r.bytes ∪ q.bytes := by
  have hstop : (⟨r.start, r.len + q.len⟩ : Span).stop = q.stop := by
    simp only [Span.stop] at *
    omega
  unfold Span.bytes
  rw [hstop, ← touch]
  refine (Set.Ico_union_Ico_eq_Ico ?_ ?_).symm
  · exact Nat.le_add_right _ _
  · rw [touch]
    exact Nat.le_add_right _ _

@[simp] theorem spanBytes_joinNext (r : Span) (rs : List Span) :
    spanBytes (joinNext r rs) = r.bytes ∪ spanBytes rs := by
  cases rs with
  | nil => simp [joinNext]
  | cons q qs =>
    rw [joinNext]
    split
    next touch => rw [spanBytes_cons, bytes_merge touch, spanBytes_cons, Set.union_assoc]
    next => exact spanBytes_cons r _

theorem Separated.joinNext (separated : Separated rs) (before : ∀ q ∈ rs, r.stop ≤ q.start) :
    Separated (joinNext r rs) := by
  cases rs with
  | nil => exact List.pairwise_singleton _ _
  | cons q qs =>
    obtain ⟨hq, hqs⟩ := List.pairwise_cons.mp separated
    have hle := before q List.mem_cons_self
    rw [Math.joinNext]
    split
    next touch =>
      refine List.pairwise_cons.mpr ⟨fun x hx => ?_, hqs⟩
      have := hq x hx
      simp only [Span.stop] at *
      omega
    next apart =>
      have hlt : r.stop < q.start := lt_of_le_of_ne hle apart
      refine List.pairwise_cons.mpr ⟨List.forall_mem_cons.mpr ⟨hlt, fun x hx => ?_⟩, separated⟩
      have := hq x hx
      simp only [Span.stop] at *
      omega

/-- Every span of the merged list is the new one, grown or not, or an old one. -/
theorem mem_joinNext {x : Span} (hx : x ∈ joinNext r rs) :
    x = r ∨ x ∈ rs ∨ ∃ q ∈ rs, r.stop = q.start ∧ x = ⟨r.start, r.len + q.len⟩ := by
  cases rs with
  | nil => exact Or.inl (List.mem_singleton.mp hx)
  | cons q qs =>
    rw [joinNext] at hx
    split at hx
    next touch =>
      rcases List.mem_cons.mp hx with rfl | hx
      · exact Or.inr (Or.inr ⟨q, List.mem_cons_self, touch, rfl⟩)
      · exact Or.inr (Or.inl (List.mem_cons_of_mem _ hx))
    next =>
      rcases List.mem_cons.mp hx with rfl | hx
      · exact Or.inl rfl
      · exact Or.inr (Or.inl hx)

/-- The merged list starts where the new span does. -/
theorem joinNext_eq_cons (r : Span) (rs : List Span) :
    ∃ n rest, joinNext r rs = ⟨r.start, n⟩ :: rest ∧ r.len ≤ n := by
  cases rs with
  | nil => exact ⟨r.len, [], rfl, le_rfl⟩
  | cons q qs =>
    rw [joinNext]
    split
    next => exact ⟨_, qs, rfl, Nat.le_add_right _ _⟩
    next => exact ⟨r.len, q :: qs, rfl, le_rfl⟩

theorem start_of_mem_joinNext {x : Span} (hx : x ∈ joinNext r rs) :
    x.start = r.start ∨ x ∈ rs := by
  rcases mem_joinNext hx with rfl | hx | ⟨q, -, -, rfl⟩
  · exact Or.inl rfl
  · exact Or.inr hx
  · exact Or.inl rfl

/-- A property of spans that survives merging is kept by a release. -/
theorem forall_mem_giveBack {P : Span → Prop}
    (merge : ∀ r q : Span, P r → P q → r.stop = q.start → P ⟨r.start, r.len + q.len⟩)
    (new : P p) (old : ∀ r ∈ rs, P r) : ∀ x ∈ giveBack p rs, P x := by
  induction rs with
  | nil => simpa [giveBack] using new
  | cons r rs ih =>
    obtain ⟨hr, hrs⟩ := List.forall_mem_cons.mp old
    unfold giveBack
    split
    next => simpa using ⟨new, hr, hrs⟩
    next =>
      split
      next touch => exact List.forall_mem_cons.mpr ⟨merge p r new hr touch, hrs⟩
      next =>
        split
        next touch =>
          have hjoined := merge r p hr new touch
          intro x hx
          rcases mem_joinNext hx with rfl | hx | ⟨q, hq, htouch, rfl⟩
          · exact hjoined
          · exact hrs x hx
          · exact merge _ q hjoined (hrs q hq) htouch
        next => exact List.forall_mem_cons.mpr ⟨hr, ih hrs⟩

theorem Separated.giveBack (separated : Separated rs) (apart : ∀ r ∈ rs, p.Apart r) :
    Separated (giveBack p rs) := by
  induction rs with
  | nil => exact List.pairwise_singleton _ _
  | cons r rs ih =>
    obtain ⟨hr, hrs⟩ := List.pairwise_cons.mp separated
    obtain ⟨hpr, hprs⟩ := List.forall_mem_cons.mp apart
    unfold Math.giveBack
    unfold Span.Apart at hpr
    split
    next before =>
      refine List.pairwise_cons.mpr ⟨List.forall_mem_cons.mpr ⟨before, fun q hq => ?_⟩, separated⟩
      have := hr q hq
      unfold Span.stop at *
      omega
    next =>
      split
      next touch =>
        -- the new span grows by `r`, and ends where `r` ended
        refine List.pairwise_cons.mpr ⟨fun q hq => ?_, hrs⟩
        have := hr q hq
        simp only [Span.stop] at *
        omega
      next =>
        split
        next touch =>
          refine Separated.joinNext hrs fun q hq => ?_
          have hgap := hr q hq
          have hpq := hprs q hq
          simp only [Span.Apart, Span.stop] at *
          omega
        next =>
          -- everything behind `r` still starts behind it
          have hbehind : r.stop < p.start := by omega
          refine List.pairwise_cons.mpr ⟨?_, ih hrs hprs⟩
          exact forall_mem_giveBack (P := fun q => r.stop < q.start)
            (fun _ _ h _ _ => h) hbehind hr

/-- A release adds exactly the addresses of the span. -/
theorem spanBytes_giveBack (p : Span) (rs : List Span) :
    spanBytes (giveBack p rs) = p.bytes ∪ spanBytes rs := by
  induction rs with
  | nil => simp [giveBack]
  | cons r rs ih =>
    unfold giveBack
    split
    next => simp
    next =>
      split
      next touch => rw [spanBytes_cons, bytes_merge touch, spanBytes_cons, Set.union_assoc]
      next =>
        split
        next touch =>
          rw [spanBytes_joinNext, bytes_merge touch, spanBytes_cons, Set.union_comm r.bytes,
            Set.union_assoc]
        next => rw [spanBytes_cons, ih, spanBytes_cons, Set.union_left_comm]

end GiveBack

/-! ### Taking from the front -/

section TakeFirst

variable {n a : Nat} {rs rest : List Span}

/-- The first span goes as a whole, or loses its end, or is too short and stays. -/
theorem takeFirst_cons {r : Span} (taken : takeFirst n (r :: rs) = some (a, rest)) :
    r.len = n ∧ a = r.start ∧ rs = rest ∨
    n < r.len ∧ a = r.start + (r.len - n) ∧ rest = ⟨r.start, r.len - n⟩ :: rs ∨
    r.len < n ∧ ∃ qs, takeFirst n rs = some (a, qs) ∧ rest = r :: qs := by
  unfold takeFirst at taken
  split at taken
  next same =>
    obtain ⟨rfl, rfl⟩ := Prod.mk.inj (Option.some.inj taken)
    exact .inl ⟨same, rfl, rfl⟩
  next other =>
    split at taken
    next longer =>
      obtain ⟨rfl, rfl⟩ := Prod.mk.inj (Option.some.inj taken)
      exact .inr (.inl ⟨longer, rfl, rfl⟩)
    next short =>
      obtain ⟨⟨b, qs⟩, hfound, heq⟩ := Option.map_eq_some_iff.mp taken
      obtain ⟨rfl, rfl⟩ := Prod.mk.inj heq
      exact .inr (.inr ⟨by omega, qs, hfound, rfl⟩)

/-- What is left are the old spans, one of them shortened or gone. -/
theorem takeFirst_rest (taken : takeFirst n rs = some (a, rest)) :
    ∀ q ∈ rest, ∃ r ∈ rs, q.start = r.start ∧ (q.len = r.len ∨ q.len = r.len - n ∧ n < r.len) := by
  induction rs generalizing rest with
  | nil => cases taken
  | cons r rs ih =>
    rcases takeFirst_cons taken with ⟨-, rfl, rfl⟩ | ⟨longer, -, rfl⟩ | ⟨-, qs, hfound, rfl⟩
    · exact fun q hq => ⟨q, List.mem_cons_of_mem _ hq, rfl, Or.inl rfl⟩
    · refine List.forall_mem_cons.mpr ⟨⟨r, List.mem_cons_self, rfl, Or.inr ⟨rfl, longer⟩⟩, ?_⟩
      exact fun q hq => ⟨q, List.mem_cons_of_mem _ hq, rfl, Or.inl rfl⟩
    · refine List.forall_mem_cons.mpr ⟨⟨r, List.mem_cons_self, rfl, Or.inl rfl⟩, fun q hq => ?_⟩
      obtain ⟨r', hr', h⟩ := ih hfound q hq
      exact ⟨r', List.mem_cons_of_mem _ hr', h⟩

theorem Separated.takeFirst (separated : Separated rs)
    (taken : takeFirst n rs = some (a, rest)) : Separated rest := by
  induction rs generalizing rest with
  | nil => cases taken
  | cons r rs ih =>
    obtain ⟨hr, hrs⟩ := List.pairwise_cons.mp separated
    rcases takeFirst_cons taken with ⟨-, rfl, rfl⟩ | ⟨longer, -, rfl⟩ | ⟨-, qs, hfound, rfl⟩
    · exact hrs
    · refine List.pairwise_cons.mpr ⟨fun q hq => ?_, hrs⟩
      have := hr q hq
      simp only [Span.stop] at *
      omega
    · refine List.pairwise_cons.mpr ⟨fun q hq => ?_, ih hrs hfound⟩
      obtain ⟨r', hr', hstart, -⟩ := takeFirst_rest hfound q hq
      rw [hstart]
      exact hr r' hr'

/-- The addresses taken are the end of one of the spans. -/
theorem takeFirst_mem (taken : takeFirst n rs = some (a, rest)) :
    ∃ r ∈ rs, r.start ≤ a ∧ a + n = r.stop := by
  induction rs generalizing rest with
  | nil => cases taken
  | cons r rs ih =>
    rcases takeFirst_cons taken with ⟨same, rfl, -⟩ | ⟨longer, rfl, -⟩ | ⟨-, qs, hfound, rfl⟩
    · exact ⟨r, List.mem_cons_self, le_refl _, by rw [← same]; rfl⟩
    · refine ⟨r, List.mem_cons_self, Nat.le_add_right _ _, ?_⟩
      unfold Span.stop
      omega
    · obtain ⟨q, hq, h⟩ := ih hfound
      exact ⟨q, List.mem_cons_of_mem _ hq, h⟩

/-- Nothing is taken when every span is too short. -/
theorem takeFirst_eq_none : takeFirst n rs = none ↔ ∀ r ∈ rs, r.len < n := by
  induction rs with
  | nil => simp [takeFirst]
  | cons r rs ih =>
    rw [List.forall_mem_cons, ← ih, takeFirst]
    split
    next same => simp [same]
    next other =>
      split
      next longer => simp [longer.le]
      next shorter =>
        have hshort : r.len < n := by omega
        simp [hshort]

/-- Between two spans of a separated list there is a gap. -/
theorem Separated.gap {r q : Span} (separated : Separated rs) (hr : r ∈ rs) (hq : q ∈ rs) :
    r = q ∨ r.stop < q.start ∨ q.stop < r.start := by
  induction rs with
  | nil => cases hr
  | cons p rs ih =>
    obtain ⟨hp, hrs⟩ := List.pairwise_cons.mp separated
    rcases List.mem_cons.mp hr with rfl | hr'
    · rcases List.mem_cons.mp hq with rfl | hq'
      · exact .inl rfl
      · exact .inr (.inl (hp q hq'))
    · rcases List.mem_cons.mp hq with rfl | hq'
      · exact .inr (.inr (hp r hr'))
      · exact ih hrs hr' hq'

/-- A range of addresses of a separated list lies in one of its spans. -/
theorem Separated.exists_span {x : Nat} (separated : Separated rs) (positive : 0 < n)
    (inside : Set.Ico x (x + n) ⊆ spanBytes rs) : ∃ r ∈ rs, r.start ≤ x ∧ x + n ≤ r.stop := by
  -- by induction on the length: the next address cannot be in another span
  induction n with
  | zero => exact absurd positive (lt_irrefl 0)
  | succ n ih =>
    obtain ⟨q, hq, hstart, hstop⟩ := inside (a := x + n) ⟨by omega, by omega⟩
    rcases Nat.eq_zero_or_pos n with rfl | hn
    · exact ⟨q, hq, hstart, hstop⟩
    obtain ⟨r, hr, hle, hge⟩ := ih hn ((Set.Ico_subset_Ico_right (by omega)).trans inside)
    refine ⟨r, hr, hle, ?_⟩
    by_contra hout
    have hne : r ≠ q := by
      rintro rfl
      omega
    rcases separated.gap hr hq with h | h | h
    · exact hne h
    · omega
    · omega

/-- Giving back what was taken restores the list. -/
theorem giveBack_takeFirst (separated : Separated rs) (nonempty : ∀ r ∈ rs, 0 < r.len)
    (taken : takeFirst n rs = some (a, rest)) : giveBack ⟨a, n⟩ rest = rs := by
  induction rs generalizing rest with
  | nil => cases taken
  | cons r rs ih =>
    obtain ⟨hr, hrs⟩ := List.pairwise_cons.mp separated
    obtain ⟨hpos, hposs⟩ := List.forall_mem_cons.mp nonempty
    rcases takeFirst_cons taken with ⟨same, rfl, rfl⟩ | ⟨longer, rfl, rfl⟩ | ⟨-, qs, hfound, rfl⟩
    · -- the whole first span was taken
      have hspan : (⟨r.start, n⟩ : Span) = r := by rw [← same]
      rw [hspan]
      cases rs with
      | nil => rfl
      | cons q qs => exact if_pos (hr q List.mem_cons_self)
    · -- the end of the first span was taken, and is joined to the rest of it
      have hjoined : (⟨r.start, r.len - n + n⟩ : Span) = r := by
        rw [Nat.sub_add_cancel longer.le]
      have htouch : (⟨r.start, r.len - n⟩ : Span).stop = r.start + (r.len - n) := rfl
      unfold giveBack
      rw [if_neg (by simp only [Span.stop]; omega), if_neg (by simp only [Span.stop]; omega),
        if_pos htouch]
      change joinNext ⟨r.start, r.len - n + n⟩ rs = r :: rs
      rw [hjoined]
      cases rs with
      | nil => rfl
      | cons q qs => exact if_neg (hr q List.mem_cons_self).ne
    · obtain ⟨q, hq, hle, -⟩ := takeFirst_mem hfound
      have hlt := hr q hq
      unfold giveBack
      rw [if_neg (by simp only [Span.stop] at *; omega),
        if_neg (by simp only [Span.stop] at *; omega), if_neg (hlt.trans_le hle).ne,
        ih hrs hposs hfound]

/-- The addresses taken were there, and exactly they are gone. -/
theorem spanBytes_takeFirst (separated : Separated rs)
    (taken : takeFirst n rs = some (a, rest)) :
    (⟨a, n⟩ : Span).bytes ⊆ spanBytes rs ∧
      spanBytes rest = spanBytes rs \ (⟨a, n⟩ : Span).bytes := by
  induction rs generalizing rest with
  | nil => cases taken
  | cons r rs ih =>
    obtain ⟨hr, hrs⟩ := List.pairwise_cons.mp separated
    -- an address of the first span is in none of the others
    have hfirst : Disjoint (spanBytes rs) r.bytes := by
      refine Set.disjoint_left.mpr ?_
      rintro x ⟨q, hq, hx⟩ hxr
      have := hr q hq
      rw [Span.mem_bytes] at hx hxr
      unfold Span.stop at this
      omega
    rcases takeFirst_cons taken with ⟨same, rfl, rfl⟩ | ⟨longer, rfl, rfl⟩ | ⟨-, qs, hfound, rfl⟩
    · have hspan : (⟨r.start, n⟩ : Span) = r := by rw [← same]
      rw [hspan, spanBytes_cons, Set.union_sdiff_left]
      exact ⟨Set.subset_union_left, hfirst.sdiff_eq_left.symm⟩
    · set front : Span := ⟨r.start, r.len - n⟩ with hfront
      set back : Span := ⟨r.start + (r.len - n), n⟩ with hback
      have hsplit : r.bytes = front.bytes ∪ back.bytes := by
        rw [← bytes_merge (r := front) (q := back) rfl]
        congr 1
        cases r with
        | mk start len =>
          simp only [front, back, Span.mk.injEq, true_and] at *
          omega
      have hdisjoint : Disjoint front.bytes back.bytes := by
        refine Set.disjoint_left.mpr fun x hx hx' => ?_
        simp only [front, back, Span.mem_bytes] at hx hx'
        omega
      have hrest : Disjoint (spanBytes rs) back.bytes :=
        hfirst.mono_right (hsplit ▸ Set.subset_union_right)
      rw [spanBytes_cons, spanBytes_cons, hsplit]
      refine ⟨Set.subset_union_right.trans Set.subset_union_left, ?_⟩
      rw [Set.union_sdiff_distrib, Set.union_sdiff_distrib, Set.sdiff_self, Set.union_empty,
        hdisjoint.sdiff_eq_left, hrest.sdiff_eq_left]
    · obtain ⟨hsub, hdiff⟩ := ih hrs hfound
      rw [spanBytes_cons, spanBytes_cons, Set.union_sdiff_distrib]
      refine ⟨hsub.trans Set.subset_union_right, ?_⟩
      rw [hdiff, (hfirst.symm.mono_right hsub).sdiff_eq_left]

/-- A separated list of spans of at least `unit` addresses is short. -/
theorem Separated.length_mul_le {lo hi unit : Nat} (separated : Separated rs)
    (long : ∀ r ∈ rs, unit ≤ r.len) (within : ∀ r ∈ rs, lo ≤ r.start ∧ r.stop ≤ hi) :
    rs.length * unit ≤ hi - lo := by
  induction rs generalizing lo with
  | nil => simp
  | cons r rs ih =>
    obtain ⟨hr, hrs⟩ := List.pairwise_cons.mp separated
    obtain ⟨hlong, hlongs⟩ := List.forall_mem_cons.mp long
    obtain ⟨hin, hins⟩ := List.forall_mem_cons.mp within
    have hrest : rs.length * unit ≤ hi - r.stop :=
      ih hrs hlongs fun q hq => ⟨(hr q hq).le, (hins q hq).2⟩
    rw [List.length_cons, Nat.succ_mul]
    unfold Span.stop at *
    omega

end TakeFirst

end Xv6.Math
