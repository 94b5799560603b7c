/-
# Doubly linked rings

A ring of nodes with a head, linked in both directions. The head is `none`, so that a link is an
optional node. A ring holds a list if the links lead from the head through the list and back. Nodes
are put in behind the head and taken out by assignments to single links, in the order in which a
program makes them.
-/

import Mathlib

namespace Xv6.Math

/-- The links of the nodes and of the head. -/
@[ext]
structure Links (α : Type*) where
  next : Option α → Option α
  prev : Option α → Option α

namespace Links

variable {α : Type*}

/-- A head that is linked to itself. -/
def empty : Links α := ⟨fun _ => none, fun _ => none⟩

/-- `p->next = q`. -/
def setNext [DecidableEq α] (L : Links α) (p q : Option α) : Links α :=
  { L with next := Function.update L.next p q }

/-- `p->prev = q`. -/
def setPrev [DecidableEq α] (L : Links α) (p q : Option α) : Links α :=
  { L with prev := Function.update L.prev p q }

/-- Put a node in behind the head. -/
def insert [DecidableEq α] (L : Links α) (b : α) : Links α :=
  let L := L.setNext (some b) (L.next none)
  let L := L.setPrev (some b) none
  let L := L.setPrev (L.next none) (some b)
  L.setNext none (some b)

/-- Take a node out. Its own links stay. -/
def unlink [DecidableEq α] (L : Links α) (b : α) : Links α :=
  let L := L.setPrev (L.next (some b)) (L.prev (some b))
  L.setNext (L.prev (some b)) (L.next (some b))

/-- The links lead from `a` through the list to the head, and back. -/
def Path (L : Links α) : Option α → List α → Prop
  | a, [] => L.next a = none ∧ L.prev none = a
  | a, x :: xs => L.next a = some x ∧ L.prev (some x) = a ∧ L.Path (some x) xs

/-- The ring holds the list. -/
structure Holds (L : Links α) (xs : List α) : Prop where
  path : L.Path none xs
  nodup : xs.Nodup

variable {L M : Links α} {a b : Option α} {x : α} {xs ys : List α}

theorem holds_empty : (empty : Links α).Holds [] := ⟨⟨rfl, rfl⟩, List.nodup_nil⟩

/-! ### Paths -/

/-- A path may start at another node if the links at its start are changed. -/
theorem Path.rebase (path : L.Path a xs) (start : M.next b = L.next a)
    (back : M.prev (L.next a) = b) (nodup : xs.Nodup)
    (next : ∀ x ∈ xs, M.next (some x) = L.next (some x))
    (prev : ∀ p, p ≠ L.next a → p = none ∨ (∃ x ∈ xs, p = some x) → M.prev p = L.prev p) :
    M.Path b xs := by
  induction xs generalizing a b with
  | nil =>
    rw [path.1] at start back
    exact ⟨start, back⟩
  | cons x xs ih =>
    obtain ⟨hnext, hprev, hrest⟩ := path
    rw [hnext] at start back prev
    obtain ⟨hx, hnodup⟩ := List.nodup_cons.mp nodup
    have hne {p : Option α} (h : p = none ∨ ∃ y ∈ xs, p = some y) : p ≠ some x := by
      rintro rfl
      rcases h with h | ⟨y, hy, h⟩
      · cases h
      · cases h
        exact hx hy
    have hsecond : L.next (some x) = none ∨ ∃ y ∈ xs, L.next (some x) = some y := by
      cases xs with
      | nil => exact .inl hrest.1
      | cons y ys => exact .inr ⟨y, List.mem_cons_self, hrest.1⟩
    have hback : L.prev (L.next (some x)) = some x := by
      cases xs with
      | nil => rw [hrest.1, hrest.2]
      | cons y ys => rw [hrest.1, hrest.2.1]
    have hmore {p : Option α} (h : p = none ∨ ∃ y ∈ xs, p = some y) : M.prev p = L.prev p :=
      prev p (hne h) (h.imp_right fun ⟨y, hy, hp⟩ => ⟨y, List.mem_cons_of_mem x hy, hp⟩)
    refine ⟨start, back, ih hrest (next x List.mem_cons_self) ?_ hnodup
      (fun y hy => next y (List.mem_cons_of_mem x hy)) fun p _ h => hmore h⟩
    rw [hmore hsecond, hback]

theorem Path.next_start (path : L.Path a xs) : L.next a = xs.head? := by
  cases xs with
  | nil | cons _ _ => exact path.1

/-- Where a node of a path is linked to. -/
theorem Path.links_of_split (path : L.Path a (xs ++ x :: ys)) :
    L.next (some x) = ys.head? ∧ (L.prev (some x) = a ∧ xs = [] ∨
      ∃ y ∈ xs, L.prev (some x) = some y) := by
  induction xs generalizing a with
  | nil => exact ⟨path.2.2.next_start, .inl ⟨path.2.1, rfl⟩⟩
  | cons z xs ih =>
    obtain ⟨hnext, hprev⟩ := ih path.2.2
    refine ⟨hnext, .inr ?_⟩
    rcases hprev with ⟨h, -⟩ | ⟨y, hy, h⟩
    · exact ⟨z, List.mem_cons_self, h⟩
    · exact ⟨y, List.mem_cons_of_mem z hy, h⟩

/-- The links in one direction undo those in the other. -/
theorem Path.prev_next (path : L.Path a xs) (p : Option α) (mem : p = a ∨ ∃ x ∈ xs, p = some x) :
    L.prev (L.next p) = p := by
  induction xs generalizing a with
  | nil =>
    obtain rfl := mem.resolve_right nofun
    rw [path.1, path.2]
  | cons x xs ih =>
    rcases mem with rfl | ⟨y, hy, rfl⟩
    · rw [path.1, path.2.1]
    · refine ih path.2.2 ?_
      rcases List.mem_cons.mp hy with rfl | hy
      · exact .inl rfl
      · exact .inr ⟨y, hy, rfl⟩

theorem Path.next_prev (path : L.Path a xs) (p : Option α)
    (mem : p = none ∨ ∃ x ∈ xs, p = some x) : L.next (L.prev p) = p := by
  induction xs generalizing a with
  | nil =>
    obtain rfl := mem.resolve_right nofun
    rw [path.2, path.1]
  | cons x xs ih =>
    rcases mem with rfl | ⟨y, hy, rfl⟩
    · exact ih path.2.2 (.inl rfl)
    · rcases List.mem_cons.mp hy with rfl | hy
      · rw [path.2.1, path.1]
      · exact ih path.2.2 (.inr ⟨y, hy, rfl⟩)

/-- Following the links forward. -/
theorem Path.iterate_next (path : L.Path a xs) {k : Nat} (hk : k ≤ xs.length) :
    L.next^[k + 1] a = xs[k]? := by
  induction xs generalizing a k with
  | nil =>
    obtain rfl : k = 0 := Nat.le_zero.mp hk
    exact path.1
  | cons x xs ih =>
    cases k with
    | zero => exact path.1
    | succ k =>
      rw [Function.iterate_succ_apply, path.1, List.getElem?_cons_succ]
      exact ih path.2.2 (Nat.le_of_succ_le_succ hk)

/-! ### Putting in and taking out -/

section Update

variable [DecidableEq α]

theorem unlink_next (L : Links α) (x : α) :
    (L.unlink x).next = Function.update L.next (L.prev (some x)) (L.next (some x)) := by
  have hprev : Function.update L.prev (L.next (some x)) (L.prev (some x)) (some x) =
      L.prev (some x) := by
    by_cases h : some x = L.next (some x)
    · rw [← h, Function.update_self]
    · rw [Function.update_of_ne h]
  change Function.update L.next (Function.update L.prev _ _ (some x)) _ = _
  rw [hprev]
  rfl

theorem unlink_prev (L : Links α) (x : α) :
    (L.unlink x).prev = Function.update L.prev (L.next (some x)) (L.prev (some x)) := rfl

theorem Path.unlink (path : L.Path a (xs ++ x :: ys)) (nodup : (xs ++ x :: ys).Nodup)
    (other : ∀ y ∈ xs ++ x :: ys, a ≠ some y) : (L.unlink x).Path a (xs ++ ys) := by
  induction xs generalizing a with
  | nil =>
    obtain ⟨hnext, hprev, hrest⟩ := path
    refine hrest.rebase ?_ ?_ (List.nodup_cons.mp nodup).2 (fun y hy => ?_) fun p hp _ => ?_
    · rw [unlink_next, hprev, Function.update_self]
    · rw [unlink_prev, hprev, Function.update_self]
    · rw [unlink_next, hprev]
      exact Function.update_of_ne (other y (List.mem_cons_of_mem x hy)).symm ..
    · rw [unlink_prev]
      exact Function.update_of_ne hp ..
  | cons z xs ih =>
    obtain ⟨hnext, hprev, hrest⟩ := path
    obtain ⟨hz, hnodup⟩ := List.nodup_cons.mp nodup
    obtain ⟨hafter, hbefore⟩ := hrest.links_of_split
    have hstart : a ≠ L.prev (some x) := by
      rcases hbefore with ⟨h, -⟩ | ⟨y, hy, h⟩
      · rw [h]
        exact other z List.mem_cons_self
      · rw [h]
        exact other y (List.mem_cons_of_mem z (List.mem_append_left _ hy))
    have hsecond : some z ≠ L.next (some x) := by
      rw [hafter]
      intro h
      have hmem := List.mem_of_head? h.symm
      exact hz (List.mem_append_right _ (List.mem_cons_of_mem x hmem))
    refine ⟨?_, ?_, ih hrest hnodup fun y hy h => ?_⟩
    · rw [unlink_next, Function.update_of_ne hstart, hnext]
    · rw [unlink_prev, Function.update_of_ne hsecond, hprev]
    · cases h
      exact hz hy

theorem Holds.unlink (holds : L.Holds (xs ++ x :: ys)) : (L.unlink x).Holds (xs ++ ys) :=
  ⟨holds.path.unlink holds.nodup fun _ _ => nofun,
    holds.nodup.sublist ((List.sublist_cons_self x ys).append_left xs)⟩

theorem Holds.insert (holds : L.Holds xs) (new : x ∉ xs) : (L.insert x).Holds (x :: xs) := by
  have hfirst : L.next none = xs.head? := holds.path.next_start
  have hne : some x ≠ L.next none := by
    rw [hfirst]
    exact fun h => new (List.mem_of_head? h.symm)
  have hnext : (L.insert x).next =
      Function.update (Function.update L.next (some x) (L.next none)) none (some x) := rfl
  have hprev : (L.insert x).prev =
      Function.update (Function.update L.prev (some x) none) (L.next none) (some x) := rfl
  refine ⟨⟨?_, ?_, holds.path.rebase ?_ ?_ holds.nodup (fun y hy => ?_) fun p hp h => ?_⟩,
    List.nodup_cons.mpr ⟨new, holds.nodup⟩⟩
  · rw [hnext, Function.update_self]
  · rw [hprev, Function.update_of_ne hne, Function.update_self]
  · rw [hnext, Function.update_of_ne (Option.some_ne_none x), Function.update_self]
  · rw [hprev, Function.update_self]
  · have hy' : some y ≠ some x := fun h => new (Option.some.inj h ▸ hy)
    rw [hnext, Function.update_of_ne (Option.some_ne_none y), Function.update_of_ne hy']
  · have hp' : p ≠ some x := by
      rintro rfl
      rcases h with h | ⟨y, hy, h⟩
      · cases h
      · exact new (Option.some.inj h ▸ hy)
    rw [hprev, Function.update_of_ne hp, Function.update_of_ne hp']

end Update

/-! ### Searching along the links -/

/-- `for(b = …; b != head; b = step(b)) if(p(b)) …`: the first node that is met from `b` on.
Without a result the bound was not enough. -/
def search (step : Option α → Option α) (p : α → Bool) : Nat → Option α → Option (Option α)
  | 0, _ => none
  | _ + 1, none => some none
  | fuel + 1, some b => if p b then some (some b) else search step p fuel (step (some b))

theorem Path.search_next (path : L.Path a xs) (p : α → Bool) {fuel : Nat}
    (enough : xs.length < fuel) : search L.next p fuel (L.next a) = some (xs.find? p) := by
  obtain ⟨fuel, rfl⟩ : ∃ k, fuel = k + 1 := ⟨fuel - 1, by omega⟩
  induction xs generalizing a fuel with
  | nil =>
    rw [path.1]
    rfl
  | cons x xs ih =>
    rw [List.length_cons] at enough
    rw [path.1, search, List.find?_cons]
    cases hx : p x with
    | true => rfl
    | false =>
      obtain ⟨fuel, rfl⟩ : ∃ k, fuel = k + 1 := ⟨fuel - 1, by omega⟩
      exact ih path.2.2 fuel (by omega)

/-- The node behind a part of the list is linked back to its last node. -/
theorem Path.prev_of_split (path : L.Path none (xs ++ ys)) : L.prev ys.head? = xs.getLast? := by
  rcases List.eq_nil_or_concat xs with rfl | ⟨xs, x, rfl⟩
  · rw [← List.nil_append ys, ← path.next_start]
    exact path.prev_next none (.inl rfl)
  · rw [List.concat_eq_append, List.append_assoc, List.singleton_append] at path
    rw [← path.links_of_split.1, List.concat_eq_append, List.getLast?_concat]
    exact path.prev_next (some x) (.inr ⟨x, by simp, rfl⟩)

theorem Path.search_prev (path : L.Path none (xs ++ ys)) (p : α → Bool) {fuel : Nat}
    (enough : xs.length < fuel) :
    search L.prev p fuel (L.prev ys.head?) = some (xs.reverse.find? p) := by
  obtain ⟨fuel, rfl⟩ : ∃ k, fuel = k + 1 := ⟨fuel - 1, by omega⟩
  rw [path.prev_of_split]
  induction xs using List.reverseRecOn generalizing ys fuel with
  | nil => rfl
  | append_singleton xs x ih =>
    rw [List.length_append, List.length_singleton] at enough
    rw [List.append_assoc, List.singleton_append] at path
    rw [List.getLast?_concat, search, List.reverse_concat, List.find?_cons]
    cases hx : p x with
    | true => rfl
    | false =>
      obtain ⟨fuel, rfl⟩ : ∃ k, fuel = k + 1 := ⟨fuel - 1, by omega⟩
      have hprev : L.prev (some x) = xs.getLast? := path.prev_of_split
      rw [if_neg Bool.false_ne_true, hprev]
      exact ih path fuel (by omega)

end Links

end Xv6.Math
