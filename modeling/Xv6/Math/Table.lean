/-
# Tables with holes

A map kept as a row of slots, each of them a hole or a key with its value. Whoever looks up a key
searches the row, whoever enters one takes a hole or extends the row, and whoever removes one makes
a hole. As long as no key stands in two slots this is a map, whichever hole is taken.
-/

import Mathlib

namespace Xv6.Math

/-- A row of `len` slots. -/
@[ext]
structure Table (K V : Type*) where
  len : Nat
  slot : Nat → Option (K × V)

namespace Table

variable {K V : Type*}

/-- Slot `i` is in the row and holds the key with the value. -/
def Holds (t : Table K V) (i : Nat) (k : K) (v : V) : Prop := i < t.len ∧ t.slot i = some (k, v)

/-- No key stands in two slots. -/
def Distinct (t : Table K V) : Prop := ∀ i j k v w, t.Holds i k v → t.Holds j k w → i = j

/-- Every slot is in use. -/
def Full (t : Table K V) : Prop := ∀ i < t.len, t.slot i ≠ none

/-- Change slot `i`, which may be the one behind the last. -/
def set (t : Table K V) (i : Nat) (entry : Option (K × V)) : Table K V where
  len := max t.len (i + 1)
  slot := Function.update t.slot i entry

variable {t u : Table K V} {k : K} {v : V} {i : Nat}

@[simp] theorem slot_set_self (entry : Option (K × V)) : (t.set i entry).slot i = entry :=
  Function.update_self ..

theorem slot_set_of_ne {j : Nat} (h : j ≠ i) (entry : Option (K × V)) :
    (t.set i entry).slot j = t.slot j := Function.update_of_ne h ..

theorem holds_set (inside : i ≤ t.len) {entry : Option (K × V)} {j : Nat} :
    (t.set i entry).Holds j k v ↔ if j = i then entry = some (k, v) else t.Holds j k v := by
  have hlen : (t.set i entry).len = max t.len (i + 1) := rfl
  by_cases hj : j = i
  · subst hj
    rw [if_pos rfl, Holds, slot_set_self, hlen]
    exact and_iff_right (by omega)
  · rw [if_neg hj, Holds, Holds, slot_set_of_ne hj, hlen]
    refine and_congr_left fun _ => ?_
    omega

/-- What a slot holds is determined. -/
theorem Holds.value {w : V} (holds : t.Holds i k v) (holds' : t.Holds i k w) : v = w := by
  have h := holds.2.symm.trans holds'.2
  cases h
  rfl

variable [DecidableEq K]

/-- The first slot with the key, and the value in it. -/
def find (t : Table K V) (k : K) : Option (Nat × V) :=
  (List.range t.len).findSome? fun i =>
    (t.slot i).bind fun entry => if entry.1 = k then some (i, entry.2) else none

/-- What the search does at one slot. -/
theorem visit_eq_some {j : Nat} :
    ((t.slot j).bind fun entry => if entry.1 = k then some (j, entry.2) else none) = some (i, v) ↔
      j = i ∧ t.slot i = some (k, v) := by
  rw [Option.bind_eq_some_iff]
  constructor
  · rintro ⟨⟨key, w⟩, hslot, h⟩
    by_cases hkey : key = k
    · rw [if_pos hkey] at h
      cases h
      exact ⟨rfl, hkey ▸ hslot⟩
    · rw [if_neg hkey] at h
      cases h
  · rintro ⟨rfl, hslot⟩
    exact ⟨(k, v), hslot, if_pos rfl⟩

theorem find_eq_none : t.find k = none ↔ ∀ i v, ¬ t.Holds i k v := by
  rw [find, List.findSome?_eq_none_iff]
  constructor
  · intro h i v holds
    have hvisit := h i (List.mem_range.mpr holds.1)
    rw [visit_eq_some.mpr ⟨rfl, holds.2⟩] at hvisit
    cases hvisit
  · intro h j hj
    refine Option.eq_none_iff_forall_ne_some.mpr fun found hfound => ?_
    obtain ⟨i, v⟩ := found
    obtain ⟨rfl, hslot⟩ := visit_eq_some.mp hfound
    exact h j v ⟨List.mem_range.mp hj, hslot⟩

/-- What is found stands there. -/
theorem holds_of_find (found : t.find k = some (i, v)) : t.Holds i k v := by
  obtain ⟨j, hj, hvisit⟩ := List.exists_of_findSome?_eq_some found
  obtain ⟨rfl, hslot⟩ := visit_eq_some.mp hvisit
  exact ⟨List.mem_range.mp hj, hslot⟩

namespace Distinct

/-- With one slot for each key, what stands there is found. -/
theorem find_eq_some (distinct : t.Distinct) : t.find k = some (i, v) ↔ t.Holds i k v := by
  refine ⟨holds_of_find, fun holds => ?_⟩
  cases hfound : t.find k with
  | none => exact absurd holds (find_eq_none.mp hfound i v)
  | some found =>
    obtain ⟨j, w⟩ := found
    have holds' := holds_of_find hfound
    obtain rfl := distinct i j k v w holds holds'
    rw [holds.value holds']

/-- Two tables that hold a key in the same slots find the same. -/
theorem find_congr (distinct : t.Distinct) (distinct' : u.Distinct)
    (same : ∀ i v, u.Holds i k v ↔ t.Holds i k v) : u.find k = t.find k := by
  ext ⟨i, v⟩
  rw [distinct'.find_eq_some, distinct.find_eq_some, same]

/-! ### Entering a key -/

section Put

variable (distinct : t.Distinct) (absent : t.find k = none) (inside : i ≤ t.len)

include distinct absent inside

/-- A key that is not there may be entered in any slot. -/
theorem put (v : V) : (t.set i (some (k, v))).Distinct := by
  intro a b key x y ha hb
  rw [holds_set inside] at ha hb
  split at ha <;> split at hb
  next h h' => rw [h, h']
  next =>
    cases ha
    exact absurd hb (find_eq_none.mp absent b y)
  next =>
    cases hb
    exact absurd ha (find_eq_none.mp absent a x)
  next => exact distinct a b key x y ha hb

theorem find_put_self (v : V) : (t.set i (some (k, v))).find k = some (i, v) := by
  rw [(distinct.put absent inside v).find_eq_some, holds_set inside, if_pos rfl]

/-- If the slot was a hole, every other key is found where it was. -/
theorem find_put_of_ne (hole : i < t.len → t.slot i = none) (v : V) {key : K} (other : key ≠ k) :
    (t.set i (some (k, v))).find key = t.find key := by
  refine distinct.find_congr (distinct.put absent inside v) fun j w => ?_
  rw [holds_set inside]
  split
  next h =>
    subst h
    refine iff_of_false (fun h => ?_) fun holds => ?_
    · cases h
      exact other rfl
    · rw [holds.2] at hole
      cases hole holds.1
  next => rfl

end Put

/-! ### Removing a key -/

section Clear

variable (distinct : t.Distinct) (holds : t.Holds i k v)

include distinct holds

omit [DecidableEq K] in
theorem clear : (t.set i none).Distinct := by
  intro a b key x y ha hb
  rw [holds_set (Nat.le_of_lt holds.1)] at ha hb
  split at ha
  · cases ha
  · split at hb
    · cases hb
    · exact distinct a b key x y ha hb

theorem find_clear_self : (t.set i none).find k = none := by
  refine find_eq_none.mpr fun j w h => ?_
  rw [holds_set (Nat.le_of_lt holds.1)] at h
  split at h
  next => cases h
  next hne => exact hne (distinct j i k w v h holds)

theorem find_clear_of_ne {key : K} (other : key ≠ k) : (t.set i none).find key = t.find key := by
  refine distinct.find_congr (distinct.clear holds) fun j w => ?_
  rw [holds_set (Nat.le_of_lt holds.1)]
  split
  next h =>
    subst h
    refine iff_of_false nofun fun holds' => ?_
    have h := holds'.2.symm.trans holds.2
    cases h
    exact other rfl
  next => rfl

end Clear

end Distinct

end Table

end Xv6.Math
