/-
# Ring buffers with wrapping counters

A ring of `size` cells with a read and a write counter that are never reduced to cell
indices: both run modulo a large `modulus`, and the distance between them is the number of
elements. When `size` divides `modulus` the cells stay in step with the counters across
a wrap.
-/

import Mathlib

namespace Xv6.Math

/-- A ring of cells with two free-running counters. -/
structure RingBuffer (size modulus : Nat) (α : Type) where
  writep : Nat
  readp : Nat
  data : Nat → α

namespace RingBuffer

variable {size modulus : Nat} {α : Type}

/-- Store an element in the cell of the write counter. -/
def put (r : RingBuffer size modulus α) (x : α) : RingBuffer size modulus α :=
  { r with
    data := Function.update r.data (r.writep % size) x
    writep := (r.writep + 1) % modulus }

/-- The element in the cell of the read counter. -/
def front (r : RingBuffer size modulus α) : α := r.data (r.readp % size)

/-- Drop the element in the cell of the read counter. -/
def drop (r : RingBuffer size modulus α) : RingBuffer size modulus α :=
  { r with readp := (r.readp + 1) % modulus }

/-- The number of elements: how far the write counter is ahead. -/
def used (r : RingBuffer size modulus α) : Nat := (r.writep + (modulus - r.readp)) % modulus

/-- The elements, oldest first. -/
def contents (r : RingBuffer size modulus α) : List α :=
  (List.range r.used).map fun i => r.data ((r.readp + i) % size)

/-- Both counters are reduced, and there are not more elements than cells. -/
structure Ok (r : RingBuffer size modulus α) : Prop where
  writep : r.writep < modulus
  readp : r.readp < modulus
  used : r.used ≤ size

section Laws

variable {r : RingBuffer size modulus α}

/-- The counters are a distance apart, up to one wrap. -/
theorem Ok.writep_eq (ok : r.Ok) :
    r.writep = r.readp + r.used ∨ r.writep + modulus = r.readp + r.used := by
  have hw := ok.writep
  have hr := ok.readp
  unfold RingBuffer.used
  rcases le_or_gt r.readp r.writep with h | h
  · left
    rw [show r.writep + (modulus - r.readp) = (r.writep - r.readp) + modulus by omega,
      Nat.add_mod_right, Nat.mod_eq_of_lt (by omega)]
    omega
  · right
    rw [Nat.mod_eq_of_lt (by omega)]
    omega

theorem Ok.empty_iff (ok : r.Ok) (room : size < modulus) : r.readp = r.writep ↔ r.used = 0 := by
  have hw := ok.writep
  have hr := ok.readp
  have hu := ok.used
  have := ok.writep_eq
  omega

theorem Ok.full_iff (ok : r.Ok) (room : size < modulus) :
    r.writep = (r.readp + size) % modulus ↔ r.used = size := by
  have hw := ok.writep
  have hr := ok.readp
  have hu := ok.used
  have hwrap : (r.readp + size) % modulus =
      if r.readp + size < modulus then r.readp + size else r.readp + size - modulus := by
    split
    next h => exact Nat.mod_eq_of_lt h
    next h => rw [Nat.mod_eq_sub_mod (by omega), Nat.mod_eq_of_lt (by omega)]
  have := ok.writep_eq
  rw [hwrap]
  split <;> omega

@[simp] theorem contents_length (r : RingBuffer size modulus α) : r.contents.length = r.used := by
  simp [contents]

/-- A counter is reduced and one wrap away at most: its distance is determined. -/
private theorem used_eq {r : RingBuffer size modulus α} {n : Nat} (hr : r.readp < modulus)
    (hn : n < modulus)
    (apart : r.writep = r.readp + n ∨ r.writep + modulus = r.readp + n) : r.used = n := by
  unfold RingBuffer.used
  rcases apart with h | h
  · rw [show r.writep + (modulus - r.readp) = n + modulus by omega, Nat.add_mod_right,
      Nat.mod_eq_of_lt hn]
  · rw [show r.writep + (modulus - r.readp) = n by omega, Nat.mod_eq_of_lt hn]

private theorem succ_mod {a : Nat} (h : a < modulus) :
    (a + 1) % modulus < modulus ∧
      ((a + 1) % modulus = a + 1 ∨ (a + 1) % modulus + modulus = a + 1) := by
  refine ⟨Nat.mod_lt _ (by omega), ?_⟩
  rcases Nat.lt_or_ge (a + 1) modulus with hlt | hge
  · exact Or.inl (Nat.mod_eq_of_lt hlt)
  · right
    rw [show a + 1 = modulus by omega, Nat.mod_self, Nat.zero_add]

theorem Ok.used_put (ok : r.Ok) (room : size < modulus) (notFull : r.used < size) (x : α) :
    (r.put x).used = r.used + 1 := by
  obtain ⟨hlt, hstep⟩ := succ_mod ok.writep
  refine used_eq ok.readp (by omega) ?_
  have := ok.writep_eq
  have := ok.writep
  have := ok.readp
  change (r.writep + 1) % modulus = r.readp + _ ∨ (r.writep + 1) % modulus + modulus = r.readp + _
  omega

theorem Ok.used_drop (ok : r.Ok) (room : size < modulus) (notEmpty : 0 < r.used) :
    r.drop.used = r.used - 1 := by
  obtain ⟨hlt, hstep⟩ := succ_mod ok.readp
  have := ok.used
  refine used_eq hlt (by omega) ?_
  have := ok.writep_eq
  have := ok.writep
  have := ok.readp
  change r.writep = (r.readp + 1) % modulus + _ ∨ r.writep + modulus = (r.readp + 1) % modulus + _
  omega

theorem Ok.put (ok : r.Ok) (room : size < modulus) (notFull : r.used < size) (x : α) :
    (r.put x).Ok where
  writep := (succ_mod ok.writep).1
  readp := ok.readp
  used := by
    rw [ok.used_put room notFull]
    exact notFull

theorem Ok.drop (ok : r.Ok) (room : size < modulus) (notEmpty : 0 < r.used) : r.drop.Ok where
  writep := ok.writep
  readp := (succ_mod ok.readp).1
  used := by
    rw [ok.used_drop room notEmpty]
    exact (Nat.sub_le _ _).trans ok.used

/-- Cells do not notice that a counter wraps. -/
theorem cell_wrap (divides : size ∣ modulus) (a i : Nat) :
    (a % modulus + i) % size = (a + i) % size := by
  rw [Nat.add_mod, Nat.mod_mod_of_dvd a divides, ← Nat.add_mod]

/-- A new element goes to the end. -/
theorem Ok.contents_put (ok : r.Ok) (room : size < modulus) (divides : size ∣ modulus)
    (notFull : r.used < size) (x : α) : (r.put x).contents = r.contents ++ [x] := by
  have hcell : r.writep % size = (r.readp + r.used) % size := by
    rcases ok.writep_eq with h | h
    · rw [h]
    · obtain ⟨k, rfl⟩ := divides
      rw [← h, Nat.add_mul_mod_self_left]
  unfold contents
  rw [ok.used_put room notFull, List.range_succ, List.map_append, List.map_singleton]
  congr 1
  · refine List.map_congr_left fun i hi => Function.update_of_ne ?_ ..
    have hi := List.mem_range.mp hi
    -- the cells of two elements are different
    rw [hcell]
    intro heq
    have hmod : i ≡ r.used [MOD size] := Nat.ModEq.add_left_cancel' r.readp heq
    rw [Nat.ModEq, Nat.mod_eq_of_lt (by omega), Nat.mod_eq_of_lt notFull] at hmod
    omega
  · change [Function.update r.data (r.writep % size) x ((r.readp + r.used) % size)] = [x]
    rw [← hcell]
    exact congrArg (· :: []) (Function.update_self ..)

/-- The element at the read counter is the first. -/
theorem Ok.contents_drop (ok : r.Ok) (room : size < modulus) (divides : size ∣ modulus)
    (notEmpty : 0 < r.used) : r.contents = r.front :: r.drop.contents := by
  obtain ⟨n, hn⟩ := Nat.exists_eq_add_one_of_ne_zero notEmpty.ne'
  unfold contents
  rw [ok.used_drop room notEmpty, hn, List.range_succ_eq_map, List.map_cons, List.map_map]
  congr 1
  refine List.map_congr_left fun i _ => ?_
  change r.data ((r.readp + (i + 1)) % size) = r.data (((r.readp + 1) % modulus + i) % size)
  rw [cell_wrap divides, Nat.add_assoc, Nat.add_comm 1 i]

end Laws

end RingBuffer

end Xv6.Math
