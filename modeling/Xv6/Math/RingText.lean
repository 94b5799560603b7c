/-
# Texts in a ring of cells

A text is written into a ring of cells, the character at position `i` into cell `i % size`.
Positions are never reduced; the cells hold the text from some position on, and a text may be longer
than the ring. Counters that run modulo a multiple of the size stand for the positions.
-/

import Mathlib

namespace Xv6.Math

variable {α : Type*} {size lo : Nat} {cells : Nat → α} {text : List α}

/-- The cells hold the text from position `lo` on. -/
def Inscribed (size : Nat) (cells : Nat → α) (lo : Nat) (text : List α) : Prop :=
  ∀ i c, lo ≤ i → text[i]? = some c → cells (i % size) = c

namespace Inscribed

theorem nil (size : Nat) (cells : Nat → α) (lo : Nat) : Inscribed size cells lo [] :=
  fun _ _ _ h => nomatch h

theorem mono (held : Inscribed size cells lo text) {hi : Nat} (le : lo ≤ hi) :
    Inscribed size cells hi text :=
  fun i c hi' h => held i c (le.trans hi') h

theorem of_initial (held : Inscribed size cells lo text) {part : List α} (initial : part <+: text) :
    Inscribed size cells lo part := by
  obtain ⟨rest, rfl⟩ := initial
  intro i c hi h
  obtain ⟨hlt, -⟩ := List.getElem?_eq_some_iff.mp h
  refine held i c hi ?_
  rw [List.getElem?_append_left hlt, h]

/-- Two positions less than the size of the ring apart have different cells. -/
theorem cell_ne {i j : Nat} (lt : i < j) (near : j < i + size) : i % size ≠ j % size := by
  intro h
  have hdvd : size ∣ j - i := (Nat.modEq_iff_dvd' lt.le).mp h
  have := Nat.le_of_dvd (by omega) hdvd
  omega

/-- A character that is added to the text goes into the cell behind it. -/
theorem push (held : Inscribed size cells lo text) (room : text.length < lo + size) (c : α) :
    Inscribed size (Function.update cells (text.length % size) c) lo (text ++ [c]) := by
  intro i d hi h
  rcases Nat.lt_or_ge i text.length with hlt | hge
  · rw [List.getElem?_append_left hlt] at h
    rw [Function.update_of_ne (cell_ne hlt (by omega))]
    exact held i d hi h
  · obtain ⟨hlen, -⟩ := List.getElem?_eq_some_iff.mp h
    rw [List.length_append, List.length_singleton] at hlen
    obtain rfl : i = text.length := by omega
    rw [List.getElem?_concat_length] at h
    rw [Function.update_self, Option.some.inj h]

end Inscribed

end Xv6.Math
