/-
# Lines of a text

A text of lines, each with a separator at its end. The lines and the rest behind the last separator
are determined by the text.
-/

import Mathlib

namespace Xv6.Math

variable {α : Type*} {sep : α} {lines : List (List α)}

/-- The text of some lines. -/
def joinLines (sep : α) (lines : List (List α)) : List α := lines.flatMap (· ++ [sep])

theorem joinLines_cons (line : List α) (lines : List (List α)) :
    joinLines sep (line :: lines) = line ++ sep :: joinLines sep lines := by
  simp [joinLines]

theorem joinLines_append (lines more : List (List α)) :
    joinLines sep (lines ++ more) = joinLines sep lines ++ joinLines sep more :=
  List.flatMap_append

theorem length_le_joinLines (sep : α) (lines : List (List α)) :
    lines.length ≤ (joinLines sep lines).length := by
  induction lines with
  | nil => exact le_rfl
  | cons line lines ih =>
    rw [joinLines_cons, List.length_append, List.length_cons, List.length_cons]
    omega

theorem mem_joinLines {c : α} : c ∈ joinLines sep lines ↔ ∃ line ∈ lines, c ∈ line ∨ c = sep := by
  simp [joinLines]

/-- Each text is some lines and a part of one more. -/
theorem exists_joinLines (sep : α) (s : List α) : ∃ lines tail,
    s = joinLines sep lines ++ tail ∧ (∀ line ∈ lines, sep ∉ line) ∧ sep ∉ tail := by
  induction s with
  | nil => exact ⟨[], [], rfl, by simp, by simp⟩
  | cons c s ih =>
    obtain ⟨lines, tail, rfl, hlines, htail⟩ := ih
    by_cases hc : c = sep
    · exact ⟨[] :: lines, tail, by simp [joinLines_cons, hc], by simpa using hlines, htail⟩
    · cases lines with
      | nil => exact ⟨[], c :: tail, rfl, by simp, by simp [Ne.symm hc, htail]⟩
      | cons line lines =>
        refine ⟨(c :: line) :: lines, tail, by simp [joinLines_cons], ?_, htail⟩
        simpa [Ne.symm hc] using hlines

variable [DecidableEq α]

/-- Lines that a text begins with are its first lines. -/
theorem joinLines_initial {first : List (List α)} {rest : List α}
    (hlines : ∀ line ∈ lines, sep ∉ line) (hfirst : ∀ line ∈ first, sep ∉ line)
    (eq : joinLines sep lines = joinLines sep first ++ rest) :
    ∃ more, lines = first ++ more ∧ joinLines sep more = rest := by
  induction first generalizing lines with
  | nil => exact ⟨lines, rfl, eq⟩
  | cons line first ih =>
    cases lines with
    | nil => simp [joinLines] at eq
    | cons line' lines =>
      rw [joinLines_cons, joinLines_cons, List.append_assoc, List.cons_append] at eq
      have hlength : line'.length = line.length := by
        have hidx := congrArg (List.idxOf sep) eq
        rwa [List.idxOf_append_of_notMem (hlines line' (by simp)), List.idxOf_cons_self,
          List.idxOf_append_of_notMem (hfirst line (by simp)), List.idxOf_cons_self] at hidx
      obtain ⟨rfl, htail⟩ := List.append_inj eq hlength
      obtain ⟨more, rfl, hmore⟩ := ih (fun l hl => hlines l (by simp [hl]))
        (fun l hl => hfirst l (by simp [hl])) (List.cons.inj htail).2
      exact ⟨more, rfl, hmore⟩

/-- The lines are determined by their text. -/
theorem joinLines_inj {lines' : List (List α)} (hlines : ∀ line ∈ lines, sep ∉ line)
    (hlines' : ∀ line ∈ lines', sep ∉ line) (eq : joinLines sep lines = joinLines sep lines') :
    lines = lines' := by
  obtain ⟨more, rfl, hmore⟩ := joinLines_initial hlines hlines' (by rw [eq, List.append_nil])
  obtain rfl : more = [] := by
    have hle : more.length ≤ (joinLines sep more).length := length_le_joinLines sep more
    rw [hmore] at hle
    exact List.eq_nil_of_length_eq_zero (Nat.le_zero.mp hle)
  rw [List.append_nil]

end Xv6.Math
