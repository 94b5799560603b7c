/-
# Simple patterns

A pattern is a row of letter sets, each to be met once or any number of times. It may be bound to
the start or the end of a text. A text matches if one of its parts is a word of the language of the
row. For a search it is enough to know when the row matches the beginning of a text, and how this
follows from the rest of the row.
-/

import Mathlib

namespace Xv6.Math

open scoped Computability

variable {α : Type*}

/-- Some letter of a set, once or any number of times. -/
inductive Item (α : Type*) where
  | one (letters : Set α)
  | star (letters : Set α)

/-- The words of one letter. -/
def letterWords (letters : Set α) : Language α := { word | ∃ x ∈ letters, word = [x] }

/-- The words that an item stands for. -/
def Item.words : Item α → Language α
  | one letters => letterWords letters
  | star letters => (letterWords letters)∗

/-- The language of a row of items. -/
def rowWords (items : List (Item α)) : Language α := (items.map Item.words).prod

/-- A row of items, with what it is bound to. -/
structure Pattern (α : Type*) where
  fromStart : Bool
  items : List (Item α)
  toEnd : Bool

/-- A part of the text is in the language of the pattern, and where the pattern is bound to. -/
def Pattern.Matches (p : Pattern α) (text : List α) : Prop :=
  ∃ before word after, text = before ++ word ++ after ∧ word ∈ rowWords p.items ∧
    (p.fromStart = true → before = []) ∧ (p.toEnd = true → after = [])

/-- The text begins with a word of the row, or is one. -/
def MatchesHere (items : List (Item α)) (toEnd : Bool) (text : List α) : Prop :=
  ∃ word after, text = word ++ after ∧ word ∈ rowWords items ∧ (toEnd = true → after = [])

variable {letters : Set α} {items : List (Item α)} {toEnd : Bool} {text : List α}

theorem mem_letterWords_mul {rest : Language α} {word : List α} :
    word ∈ letterWords letters * rest ↔ ∃ x ∈ letters, ∃ u ∈ rest, word = x :: u := by
  rw [Language.mem_mul]
  constructor
  · rintro ⟨_, ⟨x, hx, rfl⟩, u, hu, rfl⟩
    exact ⟨x, hx, u, hu, rfl⟩
  · rintro ⟨x, hx, u, hu, rfl⟩
    exact ⟨[x], ⟨x, hx, rfl⟩, u, hu, rfl⟩

theorem rowWords_cons (item : Item α) (items : List (Item α)) :
    rowWords (item :: items) = item.words * rowWords items := by
  rw [rowWords, List.map_cons, List.prod_cons]
  rfl

/-- A star is nothing, or a letter and the star again. -/
theorem rowWords_star (letters : Set α) (items : List (Item α)) :
    rowWords (.star letters :: items) =
      rowWords items + letterWords letters * rowWords (.star letters :: items) := by
  rw [rowWords_cons, Item.words, ← mul_assoc]
  nth_rewrite 1 [← Language.one_add_self_mul_kstar_eq_kstar]
  rw [add_mul, one_mul]

theorem matchesHere_nil : MatchesHere ([] : List (Item α)) toEnd text ↔
    (toEnd = true → text = []) := by
  constructor
  · rintro ⟨word, after, rfl, hword, hend⟩ h
    have hnil : word = [] := hword
    rw [hnil, hend h]
    rfl
  · exact fun h => ⟨[], text, rfl, rfl, h⟩

/-- A letter and a match behind it. -/
theorem matchesHere_letter (words : Language α) :
    (∃ word after, text = word ++ after ∧ word ∈ letterWords letters * words ∧
        (toEnd = true → after = [])) ↔
      ∃ x rest, text = x :: rest ∧ x ∈ letters ∧
        ∃ word after, rest = word ++ after ∧ word ∈ words ∧ (toEnd = true → after = []) := by
  constructor
  · rintro ⟨_, after, rfl, hword, hend⟩
    obtain ⟨x, hx, u, hu, rfl⟩ := mem_letterWords_mul.mp hword
    exact ⟨x, u ++ after, rfl, hx, u, after, rfl, hu, hend⟩
  · rintro ⟨x, _, rfl, hx, u, after, rfl, hu, hend⟩
    exact ⟨x :: u, after, rfl, mem_letterWords_mul.mpr ⟨x, hx, u, hu, rfl⟩, hend⟩

theorem matchesHere_one : MatchesHere (.one letters :: items) toEnd text ↔
    ∃ x rest, text = x :: rest ∧ x ∈ letters ∧ MatchesHere items toEnd rest := by
  rw [MatchesHere, rowWords_cons]
  exact matchesHere_letter _

theorem matchesHere_star : MatchesHere (.star letters :: items) toEnd text ↔
    MatchesHere items toEnd text ∨
      ∃ x rest, text = x :: rest ∧ x ∈ letters ∧
        MatchesHere (.star letters :: items) toEnd rest := by
  have hstep (word : List α) : word ∈ rowWords (.star letters :: items) ↔
      word ∈ rowWords items ∨ word ∈ letterWords letters * rowWords (.star letters :: items) := by
    rw [← Language.mem_add, ← rowWords_star]
  constructor
  · rintro ⟨word, after, rfl, hword, hend⟩
    rcases (hstep word).mp hword with h | h
    · exact .inl ⟨word, after, rfl, h, hend⟩
    · exact .inr ((matchesHere_letter _).mp ⟨word, after, rfl, h, hend⟩)
  · rintro (⟨word, after, rfl, hword, hend⟩ | h)
    · exact ⟨word, after, rfl, (hstep word).mpr (.inl hword), hend⟩
    · obtain ⟨word, after, htext, hword, hend⟩ := (matchesHere_letter _).mpr h
      exact ⟨word, after, htext, (hstep word).mpr (.inr hword), hend⟩

/-! ### By the first letter of the text -/

theorem matchesHere_one_nil : ¬ MatchesHere (.one letters :: items) toEnd [] := by
  rw [matchesHere_one]
  exact nofun

theorem matchesHere_one_cons {x : α} : MatchesHere (.one letters :: items) toEnd (x :: text) ↔
    x ∈ letters ∧ MatchesHere items toEnd text := by
  rw [matchesHere_one]
  refine ⟨?_, fun h => ⟨x, text, rfl, h⟩⟩
  rintro ⟨_, _, h, hx⟩
  cases h
  exact hx

theorem matchesHere_star_nil : MatchesHere (.star letters :: items) toEnd [] ↔
    MatchesHere items toEnd [] := by
  rw [matchesHere_star]
  exact or_iff_left nofun

theorem matchesHere_star_cons {x : α} : MatchesHere (.star letters :: items) toEnd (x :: text) ↔
    MatchesHere items toEnd (x :: text) ∨
      x ∈ letters ∧ MatchesHere (.star letters :: items) toEnd text := by
  rw [matchesHere_star]
  refine or_congr_right ⟨?_, fun h => ⟨x, text, rfl, h⟩⟩
  rintro ⟨_, _, h, hx⟩
  cases h
  exact hx

theorem Pattern.matches_fromStart {items : List (Item α)} :
    (Pattern.mk true items toEnd).Matches text ↔ MatchesHere items toEnd text := by
  constructor
  · rintro ⟨before, word, after, rfl, hword, hstart, hend⟩
    rw [hstart rfl]
    exact ⟨word, after, rfl, hword, hend⟩
  · rintro ⟨word, after, rfl, hword, hend⟩
    exact ⟨[], word, after, rfl, hword, fun _ => rfl, hend⟩

/-- A pattern that is not bound to the start matches at the beginning of the text, or behind its
first letter. -/
theorem Pattern.matches_anywhere {items : List (Item α)} :
    (Pattern.mk false items toEnd).Matches text ↔ MatchesHere items toEnd text ∨
      ∃ x rest, text = x :: rest ∧ (Pattern.mk false items toEnd).Matches rest := by
  constructor
  · rintro ⟨before, word, after, rfl, hword, -, hend⟩
    match before with
    | [] => exact .inl ⟨word, after, rfl, hword, hend⟩
    | x :: before =>
      exact .inr ⟨x, before ++ word ++ after, rfl, before, word, after, rfl, hword, nofun, hend⟩
  · rintro (⟨word, after, rfl, hword, hend⟩ | ⟨x, _, rfl, before, word, after, rfl, hword, -, hend⟩)
    · exact ⟨[], word, after, rfl, hword, nofun, hend⟩
    · exact ⟨x :: before, word, after, rfl, hword, nofun, hend⟩

end Xv6.Math
