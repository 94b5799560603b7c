/-
# The matcher of `grep`

`match`, `matchhere` and `matchstar` of `grep.c`. The functions call each other, so they get a bound
on the depth of the calls, and stop without a result if it is not enough. A pattern and a text are
strings; behind the end of a string the code reads a zero.
-/

import Xv6.Math.Pattern

namespace Xv6

open Math

namespace Grep

/-- `s[i]`, with the zero behind the string. -/
def charAt (s : List UInt8) (i : Nat) : UInt8 := s.getD i 0

/-- The character `^`. -/
def caret : UInt8 := 94

/-- The character `$`. -/
def dollar : UInt8 := 36

/-- The character `.`. -/
def period : UInt8 := 46

/-- The character `*`. -/
def asterisk : UInt8 := 42

mutual

/-- `matchhere`: search for `re` at the beginning of `text`. -/
def matchhere : Nat → List UInt8 → List UInt8 → Option Bool
  | 0, _, _ => none
  | fuel + 1, re, text =>
    if charAt re 0 = 0 then some true
    else if charAt re 1 = asterisk then matchstar fuel (charAt re 0) (re.drop 2) text
    else if charAt re 0 = dollar ∧ charAt re 1 = 0 then some (charAt text 0 == 0)
    else if charAt text 0 ≠ 0 ∧ (charAt re 0 = period ∨ charAt re 0 = charAt text 0) then
      matchhere fuel (re.drop 1) (text.drop 1)
    else some false

/-- `matchstar`: search for `c*re` at the beginning of `text`. -/
def matchstar : Nat → UInt8 → List UInt8 → List UInt8 → Option Bool
  | 0, _, _, _ => none
  | fuel + 1, c, re, text => do
    if ← matchhere fuel re text then some true
    else if charAt text 0 ≠ 0 ∧ (charAt text 0 = c ∨ c = period) then
      matchstar fuel c re (text.drop 1)
    else some false

end

/-- The loop of `match` over the text. -/
def matchFrom : Nat → List UInt8 → List UInt8 → Option Bool
  | 0, _, _ => none
  | fuel + 1, re, text => do
    if ← matchhere fuel re text then some true
    else if charAt text 0 ≠ 0 then matchFrom fuel re (text.drop 1)
    else some false

/-- `match`. -/
def matchRe (fuel : Nat) (re text : List UInt8) : Option Bool :=
  if charAt re 0 = caret then matchhere fuel (re.drop 1) text else matchFrom fuel re text

/-! ### The language of a pattern -/

/-- The characters that a character of a pattern stands for. -/
def letters (c : UInt8) : Set UInt8 := if c = period then Set.univ else {c}

/-- The items of a pattern behind a leading `^`, and whether it ends in `$`. A character before a
`*` is repeated, whatever it is. -/
def parse : List UInt8 → List (Item UInt8) × Bool
  | [] => ([], false)
  | [c] => if c = dollar then ([], true) else ([.one (letters c)], false)
  | c :: d :: re =>
    if d = asterisk then ((.star (letters c) :: (parse re).1), (parse re).2)
    else ((.one (letters c) :: (parse (d :: re)).1), (parse (d :: re)).2)

/-- The pattern that a string stands for. -/
def patternOf : List UInt8 → Pattern UInt8
  | [] => ⟨false, [], false⟩
  | c :: re =>
    if c = caret then ⟨true, (parse re).1, (parse re).2⟩
    else ⟨false, (parse (c :: re)).1, (parse (c :: re)).2⟩

variable {re text : List UInt8}

theorem mem_letters {c x : UInt8} : x ∈ letters c ↔ c = period ∨ c = x := by
  unfold letters
  split
  next h => exact ⟨fun _ => .inl h, fun _ => trivial⟩
  next h => exact ⟨fun hx => .inr hx.symm, fun hx => (hx.resolve_left h).symm⟩

@[simp] theorem charAt_cons_zero (c : UInt8) (s : List UInt8) : charAt (c :: s) 0 = c := rfl

/-- A string without zeros has none at its start or behind. -/
theorem nulFree_cons {c : UInt8} {s : List UInt8} (nulFree : 0 ∉ c :: s) : c ≠ 0 ∧ 0 ∉ s := by
  rw [List.mem_cons, not_or] at nulFree
  exact ⟨fun h => nulFree.1 h.symm, nulFree.2⟩

/-! ### Correctness -/

/-- The call returns, with the answer to `p`. -/
def Answers (result : Option Bool) (p : Prop) : Prop := ∃ b, result = some b ∧ (b = true ↔ p)

theorem Answers.congr {result : Option Bool} {p q : Prop} (answers : Answers result p)
    (same : p ↔ q) : Answers result q := by
  obtain ⟨b, hresult, hb⟩ := answers
  exact ⟨b, hresult, hb.trans same⟩

/-- A search that goes on with the rest of the text if there is no match here. -/
theorem Answers.search {here more : Option Bool} {go : Prop} [Decidable go] {p r : Prop}
    (q : Prop) (first : Answers here p) (rest : go → Answers more q) (same : r ↔ p ∨ go ∧ q) :
    Answers (do if ← here then some true else if go then more else some false) r := by
  rw [same]
  obtain ⟨b, rfl, hb⟩ := first
  cases b with
  | true => exact ⟨true, rfl, fun _ => .inl (hb.mp rfl), fun _ => rfl⟩
  | false =>
    have hp : ¬ p := fun h => Bool.false_ne_true (hb.mpr h)
    by_cases h : go
    · obtain ⟨b, rfl, hb⟩ := rest h
      refine ⟨b, if_pos h, hb.trans ⟨fun hq => .inr ⟨h, hq⟩, fun hor => (hor.resolve_left hp).2⟩⟩
    · exact ⟨false, if_neg h, nofun, fun hor => absurd (hor.resolve_left hp).1 h⟩

/-- `matchstar`, if `matchhere` is right for the rest of the pattern. -/
theorem matchstar_answers {items : List (Item UInt8)} {toEnd : Bool} (c : UInt8)
    (here : ∀ fuel text, 0 ∉ text → 2 * re.length + text.length + 1 ≤ fuel →
      Answers (matchhere fuel re text) (MatchesHere items toEnd text))
    (fuel : Nat) (text : List UInt8) (nulFree : 0 ∉ text)
    (enough : 2 * re.length + text.length + 2 ≤ fuel) :
    Answers (matchstar fuel c re text) (MatchesHere (.star (letters c) :: items) toEnd text) := by
  obtain ⟨fuel, rfl⟩ : ∃ k, fuel = k + 1 := ⟨fuel - 1, by omega⟩
  induction text generalizing fuel with
  | nil =>
    have hgo : ¬ (charAt [] 0 ≠ 0 ∧ (charAt [] 0 = c ∨ c = period)) := fun h => h.1 rfl
    refine Answers.search False (here fuel [] nulFree (by omega)) (fun h => absurd h hgo) ?_
    rw [matchesHere_star_nil, and_false, or_false]
  | cons x text ih =>
    obtain ⟨hx, hfree⟩ := nulFree_cons nulFree
    rw [List.length_cons] at enough
    refine Answers.search (MatchesHere (.star (letters c) :: items) toEnd text)
      (here fuel (x :: text) nulFree (by rw [List.length_cons]; omega)) (fun _ => ?_) ?_
    · obtain ⟨fuel, rfl⟩ : ∃ k, fuel = k + 1 := ⟨fuel - 1, by omega⟩
      exact ih hfree fuel (by omega)
    · have hgo : charAt (x :: text) 0 ≠ 0 ∧ (charAt (x :: text) 0 = c ∨ c = period) ↔
          x ∈ letters c := by
        rw [mem_letters, or_comm, eq_comm (a := c) (b := x)]
        exact and_iff_right hx
      rw [matchesHere_star_cons, hgo]

theorem matchhere_cons {c : UInt8} (present : c ≠ 0) (fuel : Nat) (re text : List UInt8) :
    matchhere (fuel + 1) (c :: re) text =
      if charAt re 0 = asterisk then matchstar fuel c (re.drop 1) text
      else if c = dollar ∧ charAt re 0 = 0 then some (charAt text 0 == 0)
      else if charAt text 0 ≠ 0 ∧ (c = period ∨ c = charAt text 0) then
        matchhere fuel re (text.drop 1)
      else some false := by
  rw [matchhere]
  exact if_neg present

/-- A character that stands for one character. -/
theorem one_answers {items : List (Item UInt8)} {toEnd : Bool} {fuel : Nat} (c : UInt8)
    (nulFree : 0 ∉ text)
    (rest : ∀ x rest, text = x :: rest → Answers (matchhere fuel re rest)
      (MatchesHere items toEnd rest)) :
    Answers (if charAt text 0 ≠ 0 ∧ (c = period ∨ c = charAt text 0) then
        matchhere fuel re (text.drop 1) else some false)
      (MatchesHere (.one (letters c) :: items) toEnd text) := by
  cases text with
  | nil => exact ⟨false, if_neg fun h => h.1 rfl, nofun, fun h => absurd h matchesHere_one_nil⟩
  | cons x text =>
    have hx := (nulFree_cons nulFree).1
    have hgo : charAt (x :: text) 0 ≠ 0 ∧ (c = period ∨ c = charAt (x :: text) 0) ↔
        x ∈ letters c := by
      rw [mem_letters]
      exact and_iff_right hx
    rw [matchesHere_one_cons, ← hgo]
    by_cases h : charAt (x :: text) 0 ≠ 0 ∧ (c = period ∨ c = charAt (x :: text) 0)
    · rw [if_pos h]
      exact (rest x text rfl).congr (and_iff_right h).symm
    · exact ⟨false, if_neg h, nofun, fun h' => absurd h'.1 h⟩

/-- `matchhere` decides whether the text begins with a word of the pattern. -/
theorem matchhere_answers (re : List UInt8) (free : 0 ∉ re) (fuel : Nat) (text : List UInt8)
    (nulFree : 0 ∉ text) (enough : 2 * re.length + text.length + 1 ≤ fuel) :
    Answers (matchhere fuel re text) (MatchesHere (parse re).1 (parse re).2 text) := by
  have hempty (fuel : Nat) (text : List UInt8) :
      Answers (matchhere (fuel + 1) [] text) (MatchesHere [] false text) :=
    ⟨true, by rw [matchhere]; exact if_pos rfl, fun _ => matchesHere_nil.mpr nofun, fun _ => rfl⟩
  obtain ⟨fuel, rfl⟩ : ∃ k, fuel = k + 1 := ⟨fuel - 1, by omega⟩
  induction re using parse.induct generalizing fuel text with
  | case1 => exact hempty fuel text
  | case2 =>
    -- the last character is `$`
    rw [matchhere_cons (by decide), if_neg (by decide), if_pos ⟨rfl, rfl⟩, parse, if_pos rfl,
      matchesHere_nil]
    cases text with
    | nil => exact ⟨true, rfl, fun _ _ => rfl, fun _ => rfl⟩
    | cons x rest =>
      refine ⟨charAt (x :: rest) 0 == 0, rfl, fun h => ?_, fun h => nomatch h rfl⟩
      exact absurd (eq_of_beq h) (nulFree_cons nulFree).1
  | case3 c hc =>
    rw [matchhere_cons (nulFree_cons free).1, if_neg (by decide), if_neg fun h => hc h.1, parse,
      if_neg hc]
    refine one_answers c nulFree fun x rest htext => ?_
    rw [List.length_singleton] at enough
    obtain ⟨fuel, rfl⟩ : ∃ k, fuel = k + 1 := ⟨fuel - 1, by omega⟩
    exact hempty fuel rest
  | case4 c re ih =>
    obtain ⟨hc, hfree⟩ := nulFree_cons free
    rw [matchhere_cons hc, charAt_cons_zero, if_pos rfl, parse, if_pos rfl]
    rw [List.length_cons, List.length_cons] at enough
    refine matchstar_answers c (fun fuel text nulFree enough => ?_) fuel text nulFree
      (by rw [List.drop_one, List.tail_cons]; omega)
    obtain ⟨fuel, rfl⟩ : ∃ k, fuel = k + 1 := ⟨fuel - 1, by omega⟩
    exact ih (nulFree_cons hfree).2 text nulFree fuel enough
  | case5 c d re hd ih =>
    obtain ⟨hc, hfree⟩ := nulFree_cons free
    have hnext := (nulFree_cons hfree).1
    rw [matchhere_cons hc, charAt_cons_zero, if_neg hd, if_neg fun h => hnext h.2, parse,
      if_neg hd]
    refine one_answers c nulFree fun x rest htext => ?_
    rw [htext] at nulFree enough
    simp only [List.length_cons] at enough
    obtain ⟨fuel, rfl⟩ : ∃ k, fuel = k + 1 := ⟨fuel - 1, by omega⟩
    rw [List.length_cons] at ih
    exact ih hfree rest (nulFree_cons nulFree).2 fuel (by omega)

theorem matchFrom_answers (re : List UInt8) (free : 0 ∉ re) (fuel : Nat) (text : List UInt8)
    (nulFree : 0 ∉ text) (enough : 2 * re.length + text.length + 2 ≤ fuel) :
    Answers (matchFrom fuel re text)
      ((Pattern.mk false (parse re).1 (parse re).2).Matches text) := by
  obtain ⟨fuel, rfl⟩ : ∃ k, fuel = k + 1 := ⟨fuel - 1, by omega⟩
  have hhere := matchhere_answers re free fuel text nulFree (by omega)
  induction text generalizing fuel with
  | nil =>
    refine Answers.search False hhere (fun h => absurd rfl h) ?_
    rw [Pattern.matches_anywhere, and_false, or_false]
    exact or_iff_left nofun
  | cons x text ih =>
    obtain ⟨hx, hfree⟩ := nulFree_cons nulFree
    rw [List.length_cons] at enough
    refine Answers.search ((Pattern.mk false (parse re).1 (parse re).2).Matches text) hhere
      (fun _ => ?_) ?_
    · obtain ⟨fuel, rfl⟩ : ∃ k, fuel = k + 1 := ⟨fuel - 1, by omega⟩
      exact ih hfree fuel (by omega) (matchhere_answers re free fuel text hfree (by omega))
    · rw [Pattern.matches_anywhere]
      refine or_congr_right ⟨?_, fun h => ⟨x, text, rfl, h.2⟩⟩
      rintro ⟨_, _, h, hmatches⟩
      cases h
      exact ⟨hx, hmatches⟩

theorem matchRe_answers (re text : List UInt8) (free : 0 ∉ re) (nulFree : 0 ∉ text) (fuel : Nat)
    (enough : 2 * re.length + text.length + 2 ≤ fuel) :
    Answers (matchRe fuel re text) ((patternOf re).Matches text) := by
  match re with
  | [] => exact matchFrom_answers [] free fuel text nulFree enough
  | c :: re =>
    rw [matchRe, patternOf, charAt_cons_zero]
    by_cases hc : c = caret
    · rw [if_pos hc, if_pos hc, Pattern.matches_fromStart]
      rw [List.length_cons] at enough
      exact matchhere_answers re (nulFree_cons free).2 fuel text nulFree (by omega)
    · rw [if_neg hc, if_neg hc]
      exact matchFrom_answers (c :: re) free fuel text nulFree enough

/-- `match` returns for every pattern and text, and it returns 1 exactly if a part of the text is in
the language of the pattern. -/
theorem match_returns_language (re text : List UInt8) (free : 0 ∉ re) (nulFree : 0 ∉ text)
    (fuel : Nat) (enough : 2 * re.length + text.length + 2 ≤ fuel) :
    ∃ b, matchRe fuel re text = some b ∧ (b = true ↔ (patternOf re).Matches text) :=
  matchRe_answers re text free nulFree fuel enough

/-- `a*b` matches a part of `xaab`. -/
theorem match_returns_language_star : (patternOf [97, 42, 98]).Matches [120, 97, 97, 98] := by
  obtain ⟨b, hrun, hmatches⟩ := match_returns_language [97, 42, 98] [120, 97, 97, 98] (by decide)
    (by decide) 12 (by decide)
  have hone : matchRe 12 [97, 42, 98] [120, 97, 97, 98] = some true := by decide
  rw [hone] at hrun
  exact hmatches.mp (Option.some.inj hrun).symm

-- a `*` with nothing before it, a `$` before another character and a `^` behind the first one
example : matchRe 12 [42, 97] [120, 42, 97] = some true := by decide
example : matchRe 12 [36, 97] [36, 97] = some true := by decide
example : matchRe 12 [97, 94] [97, 94] = some true := by decide

end Grep

end Xv6
