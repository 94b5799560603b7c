/-
# Tokens and grammar of the shell

The tokens of a line and the derivations of command trees from them, in the words of the
grammar. The second half connects the cursor of the parser with the tokens: `peek` looks at the
first token that is left, and `gettoken` takes it off.
-/

import Mathlib
import Xv6.Sh.Parse

namespace Xv6

open Math

namespace Sh

/-! ### Tokens -/

inductive Tok where
  | word (w : List UInt8)
  | less
  | more
  | append
  | bar
  | amp
  | semi
  | lpar
  | rpar
deriving DecidableEq

/-- The token of a symbol that stands for itself. -/
def symbolTok (c : UInt8) : Option Tok :=
  if c = less then some .less
  else if c = bar then some .bar
  else if c = amp then some .amp
  else if c = semi then some .semi
  else if c = lpar then some .lpar
  else if c = rpar then some .rpar
  else none

/-- The tokens of a line: symbols, `>>` read as one symbol, and maximal runs of the characters
that are neither whitespace nor symbols. -/
def tokens : List UInt8 → List Tok
  | [] => []
  | c :: cs =>
    if isSpace c then tokens cs
    else if c = more then
      if cs.head? = some more then .append :: tokens cs.tail else .more :: tokens cs
    else match symbolTok c with
      | some t => t :: tokens cs
      | none => .word (c :: cs.takeWhile isWordChar) :: tokens (cs.dropWhile isWordChar)
termination_by cs => cs.length
decreasing_by
  all_goals simp only [List.length_cons, List.length_tail]
  all_goals first
    | omega
    | exact Nat.lt_succ_of_le (List.dropWhile_suffix _).length_le

/-! ### Derivations -/

/-- A redirection: its symbol and its file. -/
inductive Redir where
  | input (file : List UInt8)
  | output (file : List UInt8)
  | append (file : List UInt8)

namespace Redir

/-- `redir ::= ('<' | '>' | '>>') word` -/
def toks : Redir → List Tok
  | input file => [.less, .word file]
  | output file => [.more, .word file]
  | append file => [.append, .word file]

/-- The command with the redirection around it. -/
def wrap (cmd : Cmd (List UInt8)) : Redir → Cmd (List UInt8)
  | input file => .redir cmd file O_RDONLY 0
  | output file => .redir cmd file (O_WRONLY ||| O_CREATE) 1
  | append file => .redir cmd file (O_WRONLY ||| O_CREATE) 1

end Redir

/-- Redirections wrap a command in their order, later ones outermost. -/
def wrapAll (cmd : Cmd (List UInt8)) (rs : List Redir) : Cmd (List UInt8) := rs.foldl Redir.wrap cmd

/-- A word and the redirections that follow it. -/
abbrev Arg := List UInt8 × List Redir

/-- `(word redir*)*` -/
def argToks (args : List Arg) : List Tok :=
  args.flatMap fun a => .word a.1 :: a.2.flatMap Redir.toks

/-- `n` times `BACK` around a command. -/
def backs (n : Nat) (cmd : Cmd (List UInt8)) : Cmd (List UInt8) := Cmd.back^[n] cmd

mutual

/-- `line ::= pipe '&'* [';' line]` -/
inductive Line : List Tok → Cmd (List UInt8) → Prop where
  | last {ts cmd} (n : Nat) : Pipe ts cmd → Line (ts ++ List.replicate n .amp) (backs n cmd)
  | list {ts us cmd right} (n : Nat) : Pipe ts cmd → Line us right →
      Line (ts ++ List.replicate n .amp ++ .semi :: us) (.list (backs n cmd) right)

/-- `pipe ::= exec ['|' pipe]` -/
inductive Pipe : List Tok → Cmd (List UInt8) → Prop where
  | last {ts cmd} : Exec ts cmd → Pipe ts cmd
  | pipe {ts us cmd right} : Exec ts cmd → Pipe us right →
      Pipe (ts ++ .bar :: us) (.pipe cmd right)

/-- `exec ::= '(' line ')' redir* | redir* (word redir*)*` with at most `MAXARGS - 1` words. -/
inductive Exec : List Tok → Cmd (List UInt8) → Prop where
  | block {ts cmd} (rs : List Redir) : Line ts cmd →
      Exec (.lpar :: ts ++ .rpar :: rs.flatMap Redir.toks) (wrapAll cmd rs)
  | simple (rs : List Redir) (args : List Arg) : args.length ≤ MAXARGS - 1 →
      Exec (rs.flatMap Redir.toks ++ argToks args)
        (wrapAll (.exec (args.map Prod.fst)) (rs ++ args.flatMap Prod.snd))

end

/-! ### What the cursor sees -/

section Cursor

variable {text : List UInt8} {s : Nat}

theorem drop_eq_cons (h : s < text.length) :
    text.drop s = charAt text s :: text.drop (s + 1) := by
  rw [charAt, List.getD_eq_getElem _ _ h]
  exact List.drop_eq_getElem_cons h

variable {c : UInt8} {cs : List UInt8}

theorem charAt_eq_of_drop (h : text.drop s = c :: cs) :
    charAt text s = c ∧ text.drop (s + 1) = cs := by
  have hs : s < text.length := by
    by_contra hn
    rw [List.drop_eq_nil_of_le (by omega)] at h
    cases h
  rw [drop_eq_cons hs, List.cons.injEq] at h
  exact h

theorem charAt_of_drop_nil (h : text.drop s = []) : charAt text s = 0 := by
  rw [charAt, List.getD_eq_default _ _ (List.drop_eq_nil_iff.mp h)]

/-- The end of the text is the only NUL that the parser meets. -/
theorem charAt_eq_zero_iff (nulFree : 0 ∉ text) : charAt text s = 0 ↔ text.drop s = [] := by
  constructor
  · intro h
    by_contra hne
    obtain ⟨c, cs, hcs⟩ := List.exists_cons_of_ne_nil hne
    have hmem : c ∈ text := List.mem_of_mem_drop (by rw [hcs]; exact List.mem_cons_self)
    rw [(charAt_eq_of_drop hcs).1] at h
    exact nulFree (h ▸ hmem)
  · exact charAt_of_drop_nil

theorem skipLoop_eq (p : UInt8 → Bool) {fuel : Nat} (enough : text.length - s ≤ fuel) :
    skipLoop text p fuel s = s + ((text.drop s).takeWhile p).length := by
  induction fuel generalizing s with
  | zero => rw [skipLoop, List.drop_eq_nil_of_le (by omega)]; rfl
  | succ fuel ih =>
    rw [skipLoop]
    by_cases hs : s < text.length
    · rw [drop_eq_cons hs, List.takeWhile_cons]
      by_cases hp : p (charAt text s) = true
      · rw [if_pos ⟨hs, hp⟩, if_pos hp, ih (by omega), List.length_cons]
        omega
      · rw [if_neg fun h => hp h.2, if_neg hp]
        rfl
    · rw [if_neg fun h => hs h.1, List.drop_eq_nil_of_le (by omega)]
      rfl

theorem skip_eq (text : List UInt8) (p : UInt8 → Bool) (s : Nat) :
    skip text p s = s + ((text.drop s).takeWhile p).length := skipLoop_eq p le_rfl

theorem drop_skip (text : List UInt8) (p : UInt8 → Bool) (s : Nat) :
    text.drop (skip text p s) = (text.drop s).dropWhile p := by
  have hsplit := List.takeWhile_append_dropWhile (p := p) (l := text.drop s)
  rw [skip_eq, ← List.drop_drop]
  nth_rewrite 2 [← hsplit]
  rw [List.drop_left]

/-- The tokens from the cursor on. -/
def toks (text : List UInt8) (s : Nat) : List Tok := tokens (text.drop s)

theorem tokens_nil : tokens [] = [] := by rw [tokens]

theorem tokens_space (h : isSpace c = true) : tokens (c :: cs) = tokens cs := by
  rw [tokens, if_pos h]

theorem tokens_dropWhile (cs : List UInt8) : tokens (cs.dropWhile isSpace) = tokens cs := by
  induction cs with
  | nil => rfl
  | cons c cs ih =>
    by_cases h : isSpace c = true
    · rw [List.dropWhile_cons_of_pos h, ih, tokens_space h]
    · rw [List.dropWhile_cons_of_neg h]

theorem toks_skip (text : List UInt8) (s : Nat) :
    toks text (skip text isSpace s) = toks text s := by
  rw [toks, drop_skip, tokens_dropWhile, toks]

/-- The character that starts a token other than a word. -/
def Tok.first : Tok → Option UInt8
  | word _ => none
  | less => some Sh.less
  | more => some Sh.more
  | append => some Sh.more
  | bar => some Sh.bar
  | amp => some Sh.amp
  | semi => some Sh.semi
  | lpar => some Sh.lpar
  | rpar => some Sh.rpar

/-- What `gettoken` returns for a token. -/
def Tok.code : Tok → UInt8
  | word _ => Sh.word
  | less => Sh.less
  | more => Sh.more
  | append => Sh.append
  | bar => Sh.bar
  | amp => Sh.amp
  | semi => Sh.semi
  | lpar => Sh.lpar
  | rpar => Sh.rpar

/-- The string between the pointers is a maximal run of word characters. -/
structure Span.Spells (text : List UInt8) (span : Span) (w : List UInt8) : Prop where
  run : w = (text.drop span.q).takeWhile isWordChar
  stop : span.eq = span.q + w.length

theorem isWordChar_iff (h : isSpace c ≠ true) :
    isWordChar c = true ↔ c ≠ more ∧ symbolTok c = none := by
  have hspace : whitespace.contains c = false := Bool.not_eq_true _ ▸ h
  unfold isWordChar symbolTok symbols
  rw [hspace]
  simp only [List.contains_eq_mem, List.mem_cons, List.not_mem_nil, or_false]
  grind

/-- The token at the cursor, if the cursor is not at whitespace. -/
theorem scan_spec (nulFree : 0 ∉ text) (here : text.drop s = c :: cs) (space : isSpace c ≠ true) :
    ∃ t, tokens (c :: cs) = t :: toks text (scan text s).2 ∧ (scan text s).1 = t.code ∧
      t.first = (if isWordChar c then none else some c) ∧
      ∀ w, t = .word w → Span.Spells text ⟨s, (scan text s).2⟩ w := by
  obtain ⟨hchar, hnext⟩ := charAt_eq_of_drop here
  have hzero : charAt text s ≠ 0 := by
    rw [Ne, charAt_eq_zero_iff nulFree, here]
    exact List.cons_ne_nil _ _
  rw [hchar] at hzero
  rw [tokens, if_neg space]
  unfold scan
  rw [hchar, if_neg hzero]
  by_cases hmore : c = more
  · -- the only symbol that looks at the next character
    subst hmore
    have hmem : more ∉ [bar, lpar, rpar, semi, amp, less] := by decide
    rw [if_pos rfl, if_neg hmem, if_pos rfl]
    cases cs with
    | nil =>
      rw [charAt_of_drop_nil hnext, if_neg (show ¬ (0 : UInt8) = more by decide), if_neg nofun]
      exact ⟨.more, by rw [toks, hnext], rfl, rfl, nofun⟩
    | cons d ds =>
      obtain ⟨hchar', hnext'⟩ := charAt_eq_of_drop hnext
      rw [hchar']
      by_cases hd : d = more
      · rw [if_pos hd, if_pos (show (d :: ds).head? = some more by rw [hd]; rfl)]
        exact ⟨.append, by rw [toks, hnext']; rfl, rfl, rfl, nofun⟩
      · rw [if_neg hd, if_neg (show ¬ (d :: ds).head? = some more by simpa using hd)]
        exact ⟨.more, by rw [toks, hnext], rfl, rfl, nofun⟩
  · rw [if_neg hmore]
    cases hsym : symbolTok c with
    | some t =>
      have hword : isWordChar c ≠ true := by
        rw [Ne, isWordChar_iff space, hsym]
        exact fun h => nomatch h.2
      have hmem : c ∈ [bar, lpar, rpar, semi, amp, less] := by
        unfold symbolTok at hsym
        grind
      rw [if_pos hmem, if_neg hword]
      refine ⟨t, by rw [toks, hnext], ?_, ?_, ?_⟩ <;>
      · unfold symbolTok at hsym
        grind [Tok.code, Tok.first]
    | none =>
      have hword : isWordChar c = true := (isWordChar_iff space).mpr ⟨hmore, hsym⟩
      have hmem : c ∉ [bar, lpar, rpar, semi, amp, less] := by
        unfold symbolTok at hsym
        grind
      rw [if_neg hmem, if_neg hmore, if_pos hword]
      refine ⟨.word (c :: cs.takeWhile isWordChar), ?_, rfl, rfl, ?_⟩
      · dsimp only
        rw [toks, drop_skip, here, List.dropWhile_cons_of_pos hword]
      · rintro w ⟨⟩
        refine ⟨?_, ?_⟩
        · rw [here, List.takeWhile_cons_of_pos hword]
        · dsimp only
          rw [skip_eq, here, List.takeWhile_cons_of_pos hword]

/-- The cursor behind whitespace is at a token or at the end. -/
theorem skip_cases (nulFree : 0 ∉ text) :
    toks text s = [] ∧ text.drop (skip text isSpace s) = [] ∨
    ∃ c cs t, text.drop (skip text isSpace s) = c :: cs ∧ isSpace c ≠ true ∧
      toks text s = t :: toks text (scan text (skip text isSpace s)).2 ∧
      (scan text (skip text isSpace s)).1 = t.code ∧
      t.first = (if isWordChar c then none else some c) ∧
      ∀ w, t = .word w →
        Span.Spells text ⟨skip text isSpace s, (scan text (skip text isSpace s)).2⟩ w := by
  rw [← toks_skip]
  cases hdrop : text.drop (skip text isSpace s) with
  | nil => exact Or.inl ⟨by rw [toks, hdrop, tokens_nil], rfl⟩
  | cons c cs =>
    have hspace : isSpace c ≠ true := by
      rw [drop_skip] at hdrop
      have hhead := List.head?_dropWhile_not isSpace (text.drop s)
      rw [hdrop] at hhead
      simpa using hhead
    obtain ⟨t, htoks, hspec⟩ := scan_spec nulFree hdrop hspace
    exact Or.inr ⟨c, cs, t, rfl, hspace, by rw [toks, hdrop]; exact htoks, hspec⟩

/-- `gettoken` at the end of the line. -/
theorem gettoken_nil (nulFree : 0 ∉ text) (h : toks text s = []) :
    ∃ span s', (gettoken text).run s = .ok (0, span) s' ∧ toks text s' = [] := by
  rcases skip_cases (s := s) nulFree with ⟨_, hend⟩ | ⟨_, _, _, _, _, htoks, _⟩
  · have hscan : scan text (skip text isSpace s) = (0, skip text isSpace s) := by
      rw [scan, charAt_of_drop_nil hend, if_pos rfl]
    refine ⟨⟨skip text isSpace s, skip text isSpace s⟩,
      skip text isSpace (skip text isSpace s), ?_, ?_⟩
    · change EStateM.Result.ok ((scan text _).1, Span.mk _ (scan text _).2)
        (skip text isSpace (scan text _).2) = _
      rw [hscan]
    · rw [toks_skip, toks, hend, tokens_nil]
  · rw [h] at htoks
    cases htoks

/-- `gettoken` takes the first token. -/
theorem gettoken_cons (nulFree : 0 ∉ text) {t : Tok} {ts : List Tok} (h : toks text s = t :: ts) :
    ∃ span s', (gettoken text).run s = .ok (t.code, span) s' ∧ toks text s' = ts ∧
      ∀ w, t = .word w → span.Spells text w := by
  rcases skip_cases (s := s) nulFree with ⟨hnil, _⟩ | ⟨c, cs, t', _, _, htoks, hcode, _, hword⟩
  · rw [h] at hnil
    cases hnil
  · rw [h, List.cons.injEq] at htoks
    obtain ⟨rfl, rfl⟩ := htoks
    refine ⟨⟨skip text isSpace s, _⟩, _, ?_, toks_skip .., hword⟩
    rw [← hcode]
    rfl

/-- `peek` compares the first token with a set of symbols. -/
theorem peek_run (nulFree : 0 ∉ text) {set : List UInt8}
    (sub : set.all symbols.contains = true) :
    ∃ s', (peek text set).run s =
        .ok ((toks text s).head?.any fun t => t.first.any set.contains) s' ∧
      toks text s' = toks text s := by
  refine ⟨skip text isSpace s, ?_, toks_skip text s⟩
  change EStateM.Result.ok (decide (charAt text (skip text isSpace s) ≠ 0 ∧
    set.contains (charAt text (skip text isSpace s)) = true)) _ = _
  rcases skip_cases (s := s) nulFree with
    ⟨hnil, hend⟩ | ⟨c, cs, t, hdrop, hspace, htoks, _, hfirst, _⟩
  · rw [hnil, charAt_of_drop_nil hend]
    rfl
  · have hchar := (charAt_eq_of_drop hdrop).1
    have hzero : c ≠ 0 := by
      rw [← hchar, Ne, charAt_eq_zero_iff nulFree, hdrop]
      exact List.cons_ne_nil _ _
    rw [hchar, htoks]
    congr 1
    rw [List.head?_cons, Option.any_some, hfirst]
    by_cases hword : isWordChar c = true
    · have hnot : ¬ set.contains c = true := by
        intro hmem
        have hsymbol := List.all_eq_true.mp sub c (List.contains_iff_mem.mp hmem)
        rw [isWordChar, hsymbol] at hword
        simp at hword
      rw [if_pos hword, Option.any_none, decide_eq_false fun h => hnot h.2]
    · rw [if_neg hword, Option.any_some]
      simp [hzero]

end Cursor

end Sh

end Xv6
