/-
# The shell accepts its grammar

After `nulterminate` the strings of the tree are the words of the line, and `parsecmd` takes
exactly the lines that the grammar derives.
-/

import Xv6.Sh.Complete

namespace Xv6

open Math

namespace Sh

variable {text : List UInt8} {s : Nat}

/-! ### The strings of the tree -/

theorem charAt_set (buf : List UInt8) (i j : Nat) :
    charAt (buf.set j 0) i = if i = j then 0 else charAt buf i := by
  rw [charAt, charAt, List.getD_eq_getElem?_getD, List.getD_eq_getElem?_getD, List.getElem?_set]
  by_cases h : j = i
  · rw [if_pos h, if_pos h.symm]
    split <;> rfl
  · rw [if_neg h, if_neg (Ne.symm h)]

theorem charAt_foldl_set (spans : List Span) (buf : List UInt8) (i : Nat) :
    charAt (spans.foldl (fun buf span => buf.set span.eq 0) buf) i =
      if i ∈ spans.map Span.eq then 0 else charAt buf i := by
  induction spans generalizing buf with
  | nil => rfl
  | cons span spans ih =>
    rw [List.foldl_cons, ih, charAt_set, List.map_cons]
    by_cases h : i = span.eq
    · rw [if_pos h, if_pos (List.mem_cons.mpr (Or.inl h)), ite_self]
    · rw [if_neg h]
      exact if_congr (by rw [List.mem_cons, or_iff_right h]) rfl rfl

/-- `nulterminate` stores a NUL behind every string and nothing else. -/
theorem charAt_nulterminate (cmd : Cmd Span) (buf : List UInt8) (i : Nat) :
    charAt (nulterminate cmd buf) i =
      if i ∈ cmd.strings.map Span.eq then 0 else charAt buf i := by
  have hpair (left right : List Span) (c : UInt8) :
      (if i ∈ right.map Span.eq then 0 else if i ∈ left.map Span.eq then 0 else c) =
        if i ∈ (left ++ right).map Span.eq then 0 else c := by
    rw [List.map_append]
    by_cases hr : i ∈ right.map Span.eq
    · rw [if_pos hr, if_pos (List.mem_append.mpr (Or.inr hr))]
    · rw [if_neg hr]
      exact if_congr (by rw [List.mem_append, or_iff_left hr]) rfl rfl
  induction cmd generalizing buf with
  | exec argv => exact charAt_foldl_set argv buf i
  | redir cmd file mode fd ih =>
    rw [nulterminate, charAt_set, ih, Cmd.strings, List.map_cons]
    by_cases h : i = file.eq
    · rw [if_pos h, if_pos (List.mem_cons.mpr (Or.inl h))]
    · rw [if_neg h]
      exact if_congr (by rw [List.mem_cons, or_iff_right h]) rfl rfl
  | pipe left right ihl ihr | list left right ihl ihr =>
    rw [nulterminate, ihr, ihl, hpair, Cmd.strings]
  | back cmd ih => rw [nulterminate, ih, Cmd.strings]

/-- No string ends inside a word. -/
theorem Span.Spells.stop_not_word {span : Span} {w : List UInt8} (h : span.Spells text w)
    (inside : span.eq < text.length) : isWordChar (charAt text span.eq) ≠ true := by
  have hdrop := drop_skip text isWordChar span.q
  rw [skip_eq, ← h.run, ← h.stop, drop_eq_cons inside] at hdrop
  have hhead := List.head?_dropWhile_not isWordChar (text.drop span.q)
  rw [← hdrop] at hhead
  simpa using hhead

/-- A buffer that agrees with the text in its words has the word at a pointer, if there is a
NUL behind it. -/
theorem cString_of_agree (nulFree : 0 ∉ text) {buf w : List UInt8} {q : Nat}
    (agree : ∀ i < text.length, isWordChar (charAt text i) = true →
      charAt buf i = charAt text i)
    (run : w = (text.drop q).takeWhile isWordChar) (stop : charAt buf (q + w.length) = 0) :
    cString buf q = w := by
  induction w generalizing q with
  | nil =>
    cases hdrop : buf.drop q with
    | nil => rw [cString, hdrop]; rfl
    | cons c cs =>
      rw [List.length_nil, Nat.add_zero, (charAt_eq_of_drop hdrop).1] at stop
      rw [cString, hdrop, stop]
      rfl
  | cons c w ih =>
    have hq : q < text.length := by
      by_contra h
      rw [List.drop_eq_nil_of_le (by omega)] at run
      cases run
    rw [drop_eq_cons hq, List.takeWhile_cons] at run
    by_cases hword : isWordChar (charAt text q) = true
    · rw [if_pos hword, List.cons.injEq] at run
      have hne : charAt text q ≠ 0 := by
        rw [Ne, charAt_eq_zero_iff nulFree, drop_eq_cons hq]
        exact List.cons_ne_nil _ _
      have hbuf := agree q hq hword
      have hlt : q < buf.length := by
        by_contra h
        rw [charAt_of_drop_nil (List.drop_eq_nil_of_le (by omega))] at hbuf
        exact hne hbuf.symm
      have hrest := ih run.2 (by rw [← stop, List.length_cons]; congr 1; omega)
      rw [cString] at hrest ⊢
      rw [drop_eq_cons hlt, hbuf, List.takeWhile_cons_of_pos (by simpa using hne), hrest, run.1]
    · rw [if_neg hword] at run
      cases run

theorem Cmd.map_congr {α β : Type} {f g : α → β} {cmd : Cmd α}
    (h : ∀ a ∈ cmd.strings, f a = g a) : cmd.map f = cmd.map g := by
  induction cmd with
  | exec argv => exact congrArg exec (List.map_congr_left h)
  | redir cmd file mode fd ih =>
    rw [Cmd.map, Cmd.map, h file List.mem_cons_self, ih fun a ha => h a (List.mem_cons_of_mem _ ha)]
  | pipe left right ihl ihr | list left right ihl ihr =>
    rw [Cmd.map, Cmd.map, ihl fun a ha => h a (List.mem_append_left _ ha),
      ihr fun a ha => h a (List.mem_append_right _ ha)]
  | back cmd ih => rw [Cmd.map, Cmd.map, ih h]

/-- After `nulterminate` the strings of the tree are its words. -/
theorem Cmd.Spells.read_nulterminate (nulFree : 0 ∉ text) {cmd : Cmd Span}
    {tree : Cmd (List UInt8)} (h : cmd.Spells text tree) :
    cmd.read (nulterminate cmd (text ++ [0])) = tree := by
  rw [← h.words]
  refine Cmd.map_congr fun span hspan => ?_
  refine cString_of_agree nulFree (fun i hi hword => ?_) rfl ?_
  · have hnot : i ∉ cmd.strings.map Span.eq := by
      rintro hmem
      obtain ⟨other, hother, rfl⟩ := List.mem_map.mp hmem
      exact (h.spans other hother).stop_not_word hi hword
    rw [charAt_nulterminate, if_neg hnot, charAt, charAt, List.getD_append _ _ _ _ hi]
  · have hstop := (h.spans span hspan).stop
    unfold spelled at hstop ⊢
    rw [← hstop, charAt_nulterminate, if_pos (List.mem_map.mpr ⟨span, hspan, rfl⟩)]

/-! ### The theorem -/

theorem tokens_length_le (cs : List UInt8) : (tokens cs).length ≤ cs.length := by
  fun_induction tokens cs with
  | case1 => exact le_rfl
  | case2 c cs _ ih => exact ih.trans (Nat.le_succ _)
  | case3 cs _ _ ih =>
    rw [List.length_tail] at ih
    simp only [List.length_cons]
    omega
  | case4 cs _ _ ih => exact Nat.succ_le_succ ih
  | case5 c cs _ _ _ _ ih => exact Nat.succ_le_succ ih
  | case6 c cs _ _ _ ih => exact Nat.succ_le_succ (ih.trans (List.dropWhile_suffix _).length_le)

theorem tokens_eq_nil {cs : List UInt8} (h : tokens cs = []) : cs.dropWhile isSpace = [] := by
  induction cs with
  | nil => rfl
  | cons c cs ih =>
    by_cases hspace : isSpace c = true
    · rw [tokens_space hspace] at h
      rw [List.dropWhile_cons_of_pos hspace]
      exact ih h
    · rw [tokens, if_neg hspace] at h
      split at h
      · split at h <;> cases h
      · split at h <;> cases h

theorem skip_inside (p : UInt8 → Bool) (inside : s ≤ text.length) :
    skip text p s ≤ text.length := by
  have hle := (List.takeWhile_prefix p (l := text.drop s)).length_le
  rw [List.length_drop] at hle
  rw [skip_eq]
  omega

/-- `scan` looks at a character only if there is one. -/
theorem scan_inside (inside : s ≤ text.length) : (scan text s).2 ≤ text.length := by
  have hnext {n : Nat} (h : charAt text n ≠ 0) : n < text.length := by
    by_contra hn
    exact h (charAt_of_drop_nil (List.drop_eq_nil_of_le (by omega)))
  unfold scan
  split
  · exact inside
  next hne =>
    have hs := hnext hne
    split
    · exact hs
    · split
      · split
        next hmore => exact hnext (by rw [hmore]; decide)
        next => exact hs
      · exact skip_inside _ inside

/-- The cursor stays in the line. -/
def StaysInside (text : List UInt8) {α : Type} (x : ParseM α) : Prop :=
  Ensures (fun s => s ≤ text.length) x (fun _ s => s ≤ text.length) anyStop

theorem peek_inside (set : List UInt8) : StaysInside text (peek text set) :=
  fun _ inside => skip_inside _ inside

theorem gettoken_inside : StaysInside text (gettoken text) :=
  fun _ inside => skip_inside _ (scan_inside (skip_inside _ inside))

theorem StaysInside.throw {α : Type} (e : ShStop) : StaysInside text (throw e : ParseM α) :=
  Ensures.throw trivial

theorem StaysInside.pure {α : Type} (a : α) : StaysInside text (pure a : ParseM α) :=
  Ensures.pure fun _ h => h

theorem parseredirs_inside (fuel : Nat) (cmd : Cmd Span) :
    StaysInside text (parseredirs text fuel cmd) := by
  induction fuel generalizing cmd with
  | zero => exact StaysInside.throw _
  | succ fuel ih =>
    refine (peek_inside _).bind fun _ => Ensures.ite (fun _ => ?_) fun _ => StaysInside.pure _
    refine gettoken_inside.bind fun _ => gettoken_inside.bind fun _ => ?_
    exact Ensures.ite (fun _ => StaysInside.throw _) fun _ => ih _

theorem parseargs_inside (fuel argc : Nat) (cmd : Cmd Span) :
    StaysInside text (parseargs text fuel argc cmd) := by
  induction fuel generalizing argc cmd with
  | zero => exact StaysInside.throw _
  | succ fuel ih =>
    refine (peek_inside _).bind fun _ => Ensures.ite (fun _ => StaysInside.pure _) fun _ => ?_
    refine gettoken_inside.bind fun _ => Ensures.ite (fun _ => StaysInside.pure _) fun _ => ?_
    refine Ensures.ite (fun _ => StaysInside.throw _) fun _ =>
      Ensures.ite (fun _ => StaysInside.throw _) fun _ => ?_
    exact (parseredirs_inside _ _).bind fun _ => ih _ _

theorem parsebacks_inside (fuel : Nat) (cmd : Cmd Span) :
    StaysInside text (parsebacks text fuel cmd) := by
  induction fuel generalizing cmd with
  | zero => exact StaysInside.throw _
  | succ fuel ih =>
    refine (peek_inside _).bind fun _ => Ensures.ite (fun _ => ?_) fun _ => StaysInside.pure _
    exact gettoken_inside.bind fun _ => ih _

theorem parse_inside (fuel : Nat) : StaysInside text (parseline text fuel) ∧
    StaysInside text (parsepipe text fuel) ∧ StaysInside text (parseexec text fuel) ∧
    StaysInside text (parseblock text fuel) := by
  induction fuel with
  | zero => exact ⟨.throw _, .throw _, .throw _, .throw _⟩
  | succ fuel ih =>
    obtain ⟨hline, hpipe, hexec, hblock⟩ := ih
    refine ⟨?_, ?_, ?_, ?_⟩
    · rw [parseline]
      refine hpipe.bind fun _ => (parsebacks_inside _ _).bind fun _ => (peek_inside _).bind fun _ =>
        Ensures.ite (fun _ => ?_) fun _ => StaysInside.pure _
      exact gettoken_inside.bind fun _ => hline.bind fun _ => StaysInside.pure _
    · rw [parsepipe]
      refine hexec.bind fun _ => (peek_inside _).bind fun _ =>
        Ensures.ite (fun _ => ?_) fun _ => StaysInside.pure _
      exact gettoken_inside.bind fun _ => hpipe.bind fun _ => StaysInside.pure _
    · rw [parseexec]
      refine (peek_inside _).bind fun _ => Ensures.ite (fun _ => hblock) fun _ => ?_
      exact (parseredirs_inside _ _).bind fun _ => parseargs_inside _ _ _
    · rw [parseblock]
      refine (peek_inside _).bind fun _ => Ensures.ite (fun _ => ?_) fun _ => StaysInside.throw _
      refine gettoken_inside.bind fun _ => hline.bind fun _ => (peek_inside _).bind fun _ =>
        Ensures.ite (fun _ => ?_) fun _ => StaysInside.throw _
      exact gettoken_inside.bind fun _ => parseredirs_inside _ _

/-- `parsecmd` returns what `parseline` returned if no token is left. -/
theorem parsecmd_of_ok {cmd : Cmd Span}
    (line : (parseline text (enoughFuel text)).run 0 = .ok cmd s) :
    ∃ u, (parsecmd text).run 0 = if toks text s = []
      then .ok (cmd, nulterminate cmd (text ++ [0])) u else .error (.panic "syntax") u := by
  have hset : (set 0 : ParseM PUnit).run 0 = .ok ⟨⟩ 0 := rfl
  have hpeek : (peek text []).run s = .ok false (skip text isSpace s) := by
    change EStateM.Result.ok (decide _) _ = _
    rw [decide_eq_false (by simp)]
  have hget : (get : ParseM Nat).run (skip text isSpace s) =
      .ok (skip text isSpace s) (skip text isSpace s) := rfl
  have hinside : skip text isSpace s ≤ text.length :=
    skip_inside _ ((parse_inside _).1.of_ok (Nat.zero_le _) line)
  have hend : skip text isSpace s = text.length ↔ toks text s = [] := by
    constructor
    · intro h
      rw [← toks_skip, toks, h, List.drop_length, tokens_nil]
    · intro h
      have hnil := tokens_eq_nil h
      rw [← drop_skip, List.drop_eq_nil_iff] at hnil
      omega
  refine ⟨skip text isSpace s, ?_⟩
  rw [parsecmd, run_bind_of_ok hset, run_bind_of_ok line, run_bind_of_ok hpeek, run_bind_of_ok hget,
    run_ite]
  by_cases h : toks text s = []
  · rw [if_pos h, if_neg (not_not.mpr (hend.mpr h))]
    rfl
  · rw [if_neg h, if_pos (h ∘ hend.mp)]
    rfl

theorem parsecmd_of_error {e : ShStop}
    (line : (parseline text (enoughFuel text)).run 0 = .error e s) :
    (parsecmd text).run 0 = .error e s := by
  have hset : (set 0 : ParseM PUnit).run 0 = .ok ⟨⟩ 0 := rfl
  rw [parsecmd, run_bind_of_ok hset, run_bind_of_error line]

theorem enough_tokens (text : List UInt8) :
    4 * (toks text 0).length + 4 ≤ enoughFuel text := by
  have hle := tokens_length_le text
  rw [toks, List.drop_zero, enoughFuel]
  omega

/-- A tree that `parsecmd` returns is that of a derivation, and its pointers delimit the words. -/
theorem parsecmd_spells (nulFree : 0 ∉ text) {cmd : Cmd Span} {buf : List UInt8}
    (accepted : (parsecmd text).run 0 = .ok (cmd, buf) s) :
    buf = nulterminate cmd (text ++ [0]) ∧
      ∃ tree, Line (tokens text) tree ∧ cmd.Spells text tree := by
  have hsound := (parse_ensures nulFree (enoughFuel text)).1 0 (enough_tokens text) 0 rfl
  cases hl : (parseline text (enoughFuel text)).run 0 with
  | error e u =>
    rw [parsecmd_of_error hl] at accepted
    cases accepted
  | ok cmd' u =>
    rw [hl] at hsound
    obtain ⟨ts, tree, hts, hderives, hspells⟩ := hsound
    obtain ⟨v, hv⟩ := parsecmd_of_ok hl
    rw [hv] at accepted
    split at accepted
    next hnil =>
      cases accepted
      rw [hnil, List.append_nil, toks, List.drop_zero] at hts
      rw [hts]
      exact ⟨rfl, tree, hderives, hspells⟩
    next => cases accepted

/-- The shell accepts exactly its grammar: `parsecmd` returns a tree if and only if it is the
tree of a derivation from the tokens of the line, and otherwise it panics. -/
theorem parsecmd_accepts_grammar {text : List UInt8} (nulFree : 0 ∉ text) :
    (∀ tree, (∃ cmd buf s, (parsecmd text).run 0 = .ok (cmd, buf) s ∧ cmd.read buf = tree) ↔
      Line (tokens text) tree) ∧
    ∀ e s, (parsecmd text).run 0 = .error e s → ∃ msg, e = .panic msg := by
  have hsound := (parse_ensures nulFree (enoughFuel text)).1 0 (enough_tokens text) 0 rfl
  have hstart : toks text 0 = tokens text := by rw [toks, List.drop_zero]
  refine ⟨fun tree => ⟨?_, fun hline => ?_⟩, fun e s herror => ?_⟩
  · rintro ⟨cmd, buf, s, hrun, rfl⟩
    obtain ⟨rfl, tree, hderives, hspells⟩ := parsecmd_spells nulFree hrun
    rw [hspells.read_nulterminate nulFree]
    exact hderives
  · have hreturns := Line.returns nulFree (s := 0) (by rw [hstart, List.append_nil])
      (Or.inl rfl) (enough_tokens text) hline 0 rfl
    cases hl : (parseline text (enoughFuel text)).run 0 with
    | error e u =>
      rw [hl] at hreturns
      exact hreturns.elim
    | ok cmd u =>
      rw [hl] at hreturns
      obtain ⟨hnil, hspells⟩ := hreturns
      obtain ⟨v, hv⟩ := parsecmd_of_ok hl
      rw [if_pos hnil] at hv
      exact ⟨cmd, _, v, hv, hspells.read_nulterminate nulFree⟩
  · cases hl : (parseline text (enoughFuel text)).run 0 with
    | error e' u =>
      rw [hl] at hsound
      rw [parsecmd_of_error hl] at herror
      cases herror
      cases e with
      | panic msg => exact ⟨msg, rfl⟩
      | fuel => exact hsound.elim
    | ok cmd u =>
      obtain ⟨v, hv⟩ := parsecmd_of_ok hl
      rw [hv] at herror
      split at herror
      · cases herror
      · cases herror
        exact ⟨_, rfl⟩

/-- `a<b;`: a redirected command and an empty one. -/
theorem parsecmd_accepts_redirection :
    ∃ cmd buf s, (parsecmd [97, 60, 98, 59]).run 0 = .ok (cmd, buf) s ∧
      cmd.read buf = .list (.redir (.exec [[97]]) [98] O_RDONLY 0) (.exec []) := by
  refine ((parsecmd_accepts_grammar (by decide)).1 _).mpr ?_
  have htokens : tokens [97, 60, 98, 59] = [.word [97], .less, .word [98], .semi] := by
    simp [tokens, isSpace, whitespace, symbolTok, isWordChar, symbols, more, less, bar, amp, semi,
      lpar, rpar]
  rw [htokens]
  exact Line.list 0 (Pipe.last (Exec.simple [] [([97], [.input [98]])] (by decide)))
    (Line.last 0 (Pipe.last (Exec.simple [] [] (by decide))))

end Sh

end Xv6
