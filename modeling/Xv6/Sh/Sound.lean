/-
# What the parser returns is derivable

What the parser consumed is a derivation of the tree it returned, and it never runs out of
fuel. The induction is the recursion of the parser, over the fuel.
-/

import Xv6.Sh.Grammar

namespace Xv6

open Math

namespace Sh

variable {text : List UInt8} {s fuel : Nat}

/-! ### Trees over pointers and over strings -/

/-- The run of word characters that a pointer is at. -/
def spelled (text : List UInt8) (span : Span) : List UInt8 :=
  (text.drop span.q).takeWhile isWordChar

/-- The pointers of `cmd` delimit the words of `tree`. -/
structure Cmd.Spells (text : List UInt8) (cmd : Cmd Span) (tree : Cmd (List UInt8)) : Prop where
  words : cmd.map (spelled text) = tree
  spans : ∀ span ∈ cmd.strings, span.Spells text (spelled text span)

namespace Cmd.Spells

variable {cmd right : Cmd Span} {tree tree' : Cmd (List UInt8)} {span : Span} {w : List UInt8}

theorem exec_nil : Cmd.Spells text (.exec []) (.exec []) := ⟨rfl, fun _ h => nomatch h⟩

theorem pipe (hl : cmd.Spells text tree) (hr : right.Spells text tree') :
    (Cmd.pipe cmd right).Spells text (.pipe tree tree') := by
  refine ⟨by rw [Cmd.map, hl.words, hr.words], fun span h => ?_⟩
  rcases List.mem_append.mp h with h | h
  · exact hl.spans span h
  · exact hr.spans span h

theorem list (hl : cmd.Spells text tree) (hr : right.Spells text tree') :
    (Cmd.list cmd right).Spells text (.list tree tree') := by
  refine ⟨by rw [Cmd.map, hl.words, hr.words], fun span h => ?_⟩
  rcases List.mem_append.mp h with h | h
  · exact hl.spans span h
  · exact hr.spans span h

theorem back (h : cmd.Spells text tree) : (Cmd.back cmd).Spells text (.back tree) :=
  ⟨by rw [Cmd.map, h.words], h.spans⟩

theorem redir (h : cmd.Spells text tree) (hw : span.Spells text w) (mode fd : Nat) :
    (Cmd.redir cmd span mode fd).Spells text (.redir tree w mode fd) := by
  refine ⟨by rw [Cmd.map, h.words, spelled, ← hw.run], fun other hmem => ?_⟩
  rcases List.mem_cons.mp hmem with rfl | hmem
  · rw [spelled, ← hw.run]
    exact hw
  · exact h.spans other hmem

theorem map_pushArg {α β : Type} (f : α → β) (a : α) (cmd : Cmd α) :
    (cmd.pushArg a).map f = (cmd.map f).pushArg (f a) := by
  induction cmd with
  | exec argv => simp only [Cmd.pushArg, Cmd.map, List.map_append, List.map_cons, List.map_nil]
  | redir cmd file mode fd ih => rw [Cmd.pushArg, Cmd.map, ih]; rfl
  | pipe _ _ _ _ => rfl
  | list _ _ _ _ => rfl
  | back _ _ => rfl

theorem mem_pushArg {α : Type} {a b : α} {cmd : Cmd α} (h : b ∈ (cmd.pushArg a).strings) :
    b = a ∨ b ∈ cmd.strings := by
  induction cmd with
  | exec argv =>
    rcases List.mem_append.mp h with h | h
    · exact Or.inr h
    · exact Or.inl (List.mem_singleton.mp h)
  | redir cmd file mode fd ih =>
    rcases List.mem_cons.mp h with h | h
    · exact Or.inr (List.mem_cons.mpr (Or.inl h))
    · exact (ih h).imp_right fun h => List.mem_cons.mpr (Or.inr h)
  | pipe _ _ _ _ | list _ _ _ _ | back _ _ => exact Or.inr h

theorem pushArg (h : cmd.Spells text tree) (hw : span.Spells text w) :
    (cmd.pushArg span).Spells text (tree.pushArg w) := by
  refine ⟨by rw [map_pushArg, h.words, spelled, ← hw.run], fun other hmem => ?_⟩
  rcases mem_pushArg hmem with rfl | hmem
  · rw [spelled, ← hw.run]
    exact hw
  · exact h.spans other hmem

end Cmd.Spells

theorem pushArg_wrapAll (argv : List (List UInt8)) (w : List UInt8) (rs : List Redir) :
    (wrapAll (.exec argv) rs).pushArg w = wrapAll (.exec (argv ++ [w])) rs := by
  induction rs using List.reverseRecOn with
  | nil => rfl
  | append_singleton rs r ih =>
    unfold wrapAll at ih ⊢
    rw [List.foldl_append, List.foldl_append, ← ih]
    cases r <;> rfl

theorem wrapAll_append (tree : Cmd (List UInt8)) (rs rs' : List Redir) :
    wrapAll (wrapAll tree rs) rs' = wrapAll tree (rs ++ rs') := by
  unfold wrapAll
  rw [List.foldl_append]

/-! ### The first token -/

/-- One of the symbols starts the next token. -/
def sees (set : List UInt8) (ts : List Tok) : Bool :=
  ts.head?.any fun t => t.first.any set.contains

/-- A test with `peek` takes the branch that the next token selects, and leaves the tokens. -/
theorem peek_test {α : Type} {x y : ParseM α} {post : α → Nat → Prop} {stops : ShStop → Prop}
    {set : List UInt8} (nulFree : 0 ∉ text) (sub : set.all symbols.contains = true)
    (yes : sees set (toks text s) = true → ∀ u, toks text u = toks text s →
      Ensures (fun v => v = u) x post stops)
    (no : sees set (toks text s) ≠ true → ∀ u, toks text u = toks text s →
      Ensures (fun v => v = u) y post stops) :
    Ensures (fun v => v = s) (peek text set >>= fun b => if b then x else y) post stops := by
  obtain ⟨u, hpeek, hsame⟩ := peek_run nulFree sub
  exact Ensures.step hpeek (Ensures.ite (fun h => yes h u hsame) fun h => no h u hsame)

variable {ts : List Tok} {t : Tok}

theorem of_sees {set : List UInt8} (h : sees set ts = true) :
    ∃ t us, ts = t :: us ∧ ∃ c ∈ set, t.first = some c := by
  cases ts with
  | nil => cases h
  | cons t us =>
    refine ⟨t, us, rfl, ?_⟩
    cases hfirst : t.first with
    | none =>
      rw [sees, List.head?_cons, Option.any_some, hfirst] at h
      cases h
    | some c =>
      rw [sees, List.head?_cons, Option.any_some, hfirst, Option.any_some] at h
      exact ⟨c, List.contains_iff_mem.mp h, rfl⟩

/-- A symbol other than `>` starts one token only. -/
theorem Tok.eq_of_first {t' : Tok} {c : UInt8} (h : t.first = some c) (h' : t'.first = some c)
    (single : c ≠ Sh.more) : t = t' := by
  cases t <;> cases h <;> first | exact absurd rfl single | skip
  all_goals cases t' <;> first | rfl | exact absurd h' (by decide) | cases h'

theorem Tok.code_ne_zero (t : Tok) : t.code ≠ 0 := by
  cases t <;> simp only [code] <;> decide

theorem of_sees_one {c : UInt8} (first : t.first = some c) (single : c ≠ more)
    (h : sees [c] ts = true) : ∃ us, ts = t :: us := by
  obtain ⟨t', us, rfl, d, hd, hfirst⟩ := of_sees h
  rw [List.mem_singleton.mp hd] at hfirst
  exact ⟨us, by rw [Tok.eq_of_first hfirst first single]⟩

/-! ### Soundness -/

/-- The parser stopped with a panic. -/
def Panics : ShStop → Prop
  | .panic _ => True
  | .fuel => False

section Sound

variable (nulFree : 0 ∉ text)
include nulFree

/-- After a symbol has been seen, `gettoken` takes it. -/
theorem gettoken_ensures {stops : ShStop → Prop} (h : toks text s = t :: ts) :
    Ensures (fun u => u = s) (gettoken text)
      (fun r u => r.1 = t.code ∧ toks text u = ts ∧ ∀ w, t = .word w → r.2.Spells text w)
      stops := by
  obtain ⟨span, s', hrun, hrest⟩ := gettoken_cons nulFree h
  rintro _ rfl
  rw [hrun]
  exact ⟨rfl, hrest⟩

variable {cmd : Cmd Span}

theorem parseredirs_ensures {tree : Cmd (List UInt8)}
    (spells : cmd.Spells text tree) (enough : (toks text s).length < fuel) :
    Ensures (fun u => u = s) (parseredirs text fuel cmd)
      (fun cmd' u => ∃ rs : List Redir, toks text s = rs.flatMap Redir.toks ++ toks text u ∧
        cmd'.Spells text (wrapAll tree rs)) Panics := by
  induction fuel generalizing s cmd tree with
  | zero => omega
  | succ fuel ih =>
    rw [parseredirs]
    refine peek_test nulFree (by decide) (fun hsees s₁ hsame => ?_) fun _ s₁ hsame => Ensures.ret ?_
    · obtain ⟨t, us, htoks, c, hc, hfirst⟩ := of_sees hsees
      refine (gettoken_ensures nulFree (hsame.trans htoks)).bindAt ?_
      rintro r s₂ ⟨hcode, hus, -⟩
      cases hvs : toks text s₂ with
      | nil =>
        obtain ⟨span, s₃, hrun, -⟩ := gettoken_nil nulFree hvs
        refine Ensures.step hrun ?_
        exact Ensures.ite (fun _ => Ensures.throw trivial) fun h => absurd (by decide) h
      | cons t' vs =>
        refine (gettoken_ensures nulFree hvs).bindAt ?_
        rintro r' s₃ ⟨hcode', hvs', hword⟩
        refine Ensures.ite (fun _ => Ensures.throw trivial) fun hfile => ?_
        have hlen : (toks text s).length = (toks text s₃).length + 2 := by
          rw [htoks, ← hus, hvs, hvs']
          rfl
        -- the file is a word, and its symbol is one of the three
        obtain ⟨w, rfl⟩ : ∃ w, t' = .word w := by
          rw [hcode'] at hfile
          cases t' <;> first | exact ⟨_, rfl⟩ | exact absurd (by decide) hfile
        obtain ⟨r₀, htoks₀, hwrap⟩ : ∃ r₀ : Redir, r₀.toks = [t, .word w] ∧
            (redircmd cmd r.1 r'.2).Spells text (r₀.wrap tree) := by
          have hspan := hword w rfl
          rw [hcode]
          cases t with
          | less => exact ⟨.input w, rfl, spells.redir hspan _ _⟩
          | more => exact ⟨.output w, rfl, spells.redir hspan _ _⟩
          | append => exact ⟨.append w, rfl, spells.redir hspan _ _⟩
          | word _ => cases hfirst
          | _ =>
            cases hfirst
            exact absurd hc (by decide)
        refine (ih hwrap (by omega)).weaken (fun cmd' u h => ?_) fun _ h => h
        obtain ⟨rs, hrs, hspells⟩ := h
        refine ⟨r₀ :: rs, ?_, hspells⟩
        rw [htoks, ← hus, hvs, ← hvs', hrs, List.flatMap_cons, htoks₀]
        rfl
    · exact ⟨[], hsame.symm, spells⟩

theorem parsebacks_ensures {tree : Cmd (List UInt8)}
    (spells : cmd.Spells text tree) (enough : (toks text s).length < fuel) :
    Ensures (fun u => u = s) (parsebacks text fuel cmd)
      (fun cmd' u => ∃ n, toks text s = List.replicate n .amp ++ toks text u ∧
        cmd'.Spells text (backs n tree)) Panics := by
  induction fuel generalizing s cmd tree with
  | zero => omega
  | succ fuel ih =>
    rw [parsebacks]
    refine peek_test nulFree (by decide) (fun hsees s₁ hsame => ?_) fun _ s₁ hsame => Ensures.ret ?_
    · obtain ⟨us, htoks⟩ := of_sees_one (t := .amp) rfl (by decide) hsees
      refine (gettoken_ensures nulFree (hsame.trans htoks)).bindAt ?_
      rintro r s₂ ⟨-, hus, -⟩
      have hlen : (toks text s).length = (toks text s₂).length + 1 := by
        rw [htoks, hus]
        rfl
      refine (ih spells.back (by omega)).weaken (fun cmd' u h => ?_) fun _ h => h
      obtain ⟨n, hn, hspells⟩ := h
      exact ⟨n + 1, by rw [htoks, ← hus, hn]; rfl, hspells⟩
    · exact ⟨0, hsame.symm, spells⟩

theorem parseargs_ensures {argv : List (List UInt8)} {rs : List Redir}
    (spells : cmd.Spells text (wrapAll (.exec argv) rs)) (few : argv.length ≤ MAXARGS - 1)
    (enough : (toks text s).length < fuel) :
    Ensures (fun u => u = s) (parseargs text fuel argv.length cmd)
      (fun cmd' u => ∃ args : List Arg, toks text s = argToks args ++ toks text u ∧
        argv.length + args.length ≤ MAXARGS - 1 ∧
        cmd'.Spells text (wrapAll (.exec (argv ++ args.map Prod.fst))
          (rs ++ args.flatMap Prod.snd)))
      Panics := by
  induction fuel generalizing s cmd argv rs with
  | zero => omega
  | succ fuel ih =>
    have hdone (u : Nat) (hu : toks text u = toks text s) : ∃ args : List Arg,
        toks text s = argToks args ++ toks text u ∧ argv.length + args.length ≤ MAXARGS - 1 ∧
        cmd.Spells text
          (wrapAll (.exec (argv ++ args.map Prod.fst)) (rs ++ args.flatMap Prod.snd)) := by
      refine ⟨[], hu.symm, few, ?_⟩
      simpa using spells
    rw [parseargs]
    refine peek_test nulFree (by decide) (fun _ s₁ hsame => Ensures.ret ?_) fun _ s₁ hsame => ?_
    · exact hdone _ hsame
    · cases htoks : toks text s₁ with
      | nil =>
        obtain ⟨span, s₂, hrun, hnil⟩ := gettoken_nil nulFree htoks
        refine Ensures.step hrun (Ensures.ite (fun _ => Ensures.pure ?_) fun h => absurd rfl h)
        rintro _ rfl
        exact hdone _ (by rw [hnil, ← hsame, htoks])
      | cons t us =>
        refine (gettoken_ensures nulFree htoks).bindAt ?_
        rintro r s₂ ⟨hcode, hus, hspan⟩
        refine Ensures.ite (fun h => ?_) fun _ => Ensures.ite (fun _ => Ensures.throw trivial)
          fun hword => Ensures.ite (fun _ => Ensures.throw trivial) fun hfew => ?_
        · exact absurd (hcode.symm.trans h) t.code_ne_zero
        obtain ⟨w, rfl⟩ : ∃ w, t = .word w := by
          rw [hcode] at hword
          cases t <;> first | exact ⟨_, rfl⟩ | exact absurd (by decide) hword
        have hlen : (toks text s).length = (toks text s₂).length + 1 := by
          rw [← hsame, htoks, hus]
          rfl
        have hpush : (cmd.pushArg r.2).Spells text (wrapAll (.exec (argv ++ [w])) rs) := by
          rw [← pushArg_wrapAll]
          exact spells.pushArg (hspan w rfl)
        refine (parseredirs_ensures nulFree hpush (by omega)).bindAt ?_
        rintro ret s₃ ⟨rs', hrs', hspells⟩
        rw [wrapAll_append] at hspells
        have hlen' := congrArg List.length hrs'
        rw [List.length_append] at hlen'
        have hargc : argv.length + 1 = (argv ++ [w]).length := by rw [List.length_append]; rfl
        rw [hargc] at hfew ⊢
        refine (ih hspells (by omega) (by omega)).weaken (fun cmd' u h => ?_)
          fun _ h => h
        obtain ⟨args, hargs, hcount, hspells'⟩ := h
        refine ⟨(w, rs') :: args, ?_, ?_, ?_⟩
        · rw [← hsame, htoks, ← hus, hrs', hargs]
          simp only [argToks, List.flatMap_cons, List.cons_append, List.append_assoc]
        · rw [List.length_cons]
          omega
        · simpa using hspells'

/-- What a run of `parseline`, `parsepipe` or `parseexec` returns: a tree for the tokens that it
consumed. -/
def Parses (text : List UInt8) (s : Nat) (derives : List Tok → Cmd (List UInt8) → Prop)
    (cmd : Cmd Span) (u : Nat) : Prop :=
  ∃ ts tree, toks text s = ts ++ toks text u ∧ derives ts tree ∧ cmd.Spells text tree

omit nulFree in
theorem Parses.length_le {derives : List Tok → Cmd (List UInt8) → Prop} {u : Nat}
    (h : Parses text s derives cmd u) : (toks text u).length ≤ (toks text s).length := by
  obtain ⟨ts, tree, htoks, -⟩ := h
  rw [htoks, List.length_append]
  omega

/-- The parser returns derivations only, and a bound of four calls for each token is enough. -/
theorem parse_ensures (fuel : Nat) :
    (∀ s, 4 * (toks text s).length + 4 ≤ fuel →
      Ensures (fun u => u = s) (parseline text fuel) (Parses text s Line) Panics) ∧
    (∀ s, 4 * (toks text s).length + 3 ≤ fuel →
      Ensures (fun u => u = s) (parsepipe text fuel) (Parses text s Pipe) Panics) ∧
    (∀ s, 4 * (toks text s).length + 2 ≤ fuel →
      Ensures (fun u => u = s) (parseexec text fuel) (Parses text s Exec) Panics) ∧
    ∀ s, sees [lpar] (toks text s) = true → 4 * (toks text s).length + 1 ≤ fuel →
      Ensures (fun u => u = s) (parseblock text fuel) (Parses text s Exec) Panics := by
  induction fuel with
  | zero => exact ⟨fun s h => by omega, fun s h => by omega, fun s h => by omega,
      fun s _ h => by omega⟩
  | succ fuel ih =>
    obtain ⟨ihLine, ihPipe, ihExec, ihBlock⟩ := ih
    refine ⟨fun s hfuel => ?_, fun s hfuel => ?_, fun s hfuel => ?_, fun s hsees hfuel => ?_⟩
    · rw [parseline]
      refine (ihPipe s (by omega)).bindAt fun cmd s₁ hpipe => ?_
      have hle := hpipe.length_le
      obtain ⟨ts, tree, hts, hderives, hspells⟩ := hpipe
      refine (parsebacks_ensures nulFree hspells (by omega)).bindAt fun cmd₂ s₂ hbacks => ?_
      obtain ⟨n, hn, hspells₂⟩ := hbacks
      refine peek_test nulFree (by decide) (fun hsemi s₃ hsame => ?_) fun _ s₃ hsame =>
        Ensures.ret ?_
      · obtain ⟨us, hus⟩ := of_sees_one (t := .semi) rfl (by decide) hsemi
        refine (gettoken_ensures nulFree (hsame.trans hus)).bindAt ?_
        rintro r s₄ ⟨-, hrest, -⟩
        have hlen : (toks text s₁).length = n + ((toks text s₄).length + 1) := by
          rw [hn, hus, hrest, List.length_append, List.length_replicate, List.length_cons]
        refine (ihLine s₄ (by omega)).bind fun right => Ensures.pure ?_
        rintro s₅ ⟨us', tree', hus', hline, hspells'⟩
        refine ⟨_, _, ?_, Line.list n hderives hline, hspells₂.list hspells'⟩
        rw [hts, hn, hus, ← hrest, hus']
        simp only [List.append_assoc, List.cons_append]
      · refine ⟨_, _, ?_, Line.last n hderives, hspells₂⟩
        rw [hts, hn, hsame, List.append_assoc]
    · rw [parsepipe]
      refine (ihExec s (by omega)).bindAt fun cmd s₁ hexec => ?_
      have hle := hexec.length_le
      obtain ⟨ts, tree, hts, hderives, hspells⟩ := hexec
      refine peek_test nulFree (by decide) (fun hbar s₂ hsame => ?_) fun _ s₂ hsame =>
        Ensures.ret ?_
      · obtain ⟨us, hus⟩ := of_sees_one (t := .bar) rfl (by decide) hbar
        refine (gettoken_ensures nulFree (hsame.trans hus)).bindAt ?_
        rintro r s₃ ⟨-, hrest, -⟩
        have hlen : (toks text s₁).length = (toks text s₃).length + 1 := by
          rw [hus, hrest, List.length_cons]
        refine (ihPipe s₃ (by omega)).bind fun right => Ensures.pure ?_
        rintro s₄ ⟨us', tree', hus', hpipe, hspells'⟩
        refine ⟨_, _, ?_, Pipe.pipe hderives hpipe, hspells.pipe hspells'⟩
        rw [hts, hus, ← hrest, hus']
        simp only [List.append_assoc, List.cons_append]
      · exact ⟨_, _, hsame.symm ▸ hts, Pipe.last hderives, hspells⟩
    · rw [parseexec]
      refine peek_test nulFree (by decide) (fun hsees s₁ hsame => ?_) fun _ s₁ hsame => ?_
      · have hblock := ihBlock s₁ (hsame.symm ▸ hsees) (by rw [hsame]; omega)
        unfold Parses at hblock ⊢
        rw [hsame] at hblock
        exact hblock
      · refine (parseredirs_ensures nulFree Cmd.Spells.exec_nil (by rw [hsame]; omega)).bindAt ?_
        rintro ret s₂ ⟨rs, hrs, hspells⟩
        have hle := congrArg List.length hrs
        rw [hsame, List.length_append] at hle
        refine (parseargs_ensures nulFree hspells (Nat.zero_le _) (by omega)).mono
          (fun _ h => h) (fun cmd u h => ?_) fun _ h => h
        obtain ⟨args, hargs, hcount, hspells'⟩ := h
        refine ⟨_, _, ?_, Exec.simple rs args (by simpa using hcount), hspells'⟩
        rw [← hsame, hrs, hargs, List.append_assoc]
    · obtain ⟨us, hus⟩ := of_sees_one (t := .lpar) rfl (by decide) hsees
      rw [parseblock]
      refine peek_test nulFree (by decide) (fun _ s₁ hsame => ?_) fun h => absurd hsees h
      refine (gettoken_ensures nulFree (hsame.trans hus)).bindAt ?_
      rintro r s₂ ⟨-, hrest, -⟩
      have hlen : (toks text s).length = (toks text s₂).length + 1 := by
        rw [hus, hrest, List.length_cons]
      refine (ihLine s₂ (by omega)).bindAt fun cmd s₃ hline => ?_
      have hle := hline.length_le
      obtain ⟨ts, tree, hts, hderives, hspells⟩ := hline
      refine peek_test nulFree (by decide) (fun hrpar s₄ hsame' => ?_) fun _ _ _ =>
        Ensures.throw trivial
      obtain ⟨vs, hvs⟩ := of_sees_one (t := .rpar) rfl (by decide) hrpar
      refine (gettoken_ensures nulFree (hsame'.trans hvs)).bindAt ?_
      rintro r' s₅ ⟨-, hrest', -⟩
      have hlen' : (toks text s₃).length = (toks text s₅).length + 1 := by
        rw [hvs, hrest', List.length_cons]
      refine (parseredirs_ensures nulFree hspells (by omega)).mono (fun _ h => h)
        (fun cmd' u h => ?_) fun _ h => h
      obtain ⟨rs, hrs, hspells'⟩ := h
      refine ⟨_, _, ?_, Exec.block rs hderives, hspells'⟩
      rw [hus, ← hrest, hts, hvs, ← hrest', hrs]
      simp only [List.cons_append, List.append_assoc]

end Sound

end Sh

end Xv6
