/-
# What is derivable is parsed

The parser does not stop on tokens that have a derivation, if what follows them cannot be
taken for a part of it. The proof follows the derivation, and every call in it leaves less fuel.
-/

import Xv6.Sh.Sound

namespace Xv6

open Math

namespace Sh

variable {text : List UInt8} {s fuel : Nat}

/-- The parser does not stop. -/
def Never : ShStop → Prop := fun _ => False

/-- The line ends here, or goes on with one of the symbols. -/
def Ends (set : List UInt8) (ts : List Tok) : Prop := ts = [] ∨ sees set ts = true

variable {set : List UInt8} {ts rest : List Tok}

theorem Ends.mono {set' : List UInt8} (h : Ends set ts)
    (sub : set.all set'.contains = true) : Ends set' ts := by
  refine h.imp_right fun hsees => ?_
  obtain ⟨t, us, rfl, c, hc, hfirst⟩ := of_sees hsees
  rw [sees, List.head?_cons, Option.any_some, hfirst, Option.any_some]
  exact List.all_eq_true.mp sub c hc

theorem Ends.not_sees {other : List UInt8} (h : Ends set ts)
    (apart : set.all (!other.contains ·) = true) : sees other ts ≠ true := by
  rcases h with rfl | hsees
  · exact Bool.false_ne_true
  · obtain ⟨t, us, rfl, c, hc, hfirst⟩ := of_sees hsees
    intro h
    obtain ⟨t', us', heq, d, hd, hfirst'⟩ := of_sees h
    rw [List.cons.injEq] at heq
    rw [← heq.1, hfirst, Option.some.injEq] at hfirst'
    have hout := List.all_eq_true.mp apart c hc
    rw [hfirst', List.contains_iff_mem.mpr hd] at hout
    cases hout

/-- A run of `&` in front does not start anything else. -/
theorem Ends.amps (n : Nat) (h : Ends set rest)
    (hamp : amp ∈ set) : Ends set (List.replicate n .amp ++ rest) := by
  cases n with
  | zero => exact h
  | succ n =>
    refine Or.inr ?_
    rw [List.replicate_succ, List.cons_append, sees, List.head?_cons, Option.any_some]
    exact List.contains_iff_mem.mpr hamp

section Complete

variable (nulFree : 0 ∉ text)
include nulFree

variable {cmd : Cmd Span} {tree : Cmd (List UInt8)} {rs : List Redir}

theorem parseredirs_returns (spells : cmd.Spells text tree)
    (here : toks text s = rs.flatMap Redir.toks ++ rest) (stop : sees [less, more] rest ≠ true)
    (enough : (toks text s).length < fuel) :
    Ensures (fun u => u = s) (parseredirs text fuel cmd)
      (fun cmd' u => toks text u = rest ∧ cmd'.Spells text (wrapAll tree rs)) Never := by
  induction rs generalizing s fuel cmd tree with
  | nil =>
    obtain ⟨fuel, rfl⟩ : ∃ n, fuel = n + 1 := ⟨fuel - 1, by omega⟩
    have hrest : toks text s = rest := here
    rw [parseredirs]
    refine peek_test nulFree (by decide) (fun h => absurd (hrest ▸ h) stop) fun _ s₁ hsame =>
      Ensures.ret ?_
    exact ⟨hsame.trans hrest, spells⟩
  | cons r rs ih =>
    obtain ⟨fuel, rfl⟩ : ∃ n, fuel = n + 1 := ⟨fuel - 1, by omega⟩
    obtain ⟨t, w, hr, hsees, hwrap⟩ : ∃ t w, r.toks = [t, .word w] ∧
        (∀ us, sees [less, more] (t :: us) = true) ∧
        ∀ span : Span, span.Spells text w →
          (redircmd cmd t.code span).Spells text (r.wrap tree) := by
      cases r with
      | input w => exact ⟨.less, w, rfl, fun _ => rfl, fun _ h => spells.redir h _ _⟩
      | output w => exact ⟨.more, w, rfl, fun _ => rfl, fun _ h => spells.redir h _ _⟩
      | append w => exact ⟨.append, w, rfl, fun _ => rfl, fun _ h => spells.redir h _ _⟩
    have hcons : toks text s = t :: .word w :: (rs.flatMap Redir.toks ++ rest) := by
      rw [here, List.flatMap_cons, hr]
      rfl
    rw [parseredirs]
    refine peek_test nulFree (by decide) (fun _ s₁ hsame => ?_) fun h =>
      absurd (hcons ▸ hsees _) h
    refine (gettoken_ensures nulFree (hsame.trans hcons)).bindAt ?_
    rintro a s₂ ⟨hcode, hs₂, -⟩
    refine (gettoken_ensures nulFree hs₂).bindAt ?_
    rintro b s₃ ⟨hword, hs₃, hspan⟩
    refine Ensures.ite (fun h => absurd hword h) fun _ => ?_
    rw [hcode]
    have hlen : (toks text s).length = (toks text s₃).length + 2 := by
      rw [hcons, hs₃]
      rfl
    exact ih (hwrap b.2 (hspan w rfl)) hs₃ (by omega)

theorem parsebacks_returns {n : Nat}
    (spells : cmd.Spells text tree) (here : toks text s = List.replicate n .amp ++ rest)
    (stop : sees [amp] rest ≠ true) (enough : (toks text s).length < fuel) :
    Ensures (fun u => u = s) (parsebacks text fuel cmd)
      (fun cmd' u => toks text u = rest ∧ cmd'.Spells text (backs n tree)) Never := by
  induction n generalizing s fuel cmd tree with
  | zero =>
    obtain ⟨fuel, rfl⟩ : ∃ m, fuel = m + 1 := ⟨fuel - 1, by omega⟩
    have hrest : toks text s = rest := here
    rw [parsebacks]
    refine peek_test nulFree (by decide) (fun h => absurd (hrest ▸ h) stop) fun _ s₁ hsame =>
      Ensures.ret ?_
    exact ⟨hsame.trans hrest, spells⟩
  | succ n ih =>
    obtain ⟨fuel, rfl⟩ : ∃ m, fuel = m + 1 := ⟨fuel - 1, by omega⟩
    have hcons : toks text s = .amp :: (List.replicate n .amp ++ rest) := here
    rw [parsebacks]
    refine peek_test nulFree (by decide) (fun _ s₁ hsame => ?_) fun h =>
      absurd (by rw [hcons]; rfl) h
    refine (gettoken_ensures nulFree (hsame.trans hcons)).bindAt ?_
    rintro a s₂ ⟨-, hs₂, -⟩
    have hlen : (toks text s).length = (toks text s₂).length + 1 := by
      rw [hcons, hs₂]
      rfl
    exact ih spells.back hs₂ (by omega)

theorem parseargs_returns {argv : List (List UInt8)}
    {args : List Arg} (spells : cmd.Spells text (wrapAll (.exec argv) rs))
    (here : toks text s = argToks args ++ rest) (few : argv.length + args.length ≤ MAXARGS - 1)
    (ends : Ends [bar, rpar, amp, semi] rest) (enough : (toks text s).length < fuel) :
    Ensures (fun u => u = s) (parseargs text fuel argv.length cmd)
      (fun cmd' u => toks text u = rest ∧ cmd'.Spells text
        (wrapAll (.exec (argv ++ args.map Prod.fst)) (rs ++ args.flatMap Prod.snd))) Never := by
  induction args generalizing s fuel cmd argv rs with
  | nil =>
    obtain ⟨fuel, rfl⟩ : ∃ m, fuel = m + 1 := ⟨fuel - 1, by omega⟩
    have hrest : toks text s = rest := here
    have hspells : cmd.Spells text (wrapAll (.exec (argv ++ ([] : List Arg).map Prod.fst))
        (rs ++ ([] : List Arg).flatMap Prod.snd)) := by simpa using spells
    rw [parseargs]
    refine peek_test nulFree (by decide) (fun _ s₁ hsame => Ensures.ret ?_) fun h s₁ hsame => ?_
    · exact ⟨hsame.trans hrest, hspells⟩
    · -- nothing is left, and `gettoken` returns 0
      obtain rfl := ends.resolve_right fun h' => h (hrest ▸ h')
      obtain ⟨span, s₂, hrun, hnil⟩ := gettoken_nil nulFree (hsame.trans hrest)
      refine Ensures.step hrun (Ensures.ite (fun _ => Ensures.pure ?_) fun h => absurd rfl h)
      rintro _ rfl
      exact ⟨hnil, hspells⟩
  | cons a args ih =>
    obtain ⟨fuel, rfl⟩ : ∃ m, fuel = m + 1 := ⟨fuel - 1, by omega⟩
    have hcons : toks text s =
        .word a.1 :: (a.2.flatMap Redir.toks ++ (argToks args ++ rest)) := by
      rw [here]
      simp only [argToks, List.flatMap_cons, List.cons_append, List.append_assoc]
    have hstop : sees [less, more] (argToks args ++ rest) ≠ true := by
      cases args with
      | nil => exact ends.not_sees (by decide)
      | cons b args => exact Bool.false_ne_true
    have hbefore : sees [bar, rpar, amp, semi] (toks text s) ≠ true := by
      rw [hcons]
      exact Bool.false_ne_true
    rw [List.length_cons] at few
    rw [parseargs]
    refine peek_test nulFree (by decide) (fun h => absurd h hbefore) fun _ s₁ hsame => ?_
    refine (gettoken_ensures nulFree (hsame.trans hcons)).bindAt ?_
    rintro r s₂ ⟨hcode, hs₂, hspan⟩
    have hlen : (toks text s).length = (toks text s₂).length + 1 := by
      rw [hcons, hs₂]
      rfl
    refine Ensures.ite (fun h => absurd (hcode.symm.trans h) (Tok.code_ne_zero _)) fun _ =>
      Ensures.ite (fun h => absurd hcode h) fun _ => Ensures.ite (fun h => ?_) fun _ => ?_
    · have : MAXARGS - 1 + 1 = MAXARGS := by decide
      omega
    have hpush : (cmd.pushArg r.2).Spells text (wrapAll (.exec (argv ++ [a.1])) rs) := by
      rw [← pushArg_wrapAll]
      exact spells.pushArg (hspan a.1 rfl)
    refine (parseredirs_returns nulFree hpush hs₂ hstop (by omega)).bindAt ?_
    rintro ret s₃ ⟨hs₃, hspells⟩
    rw [wrapAll_append] at hspells
    have hlen' := congrArg List.length hs₂
    rw [List.length_append, ← hs₃] at hlen'
    have hargc : argv.length + 1 = (argv ++ [a.1]).length := by rw [List.length_append]; rfl
    rw [hargc]
    refine (ih hspells hs₃ (by omega) (by omega)).weaken (fun cmd' u h => ?_)
      fun _ h => h
    exact ⟨h.1, by simpa using h.2⟩

mutual

theorem Line.returns {ts rest : List Tok} {tree : Cmd (List UInt8)} {s fuel : Nat}
    (here : toks text s = ts ++ rest) (ends : Ends [rpar] rest)
    (enough : 4 * (toks text s).length + 4 ≤ fuel) (derives : Line ts tree) :
    Ensures (fun u => u = s) (parseline text fuel)
      (fun cmd u => toks text u = rest ∧ cmd.Spells text tree) Never := by
  obtain ⟨fuel, rfl⟩ : ∃ m, fuel = m + 1 := ⟨fuel - 1, by omega⟩
  rw [parseline]
  cases derives with
  | last n hpipe =>
    rw [List.append_assoc] at here
    have hends : Ends [rpar, amp, semi] rest := ends.mono (by decide)
    refine (Pipe.returns here (hends.amps n (by decide)) (by omega) hpipe).bindAt ?_
    rintro cmd s₁ ⟨hs₁, hspells⟩
    have hle := congrArg List.length here
    rw [List.length_append, ← hs₁] at hle
    refine (parsebacks_returns nulFree hspells hs₁ (ends.not_sees (by decide)) (by omega)).bindAt ?_
    rintro cmd₂ s₂ ⟨hs₂, hspells₂⟩
    refine peek_test nulFree (by decide) (fun h => absurd (hs₂ ▸ h) (ends.not_sees (by decide)))
      fun _ s₃ hsame => Ensures.ret ?_
    exact ⟨hsame.trans hs₂, hspells₂⟩
  | @list ts us tree right n hpipe hline =>
    have here' : toks text s = ts ++ (List.replicate n .amp ++ .semi :: (us ++ rest)) := by
      rw [here]
      simp only [List.append_assoc, List.cons_append]
    have hsemi : Ends [rpar, amp, semi] (.semi :: (us ++ rest)) := Or.inr rfl
    refine (Pipe.returns here' (hsemi.amps n (by decide)) (by omega) hpipe).bindAt ?_
    rintro cmd s₁ ⟨hs₁, hspells⟩
    have hle := congrArg List.length here'
    rw [List.length_append, ← hs₁] at hle
    refine (parsebacks_returns nulFree hspells hs₁ nofun (by omega)).bindAt ?_
    rintro cmd₂ s₂ ⟨hs₂, hspells₂⟩
    have hle₂ := congrArg List.length hs₁
    rw [List.length_append, ← hs₂] at hle₂
    refine peek_test nulFree (by decide) (fun _ s₃ hsame => ?_) fun h =>
      absurd (by rw [hs₂]; rfl) h
    refine (gettoken_ensures nulFree (hsame.trans hs₂)).bindAt ?_
    rintro r s₄ ⟨-, hs₄, -⟩
    have hle₄ := congrArg List.length hs₂
    rw [List.length_cons, ← hs₄] at hle₄
    refine (Line.returns hs₄ ends (by omega) hline).bind fun cmd₃ => Ensures.pure ?_
    rintro s₅ ⟨hs₅, hspells₃⟩
    exact ⟨hs₅, hspells₂.list hspells₃⟩
termination_by fuel

theorem Pipe.returns {ts rest : List Tok} {tree : Cmd (List UInt8)} {s fuel : Nat}
    (here : toks text s = ts ++ rest) (ends : Ends [rpar, amp, semi] rest)
    (enough : 4 * (toks text s).length + 3 ≤ fuel) (derives : Pipe ts tree) :
    Ensures (fun u => u = s) (parsepipe text fuel)
      (fun cmd u => toks text u = rest ∧ cmd.Spells text tree) Never := by
  obtain ⟨fuel, rfl⟩ : ∃ m, fuel = m + 1 := ⟨fuel - 1, by omega⟩
  rw [parsepipe]
  cases derives with
  | last hexec =>
    have hends : Ends [bar, rpar, amp, semi] rest := ends.mono (by decide)
    refine (Exec.returns here hends (by omega) hexec).bindAt ?_
    rintro cmd s₁ ⟨hs₁, hspells⟩
    refine peek_test nulFree (by decide) (fun h => absurd (hs₁ ▸ h) (ends.not_sees (by decide)))
      fun _ s₂ hsame => Ensures.ret ?_
    exact ⟨hsame.trans hs₁, hspells⟩
  | @pipe ts us tree right hexec hpipe =>
    rw [List.append_assoc, List.cons_append] at here
    refine (Exec.returns here (Or.inr rfl) (by omega) hexec).bindAt ?_
    rintro cmd s₁ ⟨hs₁, hspells⟩
    have hle := congrArg List.length here
    rw [List.length_append, ← hs₁] at hle
    refine peek_test nulFree (by decide) (fun _ s₂ hsame => ?_) fun h =>
      absurd (by rw [hs₁]; rfl) h
    refine (gettoken_ensures nulFree (hsame.trans hs₁)).bindAt ?_
    rintro r s₃ ⟨-, hs₃, -⟩
    have hle₃ := congrArg List.length hs₁
    rw [List.length_cons, ← hs₃] at hle₃
    refine (Pipe.returns hs₃ ends (by omega) hpipe).bind fun cmd₂ => Ensures.pure ?_
    rintro s₄ ⟨hs₄, hspells₂⟩
    exact ⟨hs₄, hspells.pipe hspells₂⟩
termination_by fuel

theorem Exec.returns {ts rest : List Tok} {tree : Cmd (List UInt8)} {s fuel : Nat}
    (here : toks text s = ts ++ rest) (ends : Ends [bar, rpar, amp, semi] rest)
    (enough : 4 * (toks text s).length + 2 ≤ fuel) (derives : Exec ts tree) :
    Ensures (fun u => u = s) (parseexec text fuel)
      (fun cmd u => toks text u = rest ∧ cmd.Spells text tree) Never := by
  obtain ⟨fuel, rfl⟩ : ∃ m, fuel = m + 1 := ⟨fuel - 1, by omega⟩
  rw [parseexec]
  cases derives with
  | @block ts tree rs hline =>
    have hcons : toks text s = .lpar :: (ts ++ .rpar :: (rs.flatMap Redir.toks ++ rest)) := by
      rw [here]
      simp only [List.cons_append, List.append_assoc]
    have hle := congrArg List.length hcons
    rw [List.length_cons, List.length_append, List.length_cons, List.length_append] at hle
    obtain ⟨fuel, rfl⟩ : ∃ m, fuel = m + 1 := ⟨fuel - 1, by omega⟩
    refine peek_test nulFree (by decide) (fun _ s₁ hsame => ?_) fun h =>
      absurd (by rw [hcons]; rfl) h
    -- `parseblock` looks at the parenthesis once more
    have hcons₁ := hsame.trans hcons
    rw [parseblock]
    refine peek_test nulFree (by decide) (fun _ s₂ hsame₂ => ?_) fun h =>
      absurd (by rw [hcons₁]; rfl) h
    refine (gettoken_ensures nulFree (hsame₂.trans hcons₁)).bindAt ?_
    rintro r s₃ ⟨-, hs₃, -⟩
    have hle₃ := congrArg List.length hs₃
    rw [List.length_append, List.length_cons, List.length_append] at hle₃
    refine (Line.returns hs₃ (Or.inr rfl) (by omega) hline).bindAt ?_
    rintro cmd s₄ ⟨hs₄, hspells⟩
    refine peek_test nulFree (by decide) (fun _ s₅ hsame₅ => ?_) fun h =>
      absurd (by rw [hs₄]; rfl) h
    refine (gettoken_ensures nulFree (hsame₅.trans hs₄)).bindAt ?_
    rintro r' s₆ ⟨-, hs₆, -⟩
    have hle₆ := congrArg List.length hs₆
    rw [List.length_append] at hle₆
    exact parseredirs_returns nulFree hspells hs₆ (ends.not_sees (by decide)) (by omega)
  | simple rs args few =>
    have hcons : toks text s = rs.flatMap Redir.toks ++ (argToks args ++ rest) := by
      rw [here, List.append_assoc]
    have hstop : sees [less, more] (argToks args ++ rest) ≠ true := by
      cases args with
      | nil => exact ends.not_sees (by decide)
      | cons b args => exact Bool.false_ne_true
    have hopen : sees [lpar] (toks text s) ≠ true := by
      rw [hcons]
      rcases rs with _ | ⟨_ | _ | _, rs⟩
      · cases args with
        | nil => exact ends.not_sees (by decide)
        | cons b args => exact Bool.false_ne_true
      all_goals exact Bool.false_ne_true
    refine peek_test nulFree (by decide) (fun h => absurd h hopen) fun _ s₁ hsame => ?_
    refine (parseredirs_returns nulFree Cmd.Spells.exec_nil (hsame.trans hcons) hstop
      (by rw [hsame]; omega)).bindAt ?_
    rintro ret s₂ ⟨hs₂, hspells⟩
    have hle := congrArg List.length hcons
    rw [List.length_append, ← hs₂] at hle
    exact parseargs_returns nulFree hspells hs₂ (by simpa using few) ends (by omega)
termination_by fuel

end

end Complete

end Sh

end Xv6
