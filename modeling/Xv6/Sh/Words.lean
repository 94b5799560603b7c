/-
# The words of a command tree

All strings of a tree point into the line, and `nulterminate` cuts them there. Every cut is at the
end of a word, so it hits no other word, and it is inside of the line with its NUL. An `execcmd`
has room for its words and the null pointer behind them.
-/

import Xv6.Sh.Accepts

namespace Xv6

open Math

namespace Sh

namespace Cmd

/-- The words of each `execcmd` of a tree. -/
def argvs {α : Type} : Cmd α → List (List α)
  | exec argv => [argv]
  | redir cmd _ _ _ => cmd.argvs
  | pipe left right => left.argvs ++ right.argvs
  | list left right => left.argvs ++ right.argvs
  | back cmd => cmd.argvs

theorem argvs_map {α β : Type} (f : α → β) (cmd : Cmd α) :
    (cmd.map f).argvs = cmd.argvs.map (List.map f) := by
  induction cmd with
  | exec argv => rfl
  | redir cmd file mode fd ih => exact ih
  | pipe left right ihl ihr | list left right ihl ihr =>
    rw [map, argvs, ihl, ihr, argvs, List.map_append]
  | back cmd ih => exact ih

theorem strings_map {α β : Type} (f : α → β) (cmd : Cmd α) :
    (cmd.map f).strings = cmd.strings.map f := by
  induction cmd with
  | exec argv => rfl
  | redir cmd file mode fd ih => rw [map, strings, ih, strings, List.map_cons]
  | pipe left right ihl ihr | list left right ihl ihr =>
    rw [map, strings, ihl, ihr, strings, List.map_append]
  | back cmd ih => exact ih

end Cmd

/-- The words of the tree are among the tokens, and no `execcmd` has too many. -/
structure Holds (ts : List Tok) (tree : Cmd (List UInt8)) : Prop where
  words : ∀ w ∈ tree.strings, .word w ∈ ts
  short : ∀ argv ∈ tree.argvs, argv.length < MAXARGS

namespace Holds

variable {ts us : List Tok} {tree right : Cmd (List UInt8)}

theorem mono (holds : Holds ts tree) (sub : ts ⊆ us) : Holds us tree :=
  ⟨fun w hw => sub (holds.words w hw), holds.short⟩

theorem backs (holds : Holds ts tree) (n : Nat) : Holds ts (backs n tree) := by
  induction n with
  | zero => exact holds
  | succ n ih =>
    rw [Sh.backs, Function.iterate_succ_apply']
    exact ⟨ih.words, ih.short⟩

theorem wrapAll (holds : Holds ts tree) (rs : List Redir) :
    Holds (ts ++ rs.flatMap Redir.toks) (wrapAll tree rs) := by
  induction rs generalizing ts tree with
  | nil =>
    rw [List.flatMap_nil, List.append_nil]
    exact holds
  | cons r rs ih =>
    have hfile : Holds (ts ++ r.toks) (r.wrap tree) := by
      have hwords := (holds.mono (List.subset_append_left ts r.toks)).words
      cases r with
      | input file | output file | append file =>
        refine ⟨fun w hw => ?_, holds.short⟩
        rcases List.mem_cons.mp hw with rfl | hw
        · exact List.mem_append_right _ (by simp [Redir.toks])
        · exact hwords w hw
    rw [List.flatMap_cons, ← List.append_assoc]
    exact ih hfile

theorem pair {l r : Cmd (List UInt8)} (left : Holds ts l) (right : Holds us r) :
    Holds (ts ++ us) (.pipe l r) := by
  refine ⟨fun w hw => ?_, fun argv h => ?_⟩
  · rcases List.mem_append.mp hw with hw | hw
    · exact List.mem_append_left _ (left.words w hw)
    · exact List.mem_append_right _ (right.words w hw)
  · rcases List.mem_append.mp h with h | h
    · exact left.short argv h
    · exact right.short argv h

end Holds

mutual

theorem Line.holds {ts : List Tok} {tree : Cmd (List UInt8)} : Line ts tree → Holds ts tree
  | .last n pipe => (pipe.holds.backs n).mono (List.subset_append_left _ _)
  | .list n pipe line => by
    have h := ((pipe.holds.backs n).mono (List.subset_append_left _ (.replicate n .amp))).pair
      (line.holds.mono (List.subset_cons_self .semi _))
    exact ⟨h.words, h.short⟩

theorem Pipe.holds {ts : List Tok} {tree : Cmd (List UInt8)} : Pipe ts tree → Holds ts tree
  | .last exec => exec.holds
  | .pipe exec pipe => exec.holds.pair (pipe.holds.mono (List.subset_cons_self _ _))

theorem Exec.holds {ts : List Tok} {tree : Cmd (List UInt8)} : Exec ts tree → Holds ts tree
  | .block rs line => by
    refine (line.holds.wrapAll rs).mono fun t ht => ?_
    rcases List.mem_append.mp ht with ht | ht
    · exact List.mem_append_left _ (List.mem_cons_of_mem _ ht)
    · exact List.mem_append_right _ (List.mem_cons_of_mem _ ht)
  | .simple rs args few => by
    have hexec : Holds (argToks args) (.exec (args.map Prod.fst)) := by
      refine ⟨fun w hw => ?_, fun argv h => ?_⟩
      · obtain ⟨a, ha, rfl⟩ := List.mem_map.mp hw
        exact List.mem_flatMap.mpr ⟨a, ha, List.mem_cons_self⟩
      · rw [List.mem_singleton.mp h, List.length_map]
        unfold MAXARGS at few ⊢
        omega
    refine (hexec.wrapAll _).mono fun t ht => ?_
    simp only [List.flatMap_append, List.mem_append] at ht ⊢
    rcases ht with ht | ht | ht
    · exact .inr ht
    · exact .inl ht
    · obtain ⟨r, hr, ht⟩ := List.mem_flatMap.mp ht
      obtain ⟨a, ha, hr⟩ := List.mem_flatMap.mp hr
      exact .inr (List.mem_flatMap.mpr ⟨a, ha, List.mem_cons_of_mem _
        (List.mem_flatMap.mpr ⟨r, hr, ht⟩)⟩)

end

theorem ne_nil_of_mem_tokens {cs w : List UInt8} (mem : .word w ∈ tokens cs) : w ≠ [] := by
  fun_induction tokens cs with
  | case1 => cases mem
  | case2 c cs _ ih => exact ih mem
  | case3 cs _ _ ih | case4 cs _ _ ih =>
    rcases List.mem_cons.mp mem with h | h
    · cases h
    · exact ih h
  | case5 c cs _ _ t symbol ih =>
    rcases List.mem_cons.mp mem with rfl | h
    · unfold symbolTok at symbol
      split_ifs at symbol <;> cases symbol
    · exact ih h
  | case6 c cs _ _ _ ih =>
    rcases List.mem_cons.mp mem with h | h
    · rw [Tok.word.inj h]
      exact List.cons_ne_nil _ _
    · exact ih h

theorem length_nulterminate (cmd : Cmd Span) (buf : List UInt8) :
    (nulterminate cmd buf).length = buf.length := by
  induction cmd generalizing buf with
  | exec argv =>
    rw [nulterminate]
    induction argv generalizing buf with
    | nil => rfl
    | cons span argv ih => rw [List.foldl_cons, ih, List.length_set]
  | redir cmd file mode fd ih => rw [nulterminate, List.length_set, ih]
  | pipe left right ihl ihr | list left right ihl ihr => rw [nulterminate, ihr, ihl]
  | back cmd ih => rw [nulterminate, ih]

/-- When the shell accepts a line, then every word of the tree, read as a C string after
`nulterminate`, is the text that `gettoken` delimited; every NUL has been stored in the line or in
place of its own NUL; and each `execcmd` has its null pointer within `MAXARGS` entries. -/
theorem words_survive_termination {text : List UInt8} (nulFree : 0 ∉ text) {cmd : Cmd Span}
    {buf : List UInt8} {s : Nat} (accepted : (parsecmd text).run 0 = .ok (cmd, buf) s) :
    buf = nulterminate cmd (text ++ [0]) ∧ buf.length = text.length + 1 ∧
    (∀ span ∈ cmd.strings, span.q < span.eq ∧ span.eq < text.length + 1 ∧
      cString buf span.q = (text.drop span.q).take (span.eq - span.q)) ∧
    ∀ argv ∈ cmd.argvs, argv.length < MAXARGS := by
  obtain ⟨rfl, tree, hline, hspells⟩ := parsecmd_spells nulFree accepted
  have hholds := hline.holds
  rw [← hspells.words] at hholds
  have hread := hspells.read_nulterminate nulFree
  rw [← hspells.words] at hread
  refine ⟨rfl, ?_, fun span hspan => ?_, fun argv hargv => ?_⟩
  · rw [length_nulterminate, List.length_append, List.length_singleton]
  · have hmem : spelled text span ∈ (cmd.map (spelled text)).strings := by
      rw [Cmd.strings_map]
      exact List.mem_map_of_mem hspan
    have hword := List.length_pos_iff.mpr (ne_nil_of_mem_tokens (hholds.words _ hmem))
    have hstop := (hspells.spans span hspan).stop
    have hfits : (spelled text span).length ≤ text.length - span.q := by
      rw [← List.length_drop]
      exact (List.takeWhile_prefix _).length_le
    have hsame := congrArg Cmd.strings hread
    rw [Cmd.read, Cmd.strings_map, Cmd.strings_map, List.map_inj_left] at hsame
    refine ⟨by omega, by omega, ?_⟩
    rw [hsame span hspan, hstop, Nat.add_sub_cancel_left]
    exact List.prefix_iff_eq_take.mp (List.takeWhile_prefix _)
  · have hshort := hholds.short (argv.map (spelled text)) (by
      rw [Cmd.argvs_map]
      exact List.mem_map_of_mem hargv)
    rwa [List.length_map] at hshort

/-- In `a<b`, the words touch the symbol between them. -/
theorem words_survive_termination_touching :
    ∃ cmd s, (parsecmd [97, 60, 98]).run 0 = .ok (cmd, [97, 0, 98, 0]) s ∧
      ∀ span ∈ cmd.strings, span.eq < 4 ∧
        cString [97, 0, 98, 0] span.q = ([97, 60, 98].drop span.q).take (span.eq - span.q) := by
  have hrun : (parsecmd [97, 60, 98]).run 0 =
      .ok (.redir (.exec [⟨0, 1⟩]) ⟨2, 3⟩ O_RDONLY 0, [97, 0, 98, 0]) 3 := rfl
  obtain ⟨-, -, hwords, -⟩ := words_survive_termination (by decide) hrun
  exact ⟨_, _, hrun, fun span hspan => (hwords span hspan).2⟩

end Sh

end Xv6
