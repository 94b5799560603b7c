/-
# What the readers of the console get

Runs of the console with any number of readers. The bytes that the calls of `console_read` store, in
the order in which they are stored, are the committed text without ^D as far as it has been read. A
call ends with the first newline it stores, and its result is the number of its bytes.
-/

import Xv6.Console.Editing

namespace Xv6

open Math

namespace ConsoleSystem

/-! ### One stretch of a call -/

section Advance

variable {S : ConsoleSystem} {p : Nat} {t : Reader}

theorem advance_readers_self :
    (S.advance p t).readers p = (S.stretch p t).ending.sleeper t := Function.update_self ..

theorem advance_readers_of_ne {q : Nat} (ne : q ≠ p) :
    (S.advance p t).readers q = S.readers q := Function.update_of_ne ne ..

theorem bytesOf_advance_self :
    (S.advance p t).bytesOf t.call = S.bytesOf t.call ++ (S.stretch p t).bytes := by
  unfold bytesOf
  rw [advance, List.filter_append, List.map_append, List.filter_map, List.map_map]
  congr 1
  simp [Function.comp_def]

theorem bytesOf_advance_of_ne {call : Nat} (ne : call ≠ t.call) :
    (S.advance p t).bytesOf call = S.bytesOf call := by
  unfold bytesOf
  rw [advance, List.filter_append, List.map_append, List.filter_map, List.map_map]
  simp [Function.comp_def, ne.symm]

end Advance

/-! ### The invariant -/

/-- A call that has not returned yet: what it was asked for is what it has stored and what is to go,
and it has met no newline. -/
structure Pending (S : ConsoleSystem) (t : Reader) : Prop where
  call : t.call < S.calls
  target : t.target = UInt32.ofNat (t.n + (S.bytesOf t.call).length)
  bound : t.n + (S.bytesOf t.call).length < 2 ^ 31
  noFeed : lineFeed ∉ S.bytesOf t.call
  open_ : ∀ c ∈ S.returned, c.1 ≠ t.call

/-- The calls have taken the first `taken` bytes of the committed text. -/
structure Delivers (S : ConsoleSystem) (taken : Nat) : Prop where
  shows : S.console.Shows S.text taken
  alive : ∀ p, S.killed p = false
  delivered : S.delivered.map Prod.snd = (S.text.committed.take taken).filter (· ≠ ctrl 'D')
  numbered : ∀ d ∈ S.delivered, d.1 < S.calls
  pending : ∀ p t, S.readers p = some t → S.Pending t
  apart : ∀ p q t u, S.readers p = some t → S.readers q = some u → t.call = u.call → p = q
  oneLine : ∀ call, lineFeed ∉ (S.bytesOf call).dropLast
  returned : ∀ c ∈ S.returned, c.1 < S.calls ∧ c.2 = (S.bytesOf c.1).length

section Steps

variable {S T : ConsoleSystem} {taken : Nat} {p : Nat} {t : Reader}

theorem boot_delivers : boot.Delivers 0 where
  shows := Console.boot_shows
  alive _ := rfl
  delivered := rfl
  numbered := nofun
  pending := nofun
  apart := nofun
  oneLine _ := List.not_mem_nil
  returned := nofun

theorem key_committed (u : EditedText) (s : Console) (c : UInt8) :
    u.committed <+: (u.key s c).committed := by
  unfold EditedText.key
  split_ifs
  all_goals first | exact List.prefix_rfl | exact List.prefix_append _ _

theorem Delivers.key (ok : S.Delivers taken) {c : UInt8} (notUp : c ≠ KEY_UP)
    (notDown : c ≠ KEY_DN) :
    ({ S with console := S.console.intr c, text := S.text.key S.console c } :
      ConsoleSystem).Delivers taken where
  shows := ok.shows.intr notUp notDown
  alive := ok.alive
  delivered := by
    obtain ⟨rest, hrest⟩ := key_committed S.text S.console c
    change S.delivered.map Prod.snd = _
    rw [ok.delivered, ← hrest, List.take_append_of_le_length ok.shows.counts.behind]
  numbered := ok.numbered
  pending p t h := ⟨(ok.pending p t h).call, (ok.pending p t h).target, (ok.pending p t h).bound,
    (ok.pending p t h).noFeed, (ok.pending p t h).open_⟩
  apart := ok.apart
  oneLine := ok.oneLine
  returned := ok.returned

/-- The bytes of a call that goes on keep to one line. -/
theorem Pending.oneLine {bytes : List UInt8} (pending : S.Pending t)
    (oneLine : lineFeed ∉ bytes.dropLast) : lineFeed ∉ (S.bytesOf t.call ++ bytes).dropLast := by
  intro h
  rcases eq_or_ne bytes [] with rfl | hne
  · rw [List.append_nil] at h
    exact pending.noFeed (List.mem_of_mem_dropLast h)
  · rw [List.dropLast_append_of_ne_nil hne] at h
    rcases List.mem_append.mp h with h | h
    · exact pending.noFeed h
    · exact oneLine h

/-- A call that goes on and sleeps again is still pending, and one that returns gives the number
of its bytes. -/
theorem Pending.advance {taken' : Nat} (pending : S.Pending t)
    (takes : (S.stretch p t).Takes S.text t.target t.n taken taken') :
    (∀ u ∈ (S.stretch p t).ending.sleeper t, (S.advance p t).Pending u ∧ u.call = t.call) ∧
      ∀ c ∈ (S.stretch p t).ending.results t,
        c.1 = t.call ∧ c.2 = ((S.advance p t).bytesOf t.call).length := by
  obtain ⟨m, hm, hends⟩ := takes.ending
  have hlength : ((S.advance p t).bytesOf t.call).length =
      (S.bytesOf t.call).length + (S.stretch p t).bytes.length := by
    rw [bytesOf_advance_self, List.length_append]
  have hsum : m + ((S.advance p t).bytesOf t.call).length =
      t.n + (S.bytesOf t.call).length := by omega
  have hbound := pending.bound
  rcases hends with ⟨hends, hfeed⟩ | hends
  · rw [hends]
    refine ⟨?_, nofun⟩
    rintro _ ⟨⟩
    refine ⟨⟨pending.call, ?_, ?_, ?_, ?_⟩, rfl⟩
    · rw [hsum]
      exact pending.target
    · exact hsum ▸ hbound
    · rw [bytesOf_advance_self]
      exact fun h => (List.mem_append.mp h).elim pending.noFeed hfeed
    · change ∀ c ∈ S.returned ++ (S.stretch p t).ending.results t, c.1 ≠ t.call
      rw [hends]
      simpa [Console.Ending.results] using pending.open_
  · rw [hends]
    refine ⟨nofun, fun c hc => ?_⟩
    obtain rfl := List.mem_singleton.mp hc
    refine ⟨rfl, ?_⟩
    change Console.result t.target (Int32.ofNat m) = _
    rw [pending.target, Console.result_ofNat (by omega) hbound]
    congr 1
    omega

/-- A call that is pending goes on. No other process is in it. -/
theorem Delivers.advance (ok : S.Delivers taken) (pending : S.Pending t)
    (alone : ∀ q u, S.readers q = some u → u.call = t.call → q = p) :
    ∃ taken', (S.advance p t).Delivers taken' := by
  obtain ⟨taken', htakes⟩ := ok.shows.readLoop t.target t.n
  rw [← ok.alive p] at htakes
  change (S.stretch p t).Takes S.text t.target t.n taken taken' at htakes
  obtain ⟨hsleeper, hresults⟩ := pending.advance htakes
  -- the other processes are in other calls
  have hother {q : Nat} {u : Reader} (hq : q ≠ p) (h : S.readers q = some u) :
      u.call ≠ t.call := fun heq => hq (alone q u h heq)
  have hreaders {q : Nat} {u : Reader} (h : (S.advance p t).readers q = some u) :
      q = p ∧ u ∈ (S.stretch p t).ending.sleeper t ∨ q ≠ p ∧ S.readers q = some u := by
    by_cases hq : q = p
    · subst hq
      exact .inl ⟨rfl, advance_readers_self.symm.trans h⟩
    · exact .inr ⟨hq, (advance_readers_of_ne hq).symm.trans h⟩
  refine ⟨taken', htakes.shows, ok.alive, ?_, ?_, ?_, ?_, ?_, ?_⟩
  · change (S.delivered ++ (S.stretch p t).bytes.map fun c => (t.call, c)).map Prod.snd = _
    have hold : S.text.committed.take taken = (S.text.committed.take taken').take taken := by
      rw [List.take_take, min_eq_left htakes.le]
    rw [List.map_append, List.map_map, ok.delivered, hold]
    change _ ++ (S.stretch p t).bytes.map id = _
    rw [List.map_id, htakes.bytes, ← List.filter_append, List.take_append_drop]
    rfl
  · intro d hd
    rcases List.mem_append.mp hd with hd | hd
    · exact ok.numbered d hd
    · obtain ⟨c, -, rfl⟩ := List.mem_map.mp hd
      exact pending.call
  · intro q u h
    rcases hreaders h with ⟨-, hu⟩ | ⟨hq, h⟩
    · exact (hsleeper u hu).1
    · have hold := ok.pending q u h
      have hne := hother hq h
      have hbytes : (S.advance p t).bytesOf u.call = S.bytesOf u.call :=
        bytesOf_advance_of_ne hne
      refine ⟨hold.call, by rw [hbytes]; exact hold.target, by rw [hbytes]; exact hold.bound,
        by rw [hbytes]; exact hold.noFeed, fun c hc => ?_⟩
      rcases List.mem_append.mp hc with hc | hc
      · exact hold.open_ c hc
      · rw [(hresults c hc).1]
        exact hne.symm
  · intro q q' u u' h h' heq
    rcases hreaders h with ⟨hq, hu⟩ | ⟨hq, hold⟩
    · rcases hreaders h' with ⟨hq', -⟩ | ⟨hq', hold'⟩
      · rw [hq, hq']
      · exact absurd (heq.symm.trans (hsleeper u hu).2) (hother hq' hold')
    · rcases hreaders h' with ⟨-, hu'⟩ | ⟨hq', hold'⟩
      · exact absurd (heq.trans (hsleeper u' hu').2) (hother hq hold)
      · exact ok.apart q q' u u' hold hold' heq
  · intro call
    by_cases hcall : call = t.call
    · rw [hcall, bytesOf_advance_self]
      exact pending.oneLine htakes.oneLine
    · rw [bytesOf_advance_of_ne hcall]
      exact ok.oneLine call
  · intro c hc
    rcases List.mem_append.mp hc with hc | hc
    · rw [bytesOf_advance_of_ne (pending.open_ c hc)]
      exact ok.returned c hc
    · obtain ⟨hcall, hv⟩ := hresults c hc
      rw [hcall, hv]
      exact ⟨pending.call, rfl⟩

theorem Delivers.bytesOf_new (ok : S.Delivers taken) : S.bytesOf S.calls = [] := by
  unfold bytesOf
  rw [List.filter_eq_nil_iff.mpr, List.map_nil]
  intro d hd h
  exact absurd (ok.numbered d hd) (of_decide_eq_true h ▸ lt_irrefl _)

/-- A new call is pending, and it is the only one with its number. -/
theorem Delivers.newCall (ok : S.Delivers taken) {n : Int32} (pos : 0 < n) :
    ({ S with calls := S.calls + 1 } : ConsoleSystem).Delivers taken ∧
      ({ S with calls := S.calls + 1 } : ConsoleSystem).Pending
        ⟨S.calls, n.toUInt32, n.toInt.toNat⟩ ∧
      ∀ q u, S.readers q = some u → u.call ≠ S.calls := by
  have hbytes := ok.bytesOf_new
  have hgrow {k : Nat} (h : k < S.calls) : k < S.calls + 1 := Nat.lt_succ_of_lt h
  refine ⟨⟨ok.shows, ok.alive, ok.delivered, fun d hd => hgrow (ok.numbered d hd), ?_, ok.apart,
    ok.oneLine, fun c hc => ⟨hgrow (ok.returned c hc).1, (ok.returned c hc).2⟩⟩,
    ⟨Nat.lt_succ_self _, ?_, ?_, ?_, fun c hc => (ok.returned c hc).1.ne⟩,
    fun q u h => (ok.pending q u h).call.ne⟩
  · intro q u h
    have hold := ok.pending q u h
    exact ⟨hgrow hold.call, hold.target, hold.bound, hold.noFeed, hold.open_⟩
  · change n.toUInt32 = UInt32.ofNat (n.toInt.toNat + (S.bytesOf S.calls).length)
    rw [hbytes, List.length_nil, Nat.add_zero, ← Int32.toUInt32_ofNat']
    exact congrArg _ (Int32.ofNat_toNatClampNeg n (Int32.le_of_lt pos)).symm
  · change n.toInt.toNat + (S.bytesOf S.calls).length < 2 ^ 31
    rw [hbytes, List.length_nil]
    have := n.toInt_lt
    omega
  · change lineFeed ∉ S.bytesOf S.calls
    rw [hbytes]
    exact List.not_mem_nil

/-- A call that is asked for no bytes returns at once. -/
theorem Delivers.emptyCall (ok : S.Delivers taken) (n : Int32) :
    ({ S with
      calls := S.calls + 1
      returned := S.returned ++ [(S.calls, Console.result n.toUInt32 n)] } :
        ConsoleSystem).Delivers taken := by
  have hgrow {k : Nat} (h : k < S.calls) : k < S.calls + 1 := Nat.lt_succ_of_lt h
  refine ⟨ok.shows, ok.alive, ok.delivered, fun d hd => hgrow (ok.numbered d hd), ?_, ok.apart,
    ok.oneLine, ?_⟩
  · intro q u h
    have hold := ok.pending q u h
    refine ⟨hgrow hold.call, hold.target, hold.bound, hold.noFeed, fun c hc => ?_⟩
    rcases List.mem_append.mp hc with hc | hc
    · exact hold.open_ c hc
    · rw [List.mem_singleton.mp hc]
      exact hold.call.ne'
  · intro c hc
    rcases List.mem_append.mp hc with hc | hc
    · exact ⟨hgrow (ok.returned c hc).1, (ok.returned c hc).2⟩
    · obtain rfl := List.mem_singleton.mp hc
      refine ⟨Nat.lt_succ_self _, ?_⟩
      change Console.result n.toUInt32 n = (S.bytesOf S.calls).length
      rw [ok.bytesOf_new, Console.result, UInt32.sub_self]
      rfl

end Steps

/-! ### Runs -/

end ConsoleSystem

/-- The events without the arrow keys, in which no process is killed. -/
def ConsoleEvent.Plain : ConsoleEvent → Prop
  | .key c => c ≠ KEY_UP ∧ c ≠ KEY_DN
  | .kill _ => False
  | _ => True

instance : DecidablePred ConsoleEvent.Plain
  | .key c => inferInstanceAs (Decidable (c ≠ KEY_UP ∧ c ≠ KEY_DN))
  | .read _ _ => .isTrue trivial
  | .wake _ => .isTrue trivial
  | .kill _ => .isFalse id

namespace ConsoleSystem

/-- One event, in which a call is made only when no other one is under way. -/
def StepInTurn (ev : ConsoleEvent) (S T : ConsoleSystem) : Prop :=
  Step ev S T ∧ ∀ p n, ev = .read p n → ∀ q, S.readers q = none

section Runs

variable {S T : ConsoleSystem} {taken : Nat} {ev : ConsoleEvent} {events : List ConsoleEvent}

theorem Delivers.step (ok : S.Delivers taken) (step : Step ev S T) (plain : ev.Plain) :
    ∃ taken', T.Delivers taken' := by
  cases ev with
  | key c =>
    obtain rfl := Option.some.inj step
    exact ⟨taken, ok.key plain.1 plain.2⟩
  | read p n =>
    obtain ⟨-, rfl⟩ := step.of_read
    unfold consoleRead
    split
    next hpos =>
      obtain ⟨hok, hpending, hnew⟩ := ok.newCall hpos
      exact hok.advance hpending fun q u h heq => absurd heq (hnew q u h)
    next => exact ⟨taken, ok.emptyCall n⟩
  | wake p =>
    obtain ⟨t, ht, rfl⟩ := Option.map_eq_some_iff.mp step
    exact ok.advance (ok.pending p t ht) fun q u h heq => ok.apart q p u t h ht heq
  | kill p => exact plain.elim

theorem delivers_of_run (run : Run Step boot events S) (plain : ∀ ev ∈ events, ev.Plain) :
    ∃ taken, S.Delivers taken := by
  induction run with
  | start => exact ⟨0, boot_delivers⟩
  | snoc _ hstep ih =>
    obtain ⟨hearlier, hlast⟩ := List.forall_mem_append.mp plain
    obtain ⟨taken, ok⟩ := ih hearlier
    exact ok.step hstep (hlast _ (List.mem_singleton_self _))

/-- The bytes of the calls that have returned, one call after the other, come before those of the
only call that is under way. -/
def InTurn (S : ConsoleSystem) : Prop :=
  ∃ current, S.delivered.map Prod.snd = (S.returned.map fun c => S.bytesOf c.1).flatten ++ current ∧
    ((∀ q, S.readers q = none) → current = []) ∧
    ∀ p t, S.readers p = some t → current = S.bytesOf t.call ∧ ∀ q ≠ p, S.readers q = none

theorem InTurn.advance {p : Nat} {t : Reader} (pending : S.Pending t)
    (before : S.delivered.map Prod.snd =
      (S.returned.map fun c => S.bytesOf c.1).flatten ++ S.bytesOf t.call)
    (alone : ∀ q ≠ p, S.readers q = none) : (S.advance p t).InTurn := by
  have hdelivered : (S.advance p t).delivered.map Prod.snd =
      (S.returned.map fun c => (S.advance p t).bytesOf c.1).flatten ++
        (S.advance p t).bytesOf t.call := by
    have hsame : (S.returned.map fun c => (S.advance p t).bytesOf c.1) =
        S.returned.map fun c => S.bytesOf c.1 :=
      List.map_congr_left fun c hc => bytesOf_advance_of_ne (pending.open_ c hc)
    have hbytes : ((S.stretch p t).bytes.map fun c => (t.call, c)).map Prod.snd =
        (S.stretch p t).bytes := by
      rw [List.map_map]
      exact List.map_id _
    change (S.delivered ++ (S.stretch p t).bytes.map fun c => (t.call, c)).map Prod.snd = _
    rw [List.map_append, before, hsame, bytesOf_advance_self, hbytes, List.append_assoc]
  have hothers {q : Nat} (hq : q ≠ p) : (S.advance p t).readers q = none := by
    rw [advance_readers_of_ne hq, alone q hq]
  have hself := advance_readers_self (S := S) (p := p) (t := t)
  cases hends : (S.stretch p t).ending with
  | asleep m =>
    rw [hends] at hself
    have hreturned : (S.advance p t).returned = S.returned := by
      change S.returned ++ (S.stretch p t).ending.results t = _
      rw [hends]
      exact List.append_nil _
    refine ⟨_, hreturned ▸ hdelivered, fun h => ?_, fun q u h => ?_⟩
    · rw [h p] at hself
      cases hself
    · obtain rfl : q = p := by
        by_contra hq
        rw [hothers hq] at h
        cases h
      rw [hself] at h
      cases h
      exact ⟨rfl, fun q' => hothers⟩
  | returned v =>
    rw [hends] at hself
    have hreturned : (S.advance p t).returned = S.returned ++ [(t.call, v)] := by
      change S.returned ++ (S.stretch p t).ending.results t = _
      rw [hends]
      rfl
    have hnone (q : Nat) : (S.advance p t).readers q = none := by
      by_cases hq : q = p
      · rw [hq, hself]
        rfl
      · exact hothers hq
    refine ⟨[], ?_, fun _ => rfl, fun q u h => ?_⟩
    · rw [hdelivered, hreturned, List.map_append, List.flatten_append, List.append_nil]
      simp
    · rw [hnone q] at h
      cases h

theorem InTurn.step (inTurn : S.InTurn) (ok : S.Delivers taken) (step : StepInTurn ev S T)
    (plain : ev.Plain) : T.InTurn := by
  obtain ⟨current, hdelivered, hidle, hbusy⟩ := inTurn
  obtain ⟨hstep, hturn⟩ := step
  cases ev with
  | key c =>
    obtain rfl := Option.some.inj hstep
    exact ⟨current, hdelivered, hidle, hbusy⟩
  | read p n =>
    obtain ⟨-, rfl⟩ := hstep.of_read
    have hnone := hturn p n rfl
    rw [hidle hnone] at hdelivered
    unfold consoleRead
    split
    next hpos =>
      obtain ⟨-, hpending, -⟩ := ok.newCall hpos
      refine InTurn.advance hpending ?_ fun q _ => hnone q
      have hnew : S.bytesOf S.calls = [] := ok.bytesOf_new
      refine hdelivered.trans (congrArg _ ?_)
      exact hnew.symm
    next =>
      refine ⟨[], ?_, fun _ => rfl, fun q u h => ?_⟩
      · change S.delivered.map Prod.snd =
          ((S.returned ++ [(S.calls, _)]).map fun c : Nat × Int => S.bytesOf c.1).flatten ++ []
        rw [hdelivered, List.map_append, List.flatten_append]
        simp [ok.bytesOf_new]
      · rw [show S.readers q = none from hnone q] at h
        cases h
  | wake p =>
    obtain ⟨t, ht, rfl⟩ := Option.map_eq_some_iff.mp hstep
    obtain ⟨rfl, halone⟩ := hbusy p t ht
    exact InTurn.advance (ok.pending p t ht) hdelivered halone
  | kill p => exact plain.elim

theorem inTurn_of_run (run : Run StepInTurn boot events S) (plain : ∀ ev ∈ events, ev.Plain) :
    S.InTurn := by
  induction run with
  | start => exact ⟨[], rfl, fun _ => rfl, nofun⟩
  | snoc hrun hstep ih =>
    obtain ⟨hearlier, hlast⟩ := List.forall_mem_append.mp plain
    obtain ⟨taken, ok⟩ := delivers_of_run (hrun.mono fun _ _ _ h => h.1) hearlier
    exact (ih hearlier).step ok hstep (hlast _ (List.mem_singleton_self _))

end Runs

/-- Without arrow keys and killed processes, the bytes that the calls of `console_read` store, in
the order in which they are stored, are a beginning of the committed text without ^D. No call gets
anything from beyond its first newline, and a call that has returned gave the number of its bytes.
If the calls are made one after the other, the concatenation of what they returned is such a
beginning. -/
theorem console_read_delivers_edited_text {S : ConsoleSystem} {events : List ConsoleEvent}
    (run : Run Step boot events S) (plain : ∀ ev ∈ events, ev.Plain) :
    S.delivered.map Prod.snd <+: S.text.committed.filter (· ≠ ctrl 'D') ∧
    (∀ call, lineFeed ∉ (S.bytesOf call).dropLast) ∧
    (∀ c ∈ S.returned, c.2 = (S.bytesOf c.1).length) ∧
    (Run StepInTurn boot events S →
      (S.returned.map fun c => S.bytesOf c.1).flatten <+:
        S.text.committed.filter (· ≠ ctrl 'D')) := by
  obtain ⟨taken, ok⟩ := delivers_of_run run plain
  have hinitial : S.delivered.map Prod.snd <+: S.text.committed.filter (· ≠ ctrl 'D') := by
    rw [ok.delivered]
    exact (List.take_prefix taken _).filter _
  refine ⟨hinitial, ok.oneLine, fun c hc => (ok.returned c hc).2, fun hturns => ?_⟩
  obtain ⟨current, hdelivered, -, -⟩ := inTurn_of_run hturns plain
  exact (hdelivered ▸ List.prefix_append _ _).trans hinitial

/-- A reader sleeps while `ab`, a backspace, `c` and a newline are typed, and then gets `ac` with
the newline. -/
theorem console_read_delivers_edited_text_backspace :
    ∃ S, Run Step boot [.read 1 5, .key 97, .key 98, .key (ctrl 'H'), .key 99, .key lineFeed,
        .wake 1] S ∧
      S.returned = [(0, 3)] ∧ S.delivered.map Prod.snd = [97, 99, lineFeed] ∧
      S.delivered.map Prod.snd <+: S.text.committed.filter (· ≠ ctrl 'D') := by
  have hdone : (execute act boot [.read 1 5, .key 97, .key 98, .key (ctrl 'H'), .key 99,
      .key lineFeed, .wake 1]).map (fun S => (S.returned, S.delivered.map Prod.snd)) =
        some ([(0, 3)], [97, 99, lineFeed]) := by
    decide +kernel
  obtain ⟨S, hS, hresult⟩ := Option.map_eq_some_iff.mp hdone
  have hrun : Run Step boot _ S := Run.of_execute (fun _ _ _ h => h) hS
  obtain ⟨hreturned, hdelivered⟩ := Prod.mk.inj hresult
  refine ⟨S, hrun, hreturned, hdelivered, (console_read_delivers_edited_text hrun ?_).1⟩
  decide

end ConsoleSystem

end Xv6
