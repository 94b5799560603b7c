/-
# The capacity of the console ring

An ordinary character is stored only if the ring has room for it. The arrow keys copy an entry of
the history to the current line without such a test. The counters stay within the ring as long as
every entry that is recalled fits behind the unread bytes, and the first one that does not fit takes
them out of it.
-/

import Xv6.Console.Editing

namespace Xv6

open Math

namespace Console

/-- The number of bytes that an entry of the history stands for. -/
def entryLength (s : Console) (h : Nat) : Nat := (s.ehist h - 1).toNat - (s.rhist h).toNat

/-- The entry of the history that a key copies to the current line. -/
def recalled (s : Console) (c : UInt8) : Option Nat :=
  if c = KEY_UP ∧ s.hist ≠ 0 then some s.prevIndex.toNat
  else if c = KEY_DN ∧ ((s.hist.toNat % HISTMAX : Nat) : Int) ≠ s.nextIndex then
    some s.nextIndex.toNat
  else none

/-- How much of the current line is not erased: what comes up to its last newline, which an entry
recalled before may have brought in. -/
def kept (s : Console) : Nat :=
  Nat.findGreatest (fun m => s.buf (cell (s.w + UInt32.ofNat m - 1)) = lineFeed) (s.e - s.w).toNat

/-- The entry that a key recalls fits into the ring behind the unread bytes and what is kept of the
current line. -/
def HasRoom (s : Console) (c : UInt8) : Prop :=
  ∀ h ∈ s.recalled c, (s.w - s.r).toNat + s.kept + s.entryLength h ≤ INPUT_BUF

/-- The counters are in order and at most the size of the ring apart. -/
def Bounded (s : Console) : Prop :=
  s.w - s.r ≤ s.e - s.r ∧ s.e - s.r ≤ UInt32.ofNat INPUT_BUF

/-- The bytes that are handed to the readers and not read yet are the same in `t`. -/
def KeepsUnread (s t : Console) : Prop :=
  ∀ i < (s.w - s.r).toNat, t.buf (cell (s.r + UInt32.ofNat i)) = s.buf (cell (s.r + UInt32.ofNat i))

/-- No entry of the history is longer than a line can be. -/
def Recorded (s : Console) : Prop := ∀ h, s.entryLength h < INPUT_BUF

/-! ### Copying an entry -/

section Copy

variable {s : Console} {i j k : Nat}

/-- Store one character after the other. -/
def storeAll (s : Console) (cs : List UInt8) : Console := cs.foldl Console.store s

theorem storeAll_cons (s : Console) (c : UInt8) (cs : List UInt8) :
    s.storeAll (c :: cs) = (s.store c).storeAll cs := rfl

theorem copyLoop_eq (h n : Nat) (y : UInt32) (s : Console) :
    ∃ cs : List UInt8, cs.length = min n ((s.ehist h - 1).toNat - (s.rhist h + y).toNat) ∧
      copyLoop h n y s = s.storeAll cs := by
  induction n generalizing y s with
  | zero => exact ⟨[], by simp, rfl⟩
  | succ n ih =>
    rw [copyLoop]
    split
    next hlt =>
      obtain ⟨cs, hlength, heq⟩ := ih (y + 1) (s.store (s.buf (cell (s.rhist h + y))))
      refine ⟨_ :: cs, ?_, heq⟩
      -- the index cannot wrap below the end of the entry
      have hsucc : (s.rhist h + (y + 1)).toNat = (s.rhist h + y).toNat + 1 := by
        rw [← UInt32.add_assoc, UInt32.toNat_add]
        have hlt := UInt32.lt_iff_toNat_lt.mp hlt
        have := (s.ehist h - 1).toNat_lt
        exact Nat.mod_eq_of_lt (by change _ + 1 < _; omega)
      change cs.length = min n ((s.ehist h - 1).toNat - (s.rhist h + (y + 1)).toNat) at hlength
      have hlt := UInt32.lt_iff_toNat_lt.mp hlt
      rw [List.length_cons, hlength, hsucc]
      omega
    next hge =>
      have hge := UInt32.le_iff_toNat_le.mp (UInt32.not_lt.mp hge)
      refine ⟨[], ?_, rfl⟩
      rw [List.length_nil]
      omega

/-- Copying an entry stores as many characters as the entry stands for. -/
theorem copyEntry_eq (s : Console) (h : Nat) :
    ∃ cs : List UInt8, cs.length = s.entryLength h ∧ s.copyEntry h = s.storeAll cs := by
  obtain ⟨cs, hlength, heq⟩ := copyLoop_eq h (s.ehist h - 1 - s.rhist h).toNat 0 s
  refine ⟨cs, ?_, heq⟩
  rw [hlength, UInt32.add_zero, entryLength, UInt32.toNat_sub]
  have := (s.ehist h - 1).toNat_lt
  have := (s.rhist h).toNat_lt
  omega

theorem storeAll_fields (s : Console) (cs : List UInt8) :
    s.storeAll cs = { s with
      buf := (s.storeAll cs).buf
      e := s.e + UInt32.ofNat cs.length } := by
  induction cs generalizing s with
  | nil => simp [storeAll]
  | cons c cs ih =>
    rw [storeAll_cons, ih]
    simp [store, UInt32.add_assoc, UInt32.add_comm]

/-- The characters that are stored do not touch other cells. -/
theorem Positions.storeAll (at_ : s.Positions i j k) (cs : List UInt8)
    (room : k + cs.length ≤ i + INPUT_BUF) :
    (s.storeAll cs).Positions i j (k + cs.length) ∧
      ∀ p, i ≤ p → p < k → (s.storeAll cs).buf (p % INPUT_BUF) = s.buf (p % INPUT_BUF) := by
  induction cs generalizing s k with
  | nil => exact ⟨at_, fun _ _ _ => rfl⟩
  | cons c cs ih =>
    rw [List.length_cons] at room
    obtain ⟨hpositions, hcells⟩ := ih (at_.store (by omega) c) (by omega)
    rw [storeAll_cons, List.length_cons, Nat.add_comm cs.length, ← Nat.add_assoc]
    refine ⟨hpositions, fun p hi hp => ?_⟩
    rw [hcells p hi (by omega), Console.store, at_.e, cell_ofNat]
    exact Function.update_of_ne (Inscribed.cell_ne hp (by omega)) ..

end Copy

/-! ### Erasing the line -/

section Erase

variable {s : Console} {i j k : Nat}

theorem Positions.eraseLoop_eq {n : Nat} (at_ : s.Positions i j (j + n)) :
    eraseLoop n s = { s with e := UInt32.ofNat (j + Nat.findGreatest
      (fun m => s.buf (cell (s.w + UInt32.ofNat m - 1)) = lineFeed) n) } := by
  induction n generalizing s with
  | zero => exact congrArg (fun e => ({ s with e := e } : Console)) at_.e
  | succ n ih =>
    have hlast : s.e = s.w + UInt32.ofNat (n + 1) := by rw [at_.e, at_.w, UInt32.ofNat_add]
    have hne : s.e ≠ s.w := at_.e_ne_w.mpr (by omega)
    rw [eraseLoop, Nat.findGreatest_succ]
    by_cases hfeed : s.buf (cell (s.e - 1)) = lineFeed
    · rw [if_neg fun h => h.2 hfeed, if_pos (hlast ▸ hfeed)]
      exact congrArg (fun e => ({ s with e := e } : Console)) at_.e
    · have hpred : s.e - 1 = UInt32.ofNat (j + n) := by
        rw [at_.e, ofNat_pred (by omega)]
        rfl
      rw [if_pos ⟨hne, hfeed⟩, if_neg (hlast ▸ hfeed), hpred]
      exact ih (at_.shorten (Nat.le_add_right j n) (by omega))

/-- Erasing moves the edit index back to the end of what is kept. -/
theorem Positions.eraseLine_eq (at_ : s.Positions i j k) :
    s.eraseLine = { s with e := UInt32.ofNat (j + s.kept) } ∧ j + s.kept ≤ k := by
  have hlength : (s.e - s.w).toNat = k - j := by
    have hnear := at_.room.trans (Nat.add_le_add_right at_.behind _)
    rw [at_.e, at_.w, toNat_ofNat_sub at_.edited hnear]
  have hk : k = j + (k - j) := (Nat.add_sub_of_le at_.edited).symm
  constructor
  · rw [hk] at at_
    rw [eraseLine, kept, hlength]
    exact at_.eraseLoop_eq
  · have hle : s.kept ≤ k - j := by
      rw [kept, hlength]
      exact Nat.findGreatest_le _
    omega

/-- Erasing changes the edit index only, and does not look at the history. -/
theorem eraseLoop_fields (n : Nat) (s : Console) :
    ∃ e, ∀ x, eraseLoop n { s with histIndex := x } = { s with e := e, histIndex := x } := by
  induction n generalizing s with
  | zero => exact ⟨s.e, fun _ => rfl⟩
  | succ n ih =>
    simp only [eraseLoop]
    split
    next => exact ih { s with e := s.e - 1 }
    next => exact ⟨s.e, fun _ => rfl⟩

theorem eraseLine_histIndex (s : Console) (x : Int) :
    eraseLine { s with histIndex := x } = { s.eraseLine with histIndex := x } := by
  obtain ⟨e, he⟩ := eraseLoop_fields (s.e - s.w).toNat s
  have hself : s.eraseLine = { s with e := e } := he s.histIndex
  rw [hself]
  exact he x

theorem upArrow_eq (some_ : s.hist ≠ 0) : s.upArrow =
    ({ s.eraseLine with histIndex := s.prevIndex } : Console).copyEntry s.prevIndex.toNat := by
  rw [upArrow]
  dsimp only
  rw [if_pos ⟨UInt32.zero_le, some_⟩, eraseLine_histIndex]

theorem upArrow_of_none (none_ : s.hist = 0) : s.upArrow = s := by
  rw [upArrow, if_neg fun h => h.2 none_]

theorem downArrow_eq (old : ((s.hist.toNat % HISTMAX : Nat) : Int) ≠ s.nextIndex) : s.downArrow =
    ({ s.eraseLine with histIndex := s.nextIndex } : Console).copyEntry s.nextIndex.toNat := by
  obtain ⟨e, he⟩ := eraseLoop_fields (s.e - s.w).toNat s
  rw [downArrow, eraseLine_histIndex]
  have hself : s.eraseLine = { s with e := e } := he s.histIndex
  rw [hself, if_pos old]

theorem downArrow_of_blank (blank : ((s.hist.toNat % HISTMAX : Nat) : Int) = s.nextIndex) :
    s.downArrow = s.eraseLine := by
  obtain ⟨e, he⟩ := eraseLoop_fields (s.e - s.w).toNat s
  rw [downArrow, eraseLine_histIndex]
  have hself : s.eraseLine = { s with e := e } := he s.histIndex
  rw [hself, if_neg (not_not.mpr blank)]

theorem intr_up (s : Console) : s.intr KEY_UP = s.upArrow := by
  rw [intr, if_neg (by decide), if_neg (by decide), if_neg (by decide), if_pos rfl]

theorem intr_down (s : Console) : s.intr KEY_DN = s.downArrow := by
  rw [intr, if_neg (by decide), if_neg (by decide), if_neg (by decide), if_neg (by decide),
    if_pos rfl]

/-- An arrow key that recalls an entry of the history erases the line and copies the entry. -/
theorem intr_of_recalled {c : UInt8} {h : Nat} (recalls : s.recalled c = some h) :
    ∃ x, s.intr c = ({ s.eraseLine with histIndex := x } : Console).copyEntry h := by
  unfold recalled at recalls
  split_ifs at recalls with hup hdown
  · obtain ⟨rfl, hhist⟩ := hup
    obtain rfl := Option.some.inj recalls
    exact ⟨s.prevIndex, by rw [intr_up, upArrow_eq hhist]⟩
  · obtain ⟨rfl, hold⟩ := hdown
    obtain rfl := Option.some.inj recalls
    exact ⟨s.nextIndex, by rw [intr_down, downArrow_eq hold]⟩

end Erase

/-! ### One key -/

section Key

variable {s t : Console} {i j k : Nat} {c : UInt8}

theorem Positions.bounded (at_ : s.Positions i j k) : s.Bounded := by
  have hbuf : (UInt32.ofNat INPUT_BUF).toNat = INPUT_BUF := by decide
  have hedited := at_.edited
  have hroom := at_.room
  have hw : (s.w - s.r).toNat = j - i := by
    rw [at_.w, at_.r, toNat_ofNat_sub at_.behind (by omega)]
  unfold Bounded
  rw [UInt32.le_iff_toNat_le, UInt32.le_iff_toNat_le, at_.toNat_used, hw, hbuf]
  omega

/-- The unread bytes stand at the positions from `i` to `j`. -/
theorem Positions.keepsUnread (at_ : s.Positions i j k)
    (same : ∀ p, i ≤ p → p < j → t.buf (p % INPUT_BUF) = s.buf (p % INPUT_BUF)) :
    s.KeepsUnread t := by
  intro m hm
  have hedited := at_.edited
  have hroom := at_.room
  rw [at_.w, at_.r, toNat_ofNat_sub at_.behind (by omega)] at hm
  rw [at_.r, ← UInt32.ofNat_add, cell_ofNat]
  exact same (i + m) (Nat.le_add_right i m) (by omega)

/-- The line that is committed is shorter than the ring. -/
theorem Positions.commit_recorded (at_ : s.Positions i j k) (some_ : i < k)
    (recorded : s.Recorded) : s.commit.Recorded := by
  intro h
  unfold entryLength Console.commit
  dsimp only
  by_cases hh : h = s.hist.toNat % HISTMAX
  · subst hh
    have hroom := at_.room
    unfold INPUT_BUF at hroom ⊢
    rw [Function.update_self, Function.update_self, at_.e, at_.r, ofNat_pred (by omega),
      UInt32.toNat_ofNat', UInt32.toNat_ofNat']
    omega
  · rw [Function.update_of_ne hh, Function.update_of_ne hh]
    exact recorded h

/-- A key that is not an arrow keeps to the ring. -/
theorem Positions.intr_of_plain (at_ : s.Positions i j k) (recorded : s.Recorded)
    (notUp : c ≠ KEY_UP) (notDown : c ≠ KEY_DN) :
    (∃ j' k', (s.intr c).Positions i j' k') ∧ (s.intr c).Recorded ∧ s.KeepsUnread (s.intr c) := by
  have hsame : s.KeepsUnread s := fun _ _ => rfl
  unfold Console.intr
  split
  next => exact ⟨⟨j, k, at_⟩, recorded, hsame⟩
  split
  next =>
    obtain ⟨herase, hle⟩ := at_.eraseLine_eq
    rw [herase]
    exact ⟨⟨j, _, at_.shorten (Nat.le_add_right _ _) hle⟩, recorded, hsame⟩
  split
  next =>
    split
    next hne =>
      have hlt := at_.e_ne_w.mp hne
      rw [at_.e, ofNat_pred (by omega)]
      exact ⟨⟨j, k - 1, at_.shorten (by omega) (Nat.sub_le k 1)⟩, recorded, hsame⟩
    next => exact ⟨⟨j, k, at_⟩, recorded, hsame⟩
  unfold typed
  split
  next haccepts =>
    have hfree := ((at_.accepts_iff c).mp haccepts).2
    have hstored := at_.store hfree c
    have hunread : s.KeepsUnread (s.store c) := by
      refine at_.keepsUnread fun p hi hj => ?_
      have := at_.edited
      rw [Console.store, at_.e, cell_ofNat]
      exact Function.update_of_ne (Inscribed.cell_ne (by omega) (by omega)) ..
    have hrecorded : (s.store c).Recorded := recorded
    dsimp only
    split
    next =>
      have := at_.le
      exact ⟨⟨_, _, hstored.commit⟩, hstored.commit_recorded (by omega) hrecorded, hunread⟩
    next => exact ⟨⟨j, k + 1, hstored⟩, hrecorded, hunread⟩
  next => exact ⟨⟨j, k, at_⟩, recorded, hsame⟩

/-- An arrow key that recalls nothing erases the line at most. -/
theorem Positions.intr_of_not_recalled (at_ : s.Positions i j k) (recorded : s.Recorded)
    (arrow : c = KEY_UP ∨ c = KEY_DN) (recalls : s.recalled c = none) :
    (∃ j' k', (s.intr c).Positions i j' k') ∧ (s.intr c).Recorded ∧ s.KeepsUnread (s.intr c) := by
  have hsame : s.KeepsUnread s := fun _ _ => rfl
  unfold recalled at recalls
  split_ifs at recalls with hup hdown
  rcases arrow with rfl | rfl
  · have hnone : s.hist = 0 := not_not.mp fun h => hup ⟨rfl, h⟩
    rw [intr_up, upArrow_of_none hnone]
    exact ⟨⟨j, k, at_⟩, recorded, hsame⟩
  · have hblank := not_not.mp fun h => hdown ⟨rfl, h⟩
    obtain ⟨herase, hle⟩ := at_.eraseLine_eq
    rw [intr_down, downArrow_of_blank hblank, herase]
    exact ⟨⟨j, _, at_.shorten (Nat.le_add_right _ _) hle⟩, recorded, hsame⟩

/-- An arrow key that recalls an entry keeps to the ring exactly if there is room for the entry. -/
theorem Positions.intr_of_recalled (at_ : s.Positions i j k) (recorded : s.Recorded) {h : Nat}
    (recalls : s.recalled c = some h) :
    (j - i + s.kept + s.entryLength h ≤ INPUT_BUF →
      (∃ j' k', (s.intr c).Positions i j' k') ∧ (s.intr c).Recorded ∧
        s.KeepsUnread (s.intr c)) ∧
    ((s.intr c).Bounded → j - i + s.kept + s.entryLength h ≤ INPUT_BUF) := by
  obtain ⟨x, hintr⟩ := Console.intr_of_recalled recalls
  obtain ⟨herase, hle⟩ := at_.eraseLine_eq
  have hbehind := at_.behind
  obtain ⟨cs, hlength, hcopy⟩ :=
    copyEntry_eq { s with e := UInt32.ofNat (j + s.kept), histIndex := x } h
  have hstart : ({ s with e := UInt32.ofNat (j + s.kept), histIndex := x } : Console).Positions
      i j (j + s.kept) := by
    obtain ⟨hr, hw, he, hij, hjk, hroom⟩ := at_.shorten (Nat.le_add_right j s.kept) hle
    exact ⟨hr, hw, he, hij, hjk, hroom⟩
  change cs.length = s.entryLength h at hlength
  rw [hintr, herase, hcopy, ← hlength]
  constructor
  · intro hroom
    obtain ⟨hpositions, hcells⟩ := hstart.storeAll cs (by omega)
    refine ⟨⟨j, _, hpositions⟩, ?_, at_.keepsUnread fun p hi hj => hcells p hi (by omega)⟩
    rw [storeAll_fields]
    exact recorded
  · rintro ⟨-, hbounded⟩
    have hshort := recorded h
    have hroom := at_.room
    have hbuf : (UInt32.ofNat INPUT_BUF).toNat = INPUT_BUF := by decide
    rw [storeAll_fields] at hbounded
    dsimp only at hbounded
    rw [← UInt32.ofNat_add, at_.r, ← UInt32.ofNat_sub (by omega), UInt32.le_iff_toNat_le, hbuf,
      UInt32.toNat_ofNat'] at hbounded
    unfold INPUT_BUF at *
    omega

/-- One key keeps to the ring if there is room for the entry that it recalls, and only then. -/
theorem Positions.intr (at_ : s.Positions i j k) (recorded : s.Recorded) (c : UInt8) :
    (s.HasRoom c → (∃ j' k', (s.intr c).Positions i j' k') ∧ (s.intr c).Recorded ∧
      s.KeepsUnread (s.intr c)) ∧
    ((s.intr c).Bounded → s.HasRoom c) := by
  have hunread : (s.w - s.r).toNat = j - i := by
    have := at_.edited
    have := at_.room
    rw [at_.w, at_.r, toNat_ofNat_sub at_.behind (by omega)]
  cases hrecalled : s.recalled c with
  | some h =>
    obtain ⟨hkeeps, hbounded⟩ := at_.intr_of_recalled recorded hrecalled
    rw [← hunread] at hkeeps hbounded
    refine ⟨fun hroom => hkeeps (hroom h hrecalled), fun hb h' hh' => ?_⟩
    obtain rfl := Option.some.inj (hrecalled.symm.trans hh')
    exact hbounded hb
  | none =>
    refine ⟨fun _ => ?_, fun _ h hh => ?_⟩
    · by_cases harrow : c = KEY_UP ∨ c = KEY_DN
      · exact at_.intr_of_not_recalled recorded harrow hrecalled
      · obtain ⟨hup, hdown⟩ := not_or.mp harrow
        exact at_.intr_of_plain recorded hup hdown
    · rw [hrecalled] at hh
      cases hh

end Key

/-! ### Readers -/

/-- A reader moves the read index, not beyond what was handed to the readers. -/
theorem Positions.readLoop {s : Console} {i j k : Nat} (at_ : s.Positions i j k) (killed : Bool)
    (target : UInt32) (n : Nat) :
    ∃ i', (readLoop killed target n s).console = { s with r := UInt32.ofNat i' } ∧
      i ≤ i' ∧ i' ≤ j := by
  have hstay : s = { s with r := UInt32.ofNat i } := by rw [← at_.r]
  induction n generalizing s i with
  | zero => exact ⟨i, hstay, le_rfl, at_.behind⟩
  | succ n ih =>
    rw [Console.readLoop]
    split
    next =>
      split
      next => exact ⟨i, hstay, le_rfl, at_.behind⟩
      next => exact ⟨i, hstay, le_rfl, at_.behind⟩
    next hne =>
      have hmore : i < j := by
        refine at_.behind.lt_of_ne fun h => hne ?_
        rw [at_.r, at_.w, h]
      have htaken : ({ s with r := s.r + 1 } : Console) = { s with r := UInt32.ofNat (i + 1) } := by
        rw [at_.r, ofNat_succ]
      dsimp only
      split
      next =>
        split
        next =>
          have hback : s.r + 1 - 1 = UInt32.ofNat i := by rw [UInt32.add_sub_cancel, at_.r]
          exact ⟨i, by rw [hback], le_rfl, at_.behind⟩
        next => exact ⟨i + 1, htaken, Nat.le_succ i, hmore⟩
      next =>
        split
        next => exact ⟨i + 1, htaken, Nat.le_succ i, hmore⟩
        next =>
          obtain ⟨i', hloop, hle, hle'⟩ := ih (at_.take hmore) htaken
          exact ⟨i', hloop, (Nat.le_succ i).trans hle, hle'⟩

end Console

/-! ### Runs -/

namespace ConsoleSystem

/-- One event, in which a key recalls an entry of the history only if there is room for it. -/
def StepWithRoom (ev : ConsoleEvent) (S T : ConsoleSystem) : Prop :=
  Step ev S T ∧ ∀ c, ev = .key c → S.console.HasRoom c

/-- One event that leaves the counters within the ring, and in which a key overwrites no byte that
was handed to the readers and not read yet. -/
def StepInBounds (ev : ConsoleEvent) (S T : ConsoleSystem) : Prop :=
  Step ev S T ∧ T.console.Bounded ∧ ∀ c, ev = .key c → S.console.KeepsUnread T.console

/-- The counters stand for positions in the ring, and so does the history. -/
def InRing (S : ConsoleSystem) : Prop :=
  (∃ i j k, S.console.Positions i j k) ∧ S.console.Recorded

section Runs

variable {S T : ConsoleSystem} {ev : ConsoleEvent} {events : List ConsoleEvent}

theorem boot_inRing : boot.InRing :=
  ⟨⟨0, 0, 0, rfl, rfl, rfl, le_rfl, le_rfl, Nat.zero_le _⟩, fun _ =>
    (by decide : (0 - 1 : UInt32).toNat - (-1 : UInt32).toNat < INPUT_BUF)⟩

theorem InRing.bounded (inRing : S.InRing) : S.console.Bounded := by
  obtain ⟨⟨i, j, k, hpositions⟩, -⟩ := inRing
  exact hpositions.bounded

theorem InRing.advance (inRing : S.InRing) (p : Nat) (t : Reader) : (S.advance p t).InRing := by
  obtain ⟨⟨i, j, k, hpositions⟩, hrecorded⟩ := inRing
  obtain ⟨i', hconsole, hle, hle'⟩ := hpositions.readLoop (S.killed p) t.target t.n
  have hnew : (S.advance p t).console = { S.console with r := UInt32.ofNat i' } := hconsole
  have hroom := hpositions.room
  unfold InRing
  rw [hnew]
  exact ⟨⟨i', j, k, rfl, hpositions.w, hpositions.e, hle', hpositions.edited, by omega⟩, hrecorded⟩

/-- An event other than a key keeps to the ring. -/
theorem InRing.step_of_not_key (inRing : S.InRing) (step : Step ev S T)
    (notKey : ∀ c, ev ≠ .key c) : T.InRing := by
  cases ev with
  | key c => exact absurd rfl (notKey c)
  | read p n =>
    obtain ⟨-, rfl⟩ := step.of_read
    unfold consoleRead
    split
    next => exact InRing.advance inRing p _
    next => exact inRing
  | wake p =>
    obtain ⟨t, -, rfl⟩ := Option.map_eq_some_iff.mp step
    exact inRing.advance p t
  | kill p =>
    obtain rfl := Option.some.inj step
    exact inRing

theorem InRing.step (inRing : S.InRing) (step : Step ev S T) :
    (StepWithRoom ev S T → StepInBounds ev S T ∧ T.InRing) ∧
      (StepInBounds ev S T → StepWithRoom ev S T) := by
  by_cases hkey : ∃ c, ev = .key c
  · obtain ⟨c, rfl⟩ := hkey
    obtain rfl := Option.some.inj step
    obtain ⟨⟨i, j, k, hpositions⟩, hrecorded⟩ := inRing
    obtain ⟨hkeeps, hroom⟩ := hpositions.intr hrecorded c
    constructor
    · rintro ⟨-, hfits⟩
      obtain ⟨⟨j', k', hnew⟩, hrecorded', hunread⟩ := hkeeps (hfits c rfl)
      refine ⟨⟨step, hnew.bounded, ?_⟩, ⟨i, j', k', hnew⟩, hrecorded'⟩
      rintro _ ⟨⟩
      exact hunread
    · rintro ⟨-, hbounded, -⟩
      refine ⟨step, ?_⟩
      rintro _ ⟨⟩
      exact hroom hbounded
  · have hnot (c : UInt8) : ev ≠ .key c := fun h => hkey ⟨c, h⟩
    have hnew := inRing.step_of_not_key step hnot
    exact ⟨fun _ => ⟨⟨step, hnew.bounded, fun c h => absurd h (hnot c)⟩, hnew⟩,
      fun _ => ⟨step, fun c h => absurd h (hnot c)⟩⟩

end Runs

/-- The counters stay within the ring and no unread byte is overwritten in a run exactly if every
arrow key of the run finds room for the entry that it recalls. -/
theorem ring_in_bounds_iff_room (events : List ConsoleEvent) (S : ConsoleSystem) :
    Run StepInBounds boot events S ↔ Run StepWithRoom boot events S := by
  constructor
  · intro run
    have hboth : Run StepWithRoom boot events S ∧ S.InRing := by
      induction run with
      | start => exact ⟨Run.start, boot_inRing⟩
      | snoc _ hstep ih =>
        obtain ⟨hrun, hring⟩ := ih
        have hroom := (hring.step hstep.1).2 hstep
        exact ⟨hrun.snoc hroom, ((hring.step hstep.1).1 hroom).2⟩
    exact hboth.1
  · intro run
    have hboth : Run StepInBounds boot events S ∧ S.InRing := by
      induction run with
      | start => exact ⟨Run.start, boot_inRing⟩
      | snoc _ hstep ih =>
        obtain ⟨hrun, hring⟩ := ih
        obtain ⟨hbounds, hring'⟩ := (hring.step hstep.1).1 hstep
        exact ⟨hrun.snoc hbounds, hring'⟩
    exact hboth.1

/-- The line `b`, 63 times `a` and a newline. -/
def longLine : List ConsoleEvent :=
  .key 98 :: List.replicate 63 (.key 97) ++ [.key lineFeed]

/-- The up arrow behind a line of 64 characters that nobody has read: the counters are further apart
than the ring is long, and the first unread byte has been overwritten. -/
theorem up_arrow_overwrites_unread :
    ∃ S T, Run Step boot longLine S ∧ Step (.key KEY_UP) S T ∧ S.console.r = T.console.r ∧
      S.console.buf (Console.cell S.console.r) = 98 ∧
      T.console.buf (Console.cell T.console.r) = 97 ∧ ¬ T.console.Bounded := by
  have hdone : (execute act boot longLine).map (fun S => (S.console.r, S.console.buf 0,
      (S.console.intr KEY_UP).r, (S.console.intr KEY_UP).buf 0, (S.console.intr KEY_UP).e)) =
        some (0, 98, 0, 97, 129) := by
    decide +kernel
  obtain ⟨S, hS, hresult⟩ := Option.map_eq_some_iff.mp hdone
  simp only [Prod.mk.injEq] at hresult
  obtain ⟨hr, hfirst, hr', hfirst', he⟩ := hresult
  have hrun : Run Step boot longLine S := Run.of_execute (fun _ _ _ h => h) hS
  refine ⟨S, _, hrun, rfl, hr.trans hr'.symm, ?_, ?_, fun hbounded => ?_⟩
  · rw [hr]
    exact hfirst
  · dsimp only
    rw [hr']
    exact hfirst'
  · have := hbounded.2
    dsimp only at this
    rw [hr', he] at this
    revert this
    decide

end ConsoleSystem

end Xv6
