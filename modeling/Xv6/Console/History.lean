/-
# The history of the console

An entry of the history is not a copy of a line: it names the bytes of the ring from where the
readers were when the line was ended up to its newline. The up arrow therefore shows a line that was
entered if the readers had come to its beginning by then, its bytes are still in the ring, and none
of the newer lines, which the earlier presses copy behind the text, is long enough to reach them.
-/

import Xv6.Console.Capacity
import Xv6.Math.Lines

namespace Xv6

open Math

namespace Console

/-- The current edit text, between `input.w` and `input.e`. -/
def editText (s : Console) : List UInt8 :=
  (List.range (s.e - s.w).toNat).map fun i => s.buf (cell (s.w + UInt32.ofNat i))

/-- The entry that was made `i` lines ago. -/
def slot (s : Console) (i : Nat) : Nat := (s.hist.toNat - i) % HISTMAX

/-- What a line among those entered needs to be recalled. -/
structure Recallable (s : Console) (older : List (List UInt8)) (line : List UInt8)
    (newer : List (List UInt8)) : Prop where
  /-- The readers were at the beginning of the line when it was ended. -/
  start : s.rhist (s.slot (newer.length + 1)) =
    UInt32.ofNat (joinLines lineFeed older).length
  /-- The counters do not come round within the line. -/
  noWrap : (joinLines lineFeed older).length % 2 ^ 32 + line.length < 2 ^ 32
  /-- The line is still in the ring. -/
  held : ∀ i c, (line)[i]? = some c →
    s.buf (((joinLines lineFeed older).length + i) % INPUT_BUF) = c
  /-- Neither it nor a newer line, copied behind the text, reaches the cells of the line. -/
  apart : ∀ later ∈ [] :: newer, (joinLines lineFeed (older ++ line :: newer)).length +
    later.length ≤ (joinLines lineFeed older).length + INPUT_BUF

/-! ### Copying a line -/

section Copy

variable {s : Console} {k : Nat}

/-- Characters that are stored do not touch the cells of positions that are near. -/
theorem storeAll_apart (he : s.e = UInt32.ofNat k) (cs : List UInt8) {p : Nat} (before : p < k)
    (near : k + cs.length ≤ p + INPUT_BUF) :
    (s.storeAll cs).buf (p % INPUT_BUF) = s.buf (p % INPUT_BUF) := by
  induction cs generalizing s k with
  | nil => rfl
  | cons c cs ih =>
    rw [List.length_cons] at near
    have hnext : (s.store c).e = UInt32.ofNat (k + 1) := by
      change s.e + 1 = _
      rw [he, ofNat_succ]
    rw [storeAll_cons, ih hnext (by omega) (by omega), Console.store, he, cell_ofNat]
    exact Function.update_of_ne (Inscribed.cell_ne before (by omega)) ..

/-- The characters that are stored stand behind one another. -/
theorem storeAll_held (he : s.e = UInt32.ofNat k) (cs : List UInt8) (short : cs.length ≤ INPUT_BUF)
    {i : Nat} {c : UInt8} (at_ : cs[i]? = some c) :
    (s.storeAll cs).buf ((k + i) % INPUT_BUF) = c := by
  induction cs generalizing s k i with
  | nil => cases at_
  | cons d cs ih =>
    rw [List.length_cons] at short
    have hnext : (s.store d).e = UInt32.ofNat (k + 1) := by
      change s.e + 1 = _
      rw [he, ofNat_succ]
    rw [storeAll_cons]
    cases i with
    | zero =>
      obtain rfl : d = c := Option.some.inj at_
      rw [Nat.add_zero, storeAll_apart hnext cs (Nat.lt_succ_self k) (by omega), Console.store, he,
        cell_ofNat]
      exact Function.update_self ..
    | succ i =>
      rw [Nat.add_comm i 1, ← Nat.add_assoc]
      exact ih hnext (by omega) at_

theorem copyLoop_line {h start : Nat} {line : List UInt8} (he : s.e = UInt32.ofNat k)
    (hr : s.rhist h = UInt32.ofNat start)
    (hend : s.ehist h - 1 = UInt32.ofNat (start + line.length))
    (noWrap : start % 2 ^ 32 + line.length < 2 ^ 32)
    (held : ∀ i c, (line)[i]? = some c → s.buf ((start + i) % INPUT_BUF) = c)
    (before : start + line.length < k) (near : k ≤ start + INPUT_BUF) {n : Nat}
    {done rest : List UInt8} (split : line = done ++ rest) (enough : rest.length ≤ n) :
    copyLoop h n (UInt32.ofNat done.length) (s.storeAll done) = s.storeAll line := by
  induction rest generalizing n done with
  | nil =>
    obtain rfl : line = done := by rw [split, List.append_nil]
    have hfields := storeAll_fields s line
    cases n with
    | zero => rfl
    | succ n =>
      rw [copyLoop, if_neg]
      rw [hfields]
      dsimp only
      rw [hr, hend, ← UInt32.ofNat_add]
      exact UInt32.lt_irrefl _
  | cons c rest ih =>
    obtain ⟨n, rfl⟩ : ∃ m, n = m + 1 := ⟨n - 1, by rw [List.length_cons] at enough; omega⟩
    have hlength : line.length = done.length + 1 + rest.length := by
      rw [split, List.length_append, List.length_cons]
      omega
    have hfields := storeAll_fields s done
    have hlt : (s.storeAll done).rhist h + UInt32.ofNat done.length <
        (s.storeAll done).ehist h - 1 := by
      rw [hfields]
      dsimp only
      rw [hr, hend, ← UInt32.ofNat_add, UInt32.lt_iff_toNat_lt, UInt32.toNat_ofNat',
        UInt32.toNat_ofNat']
      omega
    have hbyte : (s.storeAll done).buf (cell ((s.storeAll done).rhist h +
        UInt32.ofNat done.length)) = c := by
      have hrhist : (s.storeAll done).rhist h = UInt32.ofNat start := by
        rw [hfields]
        exact hr
      rw [hrhist, ← UInt32.ofNat_add, cell_ofNat, storeAll_apart he done (by omega) (by omega)]
      exact held done.length c (by rw [split]; simp)
    have hstore : (s.storeAll done).store c = s.storeAll (done ++ [c]) := by
      rw [storeAll, storeAll, List.foldl_append]
      rfl
    have hnext : UInt32.ofNat done.length + 1 = UInt32.ofNat (done ++ [c]).length := by
      rw [ofNat_succ, List.length_append, List.length_singleton]
    rw [copyLoop, if_pos hlt, hbyte, hstore, hnext]
    refine ih ?_ ?_
    · rw [split, List.append_assoc, List.singleton_append]
    · rw [List.length_cons] at enough
      omega

/-- An entry that names a line still in the ring is copied as it was entered. -/
theorem copyEntry_line {h start : Nat} {line : List UInt8} (he : s.e = UInt32.ofNat k)
    (hr : s.rhist h = UInt32.ofNat start)
    (hend : s.ehist h = UInt32.ofNat (start + line.length + 1))
    (noWrap : start % 2 ^ 32 + line.length < 2 ^ 32)
    (held : ∀ i c, (line)[i]? = some c → s.buf ((start + i) % INPUT_BUF) = c)
    (before : start + line.length < k) (near : k ≤ start + INPUT_BUF) :
    s.copyEntry h = s.storeAll line := by
  have hpred : s.ehist h - 1 = UInt32.ofNat (start + line.length) := by
    rw [hend, ofNat_pred (Nat.succ_pos _)]
    rfl
  have hcount : (s.ehist h - 1 - s.rhist h).toNat = line.length := by
    rw [hpred, hr, toNat_ofNat_sub (Nat.le_add_right _ _) (by omega), Nat.add_sub_cancel_left]
  rw [copyEntry, hcount]
  exact copyLoop_line he hr hpred noWrap held before near (List.nil_append line).symm le_rfl

/-- A line without a newline is erased as a whole. -/
theorem eraseLoop_all {k n : Nat} (he : s.e = UInt32.ofNat (k + n)) (hw : s.w = UInt32.ofNat k)
    (short : n ≤ INPUT_BUF) (oneLine : ∀ i < n, s.buf ((k + i) % INPUT_BUF) ≠ lineFeed) :
    eraseLoop n s = { s with e := s.w } := by
  induction n generalizing s with
  | zero =>
    have hempty : s.e = s.w := by rw [he, hw, Nat.add_zero]
    exact congrArg (fun e => ({ s with e := e } : Console)) hempty
  | succ n ih =>
    have hpred : s.e - 1 = UInt32.ofNat (k + n) := by
      rw [he, ofNat_pred (by omega)]
      rfl
    have hne : s.e ≠ s.w := by
      rw [he, hw, ne_comm, Ne, ofNat_inj (Nat.le_add_right _ _) (by omega)]
      omega
    rw [eraseLoop, hpred, cell_ofNat, if_pos ⟨hne, oneLine n (Nat.lt_succ_self n)⟩]
    exact ih rfl hw (by omega) fun i hi => oneLine i (by omega)

end Copy

/-! ### Pressing the up arrow -/

/-- What the presses have done that recalled some lines one after the other, the last of them the
first of the list. -/
structure Recalled (s₀ s : Console) (w : Nat) (newer : List (List UInt8)) : Prop where
  fields : s = { s₀ with
    buf := s.buf
    e := UInt32.ofNat (w + (newer.headD []).length)
    histIndex := (s₀.slot newer.length : Nat) }
  shown : ∀ i c, (newer.headD [])[i]? = some c → s.buf ((w + i) % INPUT_BUF) = c
  kept : ∀ p < w, (∀ later ∈ newer, w + later.length ≤ p + INPUT_BUF) →
    s.buf (p % INPUT_BUF) = s₀.buf (p % INPUT_BUF)

/-- The history has the end of each of the last lines. -/
structure Logged (s : Console) (lines : List (List UInt8)) : Prop where
  hist : s.hist = UInt32.ofNat lines.length
  index : s.histIndex = (s.slot 0 : Nat)
  ends : ∀ older line newer, lines = older ++ line :: newer → newer.length < HISTMAX →
    newer.length < s.hist.toNat → s.ehist (s.slot (newer.length + 1)) =
      UInt32.ofNat ((joinLines lineFeed older).length + line.length + 1)

section Press

variable {s₀ s : Console} {w : Nat} {older newer : List (List UInt8)} {line : List UInt8}

theorem Recalled.press (recalled : Recalled s₀ s w newer) (hw : s₀.w = UInt32.ofNat w)
    (text : w = (joinLines lineFeed (older ++ line :: newer)).length)
    (oneLine : ∀ later ∈ newer, lineFeed ∉ later ∧ later.length ≤ INPUT_BUF)
    (young : newer.length < s₀.hist.toNat) (ready : s₀.Recallable older line newer)
    (hend : s₀.ehist (s₀.slot (newer.length + 1)) =
      UInt32.ofNat ((joinLines lineFeed older).length + line.length + 1)) :
    Recalled s₀ s.upArrow w (line :: newer) := by
  have hw' : s.w = UInt32.ofNat w := by rw [recalled.fields]; exact hw
  have he : s.e = UInt32.ofNat (w + (newer.headD []).length) := by rw [recalled.fields]
  have hhist : s.hist = s₀.hist := by rw [recalled.fields]
  have hcurrent : lineFeed ∉ newer.headD [] ∧ (newer.headD []).length ≤ INPUT_BUF := by
    cases newer with
    | nil => exact ⟨List.not_mem_nil, Nat.zero_le _⟩
    | cons later newer => exact oneLine later List.mem_cons_self
  have hsome : s.hist ≠ 0 := by
    rw [hhist]
    rintro hzero
    rw [hzero] at young
    exact Nat.not_lt_zero _ young
  have hprev : s.prevIndex = (s₀.slot (newer.length + 1) : Nat) := by
    have hindex : s.histIndex = (s₀.slot newer.length : Nat) := by rw [recalled.fields]
    rw [prevIndex, hindex]
    unfold slot HISTMAX
    split <;> omega
  have herase : s.eraseLine = { s with e := s.w } := by
    have hcount : (s.e - s.w).toNat = (newer.headD []).length := by
      rw [he, hw', toNat_ofNat_sub (Nat.le_add_right _ _) (by omega), Nat.add_sub_cancel_left]
    rw [eraseLine, hcount]
    refine eraseLoop_all he hw' hcurrent.2 fun i hi hfeed => hcurrent.1 ?_
    have hshown := recalled.shown i _ (List.getElem?_eq_getElem hi)
    rw [hfeed] at hshown
    rw [hshown]
    exact List.getElem_mem hi
  have hlength : w = (joinLines lineFeed older).length + line.length + 1 +
      (joinLines lineFeed newer).length := by
    rw [text, joinLines_append, joinLines_cons, List.length_append, List.length_append,
      List.length_cons]
    omega
  have hapart : ∀ later ∈ [] :: newer, w + later.length ≤
      (joinLines lineFeed older).length + INPUT_BUF := by rw [text]; exact ready.apart
  have hnear := hapart [] List.mem_cons_self
  rw [List.length_nil, Nat.add_zero] at hnear
  -- the state in which the entry is copied
  obtain ⟨s', hs'⟩ : ∃ s', s' = ({ s with
    e := s.w, histIndex := (s₀.slot (newer.length + 1) : Nat) } : Console) := ⟨_, rfl⟩
  have he' : s'.e = UInt32.ofNat w := by rw [hs']; exact hw'
  have hcopy : s'.copyEntry (s₀.slot (newer.length + 1)) = s'.storeAll line := by
    refine copyEntry_line he' ?_ ?_ ready.noWrap ?_ (by omega) hnear
    · rw [hs', recalled.fields]
      exact ready.start
    · rw [hs', recalled.fields]
      exact hend
    · intro i c hc
      obtain ⟨hlt, -⟩ := List.getElem?_eq_some_iff.mp hc
      have hkept := recalled.kept ((joinLines lineFeed older).length + i) (by omega)
        fun later hl => by
          have := hapart later (List.mem_cons_of_mem _ hl)
          omega
      rw [hs', hkept]
      exact ready.held i c hc
  have hup : s.upArrow = s'.storeAll line := by
    rw [upArrow_eq hsome, herase, hprev, Int.toNat_natCast, ← hcopy, hs']
  rw [hup]
  refine ⟨?_, ?_, ?_⟩
  · have hfields := storeAll_fields s' line
    rw [he', ← UInt32.ofNat_add] at hfields
    rw [hfields, hs', recalled.fields]
    rfl
  · exact fun i c hc => storeAll_held he' line (by omega) hc
  · intro p hp hlater
    rw [storeAll_apart he' line hp (hlater line List.mem_cons_self), hs']
    exact recalled.kept p hp fun later hl => hlater later (List.mem_cons_of_mem _ hl)

/-- The text that the last press has recalled. -/
theorem Recalled.editText_eq (recalled : Recalled s₀ s w (line :: newer))
    (hw : s₀.w = UInt32.ofNat w) (short : line.length ≤ INPUT_BUF) : s.editText = line := by
  have hcount : (s.e - s.w).toNat = line.length := by
    rw [recalled.fields]
    dsimp only
    rw [hw, toNat_ofNat_sub (Nat.le_add_right _ _) (by exact Nat.add_le_add_left short w)]
    exact Nat.add_sub_cancel_left ..
  have hw' : s.w = UInt32.ofNat w := by rw [recalled.fields]; exact hw
  rw [editText, hcount, hw']
  refine List.ext_getElem (by simp) fun i hi hline => ?_
  rw [List.getElem_map, List.getElem_range, ← UInt32.ofNat_add, cell_ofNat]
  exact recalled.shown i _ (List.getElem?_eq_getElem hline)

end Press

theorem presses_recalled {s₀ : Console} {lines : List (List UInt8)} (logged : s₀.Logged lines)
    (hw : s₀.w = UInt32.ofNat (joinLines lineFeed lines).length) (prompt : s₀.e = s₀.w)
    (oneLine : ∀ line ∈ lines, lineFeed ∉ line) {older newer : List (List UInt8)}
    (split : lines = older ++ newer) (recent : newer.length ≤ HISTMAX)
    (young : newer.length ≤ s₀.hist.toNat)
    (ready : ∀ older' line' newer', lines = older' ++ line' :: newer' →
      newer'.length < newer.length → s₀.Recallable older' line' newer') :
    Recalled s₀ (upArrow^[newer.length] s₀) (joinLines lineFeed lines).length newer := by
  induction newer generalizing older with
  | nil =>
    refine ⟨?_, fun i c hc => absurd hc (by simp), fun p hp _ => rfl⟩
    have he : UInt32.ofNat ((joinLines lineFeed lines).length + 0) = s₀.e := by
      rw [prompt, hw, Nat.add_zero]
    rw [List.headD_nil, List.length_nil, List.length_nil, he, ← logged.index]
    rfl
  | cons line newer ih =>
    rw [List.length_cons] at recent young
    have hsplit : lines = (older ++ [line]) ++ newer := by rw [split]; simp
    have hrecalled := ih hsplit (by omega) (by omega) fun older' line' newer' h hlt =>
      ready older' line' newer' h (by rw [List.length_cons]; omega)
    have hready := ready older line newer split (by simp)
    rw [List.length_cons, Function.iterate_succ_apply']
    refine hrecalled.press hw (by rw [split]) (fun later hl => ⟨oneLine later ?_, ?_⟩) (by omega)
      hready (logged.ends older line newer split (by omega) (by omega))
    · rw [split]
      simp [hl]
    · have hapart := hready.apart later (List.mem_cons_of_mem _ hl)
      rw [joinLines_append, List.length_append] at hapart
      omega

/-! ### Entering lines -/

section Enter

variable {s : Console} {lines : List (List UInt8)} {c : UInt8}

theorem boot_logged : boot.Logged [] where
  hist := rfl
  index := rfl
  ends older line newer h := by simp at h

/-- The line that is committed is the newest of the history. -/
theorem Logged.commit (logged : s.Logged lines) (line : List UInt8)
    (he : s.e = UInt32.ofNat ((joinLines lineFeed lines).length + line.length + 1)) :
    s.commit.Logged (lines ++ [line]) where
  hist := by
    rw [List.length_append, List.length_singleton, ← ofNat_succ, ← logged.hist]
    rfl
  index := rfl
  ends older line' newer h recent young := by
    have hhist : (s.hist + 1).toNat = s.hist.toNat + 1 := by
      have hnext := UInt32.toNat_add s.hist 1
      have hlt := s.hist.toNat_lt
      change newer.length < (s.hist + 1).toNat at young
      change _ = (s.hist.toNat + 1) % _ at hnext
      omega
    change newer.length < (s.hist + 1).toNat at young
    change Function.update s.ehist (s.hist.toNat % HISTMAX) s.e
      (((s.hist + 1).toNat - (newer.length + 1)) % HISTMAX) = _
    rw [hhist] at young ⊢
    rcases List.eq_nil_or_concat newer with rfl | ⟨newer, last, rfl⟩
    · obtain ⟨rfl, hline⟩ := List.append_inj' h rfl
      obtain rfl := List.cons.inj hline |>.1
      rw [List.length_nil, Nat.add_sub_cancel, Function.update_self, he]
    · rw [List.concat_eq_append, ← List.cons_append, ← List.append_assoc] at h
      obtain ⟨h, -⟩ := List.append_inj' h rfl
      rw [List.concat_eq_append, List.length_append, List.length_singleton] at recent young ⊢
      have hslot :
          s.hist.toNat + 1 - (newer.length + 1 + 1) = s.hist.toNat - (newer.length + 1) := by
        omega
      have hne : (s.hist.toNat - (newer.length + 1)) % HISTMAX ≠ s.hist.toNat % HISTMAX := by
        unfold HISTMAX at recent ⊢
        omega
      rw [hslot, Function.update_of_ne hne]
      exact logged.ends older line' newer h (by omega) (by omega)

/-- A key other than the arrows changes the current line only, or commits it. -/
theorem intr_commits (s : Console) (t : EditedText) (notUp : c ≠ KEY_UP) (notDown : c ≠ KEY_DN) :
    ((∃ b e, s.intr c = { s with buf := b, e := e }) ∧ (t.key s c).committed = t.committed) ∨
      s.intr c = (s.store c).commit ∧ t.key s c = ⟨t.committed ++ (t.line ++ [c]), []⟩ := by
  unfold intr EditedText.key
  split
  next => exact .inl ⟨⟨s.buf, s.e, rfl⟩, rfl⟩
  split
  next =>
    obtain ⟨e, he⟩ := eraseLoop_fields (s.e - s.w).toNat s
    exact .inl ⟨⟨s.buf, e, he s.histIndex⟩, rfl⟩
  split
  next =>
    split
    next => exact .inl ⟨⟨s.buf, _, rfl⟩, rfl⟩
    next => exact .inl ⟨⟨s.buf, s.e, rfl⟩, rfl⟩
  rw [typed]
  split
  next =>
    simp only [store_full_iff]
    split
    next => exact .inr ⟨rfl, rfl⟩
    next => exact .inl ⟨⟨_, _, rfl⟩, rfl⟩
  next => exact .inl ⟨⟨s.buf, s.e, rfl⟩, rfl⟩

end Enter

end Console

namespace ConsoleSystem

open Console

/-- The state after an event, if it enters lines: no arrow key is pressed, and nothing but a newline
ends a line. -/
def actLines (S : ConsoleSystem) (ev : ConsoleEvent) : Option ConsoleSystem :=
  (S.act ev).filter fun T =>
    match ev with
    | .key c => c ≠ KEY_UP ∧ c ≠ KEY_DN ∧ (c = lineFeed ∨ T.text.committed = S.text.committed)
    | _ => true

/-- One event of entering lines. -/
def StepLines (ev : ConsoleEvent) (S T : ConsoleSystem) : Prop := S.actLines ev = some T

/-- The console has taken some lines, and the history has their ends. -/
structure Entered (S : ConsoleSystem) (lines : List (List UInt8)) (taken : Nat) : Prop where
  shows : S.console.Shows S.text taken
  committed : S.text.committed = joinLines lineFeed lines
  oneLine : ∀ line ∈ lines, lineFeed ∉ line
  logged : S.console.Logged lines

variable {S T : ConsoleSystem} {lines : List (List UInt8)} {taken : Nat} {ev : ConsoleEvent}
  {events : List ConsoleEvent}

theorem Entered.advance (entered : S.Entered lines taken) (p : Nat) (t : Reader) :
    ∃ taken', (S.advance p t).Entered lines taken' := by
  obtain ⟨i, hconsole, hle, hle'⟩ := entered.shows.counts.readLoop (S.killed p) t.target t.n
  have hnew : (S.advance p t).console = { S.console with r := UInt32.ofNat i } := hconsole
  obtain ⟨⟨hr, hw, he, hbehind, hedited, hroom⟩, hcells, hline⟩ := entered.shows
  refine ⟨i, ⟨?_, entered.committed, entered.oneLine, ?_⟩⟩
  · rw [hnew]
    exact ⟨⟨rfl, hw, he, hle', hedited, hroom.trans (by omega)⟩, hcells.mono hle, hline⟩
  · rw [hnew]
    exact ⟨entered.logged.hist, entered.logged.index, entered.logged.ends⟩

theorem Entered.key (entered : S.Entered lines taken) {c : UInt8} (notUp : c ≠ KEY_UP)
    (notDown : c ≠ KEY_DN)
    (ends : c = lineFeed ∨ (S.text.key S.console c).committed = S.text.committed) :
    ∃ lines', Entered { S with console := S.console.intr c, text := S.text.key S.console c }
      lines' taken := by
  have hshows := entered.shows.intr notUp notDown
  rcases intr_commits S.console S.text notUp notDown with ⟨⟨b, e, hintr⟩, hsame⟩ | ⟨hintr, htext⟩
  · refine ⟨lines, hshows, hsame.trans entered.committed, entered.oneLine, ?_⟩
    dsimp only
    rw [hintr]
    exact ⟨entered.logged.hist, entered.logged.index, entered.logged.ends⟩
  · obtain rfl : c = lineFeed := ends.resolve_right fun h => by
      rw [htext] at h
      simpa using congrArg List.length h
    refine ⟨lines ++ [S.text.line], hshows, ?_, ?_, ?_⟩
    · rw [htext, entered.committed, joinLines_append]
      simp [joinLines]
    · intro line hl
      rcases List.mem_append.mp hl with hl | hl
      · exact entered.oneLine line hl
      · rw [List.mem_singleton.mp hl]
        exact entered.shows.oneLine
    · dsimp only
      rw [hintr]
      have hstored : (S.console.store lineFeed).Logged lines :=
        ⟨entered.logged.hist, entered.logged.index, entered.logged.ends⟩
      refine hstored.commit S.text.line ?_
      change S.console.e + 1 = _
      rw [entered.shows.counts.e, ofNat_succ, EditedText.entered, entered.committed,
        List.length_append]

theorem Entered.step (entered : S.Entered lines taken) (step : StepLines ev S T) :
    ∃ lines' taken', T.Entered lines' taken' := by
  obtain ⟨hact, hends⟩ := Option.filter_eq_some_iff.mp step
  cases ev with
  | key c =>
    obtain rfl := Option.some.inj hact
    obtain ⟨hup, hdown, hends⟩ := of_decide_eq_true hends
    obtain ⟨lines', h⟩ := entered.key hup hdown hends
    exact ⟨lines', taken, h⟩
  | read p n =>
    obtain ⟨-, rfl⟩ := Step.of_read hact
    unfold consoleRead
    split
    next =>
      have hcall : Entered { S with calls := S.calls + 1 } lines taken :=
        ⟨entered.shows, entered.committed, entered.oneLine, entered.logged⟩
      obtain ⟨taken', h⟩ := hcall.advance p _
      exact ⟨lines, taken', h⟩
    next =>
      exact ⟨lines, taken, entered.shows, entered.committed, entered.oneLine, entered.logged⟩
  | wake p =>
    obtain ⟨t, -, rfl⟩ := Option.map_eq_some_iff.mp hact
    obtain ⟨taken', h⟩ := entered.advance p t
    exact ⟨lines, taken', h⟩
  | kill p =>
    obtain rfl := Option.some.inj hact
    exact ⟨lines, taken, entered.shows, entered.committed, entered.oneLine, entered.logged⟩

theorem entered_of_run (run : Run StepLines boot events S) :
    ∃ lines taken, S.Entered lines taken := by
  induction run with
  | start => exact ⟨[], 0, boot_shows, rfl, by simp, boot_logged⟩
  | snoc _ hstep ih =>
    obtain ⟨lines, taken, hentered⟩ := ih
    exact hentered.step hstep

/-- After lines have been entered, with reads at any times, the up arrow pressed `k` times at an
empty prompt shows the line that was entered `k` lines ago, if this line and the newer ones can be
recalled and the counter of the lines has not come round within them. -/
theorem up_arrow_shows_line (run : Run StepLines boot events S)
    (prompt : S.console.e = S.console.w) {older newer : List (List UInt8)} {line : List UInt8}
    (entered : S.text.committed = joinLines lineFeed (older ++ line :: newer))
    (oneLine : ∀ l ∈ older ++ line :: newer, lineFeed ∉ l) (recent : newer.length < HISTMAX)
    (young : newer.length < S.console.hist.toNat)
    (ready : ∀ older' line' newer', older ++ line :: newer = older' ++ line' :: newer' →
      newer'.length ≤ newer.length → S.console.Recallable older' line' newer') :
    ((fun s => s.intr KEY_UP)^[newer.length + 1] S.console).editText = line := by
  obtain ⟨lines, taken, ⟨hcounts, -, -⟩, hcommitted, hlines, hlogged⟩ := entered_of_run run
  obtain rfl := joinLines_inj hlines oneLine (hcommitted.symm.trans entered)
  have hw : S.console.w = UInt32.ofNat (joinLines lineFeed (older ++ line :: newer)).length := by
    rw [hcounts.w, entered]
  have hready := ready older line newer rfl le_rfl
  have hshort := hready.apart [] List.mem_cons_self
  rw [joinLines_append, joinLines_cons, List.length_append, List.length_append] at hshort
  have hrecalled : Recalled S.console (upArrow^[newer.length + 1] S.console)
      (joinLines lineFeed (older ++ line :: newer)).length (line :: newer) :=
    presses_recalled hlogged hw prompt oneLine rfl recent young fun older' line' newer' h hlt =>
      ready older' line' newer' h (Nat.le_of_lt_succ hlt)
  rw [funext intr_up]
  exact hrecalled.editText_eq hw (by omega)

/-- The lines `hi` and `o`, with a read between them: after the second press of the up arrow, `hi`
is shown. -/
theorem up_arrow_shows_older : ∃ S, Run StepLines boot
      [.key 104, .key 105, .key lineFeed, .read 0 100, .key 111, .key lineFeed] S ∧
    ((fun s => s.intr KEY_UP)^[2] S.console).editText = [104, 105] := by
  have hdone : (execute actLines boot
      [.key 104, .key 105, .key lineFeed, .read 0 100, .key 111, .key lineFeed]).map (fun S =>
        ([S.console.e, S.console.w, S.console.hist, S.console.rhist 0, S.console.rhist 1],
          S.text.committed, [S.console.buf 0, S.console.buf 1, S.console.buf 3])) =
      some ([5, 5, 2, 0, 3], [104, 105, lineFeed, 111, lineFeed], [104, 105, 111]) := by
    decide +kernel
  obtain ⟨S, hS, hresult⟩ := Option.map_eq_some_iff.mp hdone
  simp only [Prod.mk.injEq, List.cons.injEq, and_true] at hresult
  obtain ⟨⟨he, hw, hhist, hfirst, hsecond⟩, hcommitted, hh, hi, ho⟩ := hresult
  have hrun : Run StepLines boot _ S := Run.of_execute (fun _ _ _ h => h) hS
  have hentered : S.text.committed = joinLines lineFeed ([] ++ [104, 105] :: [[111]]) := hcommitted
  refine ⟨S, hrun, up_arrow_shows_line hrun (he.trans hw.symm) hentered (by decide) (by decide)
    (by rw [hhist]; decide) fun older line newer h hle => ?_⟩
  rcases newer with _ | ⟨later, newer⟩
  · -- the newer line
    have hsplit : [[104, 105]] ++ [[111]] = older ++ [line] := h
    obtain ⟨rfl, hline⟩ := List.append_inj' hsplit rfl
    obtain rfl := (List.cons.inj hline).1
    refine ⟨?_, by decide, fun i c hc => ?_, by decide⟩
    · rw [slot, hhist]
      exact hsecond
    · match i with
      | 0 => exact ho.trans (Option.some.inj hc)
  · obtain rfl : newer = [] :=
      List.eq_nil_of_length_eq_zero (Nat.le_zero.mp (Nat.le_of_succ_le_succ hle))
    obtain ⟨rfl, hline⟩ := List.append_inj' h rfl
    obtain ⟨rfl, hlater⟩ := List.cons.inj hline
    obtain rfl := (List.cons.inj hlater).1
    refine ⟨?_, by decide, fun i c hc => ?_, by decide⟩
    · rw [slot, hhist]
      exact hfirst
    · match i with
      | 0 => exact hh.trans (Option.some.inj hc)
      | 1 => exact hi.trans (Option.some.inj hc)

/-- With the lines `a` and `b` entered before anything is read, the up arrow does not show `b`: it
shows both lines. -/
theorem up_arrow_shows_two_lines : ∃ S,
    Run StepLines boot [.key 97, .key lineFeed, .key 98, .key lineFeed] S ∧
      S.console.e = S.console.w ∧ S.text.committed = joinLines lineFeed [[97], [98]] ∧
      (S.console.intr KEY_UP).editText ≠ [98] := by
  have hdone : (execute actLines boot [.key 97, .key lineFeed, .key 98, .key lineFeed]).map
      (fun S => (S.console.e, S.console.w, S.text.committed, (S.console.intr KEY_UP).editText)) =
      some (4, 4, [97, lineFeed, 98, lineFeed], [97, lineFeed, 98]) := by
    decide +kernel
  obtain ⟨S, hS, hresult⟩ := Option.map_eq_some_iff.mp hdone
  simp only [Prod.mk.injEq] at hresult
  obtain ⟨he, hw, hcommitted, hshown⟩ := hresult
  refine ⟨S, Run.of_execute (fun _ _ _ h => h) hS, he.trans hw.symm, hcommitted, ?_⟩
  rw [hshown]
  decide

end ConsoleSystem

end Xv6
