/-
# Line editing delivers the edited text

Without the arrow keys the ring holds the text entered so far from the first unread byte on, and the
counters are positions in that text modulo `2 ^ 32`. Readers therefore get the committed text in
order, whatever the sizes of their calls and however they sleep and wake between the keystrokes.
-/

import Mathlib
import Xv6.Console.Model
import Xv6.Math.RingText
import Xv6.Math.Runs

namespace Xv6

open Math

namespace Console

/-- The counters stand for positions in all that was ever entered: what comes before `i` has been
read, what comes before `j` has been handed to the readers, and `k` is the end. -/
structure Positions (s : Console) (i j k : Nat) : Prop where
  r : s.r = UInt32.ofNat i
  w : s.w = UInt32.ofNat j
  e : s.e = UInt32.ofNat k
  behind : i ≤ j
  edited : j ≤ k
  room : k ≤ i + INPUT_BUF

/-- The counters stand for positions in the text. -/
abbrev Counts (s : Console) (t : EditedText) (taken : Nat) : Prop :=
  s.Positions taken t.committed.length t.entered.length

section Counters

theorem cell_ofNat (i : Nat) : cell (UInt32.ofNat i) = i % INPUT_BUF := by
  unfold cell INPUT_BUF
  rw [UInt32.toNat_ofNat']
  exact Nat.mod_mod_of_dvd i (by decide)

theorem ofNat_succ (i : Nat) : UInt32.ofNat i + 1 = UInt32.ofNat (i + 1) :=
  (UInt32.ofNat_add i 1).symm

theorem ofNat_pred {i : Nat} (pos : 0 < i) : UInt32.ofNat i - 1 = UInt32.ofNat (i - 1) :=
  (UInt32.ofNat_sub pos).symm

/-- Positions that are close together are told apart by their counters. -/
theorem ofNat_inj {i j : Nat} (le : i ≤ j) (near : j ≤ i + INPUT_BUF) :
    UInt32.ofNat i = UInt32.ofNat j ↔ i = j := by
  unfold INPUT_BUF at near
  rw [← UInt32.toNat_inj, UInt32.toNat_ofNat', UInt32.toNat_ofNat']
  omega

/-- The distance of two positions that are close together. -/
theorem toNat_ofNat_sub {i j : Nat} (le : i ≤ j) (near : j ≤ i + INPUT_BUF) :
    (UInt32.ofNat j - UInt32.ofNat i).toNat = j - i := by
  unfold INPUT_BUF at near
  rw [← UInt32.ofNat_sub le, UInt32.toNat_ofNat']
  exact Nat.mod_eq_of_lt (by omega)

variable {s : Console} {i j k : Nat}

theorem Positions.le (at_ : s.Positions i j k) : i ≤ k := at_.behind.trans at_.edited

theorem Positions.toNat_used (at_ : s.Positions i j k) : (s.e - s.r).toNat = k - i := by
  rw [at_.e, at_.r, toNat_ofNat_sub at_.le at_.room]

theorem Positions.accepts_iff (at_ : s.Positions i j k) (c : UInt8) :
    s.accepts c ↔ c ≠ 0 ∧ k < i + INPUT_BUF := by
  unfold accepts
  rw [UInt32.lt_iff_toNat_lt, at_.toNat_used]
  have : (UInt32.ofNat INPUT_BUF).toNat = INPUT_BUF := by decide
  have := at_.le
  refine and_congr_right fun _ => ?_
  omega

theorem Positions.e_ne_w (at_ : s.Positions i j k) : s.e ≠ s.w ↔ j < k := by
  have := at_.behind
  have := at_.edited
  have := at_.room
  rw [at_.e, at_.w, ne_comm, Ne, ofNat_inj at_.edited (by omega)]
  omega

theorem Positions.store (at_ : s.Positions i j k) (free : k < i + INPUT_BUF) (c : UInt8) :
    (s.store c).Positions i j (k + 1) where
  r := at_.r
  w := at_.w
  e := by
    change s.e + 1 = _
    rw [at_.e, ofNat_succ]
  behind := at_.behind
  edited := at_.edited.trans (Nat.le_succ k)
  room := free

theorem Positions.commit (at_ : s.Positions i j k) : s.commit.Positions i k k where
  r := at_.r
  w := at_.e
  e := at_.e
  behind := at_.le
  edited := le_rfl
  room := at_.room

/-- The edit index moves back. -/
theorem Positions.shorten (at_ : s.Positions i j k) {k' : Nat} (edited : j ≤ k') (le : k' ≤ k) :
    ({ s with e := UInt32.ofNat k' } : Console).Positions i j k' where
  r := at_.r
  w := at_.w
  e := rfl
  behind := at_.behind
  edited := edited
  room := le.trans at_.room

/-- A byte is taken. -/
theorem Positions.take (at_ : s.Positions i j k) (more : i < j) :
    ({ s with r := s.r + 1 } : Console).Positions (i + 1) j k where
  r := by
    change s.r + 1 = _
    rw [at_.r, ofNat_succ]
  w := at_.w
  e := at_.e
  behind := more
  edited := at_.edited
  room := at_.room.trans (by omega)

end Counters

/-! ### Keystrokes -/

section Keys

variable {s : Console} {t : EditedText} {taken lo : Nat}

theorem length_entered_snoc (t : EditedText) (c : UInt8) :
    (t.committed ++ (t.line ++ [c])).length = t.entered.length + 1 := by
  rw [← List.append_assoc, List.length_append, List.length_singleton, EditedText.entered]

theorem Counts.store (counts : s.Counts t taken) (free : t.entered.length < taken + INPUT_BUF)
    (c : UInt8) : (s.store c).Counts { t with line := t.line ++ [c] } taken := by
  have := Positions.store counts free c
  rwa [← length_entered_snoc t c] at this

/-- A character that is stored is added to the text that the ring holds. -/
theorem Counts.store_inscribed (counts : s.Counts t taken)
    (cells : Inscribed INPUT_BUF s.buf lo t.entered) (free : t.entered.length < lo + INPUT_BUF)
    (c : UInt8) : Inscribed INPUT_BUF (s.store c).buf lo (t.committed ++ (t.line ++ [c])) := by
  have hcell : cell s.e = t.entered.length % INPUT_BUF := by rw [counts.e, cell_ofNat]
  have := cells.push free c
  rw [EditedText.entered, List.append_assoc, ← EditedText.entered] at this
  rwa [Console.store, hcell]

theorem Counts.commit (counts : s.Counts t taken) : s.commit.Counts ⟨t.entered, []⟩ taken := by
  have hentered : EditedText.entered ⟨t.entered, []⟩ = t.entered := List.append_nil _
  have := Positions.commit counts
  rwa [Counts, hentered]

/-- The edit index moves back to a shorter line. -/
theorem Counts.shorten (counts : s.Counts t taken) {line : List UInt8} (initial : line <+: t.line) :
    ({ s with e := UInt32.ofNat (t.committed ++ line).length } : Console).Counts
      { t with line := line } taken := by
  refine Positions.shorten counts ?_ ?_
  · rw [List.length_append]
    exact Nat.le_add_right _ _
  · rw [EditedText.entered, List.length_append, List.length_append]
    exact Nat.add_le_add_left initial.length_le _

theorem Counts.e_ne_w (counts : s.Counts t taken) : s.e ≠ s.w ↔ t.line ≠ [] := by
  rw [Positions.e_ne_w counts, EditedText.entered, List.length_append, ← List.length_pos_iff]
  omega

/-- The erasing loop goes back to the last newline of the line or to its start. -/
theorem Counts.eraseLoop_eq (counts : s.Counts t taken)
    (cells : Inscribed INPUT_BUF s.buf taken t.entered) {n : Nat} (enough : t.line.length ≤ n) :
    eraseLoop n s = { s with
      e := UInt32.ofNat (t.committed ++ t.line.rdropWhile (· ≠ lineFeed)).length } := by
  obtain ⟨committed, line⟩ := t
  induction line using List.reverseRecOn generalizing s n with
  | nil =>
    have hstop : eraseLoop n s = s := by
      cases n with
      | zero => rfl
      | succ n =>
        rw [eraseLoop, if_neg]
        exact fun h => counts.e_ne_w.mp h.1 rfl
    rw [hstop, List.rdropWhile_nil]
    exact congrArg (fun e => ({ s with e := e } : Console)) counts.e
  | append_singleton line c ih =>
    obtain ⟨n, rfl⟩ : ∃ k, n = k + 1 := ⟨n - 1, by simp at enough; omega⟩
    have hlength : (committed ++ (line ++ [c])).length = (committed ++ line).length + 1 := by
      rw [← List.append_assoc, List.length_append, List.length_singleton]
    have hpred : s.e - 1 = UInt32.ofNat (committed ++ line).length := by
      rw [counts.e, EditedText.entered, hlength, ofNat_pred (Nat.succ_pos _),
        Nat.succ_sub_one]
    have hlast : s.buf (cell (s.e - 1)) = c := by
      rw [hpred, cell_ofNat]
      refine cells _ c ?_ ?_
      · have := counts.behind
        rw [List.length_append]
        exact this.trans (Nat.le_add_right _ _)
      · rw [EditedText.entered, ← List.append_assoc, List.getElem?_concat_length]
    have hne : s.e ≠ s.w := counts.e_ne_w.mpr (by simp)
    rw [eraseLoop, hlast]
    by_cases hc : c = lineFeed
    · rw [if_neg fun h => h.2 hc, List.rdropWhile_concat_neg _ _ _ (by simpa using hc)]
      exact congrArg (fun e => ({ s with e := e } : Console)) counts.e
    · rw [if_pos ⟨hne, hc⟩, List.rdropWhile_concat_pos _ _ _ (by simpa using hc), hpred]
      have hinitial : committed ++ line <+: EditedText.entered ⟨committed, line ++ [c]⟩ :=
        ⟨[c], by rw [EditedText.entered, List.append_assoc]⟩
      refine ih (counts.shorten (List.prefix_append line [c])) (cells.of_initial hinitial) ?_
      simpa using enough

theorem Counts.eraseLine_eq (counts : s.Counts t taken)
    (cells : Inscribed INPUT_BUF s.buf taken t.entered) :
    s.eraseLine = { s with
      e := UInt32.ofNat (t.committed ++ t.line.rdropWhile (· ≠ lineFeed)).length } := by
  refine Counts.eraseLoop_eq counts cells ?_
  have hnear := counts.room.trans (Nat.add_le_add_right counts.behind _)
  rw [counts.e, counts.w, toNat_ofNat_sub counts.edited hnear, EditedText.entered,
    List.length_append, Nat.add_sub_cancel_left]

/-- The ring holds the text from the first unread byte on, and its last line is one line. -/
structure Shows (s : Console) (t : EditedText) (taken : Nat) : Prop where
  counts : s.Counts t taken
  cells : Inscribed INPUT_BUF s.buf taken t.entered
  oneLine : lineFeed ∉ t.line

theorem boot_shows : boot.Shows ⟨[], []⟩ 0 where
  counts := ⟨rfl, rfl, rfl, le_rfl, le_rfl, Nat.zero_le _⟩
  cells := Inscribed.nil _ _ _
  oneLine := List.not_mem_nil

theorem Shows.shorten (shows : s.Shows t taken) {line : List UInt8} (initial : line <+: t.line) :
    ({ s with e := UInt32.ofNat (t.committed ++ line).length } : Console).Shows
      { t with line := line } taken where
  counts := shows.counts.shorten initial
  cells := shows.cells.of_initial ((List.prefix_append_right_inj _).mpr initial)
  oneLine := fun h => shows.oneLine (initial.subset h)

/-- The character fills the ring. -/
theorem store_full_iff (s : Console) (c : UInt8) :
    (s.store c).e = (s.store c).r + UInt32.ofNat INPUT_BUF ↔
      s.e - s.r = UInt32.ofNat (INPUT_BUF - 1) := by
  change s.e + 1 = s.r + 128 ↔ s.e - s.r = 127
  constructor
  · intro h
    grind
  · intro h
    grind

theorem Shows.typed (shows : s.Shows t taken) {c : UInt8} (accepted : s.accepts c) :
    (s.typed c).Shows
      (if c = lineFeed ∨ c = ctrl 'D' ∨ s.e - s.r = UInt32.ofNat (INPUT_BUF - 1) then
        ⟨t.committed ++ (t.line ++ [c]), []⟩
      else { t with line := t.line ++ [c] }) taken := by
  have hfree := ((shows.counts.accepts_iff c).mp accepted).2
  have hcounts := shows.counts.store hfree c
  have hcells := shows.counts.store_inscribed shows.cells hfree c
  rw [Console.typed, if_pos accepted]
  simp only [store_full_iff]
  split
  next =>
    refine ⟨hcounts.commit, ?_, List.not_mem_nil⟩
    rw [EditedText.entered, List.append_nil]
    exact hcells
  next hplain =>
    refine ⟨hcounts, hcells, fun h => ?_⟩
    rcases List.mem_append.mp h with h | h
    · exact shows.oneLine h
    · exact hplain (.inl (List.mem_singleton.mp h).symm)

/-- A key other than the arrows edits the text. -/
theorem Shows.intr (shows : s.Shows t taken) {c : UInt8} (notUp : c ≠ KEY_UP)
    (notDown : c ≠ KEY_DN) : (s.intr c).Shows (t.key s c) taken := by
  unfold Console.intr EditedText.key
  split
  next => exact shows
  split
  next =>
    have herased : t.line.rdropWhile (· ≠ lineFeed) = [] := by
      refine List.rdropWhile_eq_nil_iff.mpr fun c hc => ?_
      rw [decide_eq_true_eq]
      rintro rfl
      exact shows.oneLine hc
    rw [shows.counts.eraseLine_eq shows.cells, herased]
    exact shows.shorten List.nil_prefix
  split
  next =>
    split
    next hne =>
      have hpos : 0 < t.line.length := List.length_pos_iff.mpr (shows.counts.e_ne_w.mp hne)
      have hpred : s.e - 1 = UInt32.ofNat (t.committed ++ t.line.dropLast).length := by
        rw [shows.counts.e, EditedText.entered, List.length_append, List.length_append,
          List.length_dropLast, ofNat_pred (by omega)]
        congr 1
        omega
      rw [hpred]
      exact shows.shorten (List.dropLast_prefix _)
    next heq =>
      have hnil : t.line = [] := by
        by_contra h
        exact heq (shows.counts.e_ne_w.mpr h)
      rw [hnil, List.dropLast_nil, ← hnil]
      exact shows
  split
  next haccepts => exact shows.typed haccepts
  next hrefused =>
    rw [Console.typed, if_neg hrefused]
    exact shows

end Keys

/-! ### Readers -/

section Readers

variable {s : Console} {t : EditedText} {taken : Nat}

theorem result_ofNat {n m : Nat} (le : m ≤ n) (bound : n < 2 ^ 31) :
    result (UInt32.ofNat n) (Int32.ofNat m) = (n - m : Nat) := by
  rw [result, Int32.toUInt32_ofNat', ← UInt32.ofNat_sub le, UInt32.toInt32_ofNat',
    Int32.toInt_ofNat_of_lt (by omega)]

/-- A stretch of `console_read` with `n` bytes to go takes the committed text from `taken` to
`taken'` and stores it without ^D. Only the last byte may be a newline. -/
structure Stretch.Takes (stretch : Stretch) (t : EditedText) (target : UInt32)
    (n taken taken' : Nat) : Prop where
  le : taken ≤ taken'
  shows : stretch.console.Shows t taken'
  bytes : stretch.bytes = ((t.committed.take taken').drop taken).filter (· ≠ ctrl 'D')
  oneLine : lineFeed ∉ stretch.bytes.dropLast
  ending : ∃ m, m + stretch.bytes.length = n ∧
    (stretch.ending = .asleep m ∧ lineFeed ∉ stretch.bytes ∨
      stretch.ending = .returned (result target (Int32.ofNat m)))

theorem Shows.r_eq_w (shows : s.Shows t taken) : s.r = s.w ↔ taken = t.committed.length := by
  have hroom := shows.counts.room
  rw [EditedText.entered, List.length_append] at hroom
  rw [shows.counts.r, shows.counts.w, ofNat_inj shows.counts.behind (by omega)]

/-- The byte at the read index. -/
theorem Shows.front (shows : s.Shows t taken) (more : taken < t.committed.length) :
    s.buf (cell s.r) = t.committed[taken] := by
  rw [shows.counts.r, cell_ofNat]
  refine shows.cells taken _ le_rfl ?_
  rw [EditedText.entered, List.getElem?_append_left more, List.getElem?_eq_getElem more]

theorem Shows.take (shows : s.Shows t taken) (more : taken < t.committed.length) :
    ({ s with r := s.r + 1 } : Console).Shows t (taken + 1) where
  counts := shows.counts.take more
  cells := shows.cells.mono (Nat.le_succ taken)
  oneLine := shows.oneLine

theorem drop_take_eq_cons {committed : List UInt8} {taken' : Nat} (lt : taken < taken')
    (more : taken < committed.length) : (committed.take taken').drop taken =
      committed[taken] :: (committed.take taken').drop (taken + 1) := by
  have hlen : taken < (committed.take taken').length := by
    rw [List.length_take]
    omega
  rw [List.drop_eq_getElem_cons hlen, List.getElem_take]

/-- Nothing is taken. -/
theorem Shows.takes_nothing (shows : s.Shows t taken) {target : UInt32} {n : Nat} {ending : Ending}
    (ends : ending = .asleep n ∨ ending = .returned (result target (Int32.ofNat n))) :
    (⟨s, [], ending⟩ : Stretch).Takes t target n taken taken where
  le := le_rfl
  shows := shows
  bytes := by
    rw [List.drop_eq_nil_of_le (List.length_take_le ..)]
    rfl
  oneLine := List.not_mem_nil
  ending := ⟨n, rfl, ends.imp_left fun h => ⟨h, List.not_mem_nil⟩⟩

/-- A byte is taken and stored, and the stretch goes on. -/
theorem Stretch.Takes.cons {stretch : Stretch} {target : UInt32} {n taken' : Nat} {c : UInt8}
    (takes : stretch.Takes t target n (taken + 1) taken') (more : taken < t.committed.length)
    (first : t.committed[taken] = c) (hD : c ≠ ctrl 'D') (hfeed : c ≠ lineFeed) :
    (⟨stretch.console, c :: stretch.bytes, stretch.ending⟩ : Stretch).Takes t target (n + 1)
      taken taken' where
  le := (Nat.le_succ taken).trans takes.le
  shows := takes.shows
  bytes := by
    rw [drop_take_eq_cons takes.le more, first, List.filter_cons_of_pos (by simpa using hD),
      takes.bytes]
  oneLine := by
    intro h
    cases hbytes : stretch.bytes with
    | nil =>
      rw [hbytes] at h
      exact List.not_mem_nil h
    | cons d ds =>
      rw [hbytes, List.dropLast_cons_cons] at h
      rcases List.mem_cons.mp h with h | h
      · exact hfeed h.symm
      · exact takes.oneLine (hbytes ▸ h)
  ending := by
    obtain ⟨m, hm, hends⟩ := takes.ending
    refine ⟨m, by rw [List.length_cons]; omega, hends.imp_left fun h => ⟨h.1, ?_⟩⟩
    exact List.not_mem_cons_of_ne_of_not_mem hfeed.symm h.2

theorem Shows.readLoop (shows : s.Shows t taken) (target : UInt32) (n : Nat) :
    ∃ taken', (readLoop false target n s).Takes t target n taken taken' := by
  induction n generalizing s taken with
  | zero => exact ⟨taken, shows.takes_nothing (.inr rfl)⟩
  | succ n ih =>
    rw [Console.readLoop]
    split
    next => exact ⟨taken, shows.takes_nothing (.inl rfl)⟩
    next hne =>
      have hmore : taken < t.committed.length :=
        shows.counts.behind.lt_of_ne fun h => hne (shows.r_eq_w.mpr h)
      have hone : (t.committed.take (taken + 1)).drop taken = [t.committed[taken]] := by
        rw [drop_take_eq_cons (Nat.lt_succ_self taken) hmore,
          List.drop_eq_nil_of_le (List.length_take_le ..)]
      rw [shows.front hmore]
      dsimp only
      split
      next hD =>
        split
        next =>
          -- the ^D is put back
          have hback : s.r + 1 - 1 = s.r := UInt32.add_sub_cancel ..
          rw [hback]
          exact ⟨taken, shows.takes_nothing (.inr rfl)⟩
        next =>
          refine ⟨taken + 1, Nat.le_succ taken, shows.take hmore, ?_, List.not_mem_nil,
            n + 1, rfl, .inr rfl⟩
          rw [hone, hD]
          rfl
      next hD =>
        split
        next =>
          refine ⟨taken + 1, Nat.le_succ taken, shows.take hmore, ?_, List.not_mem_nil,
            n, rfl, .inr rfl⟩
          rw [hone, List.filter_cons_of_pos (by simpa using hD)]
          rfl
        next hfeed =>
          obtain ⟨taken', htakes⟩ := ih (shows.take hmore)
          exact ⟨taken', htakes.cons hmore rfl hD hfeed⟩

end Readers

end Console

end Xv6
