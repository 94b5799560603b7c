/-
# The lines that `grep` prints

The loop of `grep.c` over the reads of a file, with `strchr` and `memmove` of `ulib.c`. The memory
is that of the whole process, with `buf` at some address; an access behind its end stops the
program. The input comes in pieces, and a read returns the next one, or as much of it as there is
room for.

A piece without the end of a line is thrown away together with what was kept of the line before, and
the search for the ends of lines goes on behind the bytes that were read, in what earlier reads left
there, where a line that does not match has left a zero at its end. The lines are the right ones for
a pattern if neither happens in any read, and they are the right ones for every pattern exactly if
neither happens in any read for the empty pattern, which all lines match.
-/

import Xv6.Grep.Match
import Xv6.Math.Lines

namespace Xv6

open Math

namespace Grep

/-- The character at the end of a line. -/
def newline : UInt8 := 10

/-- `sizeof(buf)`. -/
def bufSize : Nat := 1024

/-- `strchr`, on the memory from `s` on. -/
def strchr (c : UInt8) : List UInt8 → Option (Option Nat)
  | [] => none
  | x :: s =>
    if x = 0 then some none
    else if x = c then some (some 0)
    else (strchr c s).map (Option.map (· + 1))

/-- `memmove` of `n` bytes, from the first to the last. -/
def memmove : Nat → List UInt8 → Nat → Nat → List UInt8
  | 0, mem, _, _ => mem
  | n + 1, mem, dst, src => memmove n (mem.set dst (mem.getD src 0)) (dst + 1) (src + 1)

/-- `read` with room for some bytes: what it returns, and what is left of the input. -/
def read (room : Nat) : List (List UInt8) → List UInt8 × List (List UInt8)
  | [] => ([], [])
  | piece :: rest =>
    if piece.length ≤ room then (piece, rest) else (piece.take room, piece.drop room :: rest)

/-- The bytes of a read, stored at `a`. -/
def overwrite (mem : List UInt8) (a : Nat) (bytes : List UInt8) : List UInt8 :=
  mem.take a ++ bytes ++ mem.drop (a + bytes.length)

/-- The inner loop: the memory, `p` and what it has written. -/
def scan (re : List UInt8) : Nat → List UInt8 → Nat → Option (List UInt8 × Nat × List (List UInt8))
  | 0, _, _ => none
  | fuel + 1, mem, p => do
    match ← strchr newline (mem.drop p) with
    | none => some (mem, p, [])
    | some d =>
      let line := (mem.drop p).take d
      let hit ← matchRe (2 * re.length + line.length + 2) re line
      -- the zero at the end of the line goes away only if the line is written
      let (mem, p, out) ← scan re fuel (mem.set (p + d) (if hit then newline else 0)) (p + d + 1)
      some (mem, p, if hit then (line ++ [newline]) :: out else out)

/-- What `grep` has written, and the values that `m` has had. -/
structure Trace where
  out : List (List UInt8)
  ms : List Int

/-- The body of the outer loop, for the bytes of one read. -/
def grepBody (re : List UInt8) (buf : Nat) (mem : List UInt8) (m : Int) (bytes : List UInt8) :
    Option (List UInt8 × Int × Trace) := do
  let mem := overwrite mem (buf + m).toNat bytes
  let m := m + bytes.length
  let (mem, p, out) ← scan re (mem.length + 1) mem buf
  let kept := if p = buf then 0 else m
  if 0 < kept then
    let rest := kept - (p - buf)
    some (memmove rest.toNat mem buf p, rest, ⟨out, [m, kept, rest]⟩)
  else some (mem, kept, ⟨out, [m, kept]⟩)

/-- The outer loop of `grep`. A read to an address outside of the process fails. -/
def grepLoop (re : List UInt8) (buf : Nat) : Nat → List UInt8 → Int → List (List UInt8) →
    Option Trace
  | 0, _, _, _ => none
  | fuel + 1, mem, m, reads =>
    if 0 ≤ buf + m ∧ buf + bufSize < mem.length then
      let (bytes, reads) := read (bufSize - m).toNat reads
      if bytes = [] then some ⟨[], []⟩
      else do
        let (mem, m, now) ← grepBody re buf mem m bytes
        let later ← grepLoop re buf fuel mem m reads
        some ⟨now.out ++ later.out, now.ms ++ later.ms⟩
    else some ⟨[], []⟩

open Classical in
/-- The lines that match a pattern, as `grep` has to write them. -/
noncomputable def matching (re : List UInt8) (lines : List (List UInt8)) : List (List UInt8) :=
  (lines.filter fun line => (patternOf re).Matches line).map (· ++ [newline])

/-- `grep` comes to an end, has written the lines that match, and has kept `m` in its range. -/
def Greps (re : List UInt8) (buf : Nat) (mem : List UInt8) (reads lines : List (List UInt8)) :
    Prop :=
  ∃ fuel trace, grepLoop re buf fuel mem 0 reads = some trace ∧ trace.out = matching re lines ∧
    ∀ m ∈ trace.ms, 0 ≤ m ∧ m < bufSize

open Classical in
/-- The lines as they stay in the buffer: without a match, a zero is left at the end. -/
noncomputable def marked (re : List UInt8) (lines : List (List UInt8)) : List UInt8 :=
  lines.flatMap fun line => line ++ [if (patternOf re).Matches line then newline else 0]

/-- What the reads have to be like for a pattern: after each of them there is the end of a line in
the bytes that are valid then, they do not fill the buffer, and behind them `strchr` finds nothing
in what is left of the lines before. -/
inductive Clean (re : List UInt8) : List UInt8 → List UInt8 → List (List UInt8) → Prop
  | nil (stale carry : List UInt8) : Clean re stale carry []
  | cons {stale carry piece tail : List UInt8} {lines reads : List (List UInt8)}
      (valid : carry ++ piece = joinLines newline lines ++ tail) (found : lines ≠ [])
      (oneLine : ∀ line ∈ lines, newline ∉ line) (free : newline ∉ tail)
      (small : (carry ++ piece).length < bufSize)
      (quiet : strchr newline (stale.drop piece.length) = some none)
      (later : Clean re ((marked re lines ++ tail ++ stale.drop piece.length).drop tail.length)
        tail reads) : Clean re stale carry (piece :: reads)

variable {lines reads : List (List UInt8)} {line s re mem : List UInt8}

theorem nulFree_text (nulFree : ∀ line ∈ lines, 0 ∉ line) : 0 ∉ joinLines newline lines := by
  intro h
  obtain ⟨line, hl, h | h⟩ := mem_joinLines.mp h
  · exact nulFree line hl h
  · exact absurd h (by decide)

/-! ### What the loops do -/

/-- `strchr` goes up to the end of a line. -/
theorem strchr_line (free : newline ∉ line) (nulFree : 0 ∉ line)
    (s : List UInt8) : strchr newline (line ++ newline :: s) = some (some line.length) := by
  induction line with
  | nil => rfl
  | cons c line ih =>
    rw [List.mem_cons, not_or] at free nulFree
    rw [List.cons_append, strchr, if_neg (Ne.symm nulFree.1), if_neg (Ne.symm free.1),
      ih free.2 nulFree.2]
    rfl

/-- `strchr` finds nothing if a zero comes first. -/
theorem strchr_eq_none_iff : strchr newline s = some none ↔
    ∃ run rest, s = run ++ 0 :: rest ∧ 0 ∉ run ∧ newline ∉ run := by
  constructor
  · intro h
    induction s with
    | nil => cases h
    | cons c s ih =>
      rw [strchr] at h
      split_ifs at h with hzero hline
      · exact ⟨[], s, by rw [hzero]; rfl, by simp, by simp⟩
      · cases h
      · obtain ⟨d, hd, hnone⟩ := Option.map_eq_some_iff.mp h
        obtain rfl := Option.map_eq_none_iff.mp hnone
        obtain ⟨run, rest, rfl, hnul, hfree⟩ := ih hd
        exact ⟨c :: run, rest, rfl, by simp [Ne.symm hzero, hnul], by simp [Ne.symm hline, hfree]⟩
  · rintro ⟨run, rest, rfl, hnul, hfree⟩
    induction run with
    | nil => rfl
    | cons c run ih =>
      rw [List.mem_cons, not_or] at hnul hfree
      rw [List.cons_append, strchr, if_neg (Ne.symm hnul.1), if_neg (Ne.symm hfree.1),
        ih hnul.2 hfree.2]
      rfl

/-- Without a zero and the end of a line, `strchr` leaves the memory. -/
theorem strchr_leaves (nulFree : 0 ∉ s) (free : newline ∉ s) : strchr newline s = none := by
  induction s with
  | nil => rfl
  | cons c s ih =>
    rw [List.mem_cons, not_or] at free nulFree
    rw [strchr, if_neg (Ne.symm nulFree.1), if_neg (Ne.symm free.1), ih nulFree.2 free.2]
    rfl

/-- A copy to a place in front of the source. -/
theorem memmove_run (src : List UInt8) (front gap rest : List UInt8) (apart : gap ≠ []) :
    memmove src.length (front ++ (gap ++ src ++ rest)) front.length (front.length + gap.length) =
      front ++ (src ++ (gap ++ src ++ rest).drop src.length) := by
  induction src generalizing front gap with
  | nil => simp [memmove]
  | cons c src ih =>
    obtain ⟨g, gap, rfl⟩ := List.exists_cons_of_ne_nil apart
    -- the first byte overwrites the first of the gap, and is the last of the gap that is left
    have hstep := ih (front ++ [c]) (gap ++ [c]) (by simp)
    have hsource : (front ++ (g :: gap ++ c :: src ++ rest)).getD (front.length + (g :: gap).length)
        0 = c := by
      rw [List.getD_eq_getElem?_getD, List.getElem?_append_right (by omega)]
      simp
    rw [List.length_cons, memmove, hsource]
    simpa [Nat.add_assoc, Nat.add_comm, Nat.add_left_comm] using hstep

theorem marked_cons {hit : Bool}
    (hhit : hit = true ↔ (patternOf re).Matches line) (lines : List (List UInt8)) :
    marked re (line :: lines) = line ++ (if hit then newline else 0) :: marked re lines := by
  cases hit <;> simp_all [marked]

theorem matching_cons {hit : Bool}
    (hhit : hit = true ↔ (patternOf re).Matches line) (lines : List (List UInt8)) :
    matching re (line :: lines) =
      if hit then (line ++ [newline]) :: matching re lines else matching re lines := by
  cases hit <;> simp_all [matching]

/-- The inner loop takes the lines one by one. -/
theorem scan_lines (reFree : 0 ∉ re) (lines : List (List UInt8))
    (hlines : ∀ line ∈ lines, newline ∉ line ∧ 0 ∉ line) (fuel : Nat) (front behind : List UInt8) :
    scan re (fuel + lines.length) (front ++ (joinLines newline lines ++ behind)) front.length =
      (scan re fuel (front ++ (marked re lines ++ behind))
        (front.length + (joinLines newline lines).length)).map
          fun r => (r.1, r.2.1, matching re lines ++ r.2.2) := by
  induction lines generalizing front with
  | nil => simp [joinLines, marked, matching]
  | cons line lines ih =>
    obtain ⟨hfree, hnul⟩ := hlines line (by simp)
    have hdrop : (front ++ (joinLines newline (line :: lines) ++ behind)).drop front.length =
        line ++ newline :: (joinLines newline lines ++ behind) := by
      rw [List.drop_left, joinLines_cons, List.append_assoc, List.cons_append]
    obtain ⟨hit, hrun, hhit⟩ := matchRe_answers re line reFree hnul
      (2 * re.length + line.length + 2) le_rfl
    have hset : ∀ c, (front ++ (joinLines newline (line :: lines) ++ behind)).set
        (front.length + line.length) c =
          front ++ (line ++ c :: (joinLines newline lines ++ behind)) := by
      intro c
      simp [joinLines_cons]
    have hstep := ih (fun l hl => hlines l (by simp [hl]))
      (front ++ (line ++ [if hit then newline else 0]))
    have hlength : (front ++ (line ++ [if hit then newline else 0])).length =
        front.length + line.length + 1 := by simp [Nat.add_assoc]
    have hend : front.length + (joinLines newline (line :: lines)).length =
        front.length + line.length + 1 + (joinLines newline lines).length := by
      rw [joinLines_cons, List.length_append, List.length_cons]
      omega
    rw [hlength] at hstep
    simp only [List.append_assoc, List.singleton_append] at hstep
    rw [List.length_cons, ← Nat.add_assoc, scan, hdrop, strchr_line hfree hnul, hend,
      marked_cons hhit, matching_cons hhit]
    simp only [Option.bind_eq_bind, Option.bind_some, List.take_left, hrun, hset, hstep,
      List.append_assoc, List.cons_append]
    cases scan re fuel _ _ <;> cases hit <;> rfl

theorem length_marked (re : List UInt8) (lines : List (List UInt8)) :
    (marked re lines).length = (joinLines newline lines).length := by
  simp [marked, joinLines, List.length_flatMap]

/-- The fuel that the buffer gives is enough for one round per line and one more. -/
theorem scan_fuel (front : List UInt8) (lines : List (List UInt8)) (behind : List UInt8) :
    ∃ fuel, (front ++ (joinLines newline lines ++ behind)).length + 1 =
      fuel + 1 + lines.length := by
  have hle := length_le_joinLines newline lines
  refine ⟨(front ++ (joinLines newline lines ++ behind)).length - lines.length, ?_⟩
  simp only [List.length_append]
  omega

/-- The inner loop, up to where there is nothing more to find. -/
theorem scan_run (reFree : 0 ∉ re) (lines : List (List UInt8))
    (hlines : ∀ line ∈ lines, newline ∉ line ∧ 0 ∉ line) (front : List UInt8) {behind : List UInt8}
    (quiet : strchr newline behind = some none) :
    scan re ((front ++ (joinLines newline lines ++ behind)).length + 1)
      (front ++ (joinLines newline lines ++ behind)) front.length =
      some (front ++ (marked re lines ++ behind), front.length + (joinLines newline lines).length,
        matching re lines) := by
  obtain ⟨fuel, hfuel⟩ := scan_fuel front lines behind
  have hdrop : (front ++ (marked re lines ++ behind)).drop
      (front.length + (joinLines newline lines).length) = behind := by
    rw [← length_marked re lines, ← List.length_append, ← List.append_assoc, List.drop_left]
  rw [hfuel, scan_lines reFree lines hlines, scan, hdrop, quiet]
  simp

/-! ### One read -/

section

variable {re front carry stale piece : List UInt8} {lines : List (List UInt8)}

theorem overwrite_run (front carry stale piece : List UInt8) :
    overwrite (front ++ (carry ++ stale)) ((front.length : Int) + carry.length).toNat piece =
      front ++ (carry ++ piece ++ stale.drop piece.length) := by
  have haddr : ((front.length : Int) + carry.length).toNat = (front ++ carry).length := by
    rw [List.length_append]
    omega
  rw [overwrite, haddr, ← List.append_assoc, List.take_left, ← List.drop_drop, List.drop_left]
  simp only [List.append_assoc]

/-- With no end of a line to find, everything is thrown away. -/
theorem grepBody_dropped (reFree : 0 ∉ re)
    (quiet : strchr newline (carry ++ piece ++ stale.drop piece.length) = some none) :
    grepBody re front.length (front ++ (carry ++ stale)) carry.length piece =
      some (front ++ (carry ++ piece ++ stale.drop piece.length), 0,
        ⟨[], [((carry ++ piece).length : Int), 0]⟩) := by
  have hscan := scan_run reFree [] (by simp) front quiet
  simp only [joinLines, List.flatMap_nil, List.nil_append, marked, matching, List.filter_nil,
    List.map_nil, List.length_nil, Nat.add_zero] at hscan
  rw [grepBody, overwrite_run]
  simp only [Option.bind_eq_bind, hscan, Option.bind_some]
  simp

/-- With the end of a line, what is kept is what stands behind the last one. -/
theorem grepBody_found (reFree : 0 ∉ re) (found : lines ≠ [])
    (hlines : ∀ line ∈ lines, newline ∉ line ∧ 0 ∉ line) {behind : List UInt8}
    (eq : carry ++ piece ++ stale.drop piece.length = joinLines newline lines ++ behind)
    (quiet : strchr newline behind = some none) (some_read : piece ≠ []) :
    grepBody re front.length (front ++ (carry ++ stale)) carry.length piece =
      some (memmove ((carry ++ piece).length - (joinLines newline lines).length)
          (front ++ (marked re lines ++ behind)) front.length
          (front.length + (joinLines newline lines).length),
        ((carry ++ piece).length : Int) - (joinLines newline lines).length,
        ⟨matching re lines, [((carry ++ piece).length : Int), (carry ++ piece).length,
          (carry ++ piece).length - (joinLines newline lines).length]⟩) := by
  have hpos : 0 < (joinLines newline lines).length :=
    (List.length_pos_iff.mpr found).trans_le (length_le_joinLines newline lines)
  have hread : 0 < piece.length := List.length_pos_iff.mpr some_read
  rw [grepBody, overwrite_run, eq]
  simp only [Option.bind_eq_bind, scan_run reFree lines hlines front quiet, Option.bind_some]
  have hmoved : front.length + (joinLines newline lines).length ≠ front.length := by omega
  have hvalid : (0 : Int) < carry.length + piece.length := by omega
  rw [if_neg hmoved, if_pos hvalid]
  push_cast [List.length_append]
  have hrest : (carry.length : Int) + piece.length -
      (front.length + (joinLines newline lines).length - front.length) =
        carry.length + piece.length - (joinLines newline lines).length := by omega
  rw [hrest]
  congr 3
  omega

/-- With the ends of the lines in the bytes that were read only, the rest of a line is kept. -/
theorem grepBody_kept (reFree : 0 ∉ re) (found : lines ≠ [])
    (hlines : ∀ line ∈ lines, newline ∉ line ∧ 0 ∉ line) {tail : List UInt8}
    (eq : carry ++ piece = joinLines newline lines ++ tail) (hfree : newline ∉ tail)
    (hnul : 0 ∉ tail)
    (quiet : strchr newline (stale.drop piece.length) = some none) (some_read : piece ≠ [])
    (front : List UInt8) : grepBody re front.length (front ++ (carry ++ stale)) carry.length piece =
      some (front ++ (tail ++
          (marked re lines ++ tail ++ stale.drop piece.length).drop tail.length),
        (tail.length : Int), ⟨matching re lines,
          [((carry ++ piece).length : Int), (carry ++ piece).length, tail.length]⟩) := by
  have hquiet : strchr newline (tail ++ stale.drop piece.length) = some none := by
    obtain ⟨run, rest, hrun, hrunNul, hrunFree⟩ := strchr_eq_none_iff.mp quiet
    exact strchr_eq_none_iff.mpr ⟨tail ++ run, rest, by rw [hrun, List.append_assoc],
      by simp [hnul, hrunNul], by simp [hfree, hrunFree]⟩
  have hmarked : marked re lines ≠ [] := by
    rw [← List.length_pos_iff, length_marked]
    exact (List.length_pos_iff.mpr found).trans_le (length_le_joinLines newline lines)
  have hmove := memmove_run tail front (marked re lines) (stale.drop piece.length) hmarked
  rw [length_marked, List.append_assoc] at hmove
  rw [grepBody_found reFree found hlines (by rw [eq, List.append_assoc]) hquiet some_read, eq,
    List.length_append, Nat.add_sub_cancel_left, hmove]
  have hrest : (((joinLines newline lines).length + tail.length : Nat) : Int) -
      (joinLines newline lines).length = tail.length := by omega
  rw [hrest, List.append_assoc]

/-- The loop goes on behind a read that there is room for. -/
theorem grepLoop_step {mem' : List UInt8} {m m' : Int} {now : Trace}
    (room : front.length + bufSize < mem.length) (hm : 0 ≤ m)
    (fits : m + piece.length ≤ bufSize) (some_read : piece ≠ [])
    (body : grepBody re front.length mem m piece = some (mem', m', now)) (fuel : Nat)
    (reads : List (List UInt8)) :
    grepLoop re front.length (fuel + 1) mem m (piece :: reads) =
      (grepLoop re front.length fuel mem' m' reads).map fun later =>
        ⟨now.out ++ later.out, now.ms ++ later.ms⟩ := by
  have hread : read (bufSize - m).toNat (piece :: reads) = (piece, reads) := by
    rw [read, if_pos (by omega)]
  rw [grepLoop, if_pos ⟨by omega, room⟩, hread]
  simp only [if_neg some_read, body, Option.bind_eq_bind, Option.bind_some]
  cases grepLoop re front.length fuel mem' m' reads <;> rfl

end

/-! ### All reads -/

/-- If the reads are clean for a pattern, the loop writes the lines that match it. -/
theorem grepLoop_of_clean {front carry stale : List UInt8}
    (reFree : 0 ∉ re) (clean : Clean re stale carry reads)
    (hlines : ∀ line ∈ lines, newline ∉ line ∧ 0 ∉ line) (pieces : [] ∉ reads)
    (input : carry ++ reads.flatten = joinLines newline lines) (free : newline ∉ carry)
    (room : bufSize < carry.length + stale.length) :
    ∃ fuel trace, grepLoop re front.length fuel (front ++ (carry ++ stale)) carry.length reads =
      some trace ∧ trace.out = matching re lines ∧ ∀ m ∈ trace.ms, 0 ≤ m ∧ m < bufSize := by
  induction clean generalizing lines with
  | nil stale carry =>
    obtain rfl : lines = [] := by
      cases lines with
      | nil => rfl
      | cons line lines =>
        rw [joinLines_cons, List.flatten_nil, List.append_nil] at input
        exact absurd (by simp [input]) free
    refine ⟨1, ⟨[], []⟩, ?_, by simp [matching], by simp⟩
    rw [grepLoop, if_pos ⟨by omega, by simp only [List.length_append]; omega⟩]
    rfl
  | @cons stale carry piece tail first reads hvalid hfound hfirst htail hsmall hquiet _ ih =>
    rw [List.flatten_cons, ← List.append_assoc, hvalid, List.append_assoc] at input
    obtain ⟨more, rfl, hmore⟩ := joinLines_initial (fun l hl => (hlines l hl).1) hfirst input.symm
    have hmoreLines : ∀ line ∈ more, newline ∉ line ∧ 0 ∉ line :=
      fun line hl => hlines line (by simp [hl])
    have htailNul : 0 ∉ tail := by
      intro h
      refine nulFree_text (fun line hl => (hmoreLines line hl).2) ?_
      rw [hmore]
      exact List.mem_append_left _ h
    have hread : piece ≠ [] := fun h => pieces (by simp [h])
    have hbody := grepBody_kept reFree hfound (fun line hl => hlines line (by simp [hl])) hvalid
      htail htailNul hquiet hread front
    have hlength := congrArg List.length hvalid
    rw [List.length_append, List.length_append] at hlength
    rw [List.length_append] at hsmall
    obtain ⟨fuel, trace, hrun, hout, hms⟩ := ih hmoreLines (fun h => pieces (by simp [h]))
      hmore.symm htail (by simp only [List.length_drop, List.length_append, length_marked]; omega)
    have hstep := grepLoop_step (by simp only [List.length_append]; omega)
      (Int.natCast_nonneg _) (by omega) hread hbody fuel reads
    rw [hrun] at hstep
    refine ⟨fuel + 1, _, hstep, ?_, ?_⟩
    · dsimp only
      rw [hout, matching, matching, matching, List.filter_append, List.map_append]
    · intro m hm
      rcases List.mem_append.mp hm with hnow | hlater
      · simp only [List.mem_cons, List.not_mem_nil, or_false, List.length_append] at hnow
        omega
      · exact hms m hlater

/-! ### The empty pattern -/

theorem matches_empty (nulFree : 0 ∉ line) : (patternOf []).Matches line := by
  obtain ⟨b, hrun, hb⟩ := matchRe_answers [] line (by simp) nulFree (line.length + 2) (by simp)
  have hmatch : matchRe (line.length + 2) [] line = some true := rfl
  rw [hmatch] at hrun
  exact hb.mp (Option.some.inj hrun).symm

theorem marked_empty (nulFree : ∀ line ∈ lines, 0 ∉ line) :
    marked [] lines = joinLines newline lines := by
  unfold marked joinLines
  refine List.flatMap_congr fun line hl => ?_
  rw [if_pos (matches_empty (nulFree line hl))]

theorem matching_empty (nulFree : ∀ line ∈ lines, 0 ∉ line) :
    (matching [] lines).flatten = joinLines newline lines := by
  classical
  have hall : lines.filter (fun line => (patternOf []).Matches line) = lines :=
    List.filter_eq_self.mpr fun line hl => by simpa using matches_empty (nulFree line hl)
  unfold matching joinLines
  rw [hall, List.flatMap_def]

/-- A byte of the buffer, and what it were if all lines matched. -/
def Dimmed (c ideal : UInt8) : Prop := c = ideal ∨ c = 0 ∧ ideal = newline

theorem dimmed_refl (s : List UInt8) : List.Forall₂ Dimmed s s :=
  List.forall₂_same.mpr fun _ _ => Or.inl rfl

theorem marked_dimmed (re : List UInt8) (lines : List (List UInt8)) :
    List.Forall₂ Dimmed (marked re lines) (joinLines newline lines) := by
  induction lines with
  | nil => exact .nil
  | cons line lines ih =>
    classical
    have hhit : decide ((patternOf re).Matches line) = true ↔ (patternOf re).Matches line :=
      decide_eq_true_iff
    rw [marked_cons hhit, joinLines_cons]
    refine List.rel_append (dimmed_refl line) (.cons ?_ ih)
    split
    · exact Or.inl rfl
    · exact Or.inr ⟨rfl, rfl⟩

/-- A zero in the place of the end of a line hides nothing new. -/
theorem strchr_dimmed {ideal : List UInt8} (dimmed : List.Forall₂ Dimmed s ideal)
    (quiet : strchr newline ideal = some none) : strchr newline s = some none := by
  induction dimmed with
  | nil => exact quiet
  | @cons c d s ideal hc _ ih =>
    rw [strchr] at quiet ⊢
    rcases hc with rfl | ⟨rfl, -⟩
    · split_ifs at quiet ⊢ with hzero hline
      · rfl
      · cases quiet
      · obtain ⟨found, hfound, hnone⟩ := Option.map_eq_some_iff.mp quiet
        obtain rfl := Option.map_eq_none_iff.mp hnone
        rw [ih hfound]
        rfl
    · rfl

/-- Reads that are clean for the empty pattern are clean for every pattern. -/
theorem Clean.of_empty {ideal carry stale : List UInt8} (clean : Clean [] ideal carry reads)
    (nulFree : 0 ∉ carry ++ reads.flatten) (re : List UInt8)
    (dimmed : List.Forall₂ Dimmed stale ideal) : Clean re stale carry reads := by
  induction clean generalizing stale with
  | nil => exact .nil ..
  | @cons _ _ piece _ _ _ hvalid hfound hlines htail hsmall hquiet _ ih =>
    rw [List.flatten_cons, ← List.append_assoc, hvalid, List.append_assoc, List.mem_append,
      not_or] at nulFree
    have hbehind := List.forall₂_drop piece.length dimmed
    refine .cons hvalid hfound hlines htail hsmall (strchr_dimmed hbehind hquiet) ?_
    refine ih nulFree.2 (List.forall₂_drop _ ?_)
    rw [marked_empty fun line hl h =>
      nulFree.1 (List.mem_flatMap.mpr ⟨line, hl, List.mem_append_left _ h⟩)]
    exact List.rel_append (List.rel_append (marked_dimmed re _) (dimmed_refl _)) hbehind

section

variable {front carry stale piece : List UInt8} {mem' : List UInt8} {m' : Int} {now : Trace}

/-- Without a zero in the memory from `buf` on, the empty pattern makes `strchr` leave it. -/
theorem grepBody_leaves (nulFree : 0 ∉ carry ++ piece ++ stale.drop piece.length) :
    grepBody [] front.length (front ++ (carry ++ stale)) carry.length piece = none := by
  obtain ⟨lines, tail, heq, hlines, htail⟩ :=
    exists_joinLines newline (carry ++ piece ++ stale.drop piece.length)
  rw [heq, List.mem_append, not_or] at nulFree
  have hnul : ∀ line ∈ lines, 0 ∉ line := fun line hl h =>
    nulFree.1 (List.mem_flatMap.mpr ⟨line, hl, List.mem_append_left _ h⟩)
  obtain ⟨fuel, hfuel⟩ := scan_fuel front lines tail
  have hdrop : (front ++ (joinLines newline lines ++ tail)).drop
      (front.length + (joinLines newline lines).length) = tail := by
    rw [← List.length_append, ← List.append_assoc, List.drop_left]
  rw [grepBody, overwrite_run, heq]
  dsimp only
  rw [hfuel, scan_lines (by simp) lines fun line hl => ⟨hlines line hl, hnul line hl⟩,
    marked_empty hnul, scan, hdrop, strchr_leaves nulFree.2 htail]
  rfl

/-- What a read can do for the empty pattern if `m` does not become negative. -/
theorem grepBody_empty_cases (nulFree : 0 ∉ carry ++ piece) (some_read : piece ≠ [])
    (body : grepBody [] front.length (front ++ (carry ++ stale)) carry.length piece =
      some (mem', m', now)) (ranged : 0 ≤ m') :
    (mem' = front ++ ([] ++ (carry ++ piece ++ stale.drop piece.length)) ∧ m' = 0 ∧ now.out = []) ∨
      ∃ lines tail, lines ≠ [] ∧ (∀ line ∈ lines, newline ∉ line) ∧
        carry ++ piece = joinLines newline lines ++ tail ∧ newline ∉ tail ∧
        strchr newline (stale.drop piece.length) = some none ∧
        mem' = front ++
          (tail ++ (marked [] lines ++ tail ++ stale.drop piece.length).drop tail.length) ∧
        m' = tail.length ∧ now.out.flatten = joinLines newline lines := by
  have hzero : 0 ∈ stale.drop piece.length := by
    by_contra h
    rw [grepBody_leaves (by rw [List.mem_append, not_or]; exact ⟨nulFree, h⟩)] at body
    cases body
  obtain ⟨run, rest, hbehind, hrun⟩ := List.eq_append_cons_of_mem hzero
  -- the lines of the string that stands at `buf` now, in the bytes read and behind them
  obtain ⟨lines, tail, heq, hlines, htail⟩ := exists_joinLines newline (carry ++ piece ++ run)
  have hnul : 0 ∉ joinLines newline lines ++ tail := by
    rw [← heq, List.mem_append, not_or]
    exact ⟨nulFree, hrun⟩
  rw [List.mem_append, not_or] at hnul
  have hlineNul : ∀ line ∈ lines, 0 ∉ line := fun line hl h =>
    hnul.1 (List.mem_flatMap.mpr ⟨line, hl, List.mem_append_left _ h⟩)
  have hall : ∀ line ∈ lines, newline ∉ line ∧ 0 ∉ line :=
    fun line hl => ⟨hlines line hl, hlineNul line hl⟩
  have hstring : carry ++ piece ++ stale.drop piece.length =
      joinLines newline lines ++ (tail ++ 0 :: rest) := by
    rw [hbehind, ← List.append_assoc, heq, List.append_assoc]
  have hquiet : strchr newline (tail ++ 0 :: rest) = some none :=
    strchr_eq_none_iff.mpr ⟨tail, rest, rfl, hnul.2, htail⟩
  by_cases hfound : lines = []
  · subst hfound
    rw [grepBody_dropped (by simp) (by rw [hstring]; exact hquiet)] at body
    cases body
    exact Or.inl ⟨rfl, rfl, rfl⟩
  · right
    have hm := body
    rw [grepBody_found (by simp) hfound hall hstring hquiet some_read] at hm
    have hkeeps : ((carry ++ piece).length : Int) - (joinLines newline lines).length = m' :=
      congrArg (fun r => r.2.1) (Option.some.inj hm)
    have hinside : joinLines newline lines <+: carry ++ piece :=
      List.prefix_of_prefix_length_le ⟨tail, heq.symm⟩ ⟨run, rfl⟩ (by omega)
    obtain ⟨kept, hkept⟩ := hinside
    obtain rfl : tail = kept ++ run := by
      rw [← hkept, List.append_assoc] at heq
      exact (List.append_cancel_left heq).symm
    rw [List.mem_append, not_or] at htail hnul
    have hrest : strchr newline (stale.drop piece.length) = some none :=
      strchr_eq_none_iff.mpr ⟨run, rest, hbehind, hrun, htail.2⟩
    rw [grepBody_kept (by simp) hfound hall hkept.symm htail.1 hnul.2.1 hrest some_read] at body
    cases body
    exact ⟨lines, kept, hfound, hlines, hkept.symm, htail.1, hrest, rfl, rfl,
      matching_empty hlineNul⟩

/-- The values of `m` of one read. -/
theorem grepBody_ms {bytes : List UInt8} {buf : Nat} {m : Int}
    (body : grepBody re buf mem m bytes = some (mem', m', now)) :
    m + bytes.length ∈ now.ms ∧ m' ∈ now.ms := by
  unfold grepBody at body
  obtain ⟨⟨mem₁, p, out⟩, -, h⟩ := Option.bind_eq_some_iff.mp body
  dsimp only at h
  split_ifs at h <;> cases h <;> simp

end

/-- A read that returns something has room for it, if `m` stays in its range. -/
theorem grepLoop_cons_inv {piece : List UInt8} {buf fuel m : Nat}
    {trace : Trace} (room : buf + bufSize < mem.length) (hm : m < bufSize) (some_read : piece ≠ [])
    (run : grepLoop re buf (fuel + 1) mem m (piece :: reads) = some trace)
    (ranged : ∀ m ∈ trace.ms, 0 ≤ m ∧ m < bufSize) :
    m + piece.length < bufSize ∧ ∃ mem' m' now later,
      grepBody re buf mem m piece = some (mem', m', now) ∧
      grepLoop re buf fuel mem' m' reads = some later ∧
      trace = ⟨now.out ++ later.out, now.ms ++ later.ms⟩ := by
  have hroom : (bufSize - (m : Int)).toNat = bufSize - m := by omega
  obtain ⟨bytes, rest, hread⟩ : ∃ bytes rest, read (bufSize - m) (piece :: reads) = (bytes, rest) :=
    ⟨_, _, rfl⟩
  have hbytes : bytes.length = min piece.length (bufSize - m) := by
    rw [read] at hread
    split_ifs at hread <;> cases hread
    · omega
    · rw [List.length_take, Nat.min_comm]
  have hpos : 0 < piece.length := List.length_pos_iff.mpr some_read
  have hsome : bytes ≠ [] := List.length_pos_iff.mp (by omega)
  rw [grepLoop, if_pos ⟨by omega, room⟩, hroom, hread] at run
  simp only [if_neg hsome] at run
  obtain ⟨⟨mem', m', now⟩, hbody, run⟩ := Option.bind_eq_some_iff.mp run
  obtain ⟨later, hlater, hnow⟩ := Option.bind_eq_some_iff.mp run
  obtain rfl := Option.some.inj hnow
  have hlt := (ranged _ (List.mem_append_left _ (grepBody_ms hbody).1)).2
  rw [read, if_pos (by omega)] at hread
  cases hread
  exact ⟨by omega, mem', m', now, later, hbody, hlater, rfl⟩

/-- If the empty pattern gives all lines and `m` stays in its range, the reads are clean. -/
theorem clean_of_grepLoop {front : List UInt8} (fuel : Nat) :
    ∀ {carry stale : List UInt8} {reads : List (List UInt8)} {trace : Trace},
      0 ∉ carry ++ reads.flatten → [] ∉ reads → carry.length < bufSize →
      grepLoop [] front.length fuel (front ++ (carry ++ stale)) carry.length reads = some trace →
      (∀ m ∈ trace.ms, 0 ≤ m ∧ m < bufSize) → bufSize < carry.length + stale.length →
      trace.out.flatten.length ≤ carry.length + reads.flatten.length ∧
        (trace.out.flatten.length = carry.length + reads.flatten.length →
          Clean [] stale carry reads) := by
  induction fuel with
  | zero => exact fun _ _ _ run => nomatch run
  | succ fuel ih =>
    intro carry stale reads trace hnul hpieces hcarry hrun hms room
    cases reads with
    | nil =>
      rw [grepLoop, if_pos ⟨by omega, by simp only [List.length_append]; omega⟩] at hrun
      cases hrun
      exact ⟨Nat.zero_le _, fun _ => .nil ..⟩
    | cons piece reads =>
      have hread : piece ≠ [] := fun h => hpieces (by simp [h])
      rw [List.flatten_cons, ← List.append_assoc, List.mem_append, not_or] at hnul
      obtain ⟨hsmall, mem', m', now, later, hbody, hlater, rfl⟩ := grepLoop_cons_inv
        (by simp only [List.length_append]; omega) hcarry hread hrun hms
      have hpos : 0 < piece.length := List.length_pos_iff.mpr hread
      have hrange : ∀ m ∈ later.ms, 0 ≤ m ∧ m < (bufSize : Int) :=
        fun m hm => hms m (List.mem_append_right _ hm)
      have hkept := (hms m' (List.mem_append_left _ (grepBody_ms hbody).2)).1
      simp only [List.flatten_append, List.length_append, List.flatten_cons]
      rcases grepBody_empty_cases hnul.1 hread hbody hkept with
        ⟨rfl, rfl, hout⟩ | ⟨lines, tail, hfound, hlines, hvalid, htail, hquiet, rfl, rfl, hout⟩
      · -- bytes are lost for good: what is written later does not make up for them
        obtain ⟨hle, -⟩ := ih (by simpa using hnul.2) (fun h => hpieces (by simp [h])) (by decide)
          hlater hrange
          (by simp only [List.length_append, List.length_drop, List.length_nil]; omega)
        rw [hout, List.flatten_nil, List.length_nil] at *
        exact ⟨by omega, fun h => absurd h (by omega)⟩
      · have hlength := congrArg List.length hvalid
        rw [List.length_append, List.length_append] at hlength
        have htailNul : 0 ∉ tail := fun h =>
          hnul.1 (by rw [hvalid]; exact List.mem_append_right _ h)
        obtain ⟨hle, hclean⟩ := ih (by rw [List.mem_append, not_or]; exact ⟨htailNul, hnul.2⟩)
          (fun h => hpieces (by simp [h])) (by omega) hlater hrange
          (by simp only [List.length_append, List.length_drop, length_marked]; omega)
        rw [hout]
        refine ⟨by omega, fun h => .cons hvalid hfound hlines htail ?_ hquiet (hclean (by omega))⟩
        rw [List.length_append]
        exact hsmall

/-- `grep` writes the right lines for a pattern if, after each read, the valid bytes hold the end of
a line and do not fill the buffer, and `strchr` finds nothing behind them. It writes the right lines
for every pattern exactly if the reads are so for the empty pattern. -/
theorem grep_chunks_iff (buf : Nat) (mem : List UInt8) (room : buf + bufSize < mem.length)
    (lines reads : List (List UInt8)) (hlines : ∀ line ∈ lines, newline ∉ line ∧ 0 ∉ line)
    (split : reads.flatten = joinLines newline lines) (pieces : [] ∉ reads) :
    (∀ re, 0 ∉ re → Clean re (mem.drop buf) [] reads → Greps re buf mem reads lines) ∧
      ((∀ re, 0 ∉ re → Greps re buf mem reads lines) ↔ Clean [] (mem.drop buf) [] reads) := by
  obtain ⟨front, stale, rfl, rfl⟩ : ∃ front stale, mem = front ++ stale ∧ buf = front.length :=
    ⟨mem.take buf, mem.drop buf, (List.take_append_drop buf mem).symm,
      (List.length_take_of_le (by omega)).symm⟩
  have hnul : 0 ∉ [] ++ reads.flatten := by
    rw [List.nil_append, split]
    exact nulFree_text fun line hl => (hlines line hl).2
  have hbehind : bufSize < ([] : List UInt8).length + stale.length := by
    rw [List.length_append] at room
    rw [List.length_nil]
    omega
  rw [List.drop_left]
  have hright (re : List UInt8) (reFree : 0 ∉ re) (clean : Clean re stale [] reads) :
      Greps re front.length (front ++ stale) reads lines :=
    grepLoop_of_clean reFree clean hlines pieces split List.not_mem_nil hbehind
  refine ⟨hright, fun greps => ?_, fun clean re reFree => ?_⟩
  · obtain ⟨fuel, trace, hrun, hout, hms⟩ := greps [] List.not_mem_nil
    refine (clean_of_grepLoop fuel hnul pieces (by decide) hrun hms hbehind).2 ?_
    rw [hout, matching_empty fun line hl => (hlines line hl).2, split, List.length_nil,
      Nat.zero_add]
  · exact hright re reFree (clean.of_empty hnul re (dimmed_refl stale))

/-- Two lines in one read each, with nothing behind the buffer, and the pattern `b`; and two lines
in reads that are right for the pattern `z`, because a line that does not match leaves a zero. -/
theorem grep_chunks_two_lines :
    Greps [98] 16 (List.replicate 1100 0) [[97, 10], [98, 98, 10]] [[97], [98, 98]] ∧
      Greps [122] 16 (List.replicate 1100 0) [[97, 97, 97, 97, 10, 98], [99, 10]]
        [[97, 97, 97, 97], [98, 99]] := by
  have hroom : 16 + bufSize < (List.replicate 1100 (0 : UInt8)).length := by
    rw [List.length_replicate]
    decide
  constructor
  · refine (grep_chunks_iff 16 _ hroom [[97], [98, 98]] [[97, 10], [98, 98, 10]] (by decide)
      (by decide) (by decide)).2.mpr ?_ [98] (by decide)
    refine .cons (show _ = joinLines newline [[97]] ++ [] from rfl) (by decide) (by decide)
      (by decide) (by decide) (by decide) ?_
    rw [marked_empty (by decide)]
    exact .cons (show _ = joinLines newline [[98, 98]] ++ [] from rfl) (by decide) (by decide)
      (by decide) (by decide) (by decide) (.nil ..)
  · refine (grep_chunks_iff 16 _ hroom [[97, 97, 97, 97], [98, 99]]
      [[97, 97, 97, 97, 10, 98], [99, 10]] (by decide) (by decide) (by decide)).1 [122]
      (by decide) ?_
    obtain ⟨hit, hrun, hhit⟩ := matchRe_answers [122] [97, 97, 97, 97] (by decide) (by decide) 8
      (by decide)
    obtain rfl : false = hit := Option.some.inj hrun
    refine .cons (show _ = joinLines newline [[97, 97, 97, 97]] ++ [98] from rfl) (by decide)
      (by decide) (by decide) (by decide) (by decide) ?_
    rw [marked_cons hhit]
    exact .cons (show _ = joinLines newline [[98, 99]] ++ [] from rfl) (by decide) (by decide)
      (by decide) (by decide) (by decide) (.nil ..)

/-- The line `ab` in two reads: its first letter is lost. -/
theorem grep_drops_part_of_line :
    ¬ Greps [] 16 (List.replicate 1100 0) [[97], [98, 10]] [[97, 98]] := by
  rintro ⟨fuel, trace, hrun, hout, hms⟩
  have hlength : trace.out.flatten.length = 3 := by
    rw [hout, matching_empty (by decide)]
    rfl
  have hclean := (@clean_of_grepLoop (List.replicate 16 0) fuel [] (List.replicate 1084 0) _ trace
    (by decide) (by decide) (by decide) hrun hms (by rw [List.length_replicate]; decide)).2 hlength
  cases hclean with
  | cons hvalid hfound =>
    obtain ⟨line, rest, rfl⟩ := List.exists_cons_of_ne_nil hfound
    have hend : newline ∈ [] ++ [97] := by
      rw [hvalid]
      exact List.mem_append_left _ (mem_joinLines.mpr ⟨line, List.mem_cons_self, .inr rfl⟩)
    exact absurd hend (by decide)

end Grep

end Xv6
