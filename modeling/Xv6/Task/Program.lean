/-
# Programs as `exec` reads them

What `exec` learns from a file, as a function of the file system: the header, the program headers
that the first loop sees, and which segments the second loop loads. A device can return something
else each time that it is read, so the state is passed on.
-/

import Xv6.Fs.Reading
import Xv6.Task.Image

namespace Xv6

open Math

/-- The bytes of all segments to load. -/
def total (phs : List Proghdr) : Nat :=
  ((phs.filter fun ph => ph.type = ELF_PROG_LOAD).map Proghdr.memsz).sum

/-- A segment of which `got` bytes are read ends below `sz`: those bytes do, and if `readi` returns
`filesz`, so do the zeros behind them. -/
def Proghdr.Fits (ph : Proghdr) (sz : Nat) (loaded : Int) (got : Nat) : Prop :=
  (got = 0 ∨ ph.va + got ≤ sz) ∧ (word32 loaded = ph.filesz →
    ph.memsz = ph.filesz ∨ (ph.va + ph.filesz) % 2 ^ 32 + word32 (ph.memsz - ph.filesz) ≤ sz)

namespace Fs

/-- What `readi` returns, and the state that it leaves. -/
def reading (f : Fs) (ip : InodeId) (off n : Nat) : (Int × List UInt8) × Fs :=
  match (readi ip off n).run f with
  | .ok r g => (r, g)
  | .error _ g => ((-1, []), g)

/-- The program headers, `n` of them from the offset `off` on. There are none if one of them cannot
be read, or has more bytes in the file than in memory. -/
def headers (ip : InodeId) : Nat → Nat → Fs → Option (List Proghdr) × Fs
  | 0, _, f => (some [], f)
  | n + 1, off, f =>
    let r := f.reading ip off PROGHDR
    let ph := Proghdr.ofBytes r.1.2
    if r.1.1 ≠ PROGHDR ∨ ph.type = ELF_PROG_LOAD ∧ ph.memsz < ph.filesz then (none, r.2)
    else
      let rest := headers ip n ((off + PROGHDR) % 2 ^ 32) r.2
      (rest.1.map (ph :: ·), rest.2)

/-- The ELF header of a file, with what was on the stack before where the file is too short. -/
def elf (f : Fs) (ip : InodeId) (stack : List UInt8) : List UInt8 :=
  let bytes := (f.reading ip 0 ELFHDR).1.2
  bytes ++ stack.drop bytes.length

/-- The file has an ELF header. -/
def IsElf (f : Fs) (ip : InodeId) (stack : List UInt8) : Prop :=
  ELFHDR ≤ word32 (f.reading ip 0 ELFHDR).1.1 ∧
    uintAt (f.elf ip stack) 0 = ELF_MAGIC

/-- The program headers of a file. -/
def program (f : Fs) (ip : InodeId) (stack : List UInt8) : Option (List Proghdr) × Fs :=
  headers ip (ushortAt (f.elf ip stack) 44) (uintAt (f.elf ip stack) 28)
    (f.reading ip 0 ELFHDR).2

/-- The segments that are loaded into `sz` bytes fit, up to the first one that is refused; and if
none is refused, `last` holds. -/
def LoadsFit (ip : InodeId) (sz : Nat) (last : Prop) : Nat → Nat → Fs → Prop
  | 0, _, _ => last
  | n + 1, off, f =>
    let r := f.reading ip off PROGHDR
    let ph := Proghdr.ofBytes r.1.2
    let q := r.2.reading ip ph.offset ph.filesz
    if r.1.1 ≠ PROGHDR then True
    else if ph.type ≠ ELF_PROG_LOAD then
      LoadsFit ip sz last n ((off + PROGHDR) % 2 ^ 32) r.2
    else if sz < (ph.va + ph.memsz) % 2 ^ 32 then True
    else ph.Fits sz q.1.1 q.1.2.length ∧
      (word32 q.1.1 = ph.filesz → LoadsFit ip sz last n ((off + PROGHDR) % 2 ^ 32) q.2)

section Reads

variable {f g : Fs} {ip : InodeId} {off n : Nat}

theorem reading_of_ok {r : Int × List UInt8} (run : (readi ip off n).run f = .ok r g) :
    f.reading ip off n = (r, g) := by
  rw [reading, run]

end Reads

end Fs

section Total

theorem total_cons (ph : Proghdr) (phs : List Proghdr) :
    total (ph :: phs) = (if ph.type = ELF_PROG_LOAD then ph.memsz else 0) + total phs := by
  unfold total
  by_cases h : ph.type = ELF_PROG_LOAD
  · simp [h]
  · simp [h]

end Total

theorem uintAt_lt (bs : List UInt8) (o : Nat) : uintAt bs o < 2 ^ 32 := by
  have h₀ := (bs.getD o 0).toNat_lt
  have h₁ := (bs.getD (o + 1) 0).toNat_lt
  have h₂ := (bs.getD (o + 2) 0).toNat_lt
  have h₃ := (bs.getD (o + 3) 0).toNat_lt
  unfold uintAt
  omega

namespace Task

variable {f g : Fs} {ip : InodeId} {n off sz : Nat}

/-- The first loop of `exec` adds up the sizes of the segments. -/
theorem segmentsSize_eq {r : Option Nat} (small : sz < 2 ^ 32)
    (run : (segmentsSize ip n off sz).run f = .ok r g) :
    r = (Fs.headers ip n off f).1.map (fun phs => (sz + total phs) % 2 ^ 32) ∧
      g = (Fs.headers ip n off f).2 := by
  induction n generalizing off sz f with
  | zero =>
    cases run
    refine ⟨?_, rfl⟩
    change some sz = some ((sz + 0) % 2 ^ 32)
    rw [Nat.add_zero, Nat.mod_eq_of_lt small]
  | succ n ih =>
    rw [segmentsSize] at run
    obtain ⟨⟨got, bs⟩, h, hread, run⟩ := run_bind_eq_ok_iff.mp run
    rw [Fs.headers, Fs.reading_of_ok hread]
    dsimp only at run ⊢
    by_cases hgot : got ≠ PROGHDR
    · rw [run_ite, if_pos hgot] at run
      cases run
      rw [if_pos (.inl hgot)]
      exact ⟨rfl, rfl⟩
    rw [run_ite, if_neg hgot, run_ite] at run
    by_cases hload : (Proghdr.ofBytes bs).type = ELF_PROG_LOAD
    · rw [if_neg (not_not.mpr hload), run_ite] at run
      by_cases hsizes : (Proghdr.ofBytes bs).memsz < (Proghdr.ofBytes bs).filesz
      · rw [if_pos hsizes] at run
        cases run
        rw [if_pos (.inr ⟨hload, hsizes⟩)]
        exact ⟨rfl, rfl⟩
      · rw [if_neg hsizes] at run
        obtain ⟨hr, hg⟩ := ih (Nat.mod_lt _ (by decide)) run
        rw [if_neg (not_or.mpr ⟨hgot, fun h => hsizes h.2⟩)]
        refine ⟨?_, hg⟩
        rw [hr, Option.map_map]
        refine congrArg (fun size => Option.map size _) (funext fun phs => ?_)
        rw [Function.comp_apply, total_cons, if_pos hload]
        omega
    · rw [if_pos hload] at run
      obtain ⟨hr, hg⟩ := ih small run
      rw [if_neg (not_or.mpr ⟨hgot, fun h => hload h.1⟩)]
      refine ⟨?_, hg⟩
      rw [hr, Option.map_map]
      refine congrArg (fun size => Option.map size _) (funext fun phs => ?_)
      rw [Function.comp_apply, total_cons, if_neg hload, Nat.zero_add]

/-- The first loop returns. -/
theorem segmentsSize_returns (n off sz : Nat) (opened : f.Opened ip) :
    ∃ r g, (segmentsSize ip n off sz).run f = .ok r g ∧ g.Opened ip := by
  induction n generalizing off sz f with
  | zero => exact ⟨_, f, rfl, opened⟩
  | succ n ih =>
    obtain ⟨⟨got, bs⟩, g, hread, hopened⟩ := opened.readi off PROGHDR
    rw [segmentsSize, run_bind_of_ok hread]
    dsimp only
    by_cases hgot : got ≠ PROGHDR
    · exact ⟨none, g, by rw [if_pos hgot]; rfl, hopened⟩
    rw [if_neg hgot]
    by_cases hload : (Proghdr.ofBytes bs).type ≠ ELF_PROG_LOAD
    · rw [if_pos hload]
      exact ih _ _ hopened
    rw [if_neg hload]
    by_cases hsizes : (Proghdr.ofBytes bs).memsz < (Proghdr.ofBytes bs).filesz
    · exact ⟨none, g, by rw [if_pos hsizes]; rfl, hopened⟩
    · rw [if_neg hsizes]
      exact ih _ _ hopened

end Task

end Xv6
