/-
# Loading a program

The second loop of `exec` stores into a block that `kalloc` has returned. As long as all of its
stores stay inside, the free list and the old image are as they were when the block was taken. They
stay inside exactly if the segments fit.
-/

import Xv6.Task.Program

namespace Xv6

open Math

namespace Task

/-- What `exec` changes only at its end: the image, the name and the registers. -/
def proc (s : Task) : Nat × Nat × List UInt8 × Nat × Nat := (s.mem, s.sz, s.name, s.eip, s.esp)

/-- A block was taken in the state `s`, and up to the state `t` everything was stored there. -/
structure Filling (pool : Pool) (rest : List Span) (block : Span) (s t : Task) : Prop where
  took : Kmem.Took pool s.kmem t.kmem rest block
  stores : s.StoresInside t
  proc : t.proc = s.proc

variable {pool : Pool} {rest : List Span} {block : Span} {s t u : Task} {ip : InodeId}
variable {n off a : Nat} {last ok : Prop}

theorem Filling.top (filling : Filling pool rest block s t) : block.start + block.len < 2 ^ 32 :=
  filling.took.holds.upper.trans_lt pool.top

theorem Filling.stored (filling : Filling pool rest block s t) (src : Nat → UInt8)
    (inside : Store.Inside ⟨block, a % 2 ^ 32, n⟩) :
    Filling pool rest block s (t.stored block a n src) := by
  have hsuffix : s.stores <:+ t.stores := by
    obtain ⟨stores, hstores, -⟩ := filling.stores
    exact ⟨stores, hstores.symm⟩
  exact ⟨took_stored filling.took inside,
    (storesInside_split hsuffix suffix_stored).mpr ⟨filling.stores, storesInside_stored.mpr inside⟩,
    filling.proc⟩

theorem Filling.setFs (filling : Filling pool rest block s t) (f : Fs) :
    Filling pool rest block s { t with fs := f } :=
  ⟨filling.took, filling.stores, filling.proc⟩

/-! ### One segment -/

theorem proghdr_lt (bs : List UInt8) :
    (Proghdr.ofBytes bs).va < 2 ^ 32 ∧ (Proghdr.ofBytes bs).filesz < 2 ^ 32 ∧
      (Proghdr.ofBytes bs).memsz < 2 ^ 32 :=
  ⟨uintAt_lt bs 8, uintAt_lt bs 16, uintAt_lt bs 20⟩

/-- A segment fits if the bytes that are read and the zeros behind them are stored inside. -/
theorem fits_iff (top : block.start + block.len < 2 ^ 32) (bs : List UInt8) (loaded : Int)
    (got : Nat) :
    (Proghdr.ofBytes bs).Fits block.len loaded got ↔
      Store.Inside ⟨block, (block.start + (Proghdr.ofBytes bs).va) % 2 ^ 32, got⟩ ∧
      (word32 loaded = (Proghdr.ofBytes bs).filesz →
        Store.Inside ⟨block, (block.start + ((Proghdr.ofBytes bs).va +
          (Proghdr.ofBytes bs).filesz)) % 2 ^ 32,
          word32 ((Proghdr.ofBytes bs).memsz - (Proghdr.ofBytes bs).filesz)⟩) := by
  obtain ⟨hva, hfilesz, hmemsz⟩ := proghdr_lt bs
  have hzero : word32 ((Proghdr.ofBytes bs).memsz - (Proghdr.ofBytes bs).filesz) = 0 ↔
      (Proghdr.ofBytes bs).memsz = (Proghdr.ofBytes bs).filesz := by
    unfold word32
    omega
  rw [Proghdr.Fits, inside_iff top, inside_iff top, hzero, Nat.mod_eq_of_lt hva]

/-- Reading from a file returns if the file is open. -/
theorem readi_ensures (opened : ok → t.fs.Opened ip) :
    Ensures (fun u => u = t) (onFs (Fs.readi ip off n))
      (fun r u => r = (t.fs.reading ip off n).1 ∧
        u = { t with fs := (t.fs.reading ip off n).2 } ∧ (ok → u.fs.Opened ip))
      fun _ => ¬ ok := by
  intro u hu
  rw [hu]
  cases hrun : (Fs.readi ip off n).run t.fs with
  | ok r f =>
    rw [onFs_run_of_ok hrun, Fs.reading_of_ok hrun]
    refine ⟨rfl, rfl, fun hok => ?_⟩
    obtain ⟨r', f', hrun', hopened⟩ := (opened hok).readi off n
    rw [hrun] at hrun'
    cases hrun'
    exact hopened
  | error e f =>
    rw [onFs_run_of_error hrun]
    intro hok
    obtain ⟨r', f', hrun', -⟩ := (opened hok).readi off n
    rw [hrun] at hrun'
    cases hrun'

/-! ### The loop -/

/-- If the segments fit, the block is filled. -/
theorem loadSegments_fills (ok : Prop) (n off : Nat) :
    Ensures (fun t => Filling pool rest block s t ∧ t.fs.LoadsFit ip block.len last n off ∧
        (ok → t.fs.Opened ip))
      (loadSegments ip block n off)
      (fun b t => Filling pool rest block s t ∧ (b = true → last) ∧ (ok → t.fs.Opened ip))
      fun _ => ¬ ok := by
  induction n generalizing off with
  | zero => exact Ensures.pure fun t h => ⟨h.1, fun _ => h.2.1, h.2.2⟩
  | succ n ih =>
    refine Ensures.of_pre fun t ⟨hfill, hfit, hopened⟩ => ?_
    rw [loadSegments]
    refine (readi_ensures hopened).bindAt ?_
    rintro r _ ⟨rfl, rfl, hopened⟩
    rw [Fs.LoadsFit] at hfit
    generalize t.fs.reading ip off PROGHDR = r at hfit hopened ⊢
    obtain ⟨⟨got, bs⟩, f⟩ := r
    dsimp only at hfit hopened ⊢
    refine Ensures.ite (fun _ => ?_) fun hgot => ?_
    · refine Ensures.ret ?_
      exact ⟨hfill.setFs f, nofun, hopened⟩
    rw [if_neg hgot] at hfit
    refine Ensures.ite (fun hload => ?_) fun hload => ?_
    · rw [if_pos hload] at hfit
      exact Ensures.of_holds _ ⟨hfill.setFs f, hfit, hopened⟩ (ih _)
    rw [if_neg hload] at hfit
    refine Ensures.ite (fun _ => ?_) fun hrange => ?_
    · refine Ensures.ret ?_
      exact ⟨hfill.setFs f, nofun, hopened⟩
    rw [if_neg hrange] at hfit
    -- the segment is read
    refine (readi_ensures hopened).bindAt ?_
    rintro q _ ⟨rfl, rfl, hopened⟩
    dsimp only at hfit hopened ⊢
    generalize f.reading ip _ _ = q at hfit hopened ⊢
    obtain ⟨⟨loaded, data⟩, g⟩ := q
    dsimp only at hfit hopened ⊢
    obtain ⟨hdata, hzeros⟩ := (fits_iff hfill.top bs loaded data.length).mp hfit.1
    refine Ensures.step (store_run ..) (Ensures.ite (fun _ => ?_) fun hloaded => ?_)
    · refine Ensures.ret ?_
      exact ⟨(hfill.setFs g).stored _ hdata, nofun, hopened⟩
    · have hall := not_not.mp hloaded
      refine Ensures.step (store_run ..) (Ensures.of_holds _ ⟨?_, hfit.2 hall, hopened⟩ (ih _))
      rw [Nat.add_assoc]
      exact ((hfill.setFs g).stored _ hdata).stored _ (hzeros hall)

theorem loadSegments_appends (ip : InodeId) (block : Span) (n off : Nat) :
    Appends (loadSegments ip block n off) := by
  induction n generalizing off with
  | zero => exact .pure true
  | succ n ih =>
    refine .bind (.onFs _) fun r => .ite (.pure false) (.ite (ih _) (.ite (.pure false) ?_))
    refine .bind (.onFs _) fun q => .bind (.store _ _ _ _) fun _ => .ite (.pure false) ?_
    exact .bind (.store _ _ _ _) fun _ => ih _

/-- If everything was stored inside of the block, the segments fit. -/
theorem loadSegments_fit (last : Prop) {b : Bool} (filling : Filling pool rest block s t)
    (run : (loadSegments ip block n off).run t = .ok b u) (inside : t.StoresInside u)
    (done : b = true → last) : t.fs.LoadsFit ip block.len last n off := by
  induction n generalizing t off with
  | zero =>
    cases run
    exact done rfl
  | succ n ih =>
    rw [loadSegments] at run
    obtain ⟨⟨got, bs⟩, v, hread, run⟩ := run_bind_eq_ok_iff.mp run
    obtain ⟨f, hf, rfl⟩ := zoom_run_eq_ok hread
    rw [Fs.LoadsFit, Fs.reading_of_ok hf]
    dsimp only at run ⊢
    by_cases hgot : got ≠ PROGHDR
    · rw [if_pos hgot]
      trivial
    rw [if_neg hgot] at run ⊢
    by_cases hload : (Proghdr.ofBytes bs).type ≠ ELF_PROG_LOAD
    · rw [if_pos hload] at run ⊢
      exact ih (filling.setFs f) run inside
    rw [if_neg hload] at run ⊢
    by_cases hrange : block.len < ((Proghdr.ofBytes bs).va + (Proghdr.ofBytes bs).memsz) % 2 ^ 32
    · rw [if_pos hrange]
      trivial
    rw [if_neg hrange] at run ⊢
    obtain ⟨⟨loaded, data⟩, v, hread', run⟩ := run_bind_eq_ok_iff.mp run
    obtain ⟨g, hg, rfl⟩ := zoom_run_eq_ok hread'
    rw [Fs.reading_of_ok hg]
    dsimp only at run ⊢
    rw [run_bind_of_ok (store_run ..)] at run
    rw [fits_iff filling.top]
    have hfilling := (filling.setFs f).setFs g
    by_cases hloaded : word32 loaded ≠ (Proghdr.ofBytes bs).filesz
    · rw [if_pos hloaded] at run
      cases run
      exact ⟨⟨storesInside_stored.mp inside, fun h => absurd h hloaded⟩, fun h => absurd h hloaded⟩
    · rw [if_neg hloaded, memset, run_bind_of_ok (store_run ..), Nat.add_assoc] at run
      -- the stores of this segment come before those of the others
      have hsuffix := loadSegments_appends ip block _ _ _ _ _ run
      obtain ⟨hdata, hrest⟩ :=
        (storesInside_split suffix_stored (suffix_stored.trans hsuffix)).mp inside
      obtain ⟨hzeros, hrest⟩ := (storesInside_split suffix_stored hsuffix).mp hrest
      rw [storesInside_stored] at hdata hzeros
      exact ⟨⟨hdata, fun _ => hzeros⟩,
        fun _ => ih ((hfilling.stored _ hdata).stored _ hzeros) run hrest⟩

end Task

end Xv6
