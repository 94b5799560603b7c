/-
# `exec` on any file

What a file makes `exec` do. Everything is stored inside of the new block exactly if the size of
the image is positive as an `int`, no segment that is loaded wraps around, and the stack fits. As
long as no segment wraps around, a call that fails leaves the process, the free list and the inodes
as they were, and a call that succeeds passes on its arguments.
-/

import Xv6.Task.Exec
import Xv6.Task.Refs

namespace Xv6

open Math

namespace Task

variable {pool : Pool} {rs : List Span} {s t u : Task} {ip : InodeId} {f : Fs}
variable {ok : Prop} {argv : List Nat} {path : Nat} {stack : List UInt8}

/-- `namei(path)` finds an inode, and `ilock` returns with the file system in the state `f`. -/
def Opens (s : Task) (path : Nat) (ip : InodeId) (f : Fs) : Prop :=
  ∃ g, (Fs.namei s.cwd (s.bytes.str path)).run s.fs = .ok (some ip) g ∧
    (Fs.ilock ip).run g = .ok () f

/-- `exec` behind the call of `ilock`. -/
def execFile (ip : InodeId) (path : Nat) (argv : List Nat) (stack : List UInt8) : TaskM Int := do
  let (got, bytes) ← onFs (Fs.readi ip 0 ELFHDR)
  let elf := bytes ++ stack.drop bytes.length
  if word32 got < ELFHDR ∨ uintAt elf 0 ≠ ELF_MAGIC then execFails ip
  else
    match ← onFs (segmentsSize ip (ushortAt elf 44) (uintAt elf 28) 0) with
    | none => execFails ip
    | some size =>
      execImage ip path argv size (ushortAt elf 44) (uintAt elf 28) (uintAt elf 24)

theorem exec_run (opens : s.Opens path ip f) :
    (exec path argv stack).run s = (execFile ip path argv stack).run { s with fs := f } := by
  obtain ⟨g, hfound, hlock⟩ := opens
  rw [exec, run_get_bind, run_bind_of_ok (onFs_run_of_ok hfound)]
  dsimp only
  rw [run_bind_of_ok (onFs_run_of_ok (s := { s with fs := g }) hlock)]
  rfl

/-- A call that returns has not found its file, or has opened it. -/
theorem exec_cases {r : Int} (run : (exec path argv stack).run s = .ok r t) :
    (r = -1 ∧ ∃ g, t = { s with fs := g }) ∨
      ∃ ip f, s.Opens path ip f ∧
        (execFile ip path argv stack).run { s with fs := f } = .ok r t := by
  cases hfound : (Fs.namei s.cwd (s.bytes.str path)).run s.fs with
  | error e g =>
    rw [exec, run_get_bind, run_bind_of_error (onFs_run_of_error hfound)] at run
    cases run
  | ok found g =>
    cases found with
    | none =>
      rw [exec, run_get_bind, run_bind_of_ok (onFs_run_of_ok hfound)] at run
      cases run
      exact .inl ⟨rfl, g, rfl⟩
    | some ip =>
      cases hlock : (Fs.ilock ip).run g with
      | error e f =>
        rw [exec, run_get_bind, run_bind_of_ok (onFs_run_of_ok hfound)] at run
        dsimp only at run
        rw [run_bind_of_error (onFs_run_of_error (s := { s with fs := g }) hlock)] at run
        cases run
      | ok _ f =>
        have hopens : s.Opens path ip f := ⟨g, hfound, hlock⟩
        rw [exec_run hopens] at run
        exact .inr ⟨ip, f, hopens, run⟩

/-- The size of the image only depends on the sum of the segments as a word. -/
theorem imageSize_mod (size : Nat) (args : List (List UInt8)) :
    imageSize (size % 2 ^ 32) args = imageSize size args := by
  have hword (len n : Nat) : (size % 2 ^ 32 + len + n + PAGE + PAGE - 1) % 2 ^ 32 =
      (size + len + n + PAGE + PAGE - 1) % 2 ^ 32 := by
    unfold PAGE
    omega
  unfold imageSize
  dsimp only
  rw [hword]

/-- The bytes of an image for a program with these headers. -/
def execSize (phs : List Proghdr) (args : List (List UInt8)) : Nat :=
  imageSize (total phs) args

/-- The segments that are loaded fit into an image of `sz` bytes, and `last` holds if they are all
loaded. -/
def SegmentsFit (f : Fs) (ip : InodeId) (stack : List UInt8) (sz : Nat) (last : Prop) : Prop :=
  (f.program ip stack).2.LoadsFit ip sz last (ushortAt (f.elf ip stack) 44)
    (uintAt (f.elf ip stack) 28)

/-- The first loop of `exec` returns if the file is open. -/
theorem segmentsSize_ensures {n off : Nat} (opened : ok → t.fs.Opened ip) :
    Ensures (fun u => u = t) (onFs (segmentsSize ip n off 0))
      (fun r u => r = (Fs.headers ip n off t.fs).1.map (fun phs => total phs % 2 ^ 32) ∧
        u = { t with fs := (Fs.headers ip n off t.fs).2 } ∧ (ok → u.fs.Opened ip))
      fun _ => ¬ ok := by
  intro u hu
  rw [hu]
  cases hrun : (segmentsSize ip n off 0).run t.fs with
  | ok r g =>
    rw [onFs_run_of_ok hrun]
    obtain ⟨hr, hg⟩ := segmentsSize_eq (by decide) hrun
    simp only [Nat.zero_add] at hr
    refine ⟨hr, by rw [← hg], fun hok => ?_⟩
    obtain ⟨r', g', hrun', hopened⟩ := segmentsSize_returns n off 0 (opened hok)
    rw [hrun] at hrun'
    cases hrun'
    exact hopened
  | error e g =>
    rw [onFs_run_of_error hrun]
    intro hok
    obtain ⟨r', g', hrun', -⟩ := segmentsSize_returns n off 0 (opened hok)
    rw [hrun] at hrun'
    cases hrun'

theorem execFile_ensures {post : Int → Task → Prop} (last : Nat → Prop) (ready : s.Ready pool rs)
    (opened : ok → s.fs.Opened ip)
    (fits : s.fs.IsElf ip stack → ∀ phs, (s.fs.program ip stack).1 = some phs →
      let sz := execSize phs (argv.map s.bytes.str)
      (ok → 0 < sz ∧ sz < 2 ^ 31) ∧ ((∃ x, Set.Ico x (x + sz) ⊆ s.kmem.freeBytes) →
        SegmentsFit s.fs ip stack sz (last sz)))
    (fails : ∀ t, s.StoresInside t → t.Ready pool rs → t.proc = s.proc → post (-1) t)
    (loaded : ∀ phs rest block t entry, s.fs.IsElf ip stack →
      (s.fs.program ip stack).1 = some phs → block.len = execSize phs (argv.map s.bytes.str) →
      Filling pool rest block s t → last block.len → (ok → t.fs.Opened ip) →
      Ensures (fun u => u = t) (finishExec ip path argv (argv.map s.bytes.str) block entry) post
        fun _ => ¬ ok) :
    Ensures (fun t => t = s) (execFile ip path argv stack) post fun _ => ¬ ok := by
  have hgiveUp (g : Fs) (hopened : ok → g.Opened ip) :
      Ensures (fun t => t = { s with fs := g }) (execFails ip) post fun _ => ¬ ok := by
    refine (execFails_ensures (t := { s with fs := g }) hopened).weaken ?_
      fun _ h => h
    rintro r t ⟨rfl, h, rfl⟩
    exact fails _ (.of_eq rfl) (ready.setFs h) rfl
  refine (readi_ensures opened).bindAt ?_
  rintro r _ ⟨rfl, rfl, hopened⟩
  set elf := s.fs.elf ip stack with helf
  set g := (s.fs.reading ip 0 ELFHDR).2 with hg
  change Ensures _ (if word32 (s.fs.reading ip 0 ELFHDR).1.1 < ELFHDR ∨
    uintAt elf 0 ≠ ELF_MAGIC then execFails ip else do
      match ← onFs (segmentsSize ip (ushortAt elf 44) (uintAt elf 28) 0) with
      | none => execFails ip
      | some size =>
        execImage ip path argv size (ushortAt elf 44) (uintAt elf 28)
          (uintAt elf 24)) _ _
  refine Ensures.ite (fun _ => hgiveUp g hopened) fun hheader => ?_
  have helf' : s.fs.IsElf ip stack := by
    rw [not_or, not_not, not_lt] at hheader
    exact hheader
  refine (segmentsSize_ensures hopened).bindAt ?_
  rintro size _ ⟨rfl, rfl, hopened⟩
  change Ensures _ (match (s.fs.program ip stack).1.map fun phs => total phs % 2 ^ 32 with
    | none => _
    | some size => _) _ _
  cases hphs : (s.fs.program ip stack).1 with
  | none => exact hgiveUp _ hopened
  | some phs =>
    obtain ⟨hvalid, hloads⟩ := fits helf' phs hphs
    have hsz : imageSize (total phs % 2 ^ 32) (argv.map s.bytes.str) =
        execSize phs (argv.map s.bytes.str) := imageSize_mod _ _
    rw [← hsz] at hvalid hloads
    refine execImage_ensures (s := { s with fs := (s.fs.program ip stack).2 }) (ready.setFs _)
      hvalid hloads hopened fails fun rest block t hlen hfilling hlast hopened => ?_
    have hlen' : block.len = execSize phs (argv.map s.bytes.str) := hlen.trans hsz
    rw [hsz, ← hlen'] at hlast
    exact loaded phs rest block t _ helf' hphs hlen'
      ⟨hfilling.took, hfilling.stores, hfilling.proc⟩ hlast hopened

/-- What the safety of `exec` says about the file. -/
theorem execFile_fits {r : Int} (ready : s.Ready pool rs) (strings : ∀ a ∈ argv, s.HasString a)
    (run : (execFile ip path argv stack).run s = .ok r u) (inside : s.StoresInside u)
    (helf : s.fs.IsElf ip stack) {phs : List Proghdr}
    (hphs : (s.fs.program ip stack).1 = some phs) :
    let args := argv.map s.bytes.str
    let sz := execSize phs args
    0 < sz ∧ sz < 2 ^ 31 ∧ ((∃ x, Set.Ico x (x + sz) ⊆ s.kmem.freeBytes) →
      SegmentsFit s.fs ip stack sz (arglen args + 4 * (args.length + 1) + 12 ≤ sz)) := by
  intro args sz
  have hsz : imageSize (total phs % 2 ^ 32) args = sz := imageSize_mod _ _
  rw [execFile] at run
  obtain ⟨⟨got, bytes⟩, v, hread, run⟩ := run_bind_eq_ok_iff.mp run
  obtain ⟨g, hg, rfl⟩ := zoom_run_eq_ok hread
  have hreading := Fs.reading_of_ok hg
  rw [Fs.IsElf, Fs.elf, hreading] at helf
  rw [Fs.program, Fs.elf, hreading] at hphs
  rw [SegmentsFit, Fs.program, Fs.elf, hreading]
  dsimp only at run helf hphs ⊢
  rw [if_neg (not_or.mpr ⟨not_lt.mpr helf.1, not_not.mpr helf.2⟩)] at run
  obtain ⟨size, v, hsegments, run⟩ := run_bind_eq_ok_iff.mp run
  obtain ⟨h, hh, rfl⟩ := zoom_run_eq_ok hsegments
  obtain ⟨rfl, rfl⟩ := segmentsSize_eq (by decide) hh
  rw [hphs] at run
  simp only [Option.map_some, Nat.zero_add] at run
  rw [← hsz]
  exact execImage_fits (ready.setFs (Fs.headers ip _ _ g).2) strings run inside

/-! ### A disk with one program -/

/-- The bytes of a word. -/
def wordBytes (v : Nat) : List UInt8 := (List.range 4).map fun i => UInt8.ofNat (v / 256 ^ i)

/-- A file with an ELF header, the program headers `phs` behind it, and then `data`. -/
def elfBytes (phs : List Proghdr) (data : List UInt8) : List UInt8 :=
  wordBytes ELF_MAGIC ++ List.replicate 24 0 ++ wordBytes ELFHDR ++ List.replicate 12 0 ++
    [UInt8.ofNat phs.length, 0] ++ List.replicate 6 0 ++
    (phs.flatMap fun ph => wordBytes ph.type ++ wordBytes ph.offset ++ wordBytes ph.va ++
      wordBytes 0 ++ wordBytes ph.filesz ++ wordBytes ph.memsz ++ wordBytes 0 ++ wordBytes 0) ++
    data

/-- A root directory with one file `a`, which has these bytes. -/
def fileFs (bytes : List UInt8) : Fs where
  sector a :=
    if a.sector = IBLOCK 1 then
      let root : Dinode := ⟨T_DIR, 0, 0, 1, 16, fun k => if k.val = 0 then 300 else 0⟩
      let file : Dinode :=
        ⟨T_FILE, 0, 0, 1, UInt32.ofNat bytes.length, fun k => if k.val = 0 then 301 else 0⟩
      (Block.zero.setDinode 1 root).setDinode 2 file
    else if a.sector = 300 then fun j => (direntBytes 2 [97]).getD j.val 0
    else if a.sector = 301 then fun j => bytes.getD j.val 0
    else Block.zero
  inode _ := Inode.unused
  pastIcache := 0
  buffered _ := false
  typed _ := none
  reads := 0

/-- Two pages in use, with `n` free pages behind them. The path `/a` is at the start of the pages
in use, the string `x` is 16 bytes before their end, and `yz` is 8 bytes before it. -/
def callerKmem (n : Nat) : Kmem where
  mem := ByteMem.store32 (fun x => if x = PAGE then 47 else if x = PAGE + 1 then 97 else
    if x = 3 * PAGE - 16 then 120 else if x = 3 * PAGE - 8 then 121 else
    if x = 3 * PAGE - 7 then 122 else 0) (3 * PAGE + 4) (n * PAGE)
  freelist := 3 * PAGE

/-- A process with these two pages, on a disk with this file. -/
def caller (bytes : List UInt8) (n : Nat) : Task where
  fs := fileFs bytes
  kmem := callerKmem n
  cwd := none
  mem := PAGE
  sz := 2 * PAGE
  name := []
  eip := 0
  esp := 0
  stores := []

/-- The pages behind the first one. -/
def callerPool : Pool := ⟨PAGE, 7 * PAGE, PAGE_pos, by decide, by decide⟩

/-- `namei` and `ilock` lead to a slot and a state with the property `p`. -/
def opensWith (s : Task) (path : Nat) (p : InodeId → Fs → Bool) : Bool :=
  match (Fs.namei s.cwd (s.bytes.str path)).run s.fs with
  | .ok (some ip) g =>
    match (Fs.ilock ip).run g with
    | .ok _ f => p ip f
    | .error _ _ => false
  | _ => false

theorem exists_opens (s : Task) (path : Nat) (p : InodeId → Fs → Bool)
    (found : s.opensWith path p = true) :
    ∃ ip f, s.Opens path ip f ∧ p ip f = true := by
  unfold opensWith at found
  split at found
  next ip g hname =>
    split at found
    next f hlock => exact ⟨ip, f, ⟨g, hname, hlock⟩, found⟩
    next => cases found
  next => cases found

/-- The conditions of `Opened`. -/
def isOpened (f : Fs) (ip : InodeId) : Bool :=
  (f.inode ip).busy && decide (0 < (f.inode ip).ref) && (f.inode ip).valid &&
    decide ((f.inode ip).copy.nlink ≠ 0) &&
    decide ((f.inode ip).copy.size.toNat ≤ MAXFILE * BSIZE)

theorem opened_of_isOpened (h : isOpened f ip = true) : f.Opened ip := by
  simp only [isOpened, Bool.and_eq_true, decide_eq_true_eq] at h
  obtain ⟨⟨⟨⟨hbusy, href⟩, hvalid⟩, hlink⟩, hsize⟩ := h
  exact ⟨hbusy, href, hvalid, hlink, fun _ => hsize⟩

theorem caller_ready (bytes : List UInt8) {n : Nat} (positive : 0 < n) (small : n ≤ 4) :
    (caller bytes n).Ready callerPool [⟨3 * PAGE, n * PAGE⟩] := by
  have hlen : (callerKmem n).len (3 * PAGE) = (n * PAGE : Nat) := by
    have hsmall : n * PAGE < 2 ^ 31 := by
      unfold PAGE
      omega
    rw [Kmem.len, callerKmem, ByteMem.load32_store32_self _ _ (by omega), int32_of_lt hsmall]
  have hnext : (callerKmem n).next (3 * PAGE) = 0 := by
    rw [Kmem.next, callerKmem, ByteMem.load32_store32_of_apart (by omega)]
    rfl
  have hholds : callerPool.Holds ⟨3 * PAGE, n * PAGE⟩ := by
    interval_cases n <;> exact ⟨Dvd.intro_left _ rfl, by decide, by decide, by decide⟩
  have himage : callerPool.Holds ⟨PAGE, 2 * PAGE⟩ := ⟨⟨2, rfl⟩, by decide, by decide, by decide⟩
  have hfree : (callerKmem n).FreeList callerPool [⟨3 * PAGE, n * PAGE⟩] := by
    have hstart : 3 * PAGE ≠ 0 := by decide
    refine ⟨⟨rfl, hstart, hlen, hnext⟩, List.pairwise_singleton _ _, fun r hr => ?_⟩
    obtain rfl := List.mem_singleton.mp hr
    exact hholds
  refine ⟨hfree, himage, ?_⟩
  change Disjoint _ (callerKmem n).freeBytes
  rw [hfree.freeBytes_eq, Set.disjoint_left]
  rintro x hx ⟨r, hr, hxr⟩
  obtain rfl := List.mem_singleton.mp hr
  have hlow : x < PAGE + 2 * PAGE := (Span.mem_bytes.mp hx).2
  have hhigh : 3 * PAGE ≤ x := (Span.mem_bytes.mp hxr).1
  omega

/-- The arguments of the caller. -/
def callerArgv : List Nat := [3 * PAGE - 16, 3 * PAGE - 8]

theorem caller_args (bytes : List UInt8) (n : Nat) :
    callerArgv.map (caller bytes n).bytes.str = [[120], [121, 122]] := rfl

theorem caller_hasString (bytes : List UInt8) (n : Nat) :
    ∀ a ∈ callerArgv, (caller bytes n).HasString a := by
  intro a ha
  obtain ⟨h₁, h₂⟩ := List.cons.inj (caller_args bytes n)
  rcases List.mem_cons.mp ha with rfl | ha
  · refine ⟨by change PAGE ≤ 3 * PAGE - 16; decide, ?_⟩
    rw [h₁]
    change 3 * PAGE - 16 + 1 < PAGE + 2 * PAGE
    decide
  · obtain rfl := List.mem_singleton.mp ha
    refine ⟨by change PAGE ≤ 3 * PAGE - 8; decide, ?_⟩
    rw [(List.cons.inj h₂).1]
    change 3 * PAGE - 8 + 2 < PAGE + 2 * PAGE
    decide

/-! ### Safety -/

/-- `exec` returns, and stores into the new block only. -/
def ExecSafe (s : Task) (path : Nat) (argv : List Nat) (stack : List UInt8) : Prop :=
  ∃ r t, (exec path argv stack).run s = .ok r t ∧ s.StoresInside t

/-- What the file in the slot `ip` and the arguments have to be like: if the file has a header and
all its program headers are accepted, the size of the image is positive as an `int`; and if there
is room for the image, every segment that is loaded fits, and behind the last one there is room for
the arguments, their addresses and the frame of `main`. -/
def ProgramFits (s : Task) (f : Fs) (ip : InodeId) (argv : List Nat) (stack : List UInt8) : Prop :=
  f.IsElf ip stack → ∀ phs, (f.program ip stack).1 = some phs →
    let args := argv.map s.bytes.str
    let sz := execSize phs args
    0 < sz ∧ sz < 2 ^ 31 ∧ ((∃ x, Set.Ico x (x + sz) ⊆ s.kmem.freeBytes) →
      SegmentsFit f ip stack sz (arglen args + 4 * (args.length + 1) + 12 ≤ sz))

/-- `exec` of a file is safe exactly if the program fits. -/
theorem execSafe_iff_programFits (ready : s.Ready pool rs)
    (strings : ∀ a ∈ argv, s.HasString a) (opens : s.Opens path ip f) (opened : f.Opened ip) :
    s.ExecSafe path argv stack ↔ s.ProgramFits f ip argv stack := by
  unfold ExecSafe
  rw [exec_run opens]
  constructor
  · rintro ⟨r, t, hrun, hinside⟩ helf phs hphs
    exact execFile_fits (ready.setFs f) strings hrun hinside helf hphs
  · intro hfits
    set args := argv.map s.bytes.str with hargs
    have hlength : args.length = argv.length := List.length_map _
    have htriple : Ensures (fun t => t = { s with fs := f }) (execFile ip path argv stack)
        (fun _ t => s.StoresInside t) fun _ => ¬ True := by
      refine execFile_ensures (fun sz => arglen args + 4 * (args.length + 1) + 12 ≤ sz)
        (ready.setFs f) (fun _ => opened) (fun helf phs hphs => ?_) (fun t hstores _ _ => hstores)
        fun phs rest block t entry _ _ _ hfilling hroom hopened => ?_
      · obtain ⟨hpos, hsmall, hloads⟩ := hfits helf phs hphs
        exact ⟨fun _ => ⟨hpos, hsmall⟩, hloads⟩
      · rw [hlength] at hroom
        refine (finishExec_ensures (ready.setFs f) strings hroom hfilling hopened).mono
          (fun _ h => h) (fun r u h => h.2.1) fun _ h => h
    simp only [not_true_eq_false] at htriple
    exact htriple.returns rfl

/-- The file has one program header, which is read again when the segments are loaded. -/
def oneHeader (ph : Proghdr) (f : Fs) (ip : InodeId) : Bool :=
  let r := (f.program ip []).2.reading ip (uintAt (f.elf ip []) 28) PROGHDR
  decide (ushortAt (f.elf ip []) 44 = 1 ∧ (f.program ip []).1 = some [ph] ∧ r.1.1 = PROGHDR ∧
    Proghdr.ofBytes r.1.2 = ph)

/-- A segment with four bytes in the file and four zeros behind them. -/
def code : Proghdr := ⟨ELF_PROG_LOAD, 84, 0, 4, 8⟩

/-- A process with two arguments, on a disk with a program that has this segment. -/
def codeCaller : Task := caller (elfBytes [code] [1, 2, 3, 4]) 2

/-- The program can be opened, and its segment fits in eight bytes. -/
theorem code_opens : ∃ ip f, codeCaller.Opens PAGE ip f ∧ f.Opened ip ∧
    (f.program ip []).1 = some [code] ∧
    ∀ sz last, 8 ≤ sz → last → SegmentsFit f ip [] sz last := by
  obtain ⟨ip, f, hopens, hp⟩ := exists_opens codeCaller PAGE
    (fun ip f => isOpened f ip && oneHeader code f ip &&
      let r := (f.program ip []).2.reading ip (uintAt (f.elf ip []) 28) PROGHDR
      decide ((r.2.reading ip code.offset code.filesz).1.2.length = 4)) (by decide +kernel)
  simp only [Bool.and_eq_true, decide_eq_true_eq] at hp
  obtain ⟨⟨hopened, hheader⟩, hlength⟩ := hp
  obtain ⟨hphnum, hprogram, hgot, hph⟩ := of_decide_eq_true hheader
  refine ⟨ip, f, hopens, opened_of_isOpened hopened, hprogram, fun sz last hsz hlast => ?_⟩
  have hroom : ¬ sz < (code.va + code.memsz) % 2 ^ 32 := not_lt.mpr hsz
  have hread : code.va + 4 ≤ sz := (by decide : code.va + 4 ≤ 8).trans hsz
  rw [SegmentsFit, hphnum, Fs.LoadsFit, hgot, hph, if_neg (not_not.mpr rfl),
    if_neg (by decide), if_neg hroom]
  refine ⟨⟨.inr ?_, fun _ => .inr hsz⟩, fun _ => hlast⟩
  rw [hlength]
  exact hread

/-- The program is safe with both arguments. -/
theorem execSafe_code :
    ∃ ip f, codeCaller.Opens PAGE ip f ∧ codeCaller.ProgramFits f ip callerArgv [] ∧
      codeCaller.ExecSafe PAGE callerArgv [] := by
  obtain ⟨ip, f, hopens, hopened, hprogram, hloads⟩ := code_opens
  have hfits : codeCaller.ProgramFits f ip callerArgv [] := by
    intro _ phs hphs
    rw [hprogram] at hphs
    cases hphs
    rw [codeCaller, caller_args]
    exact ⟨by decide, by decide, fun _ => hloads _ _ (by decide) (by decide)⟩
  exact ⟨ip, f, hopens, hfits, (execSafe_iff_programFits (caller_ready _ (by decide) (by decide))
    (caller_hasString _ _) hopens hopened).mpr hfits⟩

/-- A header of 84 bytes that asks for 2 GiB stops the kernel. -/
theorem exec_big_panics :
    let bytes := elfBytes [⟨ELF_PROG_LOAD, 0, 0, 0, 2 ^ 31⟩] []
    (caller bytes 2).Ready callerPool [⟨3 * PAGE, 2 * PAGE⟩] ∧
      (∃ ip f, (caller bytes 2).Opens PAGE ip f ∧ f.Opened ip) ∧
      (∃ t, (exec PAGE [] []).run (caller bytes 2) = .error (.kmem (.panic "kalloc")) t) ∧
      ¬ (caller bytes 2).ExecSafe PAGE [] [] := by
  intro bytes
  have hpanics : ∃ t, (exec PAGE [] []).run (caller bytes 2) =
      .error (.kmem (.panic "kalloc")) t := by
    have hstops : stoppedWith (fun e _ => decide (e = .kmem (.panic "kalloc")))
        ((exec PAGE [] []).run (caller bytes 2)) = true := by decide +kernel
    obtain ⟨e, t, hrun, he⟩ := exists_of_stoppedWith hstops
    exact ⟨t, by rw [hrun, of_decide_eq_true he]⟩
  refine ⟨caller_ready _ (by decide) (by decide), ?_, hpanics, ?_⟩
  · obtain ⟨ip, f, hopens, hp⟩ := exists_opens (caller bytes 2) PAGE
      (fun ip f => isOpened f ip) (by decide +kernel)
    exact ⟨ip, f, hopens, opened_of_isOpened hp⟩
  · rintro ⟨r, t, hrun, -⟩
    obtain ⟨u, hpanic⟩ := hpanics
    rw [hpanic] at hrun
    cases hrun

/-! ### Arguments -/

/-- The size leaves a page for the stack unless it wraps around. -/
theorem room_of_straight {phs : List Proghdr} {args : List (List UInt8)}
    (straight : total phs + arglen args + 4 * (args.length + 1) + PAGE + PAGE - 1 < 2 ^ 32) :
    arglen args + 4 * (args.length + 1) + 12 ≤ execSize phs args := by
  change _ ≤
    (total phs + arglen args + 4 * (args.length + 1) + PAGE + PAGE - 1) % 2 ^ 32 / PAGE * PAGE
  rw [Nat.mod_eq_of_lt straight]
  unfold PAGE
  omega

/-- The arguments of a successful `exec` are passed on to `main`, if the size of the image did not
wrap around when it was computed and the segments that were loaded fit. -/
theorem exec_delivers_arguments {phs : List Proghdr} (ready : s.Ready pool rs)
    (strings : ∀ a ∈ argv, s.HasString a) (opens : s.Opens path ip f)
    (hphs : (f.program ip stack).1 = some phs)
    (straight : total phs + arglen (argv.map s.bytes.str) + 4 * (argv.length + 1) + PAGE + PAGE -
      1 < 2 ^ 32)
    (fits : SegmentsFit f ip stack (execSize phs (argv.map s.bytes.str)) True)
    (run : (exec path argv stack).run s = .ok 0 t) :
    Delivered (t.image ⟨t.mem, t.sz⟩) t.sz t.esp (argv.map s.bytes.str) := by
  set args := argv.map s.bytes.str with hargs
  have hlength : args.length = argv.length := List.length_map _
  rw [exec_run opens] at run
  have htriple : Ensures (fun t => t = { s with fs := f }) (execFile ip path argv stack)
      (fun r t => r = 0 → Delivered (t.image ⟨t.mem, t.sz⟩) t.sz t.esp args) fun _ => ¬ False := by
    refine execFile_ensures (fun _ => True) (ready.setFs f) False.elim
      (fun helf phs' hphs' => ⟨False.elim, fun _ => ?_⟩) (fun t _ _ _ => nofun)
      fun phs' rest block t entry _ hphs' hlen hfilling _ _ => ?_
    · rw [hphs] at hphs'
      cases hphs'
      exact fits
    · rw [hphs] at hphs'
      cases hphs'
      have hroom : arglen args + 4 * (argv.length + 1) + 12 ≤ block.len := by
        rw [hlen, ← hlength]
        exact room_of_straight (hlength ▸ straight)
      refine (finishExec_ensures (ready.setFs f) strings hroom hfilling False.elim).mono
        (fun _ h => h) (fun r u h _ => h.2.2.2) fun _ h => h
  exact htriple.of_ok rfl run rfl

/-- A segment of 16 bytes that ends at address 0. -/
def wrapping : Proghdr := ⟨ELF_PROG_LOAD, 84, 2 ^ 32 - 16, 16, 16⟩

/-- Two runs: of the program with the arguments `x` and `yz`, and of one whose segment wraps around
and has `y` at its start, with the argument `x`. -/
theorem exec_argument_runs :
    returnedWith (fun r _ => decide (r = 0)) ((exec PAGE callerArgv []).run codeCaller) = true ∧
      (caller (elfBytes [wrapping] (121 :: List.replicate 15 0)) 2).opensWith PAGE
        (fun ip f => decide ((f.program ip []).1 = some [wrapping])) = true ∧
      returnedWith (fun r t => decide (r = 0 ∧
          t.image ⟨t.mem, t.sz⟩ (argAt (t.image ⟨t.mem, t.sz⟩) t.esp 0 + 0) = 121))
        ((exec PAGE [3 * PAGE - 16] []).run
          (caller (elfBytes [wrapping] (121 :: List.replicate 15 0)) 2)) = true := by
  decide +kernel

/-- The program gets both arguments. -/
theorem exec_delivers_two :
    ∃ t, (exec PAGE callerArgv []).run codeCaller = .ok 0 t ∧
      Delivered (t.image ⟨t.mem, t.sz⟩) t.sz t.esp [[120], [121, 122]] := by
  obtain ⟨ip, f, hopens, -, hprogram, hloads⟩ := code_opens
  obtain ⟨t, hrun⟩ : ∃ t, (exec PAGE callerArgv []).run codeCaller = .ok 0 t := by
    obtain ⟨r, t, hrun, hr⟩ := exists_of_returnedWith exec_argument_runs.1
    exact ⟨t, by rw [hrun, of_decide_eq_true hr]⟩
  refine ⟨t, hrun, ?_⟩
  have hargs : callerArgv.map codeCaller.bytes.str = [[120], [121, 122]] := caller_args ..
  rw [← hargs]
  refine exec_delivers_arguments (caller_ready _ (by decide) (by decide)) (caller_hasString _ _)
    hopens hprogram ?_ ?_ hrun
  · rw [hargs]
    decide
  · rw [hargs]
    exact hloads _ _ (by decide) trivial

/-- A segment that wraps around replaces the argument `x` by `y` before it is copied. -/
theorem exec_delivers_other :
    let segment : Proghdr := ⟨ELF_PROG_LOAD, 84, 2 ^ 32 - 16, 16, 16⟩
    let s := caller (elfBytes [segment] (121 :: List.replicate 15 0)) 2
    s.Ready callerPool [⟨3 * PAGE, 2 * PAGE⟩] ∧ s.HasString (3 * PAGE - 16) ∧
      s.bytes.str (3 * PAGE - 16) = [120] ∧
      total [segment] + arglen [[120]] + 4 * (1 + 1) + PAGE + PAGE - 1 < 2 ^ 32 ∧
      (∃ ip f, s.Opens PAGE ip f ∧ (f.program ip []).1 = some [segment]) ∧
      ∃ t, (exec PAGE [3 * PAGE - 16] []).run s = .ok 0 t ∧
        ¬ Delivered (t.image ⟨t.mem, t.sz⟩) t.sz t.esp [[120]] := by
  intro segment s
  obtain ⟨-, hfound, hreturns⟩ := exec_argument_runs
  refine ⟨caller_ready _ (by decide) (by decide), caller_hasString _ _ _ List.mem_cons_self,
    (List.cons.inj (caller_args _ 2)).1, by decide, ?_, ?_⟩
  · obtain ⟨ip, f, hopens, hp⟩ := exists_opens s PAGE _ hfound
    exact ⟨ip, f, hopens, of_decide_eq_true hp⟩
  · obtain ⟨r, t, hrun, hr⟩ := exists_of_returnedWith hreturns
    obtain ⟨rfl, hbyte⟩ := of_decide_eq_true hr
    refine ⟨t, hrun, fun hdelivered => ?_⟩
    have hcopy := hdelivered.copies 0 (by decide) 0 (by decide)
    rw [hbyte] at hcopy
    exact absurd hcopy (by decide)

/-! ### Failure -/

/-- Every state has some counts and locks. -/
theorem at_self (f : Fs) :
    Fs.At {ip | (f.inode ip).busy = true ∧ (f.inode ip).ref ≤ 0} (fun ip => (f.inode ip).ref)
      {ip | (f.inode ip).busy = true ∧ 0 < (f.inode ip).ref} f := by
  refine ⟨fun _ => rfl, fun ip hbusy => ?_, fun ip hip => hip⟩
  rcases lt_or_ge 0 (f.inode ip).ref with h | h
  · exact .inl ⟨hbusy, h⟩
  · exact .inr ⟨hbusy, h⟩

/-- A failed `exec` leaves the process, the list of free pages and the references and locks of
inodes as they were, if the segments that were loaded fit. -/
theorem exec_failure_restores (ready : s.Ready pool rs)
    (fits : ∀ ip f, s.Opens path ip f → f.IsElf ip stack →
      ∀ phs, (f.program ip stack).1 = some phs →
      (∃ x, Set.Ico x (x + execSize phs (argv.map s.bytes.str)) ⊆ s.kmem.freeBytes) →
      SegmentsFit f ip stack (execSize phs (argv.map s.bytes.str)) True)
    (run : (exec path argv stack).run s = .ok (-1) t) :
    (t.mem = s.mem ∧ t.sz = s.sz ∧ t.name = s.name ∧ t.eip = s.eip ∧ t.esp = s.esp) ∧
      t.kmem.FreeList pool rs ∧
      ∀ jp, (t.fs.inode jp).ref = (s.fs.inode jp).ref ∧
        (0 < (s.fs.inode jp).ref → (t.fs.inode jp).busy = (s.fs.inode jp).busy) ∧
        ((t.fs.inode jp).busy = true → (s.fs.inode jp).busy = true) := by
  have hproc : t.proc = s.proc ∧ t.kmem.FreeList pool rs := by
    rcases exec_cases run with ⟨-, g, rfl⟩ | ⟨ip, f, hopens, hfile⟩
    · exact ⟨rfl, ready.free⟩
    have htriple : Ensures (fun t => t = { s with fs := f }) (execFile ip path argv stack)
        (fun r t => r = -1 → t.proc = s.proc ∧ t.kmem.FreeList pool rs) fun _ => ¬ False := by
      refine execFile_ensures (fun _ => True) (ready.setFs f) False.elim
        (fun helf phs hphs => ⟨False.elim, fits ip f hopens helf phs hphs⟩)
        (fun t _ hready hproc _ => ⟨hproc, hready.free⟩)
        fun phs rest block t entry _ _ _ _ _ _ => ?_
      -- what is left of a call that has loaded its program does not fail
      refine (finishExec_zero ip path argv _ block entry).mono (fun _ _ => trivial) ?_
        fun _ _ => not_false
      rintro r u rfl
      exact nofun
    exact htriple.of_ok rfl hfile rfl
  have hat := (exec_at path argv stack).of_ok (at_self s.fs) run
  simp only [Task.proc, Prod.mk.injEq] at hproc
  refine ⟨hproc.1, hproc.2, fun jp => ⟨hat.ref jp, fun hpos => ?_, fun hbusy => ?_⟩⟩
  · refine Bool.eq_iff_iff.mpr ⟨fun hbusy => ?_, fun hbusy => (hat.held jp ⟨hbusy, hpos⟩).1⟩
    exact (hat.busy jp hbusy).elim And.left And.left
  · exact (hat.busy jp hbusy).elim And.left And.left

theorem Opens.unique {ip' : InodeId} {f' : Fs} (opens : s.Opens path ip f)
    (opens' : s.Opens path ip' f') : ip = ip' ∧ f = f' := by
  obtain ⟨g, hfound, hlock⟩ := opens
  obtain ⟨g', hfound', hlock'⟩ := opens'
  rw [hfound] at hfound'
  cases hfound'
  rw [hlock] at hlock'
  cases hlock'
  exact ⟨rfl, rfl⟩

/-- An empty segment that does not lie in the image. -/
def outside : Proghdr := ⟨ELF_PROG_LOAD, 0, 2 ^ 16, 0, 0⟩

/-- Two runs that fail: of a program whose segment lies outside of the image, and of one that loads
a segment over the first free run before. -/
theorem exec_failure_runs :
    (caller (elfBytes [outside] []) 4).opensWith PAGE (fun ip f => oneHeader outside f ip) = true ∧
      returnedWith (fun r _ => decide (r = -1))
        ((exec PAGE [] []).run (caller (elfBytes [outside] []) 4)) = true ∧
      returnedWith (fun r t => decide (r = -1 ∧ t.kmem.freelist = 3 * PAGE ∧
          t.kmem.len (3 * PAGE) = 2048))
        ((exec PAGE [] []).run (caller (elfBytes [⟨ELF_PROG_LOAD, 116, 2 ^ 32 - PAGE, 8, PAGE⟩,
          outside] (wordBytes 0 ++ wordBytes 2048)) 4)) = true := by
  decide +kernel

/-- A segment that does not end in the image is refused, and the pages are free again. -/
theorem exec_failure_restores_refused :
    let s := caller (elfBytes [⟨ELF_PROG_LOAD, 0, 2 ^ 16, 0, 0⟩] []) 4
    ∃ t, (exec PAGE [] []).run s = .ok (-1) t ∧
      t.kmem.FreeList callerPool [⟨3 * PAGE, 4 * PAGE⟩] := by
  intro s
  obtain ⟨hfound, hreturns, -⟩ := exec_failure_runs
  obtain ⟨ip, f, hopens, hp⟩ := exists_opens s PAGE _ hfound
  obtain ⟨hphnum, hprogram, hgot, hph⟩ := of_decide_eq_true hp
  obtain ⟨t, hrun⟩ : ∃ t, (exec PAGE [] []).run s = .ok (-1) t := by
    obtain ⟨r, t, hrun, hr⟩ := exists_of_returnedWith hreturns
    exact ⟨t, hrun.trans (by rw [of_decide_eq_true hr])⟩
  refine ⟨t, hrun, (exec_failure_restores (caller_ready _ (by decide) (by decide)) ?_ hrun).2.1⟩
  intro ip' f' hopens' _ phs hphs _
  obtain ⟨rfl, rfl⟩ := hopens.unique hopens'
  rw [hprogram] at hphs
  cases hphs
  rw [SegmentsFit, hphnum, Fs.LoadsFit, hgot, hph, if_neg (not_not.mpr rfl),
    if_neg (by decide), if_pos (by decide)]
  trivial

/-- A segment that wraps around overwrites the length of a free run before another one is refused,
and the pages of the run are lost. -/
theorem exec_failure_loses_pages :
    let s := caller (elfBytes [⟨ELF_PROG_LOAD, 116, 2 ^ 32 - PAGE, 8, PAGE⟩,
      ⟨ELF_PROG_LOAD, 0, 2 ^ 16, 0, 0⟩] (wordBytes 0 ++ wordBytes 2048)) 4
    s.Ready callerPool [⟨3 * PAGE, 4 * PAGE⟩] ∧
      ∃ t, (exec PAGE [] []).run s = .ok (-1) t ∧
        ¬ t.kmem.FreeList callerPool [⟨3 * PAGE, 4 * PAGE⟩] := by
  intro s
  refine ⟨caller_ready _ (by decide) (by decide), ?_⟩
  obtain ⟨r, t, hrun, hr⟩ := exists_of_returnedWith exec_failure_runs.2.2
  obtain ⟨rfl, hhead, hlen⟩ := of_decide_eq_true hr
  refine ⟨t, hrun, fun hfree => ?_⟩
  obtain ⟨-, -, hlinked, -⟩ := hfree.linked
  rw [hhead, hlen] at hlinked
  exact absurd hlinked (by decide)

end Task

end Xv6
