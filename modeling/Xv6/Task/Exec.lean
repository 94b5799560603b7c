/-
# Running a program

`exec` checks that a segment ends inside of the image by adding up its address and its size, and
this sum can wrap around. Unless it does, everything is stored inside of the new block, a failing
call gives the block back, and the arguments of a successful call are found where `main` looks for
them.
-/

import Xv6.Fs.Refs
import Xv6.Task.Stack

namespace Xv6

open Math

namespace Task

variable {pool : Pool} {rs rest : List Span} {block : Span} {s t u : Task} {ip : InodeId}
variable {ok last : Prop} {argv : List Nat} {path : Nat} {stack : List UInt8}

theorem Ready.setFs (ready : s.Ready pool rs) (f : Fs) : { s with fs := f }.Ready pool rs :=
  ⟨ready.free, ready.image, ready.taken⟩

/-- Code of the file system changes nothing else. -/
theorem onFs_ensures {α : Type} {x : FsM α} (returns : ok → ∃ r f, x.run t.fs = .ok r f) :
    Ensures (fun u => u = t) (onFs x) (fun _ u => ∃ f, u = { t with fs := f }) fun _ => ¬ ok := by
  intro u hu
  rw [hu]
  cases hrun : x.run t.fs with
  | ok r f =>
    rw [onFs_run_of_ok hrun]
    exact ⟨f, rfl⟩
  | error e f =>
    rw [onFs_run_of_error hrun]
    intro hok
    obtain ⟨r, g, hreturns⟩ := returns hok
    rw [hrun] at hreturns
    cases hreturns

theorem execFails_ensures (opened : ok → t.fs.Opened ip) :
    Ensures (fun u => u = t) (execFails ip) (fun r u => r = -1 ∧ ∃ f, u = { t with fs := f })
      fun _ => ¬ ok := by
  refine (onFs_ensures fun hok => ?_).bind fun _ => Ensures.pure fun u hu => ⟨rfl, hu⟩
  obtain ⟨f, hput⟩ := Fs.iunlockput_linked (opened hok).busy (opened hok).held (opened hok).linked
  exact ⟨(), f, hput⟩

/-! ### The image -/

/-- The size of the image is a number of pages. -/
theorem page_dvd_imageSize (size : Nat) (args : List (List UInt8)) :
    PAGE ∣ imageSize size args := Dvd.intro_left _ rfl

theorem imageSize_lt (size : Nat) (args : List (List UInt8)) :
    imageSize size args < 2 ^ 32 := by
  unfold imageSize PAGE
  dsimp only
  omega

/-- `kalloc` takes a size as an `int`. -/
theorem kalloc_panics {k : Kmem} {sz : Nat} (word : sz < 2 ^ 32)
    (bad : ¬ (0 < sz ∧ sz < 2 ^ 31)) :
    (kalloc (int32 sz)).run k = .error (.panic "kalloc") k := by
  rw [kalloc, if_pos]
  · rfl
  · right
    unfold int32
    split <;> omega

/-- The part of `exec` behind the loading of the segments. -/
def finishExec (ip : InodeId) (path : Nat) (argv : List Nat) (args : List (List UInt8))
    (block : Span) (entry : Nat) : TaskM Int := do
  onFs (Fs.iunlockput ip)
  let argp := argpOf block.len args
  initStack block argp argv
  commitImage block path entry (word32 (argp - 12))

/-- A failing `exec` gives the block back. Otherwise it goes on with a block that is filled. -/
theorem execImage_ensures {size phnum phoff entry : Nat} {post : Int → Task → Prop}
    (ready : s.Ready pool rs)
    (valid : ok → 0 < imageSize size (argv.map s.bytes.str) ∧
      imageSize size (argv.map s.bytes.str) < 2 ^ 31)
    (loads : (∃ x, Set.Ico x (x + imageSize size (argv.map s.bytes.str)) ⊆ s.kmem.freeBytes) →
      s.fs.LoadsFit ip (imageSize size (argv.map s.bytes.str)) last phnum phoff)
    (opened : ok → s.fs.Opened ip)
    (fails : ∀ t, s.StoresInside t → t.Ready pool rs → t.proc = s.proc → post (-1) t)
    (loaded : ∀ rest block t, block.len = imageSize size (argv.map s.bytes.str) →
      Filling pool rest block s t → last → (ok → t.fs.Opened ip) →
      Ensures (fun u => u = t) (finishExec ip path argv (argv.map s.bytes.str) block entry) post
        fun _ => ¬ ok) :
    Ensures (fun t => t = s) (execImage ip path argv size phnum phoff entry) post
      fun _ => ¬ ok := by
  set sz := imageSize size (argv.map s.bytes.str) with hsz
  have hpages : PAGE ∣ sz := page_dvd_imageSize _ _
  refine Ensures.step (a := s) rfl ?_
  dsimp only
  rw [← hsz]
  by_cases hvalid : 0 < sz ∧ sz < 2 ^ 31
  swap
  · rintro _ rfl
    rw [run_bind_of_error (onKmem_run_of_error (kalloc_panics (imageSize_lt ..) hvalid))]
    exact fun hok => hvalid (valid hok)
  obtain ⟨positive, small⟩ := hvalid
  rw [int32_of_lt small]
  rcases ready.free.kalloc_took positive hpages with
    ⟨-, hrun⟩ | ⟨a, rest, k, hnonzero, htaken, hrun, htook⟩
  · refine Ensures.step (onKmem_run_of_ok hrun) ?_
    rw [if_pos rfl]
    refine (execFails_ensures opened).weaken ?_ fun _ h => h
    rintro r t ⟨rfl, f, rfl⟩
    exact fails _ (.of_eq rfl) (ready.setFs f) rfl
  · refine Ensures.step (onKmem_run_of_ok hrun) ?_
    rw [if_neg hnonzero]
    let block : Span := ⟨a, sz⟩
    have htop : block.start + block.len < 2 ^ 32 := htook.holds.upper.trans_lt pool.top
    have hfilling : Filling pool rest block s { s with kmem := k } := ⟨htook, .of_eq rfl, rfl⟩
    have hcleared := hfilling.stored (a := block.start + 0) (n := sz) (fun _ => 0)
      ((inside_iff htop).mpr (.inr (by simp [block])))
    refine Ensures.step (store_run ..) ?_
    refine (Ensures.of_holds _ ⟨hcleared, loads ⟨a, htook.was⟩, opened⟩
      (loadSegments_fills ok phnum phoff)).bindAt fun b t ht => ?_
    obtain ⟨hfilled, hlast, hopened⟩ := ht
    cases b with
    | true => exact loaded rest block t rfl hfilled (hlast rfl) hopened
    | false =>
      -- the block is the one that was taken from the list
      obtain ⟨v, hkfree, hfree⟩ :=
        (ready.free.kfree_taken positive hpages htaken hfilled.took.left).2
      rw [if_neg Bool.false_ne_true]
      refine Ensures.step (onKmem_run_of_ok hkfree) ?_
      refine (execFails_ensures (t := { t with kmem := v }) hopened).weaken ?_
        fun _ h => h
      rintro r u ⟨rfl, f, rfl⟩
      have hsame : (⟨t.mem, t.sz⟩ : Span) = ⟨s.mem, s.sz⟩ := by
        have hproc := hfilled.proc
        simp only [Task.proc, Prod.mk.injEq] at hproc
        rw [hproc.1, hproc.2.1]
      refine fails _ hfilled.stores ⟨hfree, ?_, ?_⟩ hfilled.proc
      · change pool.Holds ⟨t.mem, t.sz⟩
        rw [hsame]
        exact ready.image
      · change Disjoint (⟨t.mem, t.sz⟩ : Span).bytes v.freeBytes
        rw [hsame, hfree.freeBytes_eq, ← ready.free.freeBytes_eq]
        exact ready.taken

/-- Once the segments are loaded, `exec` does not fail. -/
theorem finishExec_zero (ip : InodeId) (path : Nat) (argv : List Nat) (args : List (List UInt8))
    (block : Span) (entry : Nat) :
    Ensures (fun _ => True) (finishExec ip path argv args block entry) (fun r _ => r = 0)
      anyStop := by
  have hany {α : Type} (x : TaskM α) : Ensures (fun _ => True) x (fun _ _ => True) anyStop :=
    Ensures.of_runs fun _ _ _ _ _ => trivial
  refine (hany _).bind fun _ => (hany _).bind fun _ => (hany _).bind fun _ => ?_
  refine (hany _).bind fun _ => (hany _).bind fun _ => (hany _).bind fun _ => ?_
  exact Ensures.pure fun _ _ => rfl

/-- What `exec` does with a block that holds the program, if there is room for the stack. -/
theorem finishExec_ensures {entry : Nat} (ready : s.Ready pool rs)
    (strings : ∀ a ∈ argv, s.HasString a)
    (room : arglen (argv.map s.bytes.str) + 4 * (argv.length + 1) + 12 ≤ block.len)
    (filling : Filling pool rest block s t) (opened : ok → t.fs.Opened ip) :
    Ensures (fun u => u = t) (finishExec ip path argv (argv.map s.bytes.str) block entry)
      (fun r u => r = 0 ∧ s.StoresInside u ∧ (∃ rs', u.Ready pool rs') ∧
        Delivered (u.image ⟨u.mem, u.sz⟩) u.sz u.esp (argv.map s.bytes.str)) fun _ => ¬ ok := by
  set args := argv.map s.bytes.str with hargs
  have hlength : args.length = argv.length := List.length_map _
  refine (onFs_ensures fun hok => ?_).bind fun _ => Ensures.of_pre ?_
  · obtain ⟨f, hput⟩ := Fs.iunlockput_linked (opened hok).busy (opened hok).held (opened hok).linked
    exact ⟨(), f, hput⟩
  rintro _ ⟨f, rfl⟩
  obtain ⟨u, hrun, hfilled, himage⟩ := initStack_run ready strings (filling.setFs f) room
  have htop := filling.top
  have hesp : word32 ((argpOf block.len args : Int) - 12) =
      block.len - arglen args - 4 * (args.length + 1) - 12 := by
    unfold argpOf word32
    omega
  refine Ensures.step hrun (Ensures.step (a := u) rfl (Ensures.step (a := ()) rfl ?_))
  -- the old image is given back
  have hproc := hfilled.proc
  simp only [Task.proc, Prod.mk.injEq] at hproc
  have hold : int32 u.sz = u.sz := by
    rw [hproc.2.1]
    exact int32_of_lt ready.sz_lt
  obtain ⟨hapart, hgone⟩ := hfilled.took.disjoint ready.taken
  obtain ⟨v, hkfree, hfree, hkept⟩ := hfilled.took.left.kfree_frame ready.image hgone
  rw [hold, hproc.1, hproc.2.1]
  refine Ensures.step (onKmem_run_of_ok hkfree) (Ensures.step (a := ()) rfl (Ensures.ret ?_))
  have hnew : ∀ x ∈ block.bytes, x ∉ (⟨s.mem, s.sz⟩ : Span).bytes ∧ x ∉ u.kmem.freeBytes :=
    fun x hx => ⟨fun h => Set.disjoint_left.mp hapart h hx, fun h =>
      Set.disjoint_left.mp hfilled.took.apart hx h⟩
  refine ⟨rfl, hfilled.stores, ⟨_, hfree, hfilled.took.holds, ?_⟩, ?_⟩
  · change Disjoint block.bytes v.freeBytes
    rw [hfree.freeBytes_eq, spanBytes_giveBack, ← hfilled.took.left.freeBytes_eq]
    exact Set.disjoint_left.mpr fun x hx h => h.elim (hnew x hx).1 (hnew x hx).2
  · have hdelivered : Delivered (u.image block) block.len
        (word32 ((argpOf block.len args : Int) - 12)) args := by
      have hroom : arglen args + 4 * (args.length + 1) + 12 ≤ block.len := by omega
      rw [himage, hesp]
      exact stackImage_delivered hroom (by omega) (dvd_trans (by decide) filling.took.holds.pages)
    refine hdelivered.congr fun x hx => ?_
    have hbyte := hnew (block.start + x) (Span.mem_bytes.mpr ⟨by omega, by omega⟩)
    exact hkept _ hbyte.1 hbyte.2

theorem commitImage_appends (block : Span) (path entry sp : Nat) :
    Appends (commitImage block path entry sp) := by
  refine .bind .get fun s => .bind (.modify fun _ => List.suffix_rfl) fun _ => ?_
  refine .bind (.onKmem _) fun _ => .bind (.modify fun _ => List.suffix_rfl) fun _ => .pure 0

theorem execFails_appends (ip : InodeId) : Appends (execFails ip) :=
  .bind (.onFs _) fun _ => .pure _

theorem finishExec_appends (ip : InodeId) (path : Nat) (argv : List Nat)
    (args : List (List UInt8)) (block : Span) (entry : Nat) :
    Appends (finishExec ip path argv args block entry) :=
  .bind (.onFs _) fun _ => .bind (initStack_appends _ _ _) fun _ => commitImage_appends _ _ _ _

/-- If `exec` stores into the new block only, the segments and the stack fit. -/
theorem execImage_fits {size phnum phoff entry : Nat} {r : Int} (ready : s.Ready pool rs)
    (strings : ∀ a ∈ argv, s.HasString a)
    (run : (execImage ip path argv size phnum phoff entry).run s = .ok r u)
    (inside : s.StoresInside u) :
    let args := argv.map s.bytes.str
    let sz := imageSize size args
    0 < sz ∧ sz < 2 ^ 31 ∧ ((∃ x, Set.Ico x (x + sz) ⊆ s.kmem.freeBytes) →
      s.fs.LoadsFit ip sz (arglen args + 4 * (args.length + 1) + 12 ≤ sz) phnum phoff) := by
  intro args sz
  have hpages : PAGE ∣ sz := page_dvd_imageSize _ _
  rw [execImage, run_get_bind] at run
  dsimp only at run
  by_cases hvalid : 0 < sz ∧ sz < 2 ^ 31
  swap
  · rw [run_bind_of_error (onKmem_run_of_error (kalloc_panics (imageSize_lt ..) hvalid))] at run
    cases run
  obtain ⟨positive, small⟩ := hvalid
  refine ⟨positive, small, fun hroom => ?_⟩
  rcases ready.free.kalloc_took positive hpages with
    ⟨hfull, -⟩ | ⟨a, rest, k, hnonzero, -, hrun, htook⟩
  · exact absurd hroom hfull
  rw [int32_of_lt small, run_bind_of_ok (onKmem_run_of_ok hrun), if_neg hnonzero, memset,
    run_bind_of_ok (store_run ..)] at run
  let block : Span := ⟨a, sz⟩
  have htop : block.start + block.len < 2 ^ 32 := htook.holds.upper.trans_lt pool.top
  have hfilling : Filling pool rest block s { s with kmem := k } := ⟨htook, .of_eq rfl, rfl⟩
  have hcleared := hfilling.stored (a := block.start + 0) (n := sz) (fun _ => 0)
    ((inside_iff htop).mpr (.inr (by simp [block])))
  obtain ⟨b, v, hloads, run⟩ := run_bind_eq_ok_iff.mp run
  have hsuffix := loadSegments_appends _ _ _ _ _ _ _ hloads
  have htail : v.stores <:+ u.stores := by
    refine Appends.ite (finishExec_appends ip path argv args block entry) ?_ v r u run
    exact .bind (.onKmem _) fun _ => execFails_appends ip
  have hrest := ((storesInside_split suffix_stored (hsuffix.trans htail)).mp inside).2
  obtain ⟨hinside, hrest⟩ := (storesInside_split hsuffix htail).mp hrest
  have hfit := loadSegments_fit True hcleared hloads hinside fun _ => trivial
  have hfilled := ((loadSegments_fills False phnum phoff).of_ok
    ⟨hcleared, hfit, False.elim⟩ hloads).1
  refine loadSegments_fit _ hcleared hloads hinside ?_
  rintro rfl
  -- all segments are loaded, and the stack follows
  rw [if_pos rfl] at run
  obtain ⟨_, w, hput, run⟩ := run_bind_eq_ok_iff.mp run
  obtain ⟨f, -, rfl⟩ := zoom_run_eq_ok hput
  obtain ⟨_, x, hstack, hcommit⟩ := run_bind_eq_ok_iff.mp run
  have hsplit := (storesInside_split (initStack_appends _ _ _ _ _ _ hstack)
    (commitImage_appends _ _ _ _ _ _ _ hcommit)).mp hrest
  rw [List.length_map]
  exact initStack_fit ready strings (hfilled.setFs f) small hstack hsplit.1

end Task

end Xv6
