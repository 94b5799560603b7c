/-
# The arguments of a program

`exec` adds up the lengths of its arguments first, and later copies them to the top of the new
image, the last one first; below are their addresses, and below these the frame of `main`. Seen
from the new block, the second pass is a function of the strings. It stays inside of the block
exactly if there is room for what the first pass has counted and for the frame.
-/

import Xv6.Task.Load

namespace Xv6

open Math

namespace Task

/-- The string at `a` is in the image. -/
def HasString (s : Task) (a : Nat) : Prop :=
  s.mem ≤ a ∧ a + (s.bytes.str a).length < s.mem + s.sz

/-- The bytes of some strings, each with its zero. -/
def strSize (args : List (List UInt8)) : Nat := (args.map fun arg => arg.length + 1).sum

/-- A block as a memory of its own. -/
def image (t : Task) (block : Span) : ByteMem := fun o => t.bytes (block.start + o)

/-- The copy of the arguments to the memory `m`, the last one first. -/
def pushed (m : ByteMem) (argp : Nat) : List (List UInt8) → Nat → ByteMem
  | [], _ => m
  | arg :: args, sp =>
    let sp := sp - (arg.length + 1)
    pushed ((m.write sp (arg.length + 1) fun i => arg.getD i 0).store32 (argp + 4 * args.length) sp)
      argp args sp

@[simp] theorem strSize_nil : strSize [] = 0 := rfl

@[simp] theorem strSize_cons (arg : List UInt8) (args : List (List UInt8)) :
    strSize (arg :: args) = arg.length + 1 + strSize args := rfl

theorem strSize_append (xs ys : List (List UInt8)) :
    strSize (xs ++ ys) = strSize xs + strSize ys := by
  unfold strSize
  rw [List.map_append, List.sum_append]

theorem strSize_reverse (xs : List (List UInt8)) : strSize xs.reverse = strSize xs := by
  unfold strSize
  rw [List.map_reverse, List.sum_reverse]

/-! ### What the copies leave -/

section Pushed

variable {m : ByteMem} {argp sp : Nat} {args : List (List UInt8)}

/-- Only the addresses and the strings are written. -/
theorem pushed_of_apart (room : strSize args ≤ sp) {x : Nat}
    (array : x < argp ∨ argp + 4 * args.length ≤ x) (strings : x < sp - strSize args ∨ sp ≤ x) :
    pushed m argp args sp x = m x := by
  induction args generalizing m sp with
  | nil => rfl
  | cons arg args ih =>
    rw [strSize_cons] at room strings
    rw [List.length_cons] at array
    rw [pushed, ih (by omega) (by omega) (by omega), ByteMem.store32_of_apart (by omega),
      ByteMem.write_of_apart (by omega)]

/-- Each string is at the address that the array has for it. -/
theorem pushed_arg (m : ByteMem) (argp sp : Nat) (before : List (List UInt8)) (arg : List UInt8)
    (after : List (List UInt8))
    (room : argp + 4 * (before ++ arg :: after).length + strSize (before ++ arg :: after) ≤ sp)
    (small : sp < 2 ^ 32) :
    let p := sp - strSize (before ++ [arg])
    (pushed m argp (before ++ arg :: after) sp).load32 (argp + 4 * after.length) = p ∧
      ∀ j ≤ arg.length, pushed m argp (before ++ arg :: after) sp (p + j) = arg.getD j 0 := by
  induction before generalizing m sp with
  | nil =>
    rw [List.nil_append, List.length_cons, strSize_cons] at room
    simp only [List.nil_append, strSize_cons, strSize_nil, Nat.add_zero]
    rw [pushed]
    -- what is copied later is below both
    refine ⟨?_, fun j hj => ?_⟩
    · rw [ByteMem.load32_congr fun x hle hlt => pushed_of_apart (by omega) (by omega) (by omega)]
      exact ByteMem.load32_store32_self _ _ (by omega)
    · rw [pushed_of_apart (by omega) (by omega) (by omega), ByteMem.store32_of_apart (by omega),
        ByteMem.write_of_mem (by omega) (by omega), Nat.add_sub_cancel_left]
  | cons arg' before ih =>
    simp only [List.cons_append, List.length_cons, strSize_cons] at room
    have hrest := ih ((m.write (sp - (arg'.length + 1)) (arg'.length + 1) fun i =>
      arg'.getD i 0).store32 (argp + 4 * (before ++ arg :: after).length)
      (sp - (arg'.length + 1))) (sp - (arg'.length + 1)) (by omega) (by omega)
    simp only [List.cons_append, strSize_cons, ← Nat.sub_sub]
    exact hrest

end Pushed

/-! ### The copies -/

section Copies

variable {pool : Pool} {rs rest : List Span} {block : Span} {s t u : Task}

/-- A store at an offset of the block, seen from the block. -/
theorem image_stored {o n : Nat} {src : Nat → UInt8} (top : block.start + block.len < 2 ^ 32)
    (fits : o + n ≤ block.len) :
    (t.stored block (block.start + o) n src).image block = (t.image block).write o n src := by
  funext x
  by_cases hx : o ≤ x ∧ x < o + n
  · rw [ByteMem.write_of_mem hx.1 hx.2, image, stored_of_mem (by omega) (by omega) (by omega)]
    congr 1
    omega
  · rw [ByteMem.write_of_apart (by omega), image, image]
    refine stored_of_not_mem ?_
    rw [Nat.mod_eq_of_lt (by omega), wrapped_eq_Ico (by omega), Set.mem_Ico]
    omega

theorem storeWord_run (t : Task) (block : Span) (a v : Nat) :
    (storeWord block a v).run t =
      .ok () (t.stored block a 4 fun i => UInt8.ofNat (v / 256 ^ i)) := rfl

/-- A string of the old image stays while the new block is filled. -/
theorem Filling.str_eq (filling : Filling pool rest block s t) (ready : s.Ready pool rs) {a : Nat}
    (has : s.HasString a) : t.bytes.str a = s.bytes.str a := by
  have htop : s.mem + s.sz < 2 ^ 32 := ready.image.upper.trans_lt pool.top
  refine ByteMem.str_congr (by have := has.2; omega) fun x hle hx => ?_
  refine filling.took.same x (Set.disjoint_left.mp ready.taken (Span.mem_bytes.mpr ⟨?_, ?_⟩))
  · exact has.1.trans hle
  · exact lt_of_le_of_lt hx has.2

/-- The bytes that are copied for an argument. -/
theorem Filling.arg_bytes (filling : Filling pool rest block s t) (ready : s.Ready pool rs)
    {a i : Nat} (has : s.HasString a) (inside : i < (s.bytes.str a).length + 1) :
    t.bytes ((a + i) % 2 ^ 32) = (s.bytes.str a).getD i 0 := by
  have htop : s.mem + s.sz < 2 ^ 32 := ready.image.upper.trans_lt pool.top
  have hend := has.2
  rw [Nat.mod_eq_of_lt (by omega), ← filling.str_eq ready has]
  refine ByteMem.str_getD ?_ ?_
  · rw [filling.str_eq ready has]
    omega
  · rw [filling.str_eq ready has]
    omega

/-- The loop over the arguments computes `pushed`. -/
theorem pushArgs_run (ready : s.Ready pool rs) (argp sp : Nat) (argv : List Nat)
    (strings : ∀ a ∈ argv, s.HasString a) (filling : Filling pool rest block s t)
    (room : strSize (argv.map s.bytes.str) ≤ sp) (below : sp ≤ block.len)
    (array : argp + 4 * argv.length ≤ block.len) :
    ∃ u, (pushArgs block argp argv sp).run t = .ok () u ∧ Filling pool rest block s u ∧
      u.image block = pushed (t.image block) argp (argv.map s.bytes.str) sp := by
  have htop := filling.top
  induction argv generalizing t sp with
  | nil => exact ⟨t, rfl, filling, rfl⟩
  | cons a argv ih =>
    have hstr := strings a List.mem_cons_self
    rw [List.map_cons, strSize_cons] at room
    rw [List.length_cons] at array
    set len := (s.bytes.str a).length + 1 with hlen
    have hsp : word32 ((sp : Int) - len) = sp - len := by
      unfold word32
      omega
    have hin₁ : Store.Inside ⟨block, (block.start + (sp - len)) % 2 ^ 32, len⟩ :=
      (inside_iff htop).mpr (.inr (by omega))
    have hin₂ : Store.Inside ⟨block, (block.start + (argp + 4 * argv.length)) % 2 ^ 32, 4⟩ :=
      (inside_iff htop).mpr (.inr (by omega))
    obtain ⟨u, hrun, hfilling, himage⟩ := ih (sp - len)
      (fun b hb => strings b (List.mem_cons_of_mem _ hb))
      ((filling.stored (fun i => t.bytes ((a + i) % 2 ^ 32)) hin₁).stored
        (fun i => UInt8.ofNat ((sp - len) / 256 ^ i)) hin₂) (by omega) (by omega) (by omega)
    refine ⟨u, ?_, hfilling, ?_⟩
    · rw [pushArgs, run_get_bind, filling.str_eq ready hstr, ← hlen]
      dsimp only
      rw [hsp, run_bind_of_ok (memmove_run ..), run_bind_of_ok (storeWord_run ..), Nat.add_assoc]
      exact hrun
    · rw [himage, image_stored htop (by omega), image_stored htop (by omega), List.map_cons, pushed,
        List.length_map]
      congr 1
      rw [ByteMem.write_congr fun i hi => filling.arg_bytes ready hstr hi]
      rfl

/-- The frame and the addresses in an image of `sz` bytes, with the strings behind them. -/
def stackImage (m : ByteMem) (sz : Nat) (args : List (List UInt8)) : ByteMem :=
  let argp := sz - arglen args - 4 * (args.length + 1)
  (((pushed (m.store32 (argp + 4 * args.length) 0) argp args.reverse sz).store32 (argp - 4)
    argp).store32 (argp - 8) args.length).store32 (argp - 12) 0xffffffff

/-- If there is room, `exec` computes `stackImage`. -/
theorem initStack_run (ready : s.Ready pool rs) {argv : List Nat}
    (strings : ∀ a ∈ argv, s.HasString a) (filling : Filling pool rest block s t)
    (room : arglen (argv.map s.bytes.str) + 4 * (argv.length + 1) + 12 ≤ block.len) :
    ∃ u, (initStack block (argpOf block.len (argv.map s.bytes.str)) argv).run t = .ok () u ∧
      Filling pool rest block s u ∧
      u.image block = stackImage (t.image block) block.len (argv.map s.bytes.str) := by
  set args := argv.map s.bytes.str with hargs
  have hlength : args.length = argv.length := List.length_map _
  have htop := filling.top
  have hsize : strSize args ≤ arglen args := by
    unfold arglen strSize
    omega
  set argp := block.len - arglen args - 4 * (args.length + 1) with hargp
  have hargpOf : argpOf block.len args = argp := by
    unfold argpOf word32
    omega
  have hdown : word32 ((argp : Int) - 4) = argp - 4 ∧ word32 ((argp : Int) - 8) = argp - 8 ∧
      word32 ((argp : Int) - 12) = argp - 12 := by
    unfold word32
    omega
  have hin (o : Nat) (ho : o + 4 ≤ block.len) :
      Store.Inside ⟨block, (block.start + o) % 2 ^ 32, 4⟩ := (inside_iff htop).mpr (.inr (by omega))
  have hword (v : Task) (o w : Nat) (ho : o + 4 ≤ block.len) :
      (v.stored block (block.start + o) 4 fun i => UInt8.ofNat (w / 256 ^ i)).image block =
        (v.image block).store32 o w := image_stored htop ho
  have hnull := filling.stored (fun i => UInt8.ofNat (0 / 256 ^ i))
    (hin (argp + 4 * argv.length) (by omega))
  obtain ⟨u, hrun, hfilling, himage⟩ := pushArgs_run ready argp block.len
    argv.reverse (fun a ha => strings a (List.mem_reverse.mp ha)) hnull
    (by rw [List.map_reverse, strSize_reverse, ← hargs]; omega) le_rfl
    (by rw [List.length_reverse]; omega)
  have hframe := ((hfilling.stored (fun i => UInt8.ofNat (argp / 256 ^ i))
    (hin (argp - 4) (by omega))).stored (fun i => UInt8.ofNat (argv.length / 256 ^ i))
    (hin (argp - 8) (by omega))).stored (fun i => UInt8.ofNat (0xffffffff / 256 ^ i))
    (hin (argp - 12) (by omega))
  refine ⟨_, ?_, hframe, ?_⟩
  · rw [initStack, hargpOf, run_bind_of_ok (storeWord_run ..), Nat.add_assoc,
      run_bind_of_ok hrun, run_bind_of_ok (storeWord_run ..), run_bind_of_ok (storeWord_run ..),
      storeWord_run, hdown.1, hdown.2.1, hdown.2.2]
  · rw [hword _ _ _ (by omega), hword _ _ _ (by omega), hword _ _ _ (by omega), himage,
      hword _ _ _ (by omega), List.map_reverse, ← hlength]
    rfl

/-! ### Where the copies leave the block -/

theorem pushArgs_appends (block : Span) (argp : Nat) (argv : List Nat) (sp : Nat) :
    Appends (pushArgs block argp argv sp) := by
  induction argv generalizing sp with
  | nil => exact .pure ()
  | cons a argv ih =>
    refine .bind .get fun t => .bind (.bind .get fun _ => .store _ _ _ _) fun _ => ?_
    exact .bind (.store _ _ _ _) fun _ => ih _

theorem initStack_appends (block : Span) (argp : Nat) (argv : List Nat) :
    Appends (initStack block argp argv) := by
  refine .bind (.store _ _ _ _) fun _ => .bind (pushArgs_appends _ _ _ _) fun _ => ?_
  exact .bind (.store _ _ _ _) fun _ => .bind (.store _ _ _ _) fun _ => .store _ _ _ _

/-- If all copies are inside of the block, there is room for the strings and every address. -/
theorem pushArgs_fit (ready : s.Ready pool rs) {argp sp : Nat} {argv : List Nat}
    (strings : ∀ a ∈ argv, s.HasString a) (filling : Filling pool rest block s t)
    (below : sp ≤ block.len) (run : (pushArgs block argp argv sp).run t = .ok () u)
    (inside : t.StoresInside u) :
    strSize (argv.map s.bytes.str) ≤ sp ∧
      ∀ i < argv.length, (argp + 4 * i) % 2 ^ 32 + 4 ≤ block.len := by
  have htop := filling.top
  induction argv generalizing t sp with
  | nil => exact ⟨Nat.zero_le _, nofun⟩
  | cons a argv ih =>
    have hstr := strings a List.mem_cons_self
    have hend : s.mem + s.sz < 2 ^ 32 := ready.image.upper.trans_lt pool.top
    have hlen : (s.bytes.str a).length + 1 < 2 ^ 32 := by
      have := hstr.2
      omega
    rw [pushArgs, run_get_bind, filling.str_eq ready hstr] at run
    dsimp only at run
    rw [run_bind_of_ok (memmove_run ..), run_bind_of_ok (storeWord_run ..), Nat.add_assoc] at run
    have hsuffix := pushArgs_appends _ _ _ _ _ _ _ run
    obtain ⟨hcopy, hrest⟩ :=
      (storesInside_split suffix_stored (suffix_stored.trans hsuffix)).mp inside
    obtain ⟨haddr, hrest⟩ := (storesInside_split suffix_stored hsuffix).mp hrest
    rw [storesInside_stored] at hcopy haddr
    have hfilling := (filling.stored (fun i => t.bytes ((a + i) % 2 ^ 32)) hcopy).stored
      (fun i => UInt8.ofNat
        (word32 ((sp : Int) - ((s.bytes.str a).length + 1 : Nat)) / 256 ^ i)) haddr
    -- below the bottom of the block the address would wrap around
    have hfits : (s.bytes.str a).length + 1 ≤ sp := by
      have h := (inside_iff htop).mp hcopy
      unfold word32 at h
      omega
    have hsp : word32 ((sp : Int) - ((s.bytes.str a).length + 1 : Nat)) =
        sp - ((s.bytes.str a).length + 1) := by
      unfold word32
      omega
    obtain ⟨hsize, harray⟩ := ih (fun b hb => strings b (List.mem_cons_of_mem _ hb)) hfilling
      (by rw [hsp]; omega) run hrest
    rw [hsp] at hsize
    refine ⟨by rw [List.map_cons, strSize_cons]; omega, fun i hi => ?_⟩
    rw [List.length_cons] at hi
    rcases Nat.lt_succ_iff_lt_or_eq.mp hi with hlt | rfl
    · exact harray i hlt
    · have h := (inside_iff htop).mp haddr
      omega

/-- The words go down from the strings, and none of them can be the first one below the bottom. -/
theorem room_of_words {sz len argc argp : Nat} (small : sz < 2 ^ 31) (strings : len ≤ sz)
    (hargp : argp = word32 (sz - len - 4 * (argc + 1)))
    (array : ∀ i ≤ argc, (argp + 4 * i) % 2 ^ 32 + 4 ≤ sz)
    (frame : ∀ i ∈ [4, 8, 12], word32 ((argp : Int) - i) % 2 ^ 32 + 4 ≤ sz) :
    len + 4 * (argc + 1) + 12 ≤ sz := by
  have hdown (j : Nat) (hj : j ≤ argc) : len + 4 * (j + 1) ≤ sz := by
    induction j with
    | zero =>
      have hword := array argc le_rfl
      unfold word32 at hargp
      omega
    | succ j ih =>
      have hroom := ih (by omega)
      have hword := array (argc - (j + 1)) (by omega)
      unfold word32 at hargp
      omega
  have hlast := hdown argc le_rfl
  have hargp' : argp = sz - len - 4 * (argc + 1) := by
    unfold word32 at hargp
    omega
  have h₄ := frame 4 (by simp)
  have h₈ := frame 8 (by simp)
  have h₁₂ := frame 12 (by simp)
  unfold word32 at h₄ h₈ h₁₂
  omega

/-- If everything is stored inside of the block, there is room for all of it. -/
theorem initStack_fit (ready : s.Ready pool rs) {argv : List Nat}
    (strings : ∀ a ∈ argv, s.HasString a) (filling : Filling pool rest block s t)
    (small : block.len < 2 ^ 31)
    (run : (initStack block (argpOf block.len (argv.map s.bytes.str)) argv).run t = .ok () u)
    (inside : t.StoresInside u) :
    arglen (argv.map s.bytes.str) + 4 * (argv.length + 1) + 12 ≤ block.len := by
  set args := argv.map s.bytes.str with hargs
  have hlength : args.length = argv.length := List.length_map _
  have htop := filling.top
  set argp := argpOf block.len args with hargp
  rw [initStack, run_bind_of_ok (storeWord_run ..), Nat.add_assoc] at run
  obtain ⟨_, v, hpush, run⟩ := run_bind_eq_ok_iff.mp run
  rw [run_bind_of_ok (storeWord_run ..), run_bind_of_ok (storeWord_run ..), storeWord_run] at run
  cases run
  have hsuffix := pushArgs_appends _ _ _ _ _ _ _ hpush
  have hframe : v.stores <:+ (((v.stored block (block.start + word32 ((argp : Int) - 4)) 4
      fun i => UInt8.ofNat (argp / 256 ^ i)).stored block
      (block.start + word32 ((argp : Int) - 8)) 4
      fun i => UInt8.ofNat (argv.length / 256 ^ i)).stored block
      (block.start + word32 ((argp : Int) - 12)) 4
      fun i => UInt8.ofNat (0xffffffff / 256 ^ i)).stores :=
    (suffix_stored.trans suffix_stored).trans suffix_stored
  obtain ⟨hnull, hrest⟩ :=
    (storesInside_split suffix_stored (hsuffix.trans hframe)).mp inside
  obtain ⟨hpushed, hrest⟩ := (storesInside_split hsuffix hframe).mp hrest
  obtain ⟨h₄, hrest⟩ :=
    (storesInside_split suffix_stored (suffix_stored.trans suffix_stored)).mp hrest
  obtain ⟨h₈, h₁₂⟩ := (storesInside_split suffix_stored suffix_stored).mp hrest
  rw [storesInside_stored] at hnull h₄ h₈ h₁₂
  obtain ⟨hsize, harray⟩ := pushArgs_fit ready
    (fun a ha => strings a (List.mem_reverse.mp ha)) (filling.stored _ hnull) le_rfl hpush hpushed
  rw [List.map_reverse, strSize_reverse, ← hargs] at hsize
  rw [List.length_reverse] at harray
  have hpages : 4 ∣ block.len := dvd_trans (by decide) filling.took.holds.pages
  have harglen : arglen args ≤ block.len := by
    unfold arglen
    unfold strSize at hsize
    omega
  have hargp' : argp = word32 (block.len - arglen args - 4 * (argv.length + 1)) := by
    rw [hargp, argpOf, hlength]
  refine room_of_words small harglen hargp' (fun i hi => ?_) fun i hi => ?_
  · rcases hi.lt_or_eq with hlt | rfl
    · exact harray i hlt
    · have h := (inside_iff htop).mp hnull
      omega
  · simp only [List.mem_cons, List.not_mem_nil, or_false] at hi
    rcases hi with rfl | rfl | rfl
    · exact ((inside_iff htop).mp h₄).resolve_left (by decide)
    · exact ((inside_iff htop).mp h₈).resolve_left (by decide)
    · exact ((inside_iff htop).mp h₁₂).resolve_left (by decide)

end Copies

/-! ### The stack of a new program -/

/-- The argument `i` of `main` in the memory `m` of a program that starts with the stack
pointer `esp`. -/
def argAt (m : ByteMem) (esp i : Nat) : Nat := m.load32 (m.load32 (esp + 8) + 4 * i)

/-- The frame of `main`, the array of its arguments and the arguments. -/
def regions (m : ByteMem) (esp : Nat) (args : List (List UInt8)) : List Span :=
  ⟨esp, 12⟩ :: ⟨m.load32 (esp + 8), 4 * (args.length + 1)⟩ ::
    args.mapIdx fun i arg => ⟨argAt m esp i, arg.length + 1⟩

/-- The memory `m` of `sz` bytes and the stack pointer `esp` pass `args` to `main`. -/
structure Delivered (m : ByteMem) (sz esp : Nat) (args : List (List UInt8)) : Prop where
  pc : m.load32 esp = 0xffffffff
  argc : m.load32 (esp + 4) = args.length
  null : argAt m esp args.length = 0
  copies : ∀ i (hi : i < args.length), ∀ j ≤ args[i].length,
    m (argAt m esp i + j) = args[i].getD j 0
  apart : (regions m esp args).Pairwise Span.Apart
  inside : ∀ r ∈ regions m esp args, r.stop ≤ sz
  aligned : 4 ∣ esp ∧ 4 ∣ m.load32 (esp + 8)

section Delivered

variable {m : ByteMem} {sz : Nat} {args : List (List UInt8)}

/-- Only the bytes of the image matter. -/
theorem Delivered.congr {m' : ByteMem} {esp : Nat} (delivered : Delivered m sz esp args)
    (same : ∀ x < sz, m' x = m x) : Delivered m' sz esp args := by
  have hframe : esp + 12 ≤ sz := delivered.inside _ List.mem_cons_self
  have harray : m.load32 (esp + 8) + 4 * (args.length + 1) ≤ sz :=
    delivered.inside _ (List.mem_cons_of_mem _ List.mem_cons_self)
  have hword {a : Nat} (ha : a + 4 ≤ sz) : m'.load32 a = m.load32 a :=
    ByteMem.load32_congr fun x _ hx => same x (by omega)
  have harg {i : Nat} (hi : i ≤ args.length) : argAt m' esp i = argAt m esp i := by
    rw [argAt, hword (a := esp + 8) (by omega), hword (by omega), argAt]
  have hregions : regions m' esp args = regions m esp args := by
    rw [regions, hword (a := esp + 8) (by omega), regions]
    congr 2
    refine List.ext_getElem (by simp) fun i h _ => ?_
    rw [List.length_mapIdx] at h
    rw [List.getElem_mapIdx, List.getElem_mapIdx, harg h.le]
  refine ⟨?_, ?_, ?_, fun i hi j hj => ?_, ?_, ?_, ?_⟩
  · rw [hword (by omega)]
    exact delivered.pc
  · rw [hword (by omega)]
    exact delivered.argc
  · rw [harg le_rfl]
    exact delivered.null
  · have hmem : (⟨argAt m esp i, args[i].length + 1⟩ : Span) ∈ regions m esp args :=
      List.mem_cons_of_mem _ (List.mem_cons_of_mem _ (List.mem_mapIdx.mpr ⟨i, hi, rfl⟩))
    have hstop : argAt m esp i + (args[i].length + 1) ≤ sz := delivered.inside _ hmem
    rw [harg hi.le, same _ (by omega)]
    exact delivered.copies i hi j hj
  · rw [hregions]
    exact delivered.apart
  · rw [hregions]
    exact delivered.inside
  · rw [hword (by omega)]
    exact delivered.aligned

theorem strSize_drop_le {i j : Nat} (le : i ≤ j) :
    strSize (args.drop j) ≤ strSize (args.drop i) := by
  obtain ⟨k, rfl⟩ := Nat.exists_eq_add_of_le le
  have hsplit := strSize_append ((args.drop i).take k) ((args.drop i).drop k)
  rw [List.take_append_drop, List.drop_drop] at hsplit
  omega

theorem strSize_drop {i : Nat} (hi : i < args.length) :
    strSize (args.drop i) = args[i].length + 1 + strSize (args.drop (i + 1)) := by
  rw [List.drop_eq_getElem_cons hi, strSize_cons]

theorem strSize_le_arglen (args : List (List UInt8)) : strSize args ≤ arglen args := by
  unfold arglen strSize
  omega

variable (room : arglen args + 4 * (args.length + 1) + 12 ≤ sz) (small : sz < 2 ^ 32)

include room small

/-- Each string of the stack is at the address that the array has for it. -/
theorem stackImage_arg {i : Nat} (hi : i < args.length) :
    let argp := sz - arglen args - 4 * (args.length + 1)
    let p := sz - strSize (args.drop i)
    (stackImage m sz args).load32 (argp + 4 * i) = p ∧
      ∀ j ≤ args[i].length, stackImage m sz args (p + j) = args[i].getD j 0 := by
  intro argp p
  have hsize := strSize_le_arglen args
  have hdrop : strSize (args.drop i) ≤ strSize args := strSize_drop_le (Nat.zero_le i)
  -- the strings behind this one are copied before it
  have hsplit : args.reverse = (args.drop (i + 1)).reverse ++ args[i] :: (args.take i).reverse := by
    conv_lhs => rw [← List.take_append_drop i args, List.drop_eq_getElem_cons hi]
    simp
  have hlength : (args.take i).reverse.length = i := by
    rw [List.length_reverse, List.length_take]
    omega
  have hbehind : strSize ((args.drop (i + 1)).reverse ++ [args[i]]) = strSize (args.drop i) := by
    rw [strSize_append, strSize_reverse, strSize_drop hi, strSize_cons, strSize_nil]
    omega
  have hpushed := pushed_arg (m.store32 (argp + 4 * args.length) 0) argp sz
    (args.drop (i + 1)).reverse args[i] (args.take i).reverse
    (by rw [← hsplit, List.length_reverse, strSize_reverse]; omega) small
  rw [← hsplit, hlength, hbehind] at hpushed
  -- the frame is below
  have hbelow (x : Nat) (hx : argp ≤ x) : stackImage m sz args x =
      pushed (m.store32 (argp + 4 * args.length) 0) argp args.reverse sz x := by
    unfold stackImage
    rw [ByteMem.store32_of_apart (by omega), ByteMem.store32_of_apart (by omega),
      ByteMem.store32_of_apart (by omega)]
  refine ⟨?_, fun j hj => ?_⟩
  · rw [ByteMem.load32_congr fun x hx _ => hbelow x (by omega)]
    exact hpushed.1
  · rw [hbelow _ (by omega)]
    exact hpushed.2 j hj

/-- The words of the frame and the null pointer behind the addresses. -/
theorem stackImage_frame :
    let argp := sz - arglen args - 4 * (args.length + 1)
    (stackImage m sz args).load32 (argp - 12) = 0xffffffff ∧
      (stackImage m sz args).load32 (argp - 8) = args.length ∧
      (stackImage m sz args).load32 (argp - 4) = argp ∧
      (stackImage m sz args).load32 (argp + 4 * args.length) = 0 := by
  intro argp
  have hsize := strSize_le_arglen args
  unfold stackImage
  refine ⟨?_, ?_, ?_, ?_⟩
  · exact ByteMem.load32_store32_self _ _ (by decide)
  · rw [ByteMem.load32_store32_of_apart (by omega)]
    exact ByteMem.load32_store32_self _ _ (by omega)
  · rw [ByteMem.load32_store32_of_apart (by omega), ByteMem.load32_store32_of_apart (by omega)]
    exact ByteMem.load32_store32_self _ _ (by omega)
  · rw [ByteMem.load32_store32_of_apart (by omega), ByteMem.load32_store32_of_apart (by omega),
      ByteMem.load32_store32_of_apart (by omega)]
    rw [ByteMem.load32_congr fun x _ _ => pushed_of_apart (by rw [strSize_reverse]; omega)
      (by rw [List.length_reverse]; omega) (by rw [strSize_reverse]; omega)]
    exact ByteMem.load32_store32_self _ _ (by decide)

/-- What `exec` leaves on the stack are the arguments. -/
theorem stackImage_delivered (aligned : 4 ∣ sz) :
    Delivered (stackImage m sz args) sz (sz - arglen args - 4 * (args.length + 1) - 12) args := by
  set M := stackImage m sz args with hM
  set argp := sz - arglen args - 4 * (args.length + 1) with hargp
  have hsize := strSize_le_arglen args
  obtain ⟨hpc, hargc, hframe, hnull⟩ := stackImage_frame (m := m) room small
  have harray : M.load32 (argp - 12 + 8) = argp := by
    rw [show argp - 12 + 8 = argp - 4 by omega]
    exact hframe
  have harg (i : Nat) (hi : i < args.length) :
      argAt M (argp - 12) i = sz - strSize (args.drop i) := by
    rw [argAt, harray]
    exact (stackImage_arg room small hi).1
  have hdrop (i : Nat) : strSize (args.drop i) ≤ strSize args := strSize_drop_le (Nat.zero_le i)
  refine ⟨hpc, ?_, ?_, fun i hi j hj => ?_, ?_, ?_, ?_⟩
  · rw [show argp - 12 + 4 = argp - 8 by omega]
    exact hargc
  · rw [argAt, harray]
    exact hnull
  · rw [harg i hi]
    exact (stackImage_arg room small hi).2 j hj
  · -- from the frame to the last string everything is in order
    rw [regions, harray, List.pairwise_cons, List.pairwise_cons]
    refine ⟨?_, ?_, ?_⟩
    · rw [List.forall_mem_cons]
      refine ⟨.inl ?_, fun r hr => .inl ?_⟩
      · unfold Span.stop
        dsimp only
        omega
      · obtain ⟨i, hi, rfl⟩ := List.mem_mapIdx.mp hr
        have := hdrop i
        rw [harg i hi]
        unfold Span.stop
        dsimp only
        omega
    · intro r hr
      obtain ⟨i, hi, rfl⟩ := List.mem_mapIdx.mp hr
      have := hdrop i
      rw [harg i hi]
      refine .inl ?_
      unfold Span.stop
      dsimp only
      omega
    · rw [List.pairwise_iff_getElem]
      intro i j hi hj hlt
      rw [List.length_mapIdx] at hi hj
      have hnext := strSize_drop hi
      have hle : strSize (args.drop j) ≤ strSize (args.drop (i + 1)) := strSize_drop_le hlt
      have := hdrop i
      rw [List.getElem_mapIdx, List.getElem_mapIdx, harg i hi, harg j hj]
      refine .inl ?_
      unfold Span.stop
      dsimp only
      omega
  · rw [regions, harray, List.forall_mem_cons, List.forall_mem_cons]
    refine ⟨?_, ?_, fun r hr => ?_⟩
    · unfold Span.stop
      dsimp only
      omega
    · unfold Span.stop
      dsimp only
      omega
    · obtain ⟨i, hi, rfl⟩ := List.mem_mapIdx.mp hr
      have hnext := strSize_drop hi
      have := hdrop i
      rw [harg i hi]
      unfold Span.stop
      dsimp only
      omega
  · have hlen : 4 ∣ arglen args := Dvd.intro_left _ rfl
    rw [harray]
    omega

end Delivered

end Task

end Xv6
