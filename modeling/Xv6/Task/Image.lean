/-
# Blocks from the page allocator

Between `kalloc` and `kfree` a block belongs to its owner: stores into it leave the free list and
all other blocks as they are.
-/

import Xv6.Task.Model

namespace Xv6

open Math

variable {pool : Pool} {rs : List Span}

/-- A free list only depends on the bytes of its runs. -/
theorem Kmem.FreeList.congr {s t : Kmem} (free : s.FreeList pool rs)
    (head : t.freelist = s.freelist) (same : ∀ x ∈ s.freeBytes, t.mem x = s.mem x) :
    t.FreeList pool rs := by
  rw [free.freeBytes_eq] at same
  refine ⟨?_, free.separated, free.holds⟩
  rw [head]
  exact free.linked.congr (fun r hr => (free.holds r hr).header) same

/-- A block that was taken from a free list is in the pool, apart from what is left. -/
structure Kmem.Took (pool : Pool) (s t : Kmem) (rest : List Span) (block : Span) : Prop where
  holds : pool.Holds block
  was : block.bytes ⊆ s.freeBytes
  left : t.FreeList pool rest
  gone : t.freeBytes = s.freeBytes \ block.bytes
  same : ∀ x, x ∉ s.freeBytes → t.mem x = s.mem x

/-- What `kalloc` of a number of pages does. -/
theorem Kmem.FreeList.kalloc_took {s : Kmem} {n : Nat}
    (free : s.FreeList pool rs) (positive : 0 < n) (pages : PAGE ∣ n) :
    ((¬ ∃ x, Set.Ico x (x + n) ⊆ s.freeBytes) ∧ (Xv6.kalloc n).run s = .ok 0 s) ∨
      ∃ a rest t, a ≠ 0 ∧ takeFirst n rs = some (a, rest) ∧ (Xv6.kalloc n).run s = .ok a t ∧
        Kmem.Took pool s t rest ⟨a, n⟩ := by
  rcases free.kalloc_frame positive pages with
    ⟨hnone, hrun⟩ | ⟨a, rest, t, htaken, hrun, hrest, hsame⟩
  · refine .inl ⟨?_, hrun⟩
    rintro ⟨x, hx⟩
    rw [free.freeBytes_eq] at hx
    obtain ⟨r, hr, hstart, hstop⟩ := free.separated.exists_span positive hx
    have hshort := takeFirst_eq_none.mp hnone r hr
    unfold Span.stop at hstop
    omega
  · obtain ⟨hsub, hleft⟩ := spanBytes_takeFirst free.separated htaken
    obtain ⟨r, hr, hstart, hstop⟩ := takeFirst_mem htaken
    have hheld := free.holds r hr
    refine .inr ⟨a, rest, t, (free.kfree_taken positive pages htaken hrest).1, htaken, hrun,
      ⟨pages, positive, hheld.lower.trans hstart, hstop.le.trans hheld.upper⟩, ?_, hrest, ?_, hsame⟩
    · rwa [free.freeBytes_eq]
    · rw [free.freeBytes_eq, hrest.freeBytes_eq, hleft]

section Took

variable {pool : Pool} {s t : Kmem} {rest : List Span} {block : Span}

theorem Kmem.Took.apart (took : Kmem.Took pool s t rest block) :
    Disjoint block.bytes t.freeBytes := by
  rw [took.gone]
  exact Set.disjoint_sdiff_right

/-- A block that was in use before is apart from the new one. -/
theorem Kmem.Took.disjoint (took : Kmem.Took pool s t rest block) {bytes : Set Nat}
    (taken : Disjoint bytes s.freeBytes) :
    Disjoint bytes block.bytes ∧ Disjoint bytes t.freeBytes := by
  refine ⟨taken.mono_right took.was, taken.mono_right ?_⟩
  rw [took.gone]
  exact Set.sdiff_subset

end Took

namespace Task

variable {s : Task} {block : Span} {a n : Nat} {src : Nat → UInt8}

/-- The state of a process that owns its image. -/
structure Ready (s : Task) (pool : Pool) (rs : List Span) : Prop where
  free : s.kmem.FreeList pool rs
  image : pool.Holds ⟨s.mem, s.sz⟩
  taken : Disjoint (⟨s.mem, s.sz⟩ : Span).bytes s.kmem.freeBytes

theorem Ready.sz_lt (ready : s.Ready pool rs) : s.sz < 2 ^ 31 := by
  have hlower := ready.image.lower
  have hupper := ready.image.upper
  have hsmall := pool.small
  unfold Span.stop at hupper
  simp only at hlower hupper
  omega

variable {α : Type}

theorem onKmem_run_of_ok {x : KmemM α} {r : α} {u : Kmem}
    (run : x.run s.kmem = .ok r u) : (onKmem x).run s = .ok r { s with kmem := u } :=
  zoom_run_of_ok run

theorem onKmem_run_of_error {x : KmemM α} {e : Halt} {u : Kmem}
    (run : x.run s.kmem = .error e u) : (onKmem x).run s = .error (.kmem e) { s with kmem := u } :=
  zoom_run_of_error run

theorem onFs_run_of_ok {x : FsM α} {r : α} {u : Fs}
    (run : x.run s.fs = .ok r u) : (onFs x).run s = .ok r { s with fs := u } :=
  zoom_run_of_ok run

theorem onFs_run_of_error {x : FsM α} {e : FsStop} {u : Fs}
    (run : x.run s.fs = .error e u) : (onFs x).run s = .error (.fs e) { s with fs := u } :=
  zoom_run_of_error run

/-! ### Stores -/

theorem store_run (s : Task) (block : Span) (a n : Nat) (src : Nat → UInt8) :
    (store block a n src).run s = .ok () (s.stored block a n src) := rfl

theorem memmove_run (s : Task) (block : Span) (dst src n : Nat) :
    (memmove block dst src n).run s =
      .ok () (s.stored block dst n fun i => s.bytes ((src + i) % 2 ^ 32)) := rfl

/-- A store changes the bytes that it stores to. -/
theorem stored_of_not_mem {x : Nat} (out : x ∉ wrapped (a % 2 ^ 32) n) :
    (s.stored block a n src).bytes x = s.bytes x :=
  ByteMem.blit_of_not_mem (Nat.mod_lt _ (by decide)) out

/-- A store at an offset of a block. -/
theorem stored_of_mem {o x : Nat} (fits : block.start + o + n ≤ 2 ^ 32)
    (lower : block.start + o ≤ x) (upper : x < block.start + o + n) :
    (s.stored block (block.start + o) n src).bytes x = src (x - (block.start + o)) := by
  have hmod : (block.start + o) % 2 ^ 32 = block.start + o := Nat.mod_eq_of_lt (by omega)
  change s.kmem.mem.blit ((block.start + o) % 2 ^ 32) n src x = _
  rw [hmod]
  exact ByteMem.blit_of_mem fits lower upper

/-- A store at an offset of a block stays inside exactly if it ends in the block. -/
theorem inside_iff {o : Nat} (top : block.start + block.len < 2 ^ 32) :
    Store.Inside ⟨block, (block.start + o) % 2 ^ 32, n⟩ ↔ n = 0 ∨ o % 2 ^ 32 + n ≤ block.len := by
  change wrapped ((block.start + o) % 2 ^ 32) n ⊆ block.bytes ↔ _
  constructor
  · intro hinside
    by_contra hout
    rw [not_or] at hout
    -- the byte at the end of the block, or the first one if that is behind the end
    have hbyte := hinside ⟨block.len - o % 2 ^ 32, by omega, rfl⟩
    rw [Span.mem_bytes] at hbyte
    omega
  · rintro (rfl | hfits)
    · rintro x ⟨i, hi, -⟩
      cases hi
    · rintro x ⟨i, hi, rfl⟩
      rw [Span.mem_bytes]
      omega

/-- A store inside of a block that was taken changes neither the free list nor what was in use
before. -/
theorem took_stored {k : Kmem} {rest : List Span}
    (took : Kmem.Took pool k s.kmem rest block) (inside : Store.Inside ⟨block, a % 2 ^ 32, n⟩) :
    Kmem.Took pool k (s.stored block a n src).kmem rest block := by
  have hleft : (s.stored block a n src).kmem.FreeList pool rest := by
    refine took.left.congr rfl fun x hx => ?_
    exact stored_of_not_mem fun h => Set.disjoint_left.mp took.apart (inside h) hx
  refine ⟨took.holds, took.was, hleft, ?_, fun x hx => ?_⟩
  · rw [hleft.freeBytes_eq, ← took.left.freeBytes_eq]
    exact took.gone
  · rw [← took.same x hx]
    exact stored_of_not_mem fun h => hx (took.was (inside h))

/-! ### The stores of a run -/

/-- From `s` to `t` all stores went into their blocks. -/
def StoresInside (s t : Task) : Prop :=
  ∃ stores, t.stores = stores ++ s.stores ∧ ∀ w ∈ stores, w.Inside

variable {t u : Task}

theorem StoresInside.of_eq (same : t.stores = s.stores) : s.StoresInside t :=
  ⟨[], same, nofun⟩

/-- A run is split at a state on its way. -/
theorem storesInside_split (first : s.stores <:+ t.stores) (second : t.stores <:+ u.stores) :
    s.StoresInside u ↔ s.StoresInside t ∧ t.StoresInside u := by
  obtain ⟨ws, hws⟩ := first
  obtain ⟨vs, hvs⟩ := second
  constructor
  · rintro ⟨stores, hstores, hinside⟩
    have hsplit : stores = vs ++ ws := by
      have hlog : stores ++ s.stores = (vs ++ ws) ++ s.stores := by
        rw [← hstores, ← hvs, ← hws, List.append_assoc]
      exact List.append_cancel_right hlog
    rw [hsplit] at hinside
    exact ⟨⟨ws, hws.symm, fun w hw => hinside w (List.mem_append_right _ hw)⟩,
      ⟨vs, hvs.symm, fun w hw => hinside w (List.mem_append_left _ hw)⟩⟩
  · rintro ⟨⟨ws, hws, hin⟩, ⟨vs, hvs, hin'⟩⟩
    refine ⟨vs ++ ws, by rw [hvs, hws, List.append_assoc], fun w hw => ?_⟩
    rcases List.mem_append.mp hw with h | h
    · exact hin' w h
    · exact hin w h

theorem suffix_stored : s.stores <:+ (s.stored block a n src).stores := List.suffix_cons _ _

theorem storesInside_stored :
    s.StoresInside (s.stored block a n src) ↔ Store.Inside ⟨block, a % 2 ^ 32, n⟩ := by
  constructor
  · rintro ⟨stores, hstores, hinside⟩
    obtain rfl : stores = [⟨block, a % 2 ^ 32, n⟩] :=
      List.append_cancel_right (hstores.symm.trans rfl)
    exact hinside _ List.mem_cons_self
  · intro hinside
    refine ⟨[_], rfl, fun w hw => ?_⟩
    obtain rfl := List.mem_singleton.mp hw
    exact hinside

/-- Code that only adds to the list of stores. -/
def Appends {α : Type} (x : TaskM α) : Prop := ∀ s a t, x.run s = .ok a t → s.stores <:+ t.stores

namespace Appends

variable {α β : Type}

theorem pure (a : α) : Appends (pure a : TaskM α) := by
  rintro s _ _ ⟨⟩
  exact List.suffix_rfl

theorem modify {g : Task → Task} (adds : ∀ s, s.stores <:+ (g s).stores) :
    Appends (modify g) := by
  rintro s _ _ ⟨⟩
  exact adds s

theorem bind {x : TaskM α} {f : α → TaskM β} (first : Appends x) (rest : ∀ a, Appends (f a)) :
    Appends (x >>= f) := by
  intro s b u hrun
  obtain ⟨a, t, hx, hf⟩ := run_bind_eq_ok_iff.mp hrun
  exact (first s a t hx).trans (rest a t b u hf)

theorem ite {c : Prop} [Decidable c] {x y : TaskM α} (hx : Appends x) (hy : Appends y) :
    Appends (if c then x else y) := by
  split
  · exact hx
  · exact hy

theorem get : Appends get := by
  rintro s _ _ ⟨⟩
  exact List.suffix_rfl

theorem onFs (x : FsM α) : Appends (onFs x) := by
  intro s a t hrun
  obtain ⟨f, -, rfl⟩ := zoom_run_eq_ok hrun
  exact List.suffix_rfl

theorem onKmem (x : KmemM α) : Appends (onKmem x) := by
  intro s a t hrun
  obtain ⟨k, -, rfl⟩ := zoom_run_eq_ok hrun
  exact List.suffix_rfl

theorem store (block : Span) (a n : Nat) (src : Nat → UInt8) : Appends (store block a n src) :=
  modify fun _ => suffix_stored

end Appends

end Task

end Xv6
