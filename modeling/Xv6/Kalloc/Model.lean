/-
# The page allocator

`kinit`, `kfree` and `kalloc` of `kalloc.c`. The free list lives in the free memory
itself: every run starts with a `struct run`, the pointer to the next run followed by the
length in bytes. Both functions hold `kalloc_lock` from the first look at the list to the
last, so calls happen one after another.
-/

import Xv6.Math.ByteMem
import Xv6.Math.Exec

namespace Xv6

open Math

/-- Granularity of user-space memory allocation. -/
def PAGE : Nat := 4096

theorem PAGE_pos : 0 < PAGE := by decide

/-- Why the allocator does not return. -/
inductive Halt where
  /-- `panic(msg)`. -/
  | panic (msg : String)
  /-- The free list has no end. -/
  | diverge
  deriving DecidableEq, Repr

/-- A 32-bit word read as an `int`. -/
def int32 (w : Nat) : Int := if w < 2 ^ 31 then w else (w : Int) - 2 ^ 32

/-- An integer as a 32-bit word. -/
def word32 (i : Int) : Nat := (i % 2 ^ 32).toNat

/-- The memory and the variable `freelist`; the null pointer is 0. -/
structure Kmem where
  mem : ByteMem
  freelist : Nat

/-- A `struct run **`: the address of `freelist`, or of the field `next` of a run. -/
inductive RunRef where
  | freelist
  | next (r : Nat)

namespace Kmem

/-- `r->next`. -/
def next (s : Kmem) (r : Nat) : Nat := s.mem.load32 r

/-- `r->len`. -/
def len (s : Kmem) (r : Nat) : Int := int32 (s.mem.load32 (r + 4))

/-- `r->next = p`. -/
def setNext (s : Kmem) (r p : Nat) : Kmem := { s with mem := s.mem.store32 r p }

/-- `r->len = n`. -/
def setLen (s : Kmem) (r : Nat) (n : Int) : Kmem :=
  { s with mem := s.mem.store32 (r + 4) (word32 n) }

/-- `*rp`. -/
def deref (s : Kmem) : RunRef → Nat
  | .freelist => s.freelist
  | .next r => s.next r

/-- `*rp = p`. -/
def assign (s : Kmem) (rp : RunRef) (p : Nat) : Kmem :=
  match rp with
  | .freelist => { s with freelist := p }
  | .next r => s.setNext r p

end Kmem

/-- Code of the allocator. -/
abbrev KmemM := EStateM Halt Kmem

/-- More rounds than a sorted list of page-sized runs in a 32-bit address space takes. -/
def maxRuns : Nat := 2 ^ 20 + 1

/-- Merge the run `r`, which ends at `pend`, with the next one if that starts there. -/
def mergeNext (r pend : Nat) : KmemM Unit := do
  let s ← get
  if s.next r ≠ 0 ∧ s.next r = pend then
    modify fun s => s.setLen r (s.len r + s.len (s.next r))
    modify fun s => s.setNext r (s.next (s.next r))
  else pure ()

/-- The loop of `kfree` for the range from `p` to `pend`, with what follows it. -/
def kfreeLoop (p : Nat) (len : Int) (pend : Nat) : Nat → RunRef → KmemM Unit
  | 0, _ => throw .diverge
  | fuel + 1, rp => do
    let s ← get
    let r := s.deref rp
    if r ≠ 0 ∧ r ≤ pend then
      let rend := word32 (r + s.len r)
      if r ≤ p ∧ p < rend then throw (.panic "freeing free page")
      else if pend = r then
        -- p next to r: replace r with p
        modify fun s => s.setLen p (len + s.len r)
        modify fun s => s.setNext p (s.next r)
        modify fun s => s.assign rp p
      else if rend = p then
        -- r next to p: replace p with r
        modify fun s => s.setLen r (s.len r + len)
        mergeNext r pend
      else kfreeLoop p len pend fuel (.next r)
    else
      -- insert p before r in list
      modify fun s => s.setLen p len
      modify fun s => s.setNext p r
      modify fun s => s.assign rp p

/-- `kfree`: free the `len` bytes of memory pointed at by `v`. -/
def kfree (v : Nat) (len : Int) : KmemM Unit := do
  if len ≤ 0 ∨ len.tmod PAGE ≠ 0 then throw (.panic "kfree")
  else
    -- fill with junk to catch dangling refs
    modify fun s => { s with mem := s.mem.memset v len.toNat 1 }
    kfreeLoop v len (word32 (v + len)) maxRuns .freelist

/-- The loop of `kalloc`. -/
def kallocLoop (n : Int) : Nat → RunRef → KmemM Nat
  | 0, _ => throw .diverge
  | fuel + 1, rp => do
    let s ← get
    let r := s.deref rp
    if r ≠ 0 then
      if s.len r = n then
        modify fun s => s.assign rp (s.next r)
        pure r
      else if s.len r > n then
        modify fun s => s.setLen r (s.len r - n)
        let s ← get
        pure (word32 (r + s.len r))
      else kallocLoop n fuel (.next r)
    else pure 0

/-- `kalloc`: a pointer to `n` bytes, or 0 if the memory cannot be allocated. -/
def kalloc (n : Int) : KmemM Nat := do
  if n.tmod PAGE ≠ 0 ∨ n ≤ 0 then throw (.panic "kalloc")
  else kallocLoop n maxRuns .freelist

/-- The first page behind the kernel image, which ends at `kend`. -/
def kstart (kend : Nat) : Nat := (kend + PAGE) / PAGE * PAGE

/-- `kinit`: the 256 pages behind the kernel are free. -/
def kinit (kend : Nat) : KmemM Unit := kfree (kstart kend) (256 * PAGE)

end Xv6
