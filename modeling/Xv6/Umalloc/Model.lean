/-
# The user-level allocator

`malloc`, `free` and `morecore` of umalloc.c. The free list is circular: every free block
starts with a `Header`, the pointer to the next free block followed by the size in units of
`sizeof(Header)`, and the static header `base` of size 0 is one of its nodes. Pointers are
32-bit addresses.

`sbrk(n)` is taken by its contract: it returns the old end of the memory, which then grows by
`n` bytes, or -1. Which calls are granted is an arbitrary sequence of answers. The sizes that were
asked for are remembered.
-/

import Xv6.Kalloc.Model

namespace Xv6

open Math

namespace Umalloc

/-- `sizeof(Header)`. -/
def HEADER : Nat := 8

/-- The memory of a process, the variable `freep`, the end of the memory, and the sizes that
`sbrk` was called with so far, the last one first. -/
structure Heap where
  mem : ByteMem
  freep : Nat
  brk : Nat
  sbrks : List Nat

/-- A search that does not end. -/
inductive Diverges where
  | diverges
  deriving DecidableEq, Repr

abbrev HeapM := EStateM Diverges Heap

namespace Heap

/-- `p->s.ptr`. -/
def ptr (s : Heap) (p : Nat) : Nat := s.mem.load32 p

/-- `p->s.size`. -/
def size (s : Heap) (p : Nat) : Nat := s.mem.load32 (p + 4)

/-- `p->s.ptr = q`. -/
def setPtr (s : Heap) (p q : Nat) : Heap := { s with mem := s.mem.store32 p q }

/-- `p->s.size = n`. -/
def setSize (s : Heap) (p n : Nat) : Heap := { s with mem := s.mem.store32 (p + 4) (n % 2 ^ 32) }

end Heap

/-- `p + n`, for a `Header *p`. -/
def advance (p n : Nat) : Nat := (p + n * HEADER) % 2 ^ 32

/-- More rounds than two walks along blocks of a unit or more in a 32-bit address space. -/
def maxRounds : Nat := 2 ^ 31

/-- The `for` loop of `free`. -/
def findPrev (bp : Nat) : Nat → Nat → HeapM Nat
  | 0, _ => throw .diverges
  | fuel + 1, p => do
    let s ← get
    if bp > p ∧ bp < s.ptr p then pure p
    else if p ≥ s.ptr p ∧ (bp > p ∨ bp < s.ptr p) then pure p
    else findPrev bp fuel (s.ptr p)

/-- Make the block `n` the successor of the block `h`, as one block if they touch. -/
def attach (h n : Nat) : HeapM Unit := do
  let s ← get
  if advance h (s.size h) = n then
    modify fun s => s.setSize h (s.size h + s.size n)
    modify fun s => s.setPtr h (s.ptr n)
  else modify fun s => s.setPtr h n

def free (ap : Nat) : HeapM Unit := do
  let bp := (ap + 2 ^ 32 - HEADER) % 2 ^ 32
  let s ← get
  let p ← findPrev bp maxRounds s.freep
  let s ← get
  attach bp (s.ptr p)
  attach p bp
  modify fun s => { s with freep := p }

section Malloc

variable (base : Nat) (grants : Nat → Bool)

/-- `sbrk(n)`; -1 is the address `2 ^ 32 - 1`. -/
def sbrk (n : Nat) : HeapM Nat := do
  let s ← get
  if grants s.sbrks.length = true ∧ n < 2 ^ 31 ∧ s.brk + n < 2 ^ 32 then
    set { s with brk := s.brk + n, sbrks := n :: s.sbrks }
    pure s.brk
  else
    set { s with sbrks := n :: s.sbrks }
    pure (2 ^ 32 - 1)

def morecore (nu : Nat) : HeapM Nat := do
  let nu := if nu < PAGE then PAGE else nu
  let p ← sbrk grants (nu * HEADER % 2 ^ 32)
  if p = 2 ^ 32 - 1 then pure 0
  else
    modify fun s => s.setSize p nu
    free (advance p 1)
    let s ← get
    pure s.freep

/-- The `for` loop of `malloc`. -/
def mallocLoop (nunits : Nat) : Nat → Nat → Nat → HeapM Nat
  | 0, _, _ => throw .diverges
  | fuel + 1, prevp, p => do
    let s ← get
    if s.size p ≥ nunits then
      if s.size p = nunits then
        modify fun s => { s.setPtr prevp (s.ptr p) with freep := prevp }
        pure (advance p 1)
      else
        modify fun s => s.setSize p (s.size p - nunits)
        let s ← get
        let q := advance p (s.size p)
        modify fun s => { s.setSize q nunits with freep := prevp }
        pure (advance q 1)
    else if p = s.freep then
      let p ← morecore grants nunits
      if p = 0 then pure 0
      else
        let s ← get
        mallocLoop nunits fuel p (s.ptr p)
    else mallocLoop nunits fuel p (s.ptr p)

/-- The number of units for `nbytes` bytes and a header. -/
def unitsFor (nbytes : Nat) : Nat := (nbytes + HEADER - 1) % 2 ^ 32 / HEADER + 1

def malloc (nbytes : Nat) : HeapM Nat := do
  let s ← get
  if s.freep = 0 then
    modify fun s => { (s.setPtr base base).setSize base 0 with freep := base }
  else pure ()
  let s ← get
  mallocLoop grants (unitsFor nbytes) maxRounds s.freep (s.ptr s.freep)

end Malloc

end Umalloc

end Xv6
