/-
# The block tree of an inode

An inode names its blocks directly, through one block of addresses of second-level blocks,
and through those. This file reads the tree off an inode and the blocks of its device, and
says how it changes when one address is filled in.
-/

import Xv6.Fs.Layout

namespace Xv6

/-- A place in the block tree. -/
inductive Pos where
  /-- A direct block. -/
  | direct (k : Nat)
  /-- The double-indirect block. -/
  | root
  /-- A second-level block. -/
  | second (j : Nat)
  /-- A data block behind a second-level block. -/
  | data (j k : Nat)
  deriving DecidableEq, Repr

namespace Pos

/-- The block at this place holds addresses. -/
def IsTable : Pos → Prop
  | root => True
  | second _ => True
  | _ => False

/-- The place that entry `i` of a block of addresses leads to. -/
def child : Pos → Nat → Pos
  | root, i => second i
  | second j, i => data j i
  | p, _ => p

/-- The place of the `bn`-th block of a file. -/
def ofBlock (bn : Nat) : Pos :=
  if bn < NDIRECT then direct bn
  else data ((bn - NDIRECT) / NADDRBLOCK) ((bn - NDIRECT) % NADDRBLOCK)

theorem ofBlock_not_table (bn : Nat) : ¬ (ofBlock bn).IsTable := by
  rw [ofBlock]
  split <;> exact id

/-- Different blocks of a file have different places. -/
theorem ofBlock_injective : Function.Injective ofBlock := by
  intro a b h
  have hdiv (x : Nat) : x = x / NADDRBLOCK * NADDRBLOCK + x % NADDRBLOCK := by
    rw [Nat.mul_comm, Nat.div_add_mod]
  unfold ofBlock at h
  split at h <;> split at h
  · exact direct.inj h
  · cases h
  · cases h
  · next ha hb =>
    obtain ⟨hq, hr⟩ := data.inj h
    have hsub : a - NDIRECT = b - NDIRECT := by
      rw [hdiv (a - NDIRECT), hq, hr, ← hdiv]
    omega

end Pos

/-- Entry `i` of the block of addresses at `b`; there is none if `b` is 0. -/
def entry (disk : Nat → Block) (b i : Nat) : Nat := if b = 0 then 0 else ((disk b).addr i).toNat

/-- The place that an element of `addrs` stands for. -/
def addrsPos (k : Fin NADDRS) : Pos := if k.val < NDIRECT then .direct k else .root

theorem addrs_index_cases (k : Fin NADDRS) : k.val < NDIRECT ∨ k = rootIndex := by
  have hk : k.val < 13 := k.isLt
  have hroot : rootIndex.val = 12 := rfl
  rcases Nat.lt_or_ge k.val NDIRECT with h | h
  · exact Or.inl h
  · unfold NDIRECT at h
    exact Or.inr (Fin.ext (by omega))

theorem ne_rootIndex {k : Fin NADDRS} (h : k.val < NDIRECT) : k ≠ rootIndex := by
  rintro rfl
  exact absurd h (by decide)

namespace Dinode

variable (n : Dinode) (disk : Nat → Block)

/-- The address at a place of the tree, 0 if there is none. -/
def addrAt : Pos → Nat
  | .direct k => if h : k < NDIRECT then (n.addrs ⟨k, Nat.lt_succ_of_lt h⟩).toNat else 0
  | .root => (n.addrs rootIndex).toNat
  | .second j => entry disk (n.addrs rootIndex).toNat j
  | .data j k => entry disk (entry disk (n.addrs rootIndex).toNat j) k

/-- The byte at offset `o`; a block that is missing reads as zeros. -/
def fileByte (o : Nat) : UInt8 :=
  if n.addrAt disk (.ofBlock (o / BSIZE)) = 0 then 0
  else (disk (n.addrAt disk (.ofBlock (o / BSIZE)))).byte (o % BSIZE)

/-- Fill in one element of `addrs`. -/
def setAddr (k : Fin NADDRS) (b : UInt32) : Dinode :=
  { n with addrs := Function.update n.addrs k b }

variable {n disk} {disk' : Nat → Block}

@[simp] theorem setAddr_self (k : Fin NADDRS) (b : UInt32) : (n.setAddr k b).addrs k = b :=
  Function.update_self (f := n.addrs) ..

theorem setAddr_of_ne {k l : Fin NADDRS} (h : l ≠ k) (b : UInt32) :
    (n.setAddr k b).addrs l = n.addrs l := Function.update_of_ne (f := n.addrs) h ..

theorem addrAt_addrsPos (k : Fin NADDRS) : n.addrAt disk (addrsPos k) = (n.addrs k).toNat := by
  rcases addrs_index_cases k with h | rfl
  · rw [addrsPos, if_pos h]
    exact dif_pos h
  · rfl

theorem addrAt_child {q : Pos} (table : q.IsTable) (i : Nat) :
    n.addrAt disk (q.child i) = entry disk (n.addrAt disk q) i := by
  cases q with
  | direct _ | data _ _ => cases table
  | root => rfl
  | second j => rfl

/-- The tree depends on the blocks of addresses only. -/
theorem addrAt_congr
    (same : ∀ q : Pos, q.IsTable → n.addrAt disk q ≠ 0 →
      disk' (n.addrAt disk q) = disk (n.addrAt disk q)) (p : Pos) :
    n.addrAt disk' p = n.addrAt disk p := by
  have hentry (q : Pos) (hq : q.IsTable) (i : Nat) :
      entry disk' (n.addrAt disk q) i = entry disk (n.addrAt disk q) i := by
    unfold entry
    split
    · rfl
    next h => rw [same q hq h]
  cases p with
  | direct k => rfl
  | root => rfl
  | second j => exact hentry .root trivial j
  | data j k =>
    have hroot : n.addrAt disk' (.second j) = n.addrAt disk (.second j) := hentry .root trivial j
    have hleft : n.addrAt disk' (.data j k) = entry disk' (n.addrAt disk' (.second j)) k := rfl
    rw [hleft, hroot]
    exact hentry (.second j) trivial k

/-- The tree depends on `addrs` only. -/
theorem addrAt_of_addrs {m : Dinode} (same : n.addrs = m.addrs) (p : Pos) :
    n.addrAt disk p = m.addrAt disk p := by
  cases p <;> simp only [addrAt, same]

theorem fileByte_of_addrs {m : Dinode} (same : n.addrs = m.addrs) (o : Nat) :
    n.fileByte disk o = m.fileByte disk o := by
  rw [fileByte, fileByte, addrAt_of_addrs same]

/-- An inode without addresses has no blocks. -/
theorem addrAt_of_empty (empty : ∀ k, n.addrs k = 0) (p : Pos) : n.addrAt disk p = 0 := by
  cases p <;> simp [addrAt, entry, empty]

/-- What is read depends on the blocks of the tree only. -/
theorem fileByte_congr
    (same : ∀ q : Pos, n.addrAt disk q ≠ 0 → disk' (n.addrAt disk q) = disk (n.addrAt disk q))
    (o : Nat) : n.fileByte disk' o = n.fileByte disk o := by
  unfold fileByte
  rw [addrAt_congr fun q _ => same q]
  split
  · rfl
  next h => rw [same _ h]

/-! ### Filling in an address -/

section Attach

variable {b : UInt32}

/-- A new block of zeros hung into `addrs` shows up at one place only: as a block of
addresses it is empty. -/
theorem addrAt_setAddr {k : Fin NADDRS} (absent : n.addrs k = 0)
    (zero : disk b.toNat = Block.zero) (p : Pos) :
    (n.setAddr k b).addrAt disk p = if p = addrsPos k then b.toNat else n.addrAt disk p := by
  have hempty (i : Nat) : entry disk b.toNat i = 0 := by
    unfold entry
    split
    · rfl
    · rw [zero, Block.addr_zero]
      rfl
  have hnone (i : Nat) : entry disk 0 i = 0 := rfl
  rcases addrs_index_cases k with hlt | rfl
  · have hpos : addrsPos k = .direct k := if_pos hlt
    have hroot : (n.setAddr k b).addrs rootIndex = n.addrs rootIndex :=
      setAddr_of_ne (ne_rootIndex hlt).symm b
    rw [hpos]
    cases p with
    | direct j =>
      by_cases hj : j = k.val
      · subst hj
        rw [if_pos rfl, addrAt, dif_pos hlt, setAddr_self]
      · rw [if_neg fun h => hj (Pos.direct.inj h), addrAt, addrAt]
        split
        next => rw [setAddr_of_ne fun h' => hj (congrArg Fin.val h')]
        next => rfl
    | root | second _ | data _ _ => rw [if_neg nofun, addrAt, addrAt, hroot]
  · have hpos : addrsPos rootIndex = .root := rfl
    have hold : (n.addrs rootIndex).toNat = 0 := by
      rw [absent]
      rfl
    rw [hpos]
    cases p with
    | direct j =>
      rw [if_neg nofun, addrAt, addrAt]
      split
      next hj => rw [setAddr_of_ne (ne_rootIndex hj)]
      next => rfl
    | root => rw [if_pos rfl, addrAt, setAddr_self]
    | second j => rw [if_neg nofun, addrAt, addrAt, setAddr_self, hold, hempty, hnone]
    | data j i =>
      rw [if_neg nofun, addrAt, addrAt, setAddr_self, hold, hempty, hnone, hnone]
      exact hnone i

/-- A new block of zeros entered into a block of addresses shows up at one place only. -/
theorem addrAt_setEntry {q : Pos} {i : Nat} (table : q.IsTable) (inside : i < NADDRBLOCK)
    (present : n.addrAt disk q ≠ 0) (absent : (disk (n.addrAt disk q)).addr i = 0)
    (once : ∀ p : Pos, p.IsTable → n.addrAt disk p = n.addrAt disk q → p = q)
    (zero : disk b.toNat = Block.zero) (new : ∀ p : Pos, n.addrAt disk p ≠ b.toNat) (p : Pos) :
    n.addrAt (Function.update disk (n.addrAt disk q)
        ((disk (n.addrAt disk q)).setAddr i b)) p =
      if p = q.child i then b.toNat else n.addrAt disk p := by
  set t := n.addrAt disk q with ht
  set disk' := Function.update disk t ((disk t).setAddr i b) with hdisk
  have hsame (a : Nat) (h : a ≠ t) : disk' a = disk a := Function.update_of_ne h ..
  have hself : disk' t = (disk t).setAddr i b := Function.update_self ..
  have hnew : disk' b.toNat = Block.zero := by
    rw [hsame _ fun h => new q (ht.symm.trans h.symm), zero]
  -- the entries of a block of addresses of the tree
  have hentry (p : Pos) (hp : p.IsTable) (j : Nat) (hne : p ≠ q) :
      entry disk' (n.addrAt disk p) j = entry disk (n.addrAt disk p) j := by
    unfold entry
    rw [hsame _ fun h => hne (once p hp h)]
  have hentry' (j : Nat) : entry disk' t j = if j = i then b.toNat else entry disk t j := by
    unfold entry
    rw [if_neg present, if_neg present, hself]
    split
    next h => rw [h, Block.addr_setAddr_self _ inside]
    next h => rw [Block.addr_setAddr_ne _ h]
  have hempty (j : Nat) : entry disk' b.toNat j = 0 := by
    unfold entry
    split
    · rfl
    · rw [hnew, Block.addr_zero]
      rfl
  have hnone : entry disk t i = 0 := by
    rw [entry, if_neg present, absent]
    rfl
  have hsecond (j : Nat) : n.addrAt disk' (.second j) = entry disk' (n.addrAt disk .root) j := rfl
  have hdata (j k : Nat) : n.addrAt disk' (.data j k) =
      entry disk' (n.addrAt disk' (.second j)) k := rfl
  cases q with
  | direct _ | data _ _ => cases table
  | root =>
    -- entry `i` of the root: the new second-level block, which is empty
    have hsecond' (j : Nat) : n.addrAt disk' (.second j) =
        if j = i then b.toNat else n.addrAt disk (.second j) := by
      rw [hsecond, ← ht, hentry' j, ht]
      rfl
    cases p with
    | direct _ | root => rw [if_neg nofun]; rfl
    | second j =>
      rw [hsecond']
      simp only [Pos.child, Pos.second.injEq]
    | data j k =>
      rw [if_neg nofun, hdata, hsecond']
      split
      next h =>
        have hold : n.addrAt disk (.second j) = 0 := by
          rw [h]
          exact hnone
        have hleft : n.addrAt disk (.data j k) = entry disk (n.addrAt disk (.second j)) k := rfl
        rw [hempty, hleft, hold]
        rfl
      next => exact hentry (.second j) trivial k nofun
  | second l =>
    -- entry `i` of a second-level block: a new data block
    have hsecond' (j : Nat) : n.addrAt disk' (.second j) = n.addrAt disk (.second j) :=
      hentry .root trivial j nofun
    cases p with
    | direct _ | root => rw [if_neg nofun]; rfl
    | second j => rw [if_neg nofun, hsecond']
    | data j k =>
      rw [hdata, hsecond']
      by_cases hj : j = l
      · subst hj
        rw [← ht, hentry' k]
        simp only [Pos.child, Pos.data.injEq, true_and]
        rfl
      · have hne : Pos.data j k ≠ (Pos.second l).child i := fun h => hj (Pos.data.inj h).1
        rw [if_neg hne]
        exact hentry (.second j) trivial k fun h => hj (Pos.second.inj h)

end Attach

end Dinode

end Xv6
