/-
# The blocks of an image

Blocks are handed out one after the other and never given back. So the block trees of the
inodes fill the blocks from the first one for files up to the first free one, no block is
reached twice, and the blocks from there on are zero.
-/

import Xv6.Fs.Tree

namespace Xv6

/-- The block trees of the inodes `node` lie between `first` and `free` and do not overlap; the
blocks behind them are zero. -/
structure Forest (first free : Nat) (node : Nat → Dinode) (disk : Nat → Block) : Prop where
  inside : ∀ i p, (node i).addrAt disk p ≠ 0 →
    first ≤ (node i).addrAt disk p ∧ (node i).addrAt disk p < free
  once : ∀ i j p q, (node i).addrAt disk p ≠ 0 →
    (node i).addrAt disk p = (node j).addrAt disk q → i = j ∧ p = q
  zero : ∀ b, free ≤ b → disk b = Block.zero

namespace Forest

variable {first free : Nat} {node node' : Nat → Dinode} {disk disk' : Nat → Block} {i : Nat}
  {p : Pos}

/-! ### Metadata -/

theorem addrAt_of_low (forest : Forest first free node disk)
    (same : ∀ b, first ≤ b → disk' b = disk b) (j : Nat) (q : Pos) :
    (node j).addrAt disk' q = (node j).addrAt disk q :=
  Dinode.addrAt_congr (fun q _ hq => same _ (forest.inside j q hq).1) q

/-- The blocks before the first one may change. -/
theorem of_low (forest : Forest first free node disk) (le : first ≤ free)
    (same : ∀ b, first ≤ b → disk' b = disk b) : Forest first free node disk' where
  inside j q := by
    rw [forest.addrAt_of_low same]
    exact forest.inside j q
  once j k q r := by
    rw [forest.addrAt_of_low same, forest.addrAt_of_low same]
    exact forest.once j k q r
  zero b hb := (same b (le.trans hb)).trans (forest.zero b hb)

theorem fileByte_of_low (forest : Forest first free node disk)
    (same : ∀ b, first ≤ b → disk' b = disk b) (j o : Nat) :
    (node j).fileByte disk' o = (node j).fileByte disk o :=
  Dinode.fileByte_congr (fun q hq => same _ (forest.inside j q hq).1) o

/-- An inode may be replaced by an empty one. -/
theorem of_empty (forest : Forest first free node disk) {n : Dinode} (empty : ∀ k, n.addrs k = 0) :
    Forest first free (Function.update node i n) disk := by
  have hother (j : Nat) (q : Pos) (h : (Function.update node i n j).addrAt disk q ≠ 0) :
      Function.update node i n j = node j := by
    by_cases hj : j = i
    · rw [hj, Function.update_self, Dinode.addrAt_of_empty empty] at h
      exact absurd rfl h
    · exact Function.update_of_ne hj _ _
  refine ⟨fun j q h => ?_, fun j k q r h heq => ?_, forest.zero⟩
  · have hj := hother j q h
    rw [hj] at h ⊢
    exact forest.inside j q h
  · have hj := hother j q h
    have hk := hother k r (heq ▸ h)
    rw [hj] at h heq
    rw [hk] at heq
    exact forest.once j k q r h heq

/-- Only the addresses of an inode matter. -/
theorem of_addrs (forest : Forest first free node disk)
    (same : ∀ j, (node' j).addrs = (node j).addrs) :
    Forest first free node' disk where
  inside j q := by
    rw [Dinode.addrAt_of_addrs (same j)]
    exact forest.inside j q
  once j k q r := by
    rw [Dinode.addrAt_of_addrs (same j), Dinode.addrAt_of_addrs (same k)]
    exact forest.once j k q r
  zero := forest.zero

/-! ### A new block -/

/-- The next block has been hung in at a place that was empty. -/
structure Grows (free i : Nat) (p : Pos) (node : Nat → Dinode) (disk : Nat → Block)
    (node' : Nat → Dinode) (disk' : Nat → Block) : Prop where
  absent : (node i).addrAt disk p = 0
  addrAt : ∀ j q, (node' j).addrAt disk' q =
    if j = i ∧ q = p then free else (node j).addrAt disk q
  tables : ∀ b, disk' b ≠ disk b → ∃ q : Pos, q.IsTable ∧ (node i).addrAt disk q = b ∧ b ≠ 0

theorem grows (forest : Forest first free node disk) (le : first ≤ free)
    (grows : Grows free i p node disk node' disk') : Forest first (free + 1) node' disk' := by
  refine ⟨fun j q h => ?_, fun j k q r h heq => ?_, fun b hb => ?_⟩
  · rw [grows.addrAt] at h ⊢
    split
    · exact ⟨le, Nat.lt_succ_self _⟩
    next hne =>
      rw [if_neg hne] at h
      obtain ⟨hle, hlt⟩ := forest.inside j q h
      exact ⟨hle, Nat.lt_succ_of_lt hlt⟩
  · -- an old block is below the new one
    have hlt (j : Nat) (q : Pos) (h : (node j).addrAt disk q = free) (hfree : free ≠ 0) :
        False := by
      have hlt := (forest.inside j q (h ▸ hfree)).2
      omega
    rw [grows.addrAt] at h
    rw [grows.addrAt, grows.addrAt] at heq
    by_cases hj : j = i ∧ q = p
    · by_cases hk : k = i ∧ r = p
      · exact ⟨hj.1.trans hk.1.symm, hj.2.trans hk.2.symm⟩
      · rw [if_pos hj, if_neg hk] at heq
        rw [if_pos hj] at h
        exact (hlt k r heq.symm h).elim
    · rw [if_neg hj] at h heq
      by_cases hk : k = i ∧ r = p
      · rw [if_pos hk] at heq
        exact (hlt j q heq (heq ▸ h)).elim
      · rw [if_neg hk] at heq
        exact forest.once j k q r h heq
  · by_contra hne
    have hzero := forest.zero b (by omega)
    by_cases hsame : disk' b = disk b
    · exact hne (hsame.trans hzero)
    · obtain ⟨q, -, hq, hb0⟩ := grows.tables b hsame
      have hlt := (forest.inside i q (hq ▸ hb0)).2
      omega

/-- A new block reads as zeros. -/
theorem fileByte_grows (forest : Forest first free node disk)
    (grows : Grows free i p node disk node' disk') (j o : Nat) :
    (node' j).fileByte disk' o = (node j).fileByte disk o := by
  rw [Dinode.fileByte, Dinode.fileByte, grows.addrAt]
  have hzero : disk' free = Block.zero := by
    by_cases hsame : disk' free = disk free
    · exact hsame.trans (forest.zero free (Nat.le_refl _))
    · obtain ⟨q, -, hq, h0⟩ := grows.tables free hsame
      have hlt := (forest.inside i q (hq ▸ h0)).2
      omega
  by_cases h : j = i ∧ Pos.ofBlock (o / BSIZE) = p
  · rw [if_pos h]
    obtain ⟨rfl, hp⟩ := h
    rw [hp, grows.absent, if_pos rfl, hzero, Block.byte_zero]
    split <;> rfl
  · rw [if_neg h]
    split
    · rfl
    next hne =>
      have hsame : disk' ((node j).addrAt disk (.ofBlock (o / BSIZE))) =
          disk ((node j).addrAt disk (.ofBlock (o / BSIZE))) := by
        by_contra hdiff
        obtain ⟨q, htable, hq, -⟩ := grows.tables _ hdiff
        obtain ⟨-, hpos⟩ := forest.once j i _ q hne hq.symm
        exact Pos.ofBlock_not_table _ (hpos ▸ htable)
      rw [hsame]

/-- A new block in `addrs`. -/
theorem grows_addrs (forest : Forest first free node disk) (small : free < 2 ^ 32)
    {n : Dinode} (inode : node i = n) {k : Fin NADDRS} (absent : n.addrs k = 0) :
    Grows free i (addrsPos k) node disk
      (Function.update node i (n.setAddr k (UInt32.ofNat free))) disk := by
  have hnat : (UInt32.ofNat free).toNat = free := UInt32.toNat_ofNat_of_lt' small
  refine ⟨?_, fun j q => ?_, fun b hb => absurd rfl hb⟩
  · rw [inode, Dinode.addrAt_addrsPos, absent]
    rfl
  · by_cases hj : j = i
    · rw [hj, Function.update_self, Dinode.addrAt_setAddr absent, hnat, inode]
      · simp only [true_and]
      · rw [hnat]
        exact forest.zero free (Nat.le_refl _)
    · rw [Function.update_of_ne hj, if_neg fun h => hj h.1]

/-- A new block in a block of addresses. -/
theorem grows_entry (forest : Forest first free node disk) (le : first ≤ free) (pos : 0 < first)
    (small : free < 2 ^ 32) {q : Pos} (table : q.IsTable) {e : Nat} (index : e < NADDRBLOCK)
    {b : Nat} (here : (node i).addrAt disk q = b) (present : b ≠ 0)
    (absent : (disk b).addr e = 0) :
    Grows free i (q.child e) node disk node
      (Function.update disk b ((disk b).setAddr e (UInt32.ofNat free))) := by
  have hnat : (UInt32.ofNat free).toNat = free := UInt32.toNat_ofNat_of_lt' small
  subst here
  refine ⟨?_, fun j r => ?_, fun c hc => ?_⟩
  · rw [Dinode.addrAt_child table, entry, if_neg present, absent]
    rfl
  · by_cases hj : j = i
    · subst hj
      rw [Dinode.addrAt_setEntry table index present absent, hnat]
      · simp only [true_and]
      · intro r _ heq
        exact (forest.once j j r q (heq ▸ present) heq).2
      · rw [hnat]
        exact forest.zero free (Nat.le_refl _)
      · intro r heq
        rw [hnat] at heq
        have hlt := (forest.inside j r (by omega)).2
        omega
    · rw [if_neg fun h => hj h.1]
      refine Dinode.addrAt_congr (fun r _ hr => Function.update_of_ne ?_ _ _) r
      exact fun heq => hj (forest.once j i r q hr heq).1
  · refine ⟨q, table, ?_, ?_⟩
    · by_contra hne
      exact hc (Function.update_of_ne (Ne.symm hne) _ _)
    · by_cases h : c = (node i).addrAt disk q
      · rw [h]
        exact present
      · exact absurd (Function.update_of_ne h _ _) hc

/-! ### Data -/

/-- Writing the block of a file changes no tree. -/
theorem addrAt_write (forest : Forest first free node disk) {bn b : Nat} (d : Block)
    (here : (node i).addrAt disk (.ofBlock bn) = b) (present : b ≠ 0) (j : Nat) (q : Pos) :
    (node j).addrAt (Function.update disk b d) q = (node j).addrAt disk q := by
  refine Dinode.addrAt_congr (fun r htable hr => Function.update_of_ne ?_ _ _) q
  intro heq
  subst here
  obtain ⟨-, hpos⟩ := forest.once j i r _ hr heq
  exact Pos.ofBlock_not_table bn (hpos ▸ htable)

theorem write (forest : Forest first free node disk) {bn b : Nat} (d : Block)
    (here : (node i).addrAt disk (.ofBlock bn) = b) (present : b ≠ 0) :
    Forest first free node (Function.update disk b d) where
  inside j q := by
    rw [forest.addrAt_write d here present]
    exact forest.inside j q
  once j k q r := by
    rw [forest.addrAt_write d here present, forest.addrAt_write d here present]
    exact forest.once j k q r
  zero c hc := by
    have hlt := (forest.inside i _ (here ▸ present)).2
    rw [here] at hlt
    rw [Function.update_of_ne (by omega)]
    exact forest.zero c hc

/-- What is read after the block of a file has been written. -/
theorem fileByte_write (forest : Forest first free node disk) {bn b : Nat} (d : Block)
    (here : (node i).addrAt disk (.ofBlock bn) = b) (present : b ≠ 0) (j o : Nat) :
    (node j).fileByte (Function.update disk b d) o =
      if j = i ∧ o / BSIZE = bn then d.byte (o % BSIZE) else (node j).fileByte disk o := by
  rw [Dinode.fileByte, Dinode.fileByte, forest.addrAt_write d here present]
  by_cases h : j = i ∧ o / BSIZE = bn
  · obtain ⟨rfl, rfl⟩ := h
    rw [here, if_neg present, if_pos (And.intro rfl rfl), Function.update_self]
  · rw [if_neg h]
    split
    · rfl
    next hne =>
      have hother : (node j).addrAt disk (.ofBlock (o / BSIZE)) ≠ b := by
        intro heq
        subst here
        obtain ⟨hj, hpos⟩ := forest.once j i _ _ hne heq
        exact h ⟨hj, Pos.ofBlock_injective hpos⟩
      rw [Function.update_of_ne hother]

end Forest

end Xv6
