/-
# Truncating an inode

`itrunc` tests the word behind the array `addrs` before it frees the double-indirect tree, and
gives that word to `bfree` as the root of the tree. This file follows the blocks that `itrunc`
gives to `bfree`, and says when they are the blocks that the inode owns.
-/

import Xv6.Fs.Freed

namespace Xv6

open Math

theorem Block.addr_of_le (d : Block) {i : Nat} (outside : NADDRBLOCK ≤ i) : d.addr i = 0 := by
  have hbyte (r : Nat) : d.byte (4 * i + r) = 0 := by
    rw [Block.byte, dif_neg]
    unfold NADDRBLOCK at outside
    unfold BSIZE
    omega
  have hword : d.word i = 0 := by
    unfold Block.word
    rw [hbyte 1, hbyte 2, hbyte 3, show d.byte (4 * i) = 0 from hbyte 0]
    rfl
  rw [Block.addr, hword]
  rfl

namespace Fs

/-! ### The blocks given to bfree -/

/-- One round of the loop of `itrunc` over the direct blocks, with the block it frees. -/
def freeDirectTrace (ip : InodeId) (i : Fin NDIRECT) : FsM (List UInt32) := do
  let r ← load ip
  let addr := r.copy.addrs i.castSucc
  if addr = 0 then pure []
  else do
    bfree r.dev addr
    modifyCopy ip fun n => { n with addrs := Function.update n.addrs i.castSucc 0 }
    pure [addr]

/-- One round of the loop of `itrunc` over the second-level blocks, with the blocks it frees. -/
def freeTableTrace (dev : Nat) (root : Block) (j : Nat) : FsM (List UInt32) :=
  if root.addr j = 0 then pure []
  else do
    let ibp ← bread dev (root.addr j).toNat
    freeEntries dev ibp
    bfree dev (root.addr j)
    pure ((List.range NADDRBLOCK).map ibp.addr ++ [root.addr j])

/-- The part of `itrunc` behind the test of `ip->addrs[NDIRECT+1]`, which is `past`, with the
blocks it frees. -/
def freeTreeTrace (ip : InodeId) (dev : Nat) (root past : UInt32) : FsM (List UInt32) := do
  let bp ← bread dev root.toNat
  let blocks ← collect (freeTableTrace dev bp) (List.range NADDRBLOCK)
  bfree dev past
  modifyCopy ip fun n => { n with addrs := Function.update n.addrs rootIndex 0 }
  pure (blocks ++ [past])

/-- The test of `ip->addrs[NDIRECT+1]`, with the blocks freed behind it. -/
def freeIndirectTrace (ip : InodeId) : FsM (List UInt32) := do
  let s ← get
  if s.pastAddrs ip = 0 then pure []
  else freeTreeTrace ip (s.inode ip).dev ((s.inode ip).copy.addrs rootIndex) (s.pastAddrs ip)

/-- `itrunc`, with the blocks that it gives to `bfree`, in order. -/
def itruncTrace (ip : InodeId) : FsM (List UInt32) := do
  let direct ← collect (freeDirectTrace ip) (List.finRange NDIRECT)
  let indirect ← freeIndirectTrace ip
  modifyCopy ip fun n => { n with size := 0 }
  iupdate ip
  pure (direct ++ indirect)

theorem freeDirectTrace_discard (ip : InodeId) (i : Fin NDIRECT) :
    (freeDirectTrace ip i >>= fun _ => pure PUnit.unit) = freeDirect ip i := by
  rw [freeDirectTrace, freeDirect, bind_assoc]
  refine congrArg (load ip >>= ·) (funext fun r => ?_)
  dsimp only
  split
  · rfl
  · simp only [bind_assoc, pure_bind]
    rfl

theorem freeTableTrace_discard (dev : Nat) (root : Block) (j : Nat) :
    (freeTableTrace dev root j >>= fun _ => pure PUnit.unit) =
      (if root.addr j = 0 then pure ()
      else do
        let ibp ← bread dev (root.addr j).toNat
        freeEntries dev ibp
        bfree dev (root.addr j)) := by
  rw [freeTableTrace]
  split
  · rfl
  · simp only [bind_assoc, pure_bind]
    exact congrArg (bread _ _ >>= ·) (funext fun ibp =>
      congrArg (freeEntries _ _ >>= ·) (funext fun _ => bind_pure_unit))

theorem freeIndirectTrace_discard (ip : InodeId) :
    (freeIndirectTrace ip >>= fun _ => pure PUnit.unit) = freeIndirect ip := by
  rw [freeIndirectTrace, freeIndirect, bind_assoc]
  refine congrArg (get >>= ·) (funext fun s => ?_)
  dsimp only
  split
  · rfl
  · rw [freeTreeTrace, bind_assoc]
    refine congrArg (bread _ _ >>= ·) (funext fun bp => ?_)
    simp only [bind_assoc, pure_bind]
    exact discard_bind (collect_forM (freeTableTrace_discard (s.inode ip).dev bp) _) _

/-- The blocks are only written down. -/
theorem itruncTrace_discard (ip : InodeId) :
    (itruncTrace ip >>= fun _ => pure PUnit.unit) = itrunc ip := by
  rw [itruncTrace, itrunc]
  simp only [bind_assoc, pure_bind]
  rw [discard_bind (collect_forM (freeDirectTrace_discard ip) _),
    discard_bind (freeIndirectTrace_discard ip)]
  rfl

/-! ### The blocks of an inode -/

/-- Every block that a copy of an inode reaches is in use, is no metadata, and is reached at one
place of one inode. -/
structure Owners (s : Fs) (dev : Nat) : Prop where
  owned : ∀ h p, s.Live dev h → s.addrAt dev h p ≠ 0 → s.Freeable dev (s.addrAt dev h p)
  unique : ∀ h h' p p', s.Live dev h → s.Live dev h' → s.addrAt dev h p ≠ 0 →
    s.addrAt dev h p = s.addrAt dev h' p' → s.inumOf h = s.inumOf h' ∧ p = p'
  inums : ∀ ip, 0 < (s.inode ip).ref → (s.inode ip).dev = dev →
    (s.inode ip).inum < (s.sb dev).ninodes

theorem Sound.owners {s : Fs} {dev : Nat} (sound : s.Sound dev) : s.Owners dev where
  owned h p live present := by
    obtain ⟨hcovers, hused, hdata⟩ := sound.owned h p live present
    exact ⟨hcovers, hused, hdata⟩
  unique := sound.unique
  inums := sound.inums

/-- The blocks that are reachable from a copy of an inode. -/
def blocksOf (s : Fs) (dev : Nat) (h : Holder) : Set Nat :=
  { b | b ≠ 0 ∧ ∃ p, s.addrAt dev h p = b }

/-- The word at a place of the tree. -/
def wordAt (s : Fs) (dev : Nat) (h : Holder) (p : Pos) : UInt32 := UInt32.ofNat (s.addrAt dev h p)

/-- The blocks at some places of the tree. -/
def blocksAt (s : Fs) (dev : Nat) (h : Holder) (ps : List Pos) : List UInt32 :=
  (ps.map (s.wordAt dev h)).filter (· ≠ 0)

variable {p : Pos}

section Blocks

variable {s : Fs} {dev : Nat} {h : Holder}

theorem entry_lt (disk : Nat → Block) (b i : Nat) : entry disk b i < 2 ^ 32 := by
  unfold entry
  split
  · decide
  · exact UInt32.toNat_lt _

theorem addrAt_lt (p : Pos) : s.addrAt dev h p < 2 ^ 32 := by
  cases p with
  | direct k =>
    change (if h : k < NDIRECT then _ else 0) < _
    split
    · exact UInt32.toNat_lt _
    · decide
  | root => exact UInt32.toNat_lt _
  | second _ | data _ _ => exact entry_lt ..

theorem toNat_wordAt (p : Pos) : (s.wordAt dev h p).toNat = s.addrAt dev h p := by
  rw [wordAt, UInt32.toNat_ofNat']
  exact Nat.mod_eq_of_lt (addrAt_lt p)

theorem wordAt_eq_zero : s.wordAt dev h p = 0 ↔ s.addrAt dev h p = 0 := by
  rw [← toNat_wordAt, ← UInt32.toNat_inj]
  rfl

variable {b : UInt32} {ps : List Pos}

theorem wordAt_eq (same : s.addrAt dev h p = b.toNat) : s.wordAt dev h p = b := by
  rw [← UInt32.toNat_inj, toNat_wordAt, same]

theorem mem_blocksAt : b ∈ s.blocksAt dev h ps ↔ b ≠ 0 ∧ ∃ p ∈ ps, s.wordAt dev h p = b := by
  rw [blocksAt, List.mem_filter, List.mem_map, and_comm, decide_eq_true_iff]

theorem blocksAt_append (ps qs : List Pos) :
    s.blocksAt dev h (ps ++ qs) = s.blocksAt dev h ps ++ s.blocksAt dev h qs := by
  rw [blocksAt, List.map_append, List.filter_append]
  rfl

theorem blocksAt_singleton (present : s.wordAt dev h p ≠ 0) :
    s.blocksAt dev h [p] = [s.wordAt dev h p] := by
  rw [blocksAt, List.map_singleton, List.filter_singleton, decide_eq_true present]
  rfl

theorem blocksAt_of_absent (absent : ∀ p ∈ ps, s.wordAt dev h p = 0) :
    s.blocksAt dev h ps = [] := by
  rw [blocksAt, List.filter_eq_nil_iff]
  intro b hb
  obtain ⟨p, hp, rfl⟩ := List.mem_map.mp hb
  simp [absent p hp]

theorem blocksAt_of_present (present : ∀ p ∈ ps, s.wordAt dev h p ≠ 0) :
    s.blocksAt dev h ps = ps.map (s.wordAt dev h) := by
  rw [blocksAt, List.filter_eq_self]
  intro b hb
  obtain ⟨p, hp, rfl⟩ := List.mem_map.mp hb
  simp [present p hp]

/-- Different places have different blocks. -/
theorem Owners.blocksAt_nodup (owners : s.Owners dev) (live : s.Live dev h)
    (distinct : ps.Nodup) : (s.blocksAt dev h ps).Nodup := by
  induction ps with
  | nil => exact List.nodup_nil
  | cons p ps ih =>
    obtain ⟨hp, hps⟩ := List.nodup_cons.mp distinct
    rw [← List.singleton_append, blocksAt_append]
    by_cases hzero : s.wordAt dev h p = 0
    · rw [blocksAt_of_absent fun q hq => List.mem_singleton.mp hq ▸ hzero]
      exact ih hps
    · rw [blocksAt_singleton hzero, List.singleton_append]
      refine List.nodup_cons.mpr ⟨fun hmem => ?_, ih hps⟩
      obtain ⟨-, q, hq, hsame⟩ := mem_blocksAt.mp hmem
      have haddr := congrArg UInt32.toNat hsame
      rw [toNat_wordAt, toNat_wordAt] at haddr
      obtain ⟨-, rfl⟩ := owners.unique h h q p live live
        (haddr ▸ fun hp => hzero (wordAt_eq_zero.mpr hp)) haddr
      exact hp hq

theorem Owners.freeable (owners : s.Owners dev) (live : s.Live dev h)
    (mem : b ∈ s.blocksAt dev h ps) : s.Freeable dev b.toNat := by
  obtain ⟨hne, p, -, rfl⟩ := mem_blocksAt.mp mem
  rw [toNat_wordAt]
  exact owners.owned h p live fun hp => hne (wordAt_eq_zero.mpr hp)

end Blocks

/-! ### The order in which blocks are freed -/

/-- The direct blocks. -/
def directPlaces : List Pos := (List.finRange NDIRECT).map fun i => Pos.direct i.val

/-- A second-level block, after the blocks behind it. -/
def branch (j : Nat) : List Pos := (List.range NADDRBLOCK).map (.data j) ++ [.second j]

/-- The second-level blocks and the blocks behind them. -/
def tablePlaces : List Pos := (List.range NADDRBLOCK).flatMap branch

/-- All places, in the order in which `itrunc` frees the blocks. -/
def places : List Pos := directPlaces ++ tablePlaces ++ [.root]

theorem mem_branch {j : Nat} : p ∈ branch j ↔ p = .second j ∨ ∃ k < NADDRBLOCK, p = .data j k := by
  simp [branch, or_comm, eq_comm]

theorem mem_tablePlaces :
    p ∈ tablePlaces ↔ ∃ j < NADDRBLOCK, p = .second j ∨ ∃ k < NADDRBLOCK, p = .data j k := by
  simp [tablePlaces, mem_branch]

theorem mem_directPlaces : p ∈ directPlaces ↔ ∃ i : Fin NDIRECT, p = .direct i := by
  simp [directPlaces, eq_comm]

theorem branch_nodup (j : Nat) : (branch j).Nodup := by
  refine List.nodup_append.mpr ⟨?_, List.nodup_singleton _, ?_⟩
  · exact List.nodup_range.map fun a b hab => (Pos.data.inj hab).2
  · rintro p hp q hq rfl
    obtain ⟨k, -, rfl⟩ := List.mem_map.mp hp
    cases List.mem_singleton.mp hq

theorem tablePlaces_nodup : tablePlaces.Nodup := by
  refine List.nodup_flatMap.mpr ⟨fun j _ => branch_nodup j, ?_⟩
  refine List.nodup_range.imp fun {i j} hij p hi hj => hij ?_
  rcases mem_branch.mp hi with rfl | ⟨k, -, rfl⟩ <;>
    rcases mem_branch.mp hj with h | ⟨l, -, h⟩ <;> cases h <;> rfl

theorem places_nodup : places.Nodup := by
  refine List.nodup_append.mpr ⟨List.nodup_append.mpr ⟨?_, tablePlaces_nodup, ?_⟩,
    List.nodup_singleton _, ?_⟩
  · exact (List.nodup_finRange _).map fun a b hab => Fin.ext (Pos.direct.inj hab)
  · rintro p hp q hq rfl
    obtain ⟨i, rfl⟩ := mem_directPlaces.mp hp
    obtain ⟨j, -, h | ⟨k, -, h⟩⟩ := mem_tablePlaces.mp hq <;> cases h
  · rintro p hp q hq rfl
    cases List.mem_singleton.mp hq
    rcases List.mem_append.mp hp with h | h
    · obtain ⟨i, h⟩ := mem_directPlaces.mp h
      cases h
    · obtain ⟨j, -, h | ⟨k, -, h⟩⟩ := mem_tablePlaces.mp h <;> cases h

/-- An inode has no blocks anywhere else. -/
theorem mem_places {s : Fs} {dev : Nat} {h : Holder} (present : s.addrAt dev h p ≠ 0) :
    p ∈ places := by
  have hentry {b i : Nat} (hne : entry (s.disk dev) b i ≠ 0) : i < NADDRBLOCK := by
    by_contra hi
    refine hne ?_
    unfold entry
    rw [Block.addr_of_le _ (Nat.le_of_not_lt hi)]
    split <;> rfl
  cases p with
  | direct k =>
    have hk : k < NDIRECT := by
      by_contra hk
      exact present (dif_neg hk)
    exact List.mem_append_left _ (List.mem_append_left _ (mem_directPlaces.mpr ⟨⟨k, hk⟩, rfl⟩))
  | root => exact List.mem_append_right _ (List.mem_singleton_self _)
  | second j =>
    have hj : j < NADDRBLOCK := hentry present
    exact List.mem_append_left _
      (List.mem_append_right _ (mem_tablePlaces.mpr ⟨j, hj, .inl rfl⟩))
  | data j k =>
    have hk : k < NADDRBLOCK := hentry present
    have hj : j < NADDRBLOCK := hentry fun hzero => present (by
      change entry (s.disk dev) (entry (s.disk dev) _ j) k = 0
      rw [hzero]
      rfl)
    exact List.mem_append_left _
      (List.mem_append_right _ (mem_tablePlaces.mpr ⟨j, hj, .inr ⟨k, hk, rfl⟩⟩))

end Fs

end Xv6
