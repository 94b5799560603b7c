/-
# What truncation leaves behind

`itrunc` is right for an inode exactly if the word behind its addresses happens to be the address
of its double-indirect block, and no second-level block of the inode has a hole. In every other
case the blocks it frees are not the blocks of the inode.
-/

import Xv6.Fs.Owners
import Xv6.Fs.Trunc

namespace Xv6

open Math

namespace Fs

variable {s : Fs} {dev : Nat} {ip : InodeId}

/-! ### The direct blocks -/

section Direct

/-- An inode with the double-indirect block and some direct blocks left. -/
def keepDirect (n : Dinode) (rest : List (Fin NDIRECT)) : Dinode :=
  { n with addrs := fun k => if k = rootIndex ∨ k.val ∈ rest.map Fin.val then n.addrs k else 0 }

variable {n : Dinode} {i : Fin NDIRECT} {rest : List (Fin NDIRECT)}

theorem castSucc_ne_root (i : Fin NDIRECT) : i.castSucc ≠ rootIndex := ne_rootIndex i.isLt

theorem mem_map_val : i.castSucc.val ∈ rest.map Fin.val ↔ i ∈ rest := by
  rw [List.mem_map]
  exact ⟨fun ⟨j, hj, heq⟩ => Fin.ext (a := j) heq ▸ hj, fun h => ⟨i, h, rfl⟩⟩

theorem keepDirect_all (n : Dinode) : keepDirect n (List.finRange NDIRECT) = n := by
  have haddrs : (keepDirect n (List.finRange NDIRECT)).addrs = n.addrs := by
    funext k
    refine if_pos ?_
    rcases addrs_index_cases k with hk | rfl
    · exact .inr (List.mem_map.mpr ⟨⟨k, hk⟩, List.mem_finRange _, rfl⟩)
    · exact .inl rfl
  change { n with addrs := (keepDirect n (List.finRange NDIRECT)).addrs } = n
  rw [haddrs]

theorem keepDirect_root (n : Dinode) (rest : List (Fin NDIRECT)) :
    (keepDirect n rest).addrs rootIndex = n.addrs rootIndex := by
  simp [keepDirect]

theorem keepDirect_head : (keepDirect n (i :: rest)).addrs i.castSucc = n.addrs i.castSucc :=
  if_pos (.inr (mem_map_val.mpr List.mem_cons_self))

theorem keepDirect_nil (n : Dinode) :
    keepDirect n [] = { n with addrs := fun k => if k = rootIndex then n.addrs k else 0 } := by
  simp [keepDirect]

/-- The address of a block that was freed is cleared. -/
theorem keepDirect_clear (fresh : i ∉ rest) :
    { keepDirect n (i :: rest) with
        addrs := Function.update (keepDirect n (i :: rest)).addrs i.castSucc 0 } =
      keepDirect n rest := by
  have haddrs : Function.update (keepDirect n (i :: rest)).addrs i.castSucc 0 =
      (keepDirect n rest).addrs := by
    funext k
    by_cases hk : k = i.castSucc
    · subst hk
      refine (Function.update_self (i.castSucc : Fin NADDRS) _ _).trans ?_
      refine (if_neg ?_).symm
      rintro (h | h)
      · exact castSucc_ne_root i h
      · exact fresh (mem_map_val.mp h)
    · rw [Function.update_of_ne hk]
      refine if_congr (or_congr_right ?_) rfl rfl
      rw [List.map_cons, List.mem_cons]
      exact or_iff_right fun h => hk (Fin.ext h)
  change { n with addrs := Function.update (keepDirect n (i :: rest)).addrs i.castSucc 0 } = _
  rw [haddrs]
  rfl

/-- A direct block that is missing needs no clearing. -/
theorem keepDirect_skip (fresh : i ∉ rest) (missing : n.addrs i.castSucc = 0) :
    keepDirect n (i :: rest) = keepDirect n rest := by
  have hsame := keepDirect_clear (n := n) fresh
  rwa [show Function.update (keepDirect n (i :: rest)).addrs i.castSucc 0 =
      (keepDirect n (i :: rest)).addrs from
    Function.update_eq_self_iff.mpr (by rw [keepDirect_head, missing])] at hsame

end Direct

variable {t : Fs} {b : UInt32}

theorem Freed.of_sector {F : Set Nat} {u : Fs} (freed : Freed dev s F t)
    (same : u.sector = t.sector) : Freed dev s F u := by
  have hdisk (dev' m : Nat) : u.disk dev' m = t.disk dev' m := by rw [disk, disk, same]
  have hsb : u.sb dev = t.sb dev := by rw [Fs.sb, Fs.sb, hdisk]
  have hused (c : Nat) : u.used dev c = t.used dev c := by rw [used, used, hsb, hdisk]
  refine ⟨fun c hc => ?_, fun m hm => ?_, fun m hm hb => ?_, freed.data, fun dev' m hd => ?_⟩
  · rw [hused, freed.bits c hc]
  · rw [hdisk, freed.zero m hm]
  · rw [hdisk, freed.same m hm hb]
  · rw [hdisk, freed.elsewhere dev' m hd]

/-- Some blocks of `s` were freed, and the copy of the inode in slot `ip` was changed. -/
structure Freeing (dev : Nat) (ip : InodeId) (s : Fs) (bs : List UInt32) (n : Dinode) (t : Fs) :
    Prop where
  freed : Freed dev s (blockSet bs) t
  slots : t.inode = Function.update s.inode ip { s.inode ip with copy := n }
  past : t.pastIcache = s.pastIcache

theorem Freeing.nothing (s : Fs) (dev : Nat) (ip : InodeId) :
    Freeing dev ip s [] (s.inode ip).copy s where
  freed := by
    rw [blockSet_nil]
    exact Freed.nothing s dev
  slots := (Function.update_eq_self ip s.inode).symm
  past := rfl

section Freeing

variable {bs : List UInt32} {n : Dinode} {t : Fs}

theorem Freeing.slot (freeing : Freeing dev ip s bs n t) :
    t.inode ip = { s.inode ip with copy := n } := by
  rw [freeing.slots, Function.update_self]

theorem Freeing.pastAddrs (freeing : Freeing dev ip s bs n t) :
    t.pastAddrs ip = s.pastAddrs ip := by
  unfold Fs.pastAddrs
  split
  next h =>
    have hne : (⟨ip.val + 1, h⟩ : InodeId) ≠ ip := fun he =>
      absurd (congrArg Fin.val he) (Nat.succ_ne_self _)
    rw [freeing.slots, Function.update_of_ne hne]
  · exact freeing.past

/-- Change the copy of the inode. -/
theorem Freeing.modify (freeing : Freeing dev ip s bs n t) (change : Dinode → Dinode) :
    Freeing dev ip s bs (change n)
      (t.setInode ip fun r => { r with copy := change r.copy }) where
  freed := freeing.freed.of_sector rfl
  slots := by
    change Function.update t.inode ip _ = _
    rw [freeing.slot, freeing.slots, Function.update_idem]
  past := freeing.past

/-- Free more blocks. -/
theorem Freeing.bfrees (freeing : Freeing dev ip s bs n t) {more : List UInt32}
    (free : ∀ b ∈ more, s.Freeable dev b.toNat) (distinct : (bs ++ more).Nodup) :
    ∃ u, (more.forM (bfree dev)).run t = .ok () u ∧ Freeing dev ip s (bs ++ more) n u := by
  obtain ⟨u, hrun, hfreed, hinode, hpast⟩ := bfrees_freed freeing.freed free distinct
  exact ⟨u, hrun, hfreed, hinode.trans freeing.slots, hpast.trans freeing.past⟩

theorem Freeing.bfree (freeing : Freeing dev ip s bs n t)
    (free : s.Freeable dev b.toNat) (new : b ∉ bs) :
    ∃ u, (bfree dev b).run t = .ok () u ∧ Freeing dev ip s (bs ++ [b]) n u := by
  obtain ⟨u, hrun, hfreed, hinode, hpast⟩ :=
    bfree_freed freeing.freed free fun h => new (mem_blockSet.mp h)
  rw [← blockSet_append_singleton] at hfreed
  exact ⟨u, hrun, hfreed, hinode.trans freeing.slots, hpast.trans freeing.past⟩

/-- A block of a file that was not freed yet still has its contents. -/
theorem Freeing.disk (freeing : Freeing dev ip s bs n t)
    (data : ¬ (s.sb dev).Metadata b.toNat) (kept : b ∉ bs) :
    t.disk dev b.toNat = s.disk dev b.toNat :=
  freeing.freed.same _ (fun h => kept (mem_blockSet.mp h)) fun h => data h.metadata

end Freeing

section Owners

variable (owners : s.Owners dev) (live : s.Live dev (.slot ip))
include owners live

/-- The loop over the direct blocks. -/
theorem direct_ensures :
    Ensures (fun t => t = s) (collect (freeDirectTrace ip) (List.finRange NDIRECT))
      (fun bs t => bs = s.blocksAt dev (.slot ip) directPlaces ∧
        Freeing dev ip s bs (keepDirect (s.inode ip).copy []) t) fun _ => False := by
  let inv : List (Fin NDIRECT) → List UInt32 → Fs → Prop := fun rest acc t =>
    rest.Nodup ∧ acc ++ s.blocksAt dev (.slot ip) (rest.map fun i => Pos.direct i.val) =
      s.blocksAt dev (.slot ip) directPlaces ∧
      Freeing dev ip s acc (keepDirect (s.inode ip).copy rest) t
  have hnodup : (s.blocksAt dev (.slot ip) directPlaces).Nodup :=
    owners.blocksAt_nodup live (List.nodup_append.mp (List.nodup_append.mp places_nodup).1).1
  have hstep (i : Fin NDIRECT) (rest : List (Fin NDIRECT)) (acc : List UInt32) :
      Ensures (inv (i :: rest) acc) (freeDirectTrace ip i) (fun out => inv rest (acc ++ out))
        fun _ => False := by
    refine Ensures.of_pre ?_
    rintro t ⟨hrest, hacc, hfreeing⟩
    obtain ⟨hi, hrest⟩ := List.nodup_cons.mp hrest
    have hdev : (t.inode ip).dev = dev := by
      rw [hfreeing.slot]
      exact live.2.2
    have haddr : (t.inode ip).copy.addrs i.castSucc = (s.inode ip).copy.addrs i.castSucc := by
      rw [hfreeing.slot]
      exact keepDirect_head
    have hword : s.wordAt dev (.slot ip) (.direct i) = (s.inode ip).copy.addrs i.castSucc :=
      wordAt_eq (dif_pos i.isLt)
    rw [List.map_cons, ← List.singleton_append, blocksAt_append] at hacc
    rw [freeDirectTrace]
    refine Ensures.step (load_run ..) ?_
    dsimp only
    rw [haddr, hdev]
    refine Ensures.ite (fun hzero => ?_) fun hne => ?_
    · refine Ensures.ret ?_
      rw [blocksAt_of_absent fun p hp => List.mem_singleton.mp hp ▸ hword.trans hzero,
        List.nil_append] at hacc
      rw [keepDirect_skip hi hzero] at hfreeing
      rw [List.append_nil]
      exact ⟨hrest, hacc, hfreeing⟩
    · rw [← hword] at hne ⊢
      rw [blocksAt_singleton hne, ← List.append_assoc] at hacc
      have hmem : s.wordAt dev (.slot ip) (.direct i) ∈ s.blocksAt dev (.slot ip) directPlaces := by
        rw [← hacc]
        exact List.mem_append_left _ (List.mem_append_right _ (List.mem_singleton_self _))
      have hnew : s.wordAt dev (.slot ip) (.direct i) ∉ acc := by
        rw [← hacc] at hnodup
        have h := (List.nodup_append.mp hnodup).1
        exact fun hmem => (List.nodup_append.mp h).2.2 _ hmem _ (List.mem_singleton_self _) rfl
      obtain ⟨u, hrun, hu⟩ := hfreeing.bfree (owners.freeable live hmem) hnew
      refine Ensures.step hrun (Ensures.step (modifyInode_run ..) (Ensures.ret ?_))
      have hdone := hu.modify fun n => { n with addrs := Function.update n.addrs i.castSucc 0 }
      rw [keepDirect_clear hi] at hdone
      exact ⟨hrest, hacc, hdone⟩
  refine (Ensures.collect hstep (List.finRange NDIRECT) []).mono ?_ ?_ fun _ h => h
  · rintro _ rfl
    refine ⟨List.nodup_finRange _, rfl, ?_⟩
    rw [keepDirect_all]
    exact Freeing.nothing ..
  · rintro bs t ⟨-, hbs, hfreeing⟩
    exact ⟨(List.append_nil _).symm.trans hbs, hfreeing⟩

/-- Second-level block `j` of the inode has no hole. -/
def FullAt (s : Fs) (dev : Nat) (h : Holder) (j : Nat) : Prop :=
  s.addrAt dev h (.second j) ≠ 0 → ∀ k < NADDRBLOCK, s.addrAt dev h (.data j k) ≠ 0

/-- No second-level block of the inode has a hole. -/
def Full (s : Fs) (dev : Nat) (h : Holder) : Prop := ∀ j < NADDRBLOCK, s.FullAt dev h j

variable {root j : Nat}

omit owners live in
theorem wordAt_second (hroot : s.addrAt dev (.slot ip) .root = root)
    (present : root ≠ 0) (j : Nat) :
    s.wordAt dev (.slot ip) (.second j) = (s.disk dev root).addr j := by
  refine wordAt_eq ?_
  change entry (s.disk dev) (s.addrAt dev (.slot ip) .root) j = _
  rw [hroot, entry, if_neg present]

omit owners live in
theorem wordAt_data (present : s.wordAt dev (.slot ip) (.second j) ≠ 0) (k : Nat) :
    s.wordAt dev (.slot ip) (.data j k) =
      (s.disk dev (s.wordAt dev (.slot ip) (.second j)).toNat).addr k := by
  refine wordAt_eq ?_
  change entry (s.disk dev) (s.addrAt dev (.slot ip) (.second j)) k = _
  rw [toNat_wordAt, entry, if_neg fun h => present (wordAt_eq_zero.mpr h)]

omit owners live in
theorem wordAt_data_of_absent (absent : s.wordAt dev (.slot ip) (.second j) = 0)
    (k : Nat) : s.wordAt dev (.slot ip) (.data j k) = 0 := by
  refine wordAt_eq ?_
  change entry (s.disk dev) (s.addrAt dev (.slot ip) (.second j)) k = _
  rw [wordAt_eq_zero.mp absent]
  rfl

/-- One round of the loop over the second-level blocks. -/
theorem table_ensures (hroot : s.addrAt dev (.slot ip) .root = root)
    (present : root ≠ 0) (inside : j < NADDRBLOCK) {acc : List UInt32} {n : Dinode}
    (freeing : Freeing dev ip s acc n t)
    (distinct : (acc ++ s.blocksAt dev (.slot ip) (branch j)).Nodup) :
    Ensures (fun u => u = t) (freeTableTrace dev (s.disk dev root) j)
      (fun out u => s.FullAt dev (.slot ip) j ∧ out = s.blocksAt dev (.slot ip) (branch j) ∧
          Freeing dev ip s (acc ++ out) n u ∨ ¬ s.Full dev (.slot ip) ∧ 0 ∈ out)
      fun _ => ¬ s.Full dev (.slot ip) := by
  rw [freeTableTrace, ← wordAt_second hroot present]
  refine Ensures.ite (fun hzero => ?_) fun hne => ?_
  · refine Ensures.ret ?_
    have hnone : s.blocksAt dev (.slot ip) (branch j) = [] := by
      refine blocksAt_of_absent fun p hp => ?_
      rcases mem_branch.mp hp with rfl | ⟨k, -, rfl⟩
      · exact hzero
      · exact wordAt_data_of_absent hzero k
    rw [hnone, List.append_nil]
    exact .inl ⟨fun h => absurd (wordAt_eq_zero.mp hzero) h, rfl, freeing⟩
  · have hmem : s.wordAt dev (.slot ip) (.second j) ∈ s.blocksAt dev (.slot ip) (branch j) :=
      mem_blocksAt.mpr ⟨hne, _, mem_branch.mpr (.inl rfl), rfl⟩
    have hnew : s.wordAt dev (.slot ip) (.second j) ∉ acc := fun h =>
      (List.nodup_append.mp distinct).2.2 _ h _ hmem rfl
    have hfree := owners.freeable live hmem
    refine Ensures.step (bread_run ..) ?_
    rw [freeing.disk hfree.data hnew]
    have hentries : (List.range NADDRBLOCK).map
        (s.disk dev (s.wordAt dev (.slot ip) (.second j)).toNat).addr =
          ((List.range NADDRBLOCK).map (.data j)).map (s.wordAt dev (.slot ip)) := by
      rw [List.map_map]
      exact List.map_congr_left fun k _ => (wordAt_data hne k).symm
    have hblocks : (List.range NADDRBLOCK).map
        (s.disk dev (s.wordAt dev (.slot ip) (.second j)).toNat).addr ++
          [s.wordAt dev (.slot ip) (.second j)] = (branch j).map (s.wordAt dev (.slot ip)) := by
      rw [hentries, branch, List.map_append, List.map_singleton]
    rw [hblocks]
    by_cases hfull : ∀ k < NADDRBLOCK, s.wordAt dev (.slot ip) (.data j k) ≠ 0
    · -- every entry is a block of the file
      have hall : s.blocksAt dev (.slot ip) (branch j) =
          (branch j).map (s.wordAt dev (.slot ip)) := by
        refine blocksAt_of_present fun p hp => ?_
        rcases mem_branch.mp hp with rfl | ⟨k, hk, rfl⟩
        · exact hne
        · exact hfull k hk
      rw [hall, ← hblocks, ← List.append_assoc] at distinct
      have hentry : ∀ b ∈ (List.range NADDRBLOCK).map
          (s.disk dev (s.wordAt dev (.slot ip) (.second j)).toNat).addr,
          b ∈ s.blocksAt dev (.slot ip) (branch j) := fun b hb => by
        rw [hall, ← hblocks]
        exact List.mem_append_left _ hb
      obtain ⟨u, hrun, hu⟩ := freeing.bfrees (fun b hb => owners.freeable live (hentry b hb))
        (List.nodup_append.mp distinct).1
      have hloop : (freeEntries dev
        (s.disk dev (s.wordAt dev (.slot ip) (.second j)).toNat)).run t =
          .ok () u := hrun ▸ congrArg (fun x => EStateM.run x t) List.forM_map.symm
      obtain ⟨v, hlast, hv⟩ := hu.bfree hfree fun h =>
        (List.nodup_append.mp distinct).2.2 _ h _ (List.mem_singleton_self _) rfl
      refine Ensures.step hloop (Ensures.step hlast (Ensures.ret ?_))
      rw [List.append_assoc, hblocks] at hv
      exact .inl ⟨fun _ k hk h => hfull k hk (wordAt_eq_zero.mpr h), hall.symm, hv⟩
    · -- a hole is freed as block 0
      push Not at hfull
      obtain ⟨k, hk, hzero⟩ := hfull
      have hholes : ¬ s.Full dev (.slot ip) := fun hfull =>
        hfull j inside (fun h => hne (wordAt_eq_zero.mpr h)) k hk (wordAt_eq_zero.mp hzero)
      have hany {α : Type} (x : FsM α) :
          Ensures (fun _ => True) x (fun _ _ => True) fun _ => ¬ s.Full dev (.slot ip) :=
        (Ensures.of_runs fun _ _ _ _ _ => trivial).weaken (fun _ _ h => h)
          fun _ _ => hholes
      refine Ensures.of_holds (fun _ => True) trivial ?_
      refine (hany _).bind fun _ => (hany _).bind fun _ => Ensures.pure fun _ _ => .inr ⟨hholes, ?_⟩
      exact List.mem_map.mpr ⟨.data j k, mem_branch.mpr (.inr ⟨k, hk, rfl⟩), hzero⟩

/-- The loop over the second-level blocks. -/
theorem tables_ensures (hroot : s.addrAt dev (.slot ip) .root = root)
    (present : root ≠ 0) {acc : List UInt32} {n : Dinode} (freeing : Freeing dev ip s acc n t)
    (distinct : (acc ++ s.blocksAt dev (.slot ip) tablePlaces).Nodup) :
    Ensures (fun u => u = t)
      (collect (freeTableTrace dev (s.disk dev root)) (List.range NADDRBLOCK))
      (fun out u => s.Full dev (.slot ip) ∧ out = s.blocksAt dev (.slot ip) tablePlaces ∧
          Freeing dev ip s (acc ++ out) n u ∨ ¬ s.Full dev (.slot ip) ∧ 0 ∈ out)
      fun _ => ¬ s.Full dev (.slot ip) := by
  let inv : List Nat → List UInt32 → Fs → Prop := fun js out u =>
    (∀ j ∈ js, j < NADDRBLOCK) ∧
      ((∀ j < NADDRBLOCK, j ∉ js → s.FullAt dev (.slot ip) j) ∧
          out ++ s.blocksAt dev (.slot ip) (js.flatMap branch) =
            s.blocksAt dev (.slot ip) tablePlaces ∧ Freeing dev ip s (acc ++ out) n u ∨
        ¬ s.Full dev (.slot ip) ∧ 0 ∈ out)
  have hstep (j : Nat) (js : List Nat) (out : List UInt32) :
      Ensures (inv (j :: js) out) (freeTableTrace dev (s.disk dev root) j)
        (fun more => inv js (out ++ more)) fun _ => ¬ s.Full dev (.slot ip) := by
    refine Ensures.of_pre ?_
    rintro u ⟨hjs, hcase⟩
    obtain ⟨hj, hjs⟩ := List.forall_mem_cons.mp hjs
    rcases hcase with ⟨hpast, hout, hfreeing⟩ | ⟨hholes, hzero⟩
    · rw [List.flatMap_cons, blocksAt_append, ← List.append_assoc] at hout
      rw [← hout, ← List.append_assoc, ← List.append_assoc] at distinct
      refine (table_ensures owners live hroot present hj hfreeing
        (List.nodup_append.mp distinct).1).weaken (fun more v h => ⟨hjs, ?_⟩)
        fun _ h => h
      rcases h with ⟨hfull, rfl, hv⟩ | ⟨hholes, hzero⟩
      · rw [List.append_assoc acc] at hv
        refine .inl ⟨fun i hi hnot => ?_, hout, hv⟩
        by_cases hij : i = j
        · exact hij ▸ hfull
        · exact hpast i hi fun h => hnot ((List.mem_cons.mp h).resolve_left hij)
      · exact .inr ⟨hholes, List.mem_append_right _ hzero⟩
    · -- nothing is known about the state once block 0 was freed
      refine Ensures.of_holds (fun _ => True) trivial ?_
      exact (Ensures.of_runs fun _ _ _ _ _ => trivial).mono (fun _ h => h)
        (fun more v _ => ⟨hjs, .inr ⟨hholes, List.mem_append_left _ hzero⟩⟩) fun _ _ => hholes
  refine (Ensures.collect hstep (List.range NADDRBLOCK) []).mono ?_ ?_ fun _ h => h
  · rintro _ rfl
    exact ⟨fun j hj => List.mem_range.mp hj, .inl ⟨fun j hj hnot =>
      absurd (List.mem_range.mpr hj) hnot, rfl, (List.append_nil acc).symm ▸ freeing⟩⟩
  · rintro out u ⟨-, hcase⟩
    rcases hcase with ⟨hfull, hout, hu⟩ | hholes
    · exact .inl ⟨fun j hj => hfull j hj List.not_mem_nil,
        (List.append_nil _).symm.trans hout, hu⟩
    · exact .inr hholes

omit owners live in
/-- The places in the order in which `itrunc` frees their blocks. -/
theorem blocksAt_places : s.blocksAt dev (.slot ip) places =
    s.blocksAt dev (.slot ip) directPlaces ++ s.blocksAt dev (.slot ip) tablePlaces ++
      s.blocksAt dev (.slot ip) [.root] := by
  rw [places, blocksAt_append, blocksAt_append]

omit owners in
/-- What the test of the word behind the addresses leads to, after the direct blocks. -/
theorem freeIndirectTrace_run {bs : List UInt32}
    (freeing : Freeing dev ip s bs (keepDirect (s.inode ip).copy []) t) :
    (freeIndirectTrace ip).run t =
      (if s.pastAddrs ip = 0 then pure []
      else freeTreeTrace ip dev (s.wordAt dev (.slot ip) .root) (s.pastAddrs ip)).run t := by
  have hword : s.wordAt dev (.slot ip) .root = (s.inode ip).copy.addrs rootIndex := wordAt_eq rfl
  have hdev : (t.inode ip).dev = dev := by
    rw [freeing.slot]
    exact live.2.2
  have hroot : (t.inode ip).copy.addrs rootIndex = (s.inode ip).copy.addrs rootIndex := by
    rw [freeing.slot]
    exact keepDirect_root _ _
  have hget : (get : FsM Fs).run t = .ok t t := rfl
  rw [freeIndirectTrace, run_bind_of_ok hget, freeing.pastAddrs, hdev, hroot, hword]

omit owners live in
/-- An inode without a double-indirect block has no blocks behind it. -/
theorem blocksAt_tables_of_absent (absent : s.wordAt dev (.slot ip) .root = 0) :
    s.blocksAt dev (.slot ip) tablePlaces = [] := by
  have hsecond (j : Nat) : s.wordAt dev (.slot ip) (.second j) = 0 := by
    refine wordAt_eq ?_
    change entry (s.disk dev) (s.addrAt dev (.slot ip) .root) j = _
    rw [wordAt_eq_zero.mp absent]
    rfl
  refine blocksAt_of_absent fun p hp => ?_
  obtain ⟨j, -, rfl | ⟨k, -, rfl⟩⟩ := mem_tablePlaces.mp hp
  · exact hsecond j
  · exact wordAt_data_of_absent (hsecond j) k

/-- The double-indirect tree is freed as a whole if the word behind the addresses is its root. -/
theorem indirect_ensures (aligned : s.pastAddrs ip = s.wordAt dev (.slot ip) .root)
    (full : s.Full dev (.slot ip))
    (freeing : Freeing dev ip s (s.blocksAt dev (.slot ip) directPlaces)
      (keepDirect (s.inode ip).copy []) t) :
    Ensures (fun u => u = t) (freeIndirectTrace ip)
      (fun bs u => s.blocksAt dev (.slot ip) directPlaces ++ bs = s.blocksAt dev (.slot ip) places ∧
        Freeing dev ip s (s.blocksAt dev (.slot ip) places)
          { (s.inode ip).copy with addrs := fun _ => 0 } u) fun _ => False := by
  have hdistinct := owners.blocksAt_nodup live places_nodup
  rw [blocksAt_places] at hdistinct ⊢
  refine Ensures.of_run_eq (freeIndirectTrace_run live freeing) ?_
  rw [aligned]
  refine Ensures.ite (fun hzero => ?_) fun hne => ?_
  · -- there is no double-indirect block
    refine Ensures.ret ?_
    have hlast : s.blocksAt dev (.slot ip) [.root] = [] :=
      blocksAt_of_absent fun p hp => List.mem_singleton.mp hp ▸ hzero
    have hcopy : keepDirect (s.inode ip).copy [] =
        { (s.inode ip).copy with addrs := fun _ => 0 } := by
      rw [keepDirect_nil]
      congr 1
      funext k
      split
      next h =>
        have hword : s.wordAt dev (.slot ip) .root = (s.inode ip).copy.addrs rootIndex :=
          wordAt_eq rfl
        rw [h, ← hword, hzero]
      · rfl
    rw [blocksAt_tables_of_absent hzero, hlast, List.append_nil, List.append_nil, ← hcopy]
    exact ⟨rfl, freeing⟩
  · have hmem : s.wordAt dev (.slot ip) .root ∈ s.blocksAt dev (.slot ip) [.root] := by
      rw [blocksAt_singleton hne]
      exact List.mem_singleton_self _
    have hfree := owners.freeable live hmem
    have hkept : s.wordAt dev (.slot ip) .root ∉ s.blocksAt dev (.slot ip) directPlaces := fun h =>
      (List.nodup_append.mp hdistinct).2.2 _ (List.mem_append_left _ h) _ hmem rfl
    rw [freeTreeTrace]
    refine Ensures.step (bread_run ..) ?_
    rw [freeing.disk hfree.data hkept]
    have htables := tables_ensures owners live (toNat_wordAt _).symm
      (fun h => hne (UInt32.toNat_inj.mp h)) freeing (List.nodup_append.mp hdistinct).1
    refine (htables.weaken (fun _ _ h => h) fun _ h => h full).bindAt ?_
    rintro out u (⟨-, rfl, hu⟩ | ⟨hholes, -⟩)
    · obtain ⟨v, hrun, hv⟩ := hu.bfree hfree fun h =>
        (List.nodup_append.mp hdistinct).2.2 _ h _ hmem rfl
      refine Ensures.step hrun (Ensures.step (modifyInode_run ..) (Ensures.ret ?_))
      rw [blocksAt_singleton hne, ← List.append_assoc]
      have hdone := hv.modify fun n => { n with addrs := Function.update n.addrs rootIndex 0 }
      have hcopy : Function.update (keepDirect (s.inode ip).copy []).addrs rootIndex 0 =
          fun _ => 0 := by
        rw [keepDirect_nil]
        funext k
        by_cases hk : k = rootIndex
        · rw [hk, Function.update_self]
        · rw [Function.update_of_ne hk]
          exact if_neg hk
      rw [hcopy] at hdone
      exact ⟨rfl, hdone⟩
    · exact absurd full hholes

/-- The blocks of a list are those of the inode, each once. -/
def FreesOwn (s : Fs) (dev : Nat) (ip : InodeId) (bs : List UInt32) : Prop :=
  bs.Nodup ∧ ∀ b, b ∈ bs ↔ b.toNat ∈ s.blocksOf dev (.slot ip)

omit owners live in
theorem mem_blocksAt_places :
    b ∈ s.blocksAt dev (.slot ip) places ↔ b.toNat ∈ s.blocksOf dev (.slot ip) := by
  rw [mem_blocksAt]
  constructor
  · rintro ⟨hne, p, -, rfl⟩
    exact ⟨fun h => hne (UInt32.toNat_inj.mp h), p, (toNat_wordAt p).symm⟩
  · rintro ⟨hne, p, hp⟩
    exact ⟨fun h => hne (by rw [h]; rfl), p, mem_places (hp ▸ hne), wordAt_eq hp⟩

/-- In every other case the wrong blocks are freed. -/
theorem indirect_wrong (other : ¬ (s.pastAddrs ip = s.wordAt dev (.slot ip) .root ∧
      s.Full dev (.slot ip)))
    (freeing : Freeing dev ip s (s.blocksAt dev (.slot ip) directPlaces)
      (keepDirect (s.inode ip).copy []) t) :
    Ensures (fun u => u = t) (freeIndirectTrace ip)
      (fun bs _ => ¬ s.FreesOwn dev ip (s.blocksAt dev (.slot ip) directPlaces ++ bs))
      anyStop := by
  have hdistinct := owners.blocksAt_nodup live places_nodup
  rw [blocksAt_places] at hdistinct
  have hany {α : Type} (x : FsM α) : Ensures (fun _ => True) x (fun _ _ => True) anyStop :=
    Ensures.of_runs fun _ _ _ _ _ => trivial
  refine Ensures.of_run_eq (freeIndirectTrace_run live freeing) ?_
  refine Ensures.ite (fun hpast => ?_) fun hpast => ?_
  · -- the double-indirect block is forgotten
    refine Ensures.pure ?_
    rintro _ rfl ⟨-, hexact⟩
    rw [List.append_nil] at hexact
    have hroot : s.wordAt dev (.slot ip) .root ≠ 0 := fun hzero => other ⟨hpast.trans hzero.symm,
      fun j _ hj => absurd (by
        change entry (s.disk dev) (s.addrAt dev (.slot ip) .root) j = _
        rw [wordAt_eq_zero.mp hzero]
        rfl) hj⟩
    have hmem : s.wordAt dev (.slot ip) .root ∈ s.blocksAt dev (.slot ip) [.root] := by
      rw [blocksAt_singleton hroot]
      exact List.mem_singleton_self _
    have hdirect : s.wordAt dev (.slot ip) .root ∈ s.blocksAt dev (.slot ip) directPlaces := by
      rw [hexact, ← mem_blocksAt_places, blocksAt_places]
      exact List.mem_append_right _ hmem
    exact (List.nodup_append.mp hdistinct).2.2 _ (List.mem_append_left _ hdirect) _ hmem rfl
  · rw [freeTreeTrace]
    by_cases hroot : s.wordAt dev (.slot ip) .root = 0
    · -- the word is taken for a block of the file, which would be a direct one
      refine Ensures.of_holds (fun _ => True) trivial ((hany _).bind fun _ => (hany _).bind
        fun out => (hany _).bind fun _ => (hany _).bind fun _ => Ensures.pure ?_)
      rintro _ - ⟨honce, hexact⟩
      have hown := (hexact (s.pastAddrs ip)).mp
        (List.mem_append_right _ (List.mem_append_right _ (List.mem_singleton_self _)))
      have hlast : s.blocksAt dev (.slot ip) [.root] = [] :=
        blocksAt_of_absent fun p hp => List.mem_singleton.mp hp ▸ hroot
      rw [← mem_blocksAt_places, blocksAt_places, blocksAt_tables_of_absent hroot, hlast,
        List.append_nil, List.append_nil] at hown
      exact (List.nodup_append.mp honce).2.2 _ hown _
        (List.mem_append_right _ (List.mem_singleton_self _)) rfl
    · have hmem : s.wordAt dev (.slot ip) .root ∈ s.blocksAt dev (.slot ip) [.root] := by
        rw [blocksAt_singleton hroot]
        exact List.mem_singleton_self _
      have hfree := owners.freeable live hmem
      have hkept : s.wordAt dev (.slot ip) .root ∉
          s.blocksAt dev (.slot ip) directPlaces ++ s.blocksAt dev (.slot ip) tablePlaces :=
        fun h => (List.nodup_append.mp hdistinct).2.2 _ h _ hmem rfl
      refine Ensures.step (bread_run ..) ?_
      rw [freeing.disk hfree.data fun h => hkept (List.mem_append_left _ h)]
      have htables := tables_ensures owners live (toNat_wordAt _).symm
        (fun h => hroot (UInt32.toNat_inj.mp h)) freeing (List.nodup_append.mp hdistinct).1
      refine (htables.weaken (fun _ _ h => h) fun _ _ => trivial).bindAt fun out u hcase => ?_
      refine Ensures.of_holds (fun _ => True) trivial ((hany _).bind fun _ => (hany _).bind
        fun _ => Ensures.pure ?_)
      rintro _ - ⟨honce, hexact⟩
      -- a hole would be block 0, which is no block of the file
      have hzero : 0 ∉ out := fun h => ((hexact 0).mp
        (List.mem_append_right _ (List.mem_append_left _ h))).1 rfl
      rcases hcase with ⟨hfull, rfl, -⟩ | ⟨-, hhole⟩
      · have hown := (hexact (s.wordAt dev (.slot ip) .root)).mpr (by
          rw [← mem_blocksAt_places, blocksAt_places]
          exact List.mem_append_right _ hmem)
        rw [← List.append_assoc] at hown
        rcases List.mem_append.mp hown with h | h
        · exact hkept h
        · exact other ⟨(List.mem_singleton.mp h).symm, hfull⟩
      · exact hzero hhole

end Owners

/-! ### Truncation as a whole -/

/-- The inode in slot `ip` was truncated, with `bs` the blocks that were given to `bfree`. -/
structure Truncated (dev : Nat) (ip : InodeId) (s : Fs) (bs : List UInt32) (t : Fs) : Prop where
  own : s.FreesOwn dev ip bs
  bits : ∀ c, (s.sb dev).Covers c →
    (t.used dev c = true ↔ s.used dev c = true ∧ c ∉ s.blocksOf dev (.slot ip))
  bootBlock : t.disk dev 0 = s.disk dev 0
  superBlock : t.disk dev 1 = s.disk dev 1
  others : ∀ h, s.Live dev h → s.inumOf h ≠ (s.inode ip).inum →
    t.copyOf dev h = s.copyOf dev h ∧ ∀ o, t.fileByte dev h o = s.fileByte dev h o
  slots : ∀ jp, jp ≠ ip → t.inode jp = s.inode jp
  devices : ∀ dev' m, dev' ≠ dev → t.disk dev' m = s.disk dev' m
  addrs : ∀ k, (t.inode ip).copy.addrs k = 0
  size : (t.inode ip).copy.size = 0
  stored : t.dinode dev (s.inode ip).inum = (t.inode ip).copy

/-- `itrunc` returns, and has truncated the inode. -/
def TruncatesRight (s : Fs) (dev : Nat) (ip : InodeId) : Prop :=
  ∃ bs t, (itruncTrace ip).run s = .ok bs t ∧ (itrunc ip).run s = .ok () t ∧
    Truncated dev ip s bs t

theorem itrunc_run {bs : List UInt32} (run : (itruncTrace ip).run s = .ok bs t) :
    (itrunc ip).run s = .ok () t := by
  rw [← itruncTrace_discard, run_bind_of_ok run]
  rfl

section Final

variable (owners : s.Owners dev) (live : s.Live dev (.slot ip))
include owners live

/-- The blocks of the inode were freed; then its size is cleared and it is stored. -/
theorem Freeing.truncated
    (freeing : Freeing dev ip s (s.blocksAt dev (.slot ip) places)
      { (s.inode ip).copy with addrs := fun _ => 0, size := 0 } t) :
    Truncated dev ip s (s.blocksAt dev (.slot ip) places)
      (t.setDinode dev (s.inode ip).inum (t.inode ip).copy) := by
  have hinside := owners.inums ip live.1 live.2.2
  set i := (s.inode ip).inum with hi
  have hsb := freeing.freed.sb
  have hset : blockSet (s.blocksAt dev (.slot ip) places) = s.blocksOf dev (.slot ip) := by
    ext m
    constructor
    · rintro ⟨b, hb, rfl⟩
      exact mem_blocksAt_places.mp hb
    · rintro ⟨hne, p, rfl⟩
      exact ⟨s.wordAt dev (.slot ip) p,
        mem_blocksAt_places.mpr ⟨by rwa [toNat_wordAt], p, (toNat_wordAt p).symm⟩, toNat_wordAt p⟩
  have hfreed := freeing.freed
  rw [hset] at hfreed
  have hinside' : i < (t.sb dev).ninodes := by rwa [hsb]
  -- blocks that the inode does not own and that are no metadata
  have hdata {m : Nat} (hm : ¬ (s.sb dev).Metadata m) (hother : m ∉ s.blocksOf dev (.slot ip)) :
      (t.setDinode dev i (t.inode ip).copy).disk dev m = s.disk dev m := by
    rw [disk_setDinode hinside' _ (by rwa [hsb]), hfreed.same m hother fun h => hm h.metadata]
  have hlow {m : Nat} (hm : m < 2 + NJB) :
      (t.setDinode dev i (t.inode ip).copy).disk dev m = s.disk dev m := by
    have hiblock : m ≠ IBLOCK i := by
      unfold IBLOCK IPB
      omega
    have hbitmap : ¬ (s.sb dev).Bitmap m := by
      rintro ⟨c, -, rfl⟩
      unfold BBLOCK BPB BSIZE IPB at hm
      omega
    rw [setDinode, disk_setSector_of_ne hiblock,
      hfreed.same m (fun h => (hfreed.data m h).data (.inl hm)) hbitmap]
  refine ⟨⟨owners.blocksAt_nodup live places_nodup, fun b => mem_blocksAt_places⟩, fun c hc => ?_,
    hlow (by decide), hlow (by decide), fun h hlive hother => ?_, fun jp hjp => ?_,
    fun dev' m hdev => ?_, fun k => ?_, ?_, ?_⟩
  · rw [used_setDinode hinside', hfreed.bits c hc]
  · have hcopy : (t.setDinode dev i (t.inode ip).copy).copyOf dev h = s.copyOf dev h := by
      cases h with
      | disk j =>
        have hj : IBLOCK j ∉ s.blocksOf dev (.slot ip) := fun h =>
          (hfreed.data _ h).data (metadata_iblock hlive.1)
        have hbitmap : ¬ (s.sb dev).Bitmap (IBLOCK j) := by
          rintro ⟨c, -, hc⟩
          exact iblock_ne_bblock hlive.1 c hc
        change (t.setDinode dev i (t.inode ip).copy).dinode dev j = s.dinode dev j
        rw [dinode_setDinode, if_neg (show j ≠ i from hother), dinode, dinode,
          hfreed.same _ hj hbitmap]
      | slot jp =>
        have hjp : jp ≠ ip := fun h => hother (h ▸ rfl)
        change (t.inode jp).copy = (s.inode jp).copy
        rw [freeing.slots, Function.update_of_ne hjp]
    refine ⟨hcopy, fun o => ?_⟩
    rw [fileByte, hcopy]
    refine Dinode.fileByte_congr (fun q hq => ?_) o
    refine hdata (owners.owned h q hlive hq).data ?_
    rintro ⟨-, p, hp⟩
    exact hother (owners.unique h (.slot ip) q p hlive live hq hp.symm).1
  · change t.inode jp = s.inode jp
    rw [freeing.slots, Function.update_of_ne hjp]
  · rw [setDinode, disk_setSector_of_dev hdev, hfreed.elsewhere dev' m hdev]
  · change (t.inode ip).copy.addrs k = 0
    rw [freeing.slot]
  · change (t.inode ip).copy.size = 0
    rw [freeing.slot]
  · rw [dinode_setDinode, if_pos rfl]
    rfl

/-- `itrunc` frees the blocks of the inode and nothing else exactly if the word behind the
addresses, which it takes for the double-indirect block, is the address of the double-indirect
block or both are 0, and every second-level block of the inode is full: the entries of a
second-level block are freed without a test for 0. -/
theorem itrunc_right_iff :
    s.TruncatesRight dev ip ↔
      s.pastAddrs ip = (s.inode ip).copy.addrs rootIndex ∧ s.Full dev (.slot ip) := by
  have hword : s.wordAt dev (.slot ip) .root = (s.inode ip).copy.addrs rootIndex := wordAt_eq rfl
  rw [← hword]
  constructor
  · rintro ⟨bs, t, hrun, -, htruncated⟩
    by_contra hother
    have hwrong : Ensures (fun u => u = s) (itruncTrace ip)
        (fun bs _ => ¬ s.FreesOwn dev ip bs) anyStop := by
      rw [itruncTrace]
      refine ((direct_ensures owners live).weaken (fun _ _ h => h)
        fun _ => False.elim).bindAt ?_
      rintro direct u ⟨rfl, hfreeing⟩
      refine (indirect_wrong owners live hother hfreeing).bind fun out => ?_
      refine Ensures.of_pre fun v hv => ?_
      refine Ensures.step (modifyInode_run ..) (Ensures.step (iupdate_run ..) (Ensures.pure ?_))
      exact fun _ _ => hv
    exact hwrong.of_ok rfl hrun htruncated.own
  · rintro ⟨haligned, hfull⟩
    have hright : Ensures (fun u => u = s) (itruncTrace ip) (Truncated dev ip s)
        fun _ => False := by
      rw [itruncTrace]
      refine (direct_ensures owners live).bindAt ?_
      rintro direct u ⟨rfl, hfreeing⟩
      refine (indirect_ensures owners live haligned hfull hfreeing).bindAt ?_
      rintro out v ⟨hout, hv⟩
      refine Ensures.step (modifyInode_run ..) (Ensures.step (iupdate_run ..) (Ensures.ret ?_))
      have hdone := (hv.modify fun n => { n with size := 0 }).truncated owners live
      rw [hout, setInode_self, hv.slot, live.2.2]
      rw [setInode_self, hv.slot] at hdone
      exact hdone
    obtain ⟨bs, t, hrun, htruncated⟩ := hright.returns rfl
    exact ⟨bs, t, hrun, itrunc_run hrun, htruncated⟩

end Final

end Fs

open Fs

/-- A file with one block is truncated while the next slot of the inode cache is unused. -/
theorem itrunc_right_one_file :
    ∃ s, Run (FsCall.Step ROOTDEV) blankFs
        [.icreate T_FILE 0 0 1, .ilock 0, .writei 0 (fun _ => 7) 0 1] s ∧
      s.TruncatesRight ROOTDEV 0 := by
  have hdone : ((execute (fun s c => FsCall.act ROOTDEV s c) blankFs
      [.icreate T_FILE 0 0 1, .ilock 0, .writei 0 (fun _ => 7) 0 1]).map fun s =>
        decide (0 < (s.inode 0).ref ∧ (s.inode 0).valid = true ∧ (s.inode 0).dev = ROOTDEV ∧
          s.pastAddrs 0 = 0 ∧ (s.inode 0).copy.addrs rootIndex = 0)) = some true := by
    decide +kernel
  obtain ⟨s, hexec, hfacts⟩ := Option.map_eq_some_iff.mp hdone
  obtain ⟨href, hvalid, hdev, hpast, hroot⟩ := of_decide_eq_true hfacts
  have hrun := Run.of_execute FsCall.step_of_act hexec
  have hsound := blankFs_run hrun
  refine ⟨s, hrun, (itrunc_right_iff hsound.owners ⟨href, hvalid, hdev⟩).mpr
    ⟨hpast.trans hroot.symm, fun j _ hj => absurd ?_ hj⟩⟩
  change entry (s.disk ROOTDEV) ((s.inode 0).copy.addrs rootIndex).toNat j = 0
  rw [hroot]
  rfl

/-- If the next slot of the inode cache is in use, its device number 1 is taken for the
double-indirect block: truncating a file with one block overwrites the super block and then
panics. -/
theorem itrunc_clobbers_super_block :
    ∃ s u, Run (FsCall.Step ROOTDEV) blankFs
        [.icreate T_FILE 0 0 1, .ilock 0, .writei 0 (fun _ => 7) 0 1, .icreate T_FILE 0 0 1] s ∧
      s.Owners ROOTDEV ∧ s.Live ROOTDEV (.slot 0) ∧
      (itrunc 0).run s = .error (.panic "freeing free block") u ∧ u.sb ROOTDEV = ⟨0, 0, 0⟩ ∧
      ¬ s.TruncatesRight ROOTDEV 0 := by
  have hdone : ((execute (fun s c => FsCall.act ROOTDEV s c) blankFs
      [.icreate T_FILE 0 0 1, .ilock 0, .writei 0 (fun _ => 7) 0 1, .icreate T_FILE 0 0 1]).map
        fun s => decide (0 < (s.inode 0).ref ∧ (s.inode 0).valid = true ∧
          (s.inode 0).dev = ROOTDEV ∧
          stoppedWith (fun e u => decide (e = .panic "freeing free block" ∧
            u.sb ROOTDEV = ⟨0, 0, 0⟩)) ((itrunc 0).run s) = true)) = some true := by
    decide +kernel
  obtain ⟨s, hexec, hfacts⟩ := Option.map_eq_some_iff.mp hdone
  obtain ⟨href, hvalid, hdev, hstop⟩ := of_decide_eq_true hfacts
  have hrun := Run.of_execute FsCall.step_of_act hexec
  have hsound := blankFs_run hrun
  obtain ⟨e, u, hitrunc, hu⟩ := exists_of_stoppedWith hstop
  obtain ⟨rfl, hsb⟩ := of_decide_eq_true hu
  refine ⟨s, u, hrun, hsound.owners, ⟨href, hvalid, hdev⟩, hitrunc, hsb, ?_⟩
  rintro ⟨bs, t, -, hok, -⟩
  rw [hitrunc] at hok
  cases hok

end Xv6
