/-
# Appending to a file of the image

`iappend` works on a copy of the inode in memory and stores it at the end. Its loop hangs new
blocks into the tree of that copy and fills them, and leaves every other inode alone. It takes
exactly the blocks that the file needs, and it stops only for want of blocks or at the largest size
of a file.
-/

import Xv6.Mkfs.Count
import Xv6.Mkfs.Forest
import Xv6.Math.Hoare

namespace Xv6

open Math

namespace Mkfs

variable {first : Nat} {node : Nat → Dinode} {i off : Nat} {p : List UInt8} {din din' : Dinode}
  {s t : Mkfs}

/-! ### Single accesses -/

/-- Only a sector behind the image cannot be read. -/
theorem rsect_bind {α : Type} {sec : UInt32} {f : Block → MkfsM α} {post : α → Mkfs → Prop}
    {stops : MkfsStop → Prop} (behind : s.sectors ≤ sec.toNat → stops (.exit "read"))
    (rest : sec.toNat < s.sectors → Ensures (fun t => t = s) (f (s.sector sec.toNat)) post stops) :
    Ensures (fun t => t = s) (rsect sec >>= f) post stops := by
  have hread : Ensures (fun t => t = s) (rsect sec)
      (fun d t => t = s ∧ d = s.sector sec.toNat ∧ sec.toNat < s.sectors) stops := by
    refine Ensures.step (s := s) (a := s) (t := s) rfl (Ensures.ite (fun h => ?_) fun h => ?_)
    · exact Ensures.ret ⟨rfl, rfl, h⟩
    · exact Ensures.throw (behind (Nat.le_of_not_lt h))
  refine hread.bindAt ?_
  rintro _ _ ⟨rfl, rfl, h⟩
  exact rest h

/-- The image after a write to one of its sectors. -/
def setSector (s : Mkfs) (b : Nat) (d : Block) : Mkfs :=
  { s with sector := Function.update s.sector b d }

theorem wsect_run {sec : UInt32} (inside : sec.toNat < s.sectors) (d : Block) :
    (wsect sec d).run s = .ok () (s.setSector sec.toNat d) := by
  have hmax : max s.sectors (sec.toNat + 1) = s.sectors := max_eq_left inside
  change EStateM.Result.ok () { s with
    sectors := max s.sectors (sec.toNat + 1), sector := Function.update s.sector sec.toNat d } = _
  rw [hmax]
  rfl

/-- The counters after `freeblock++`. -/
def nextBlock (s : Mkfs) : Mkfs :=
  { s with freeblock := s.freeblock + 1, usedblocks := s.usedblocks + 1 }

theorem newBlock_run (s : Mkfs) : newBlock.run s = .ok s.freeblock s.nextBlock := rfl

/-! ### The loop invariant -/

/-- All blocks that have been handed out are in the image. -/
def Room (first : Nat) (s : Mkfs) : Prop := s.freeblock.toNat ≤ max s.sectors first

/-- The image while inode `i` is being changed; `din` is its copy in memory. -/
structure Open (first : Nat) (node : Nat → Dinode) (i : Nat) (din : Dinode) (s : Mkfs) :
    Prop where
  forest : Forest first s.freeblock.toNat (Function.update node i din) s.sector
  pos : 0 < first
  le : first ≤ s.freeblock.toNat
  small : max s.sectors first + 1 < 2 ^ 32
  used : s.usedblocks = s.freeblock

/-- The bytes `p` have been appended at `off`. -/
structure Appends (first : Nat) (node : Nat → Dinode) (i off : Nat) (p : List UInt8)
    (din : Dinode) (s : Mkfs) (din' : Dinode) (t : Mkfs) : Prop where
  after : Open first node i din' t
  bytes : ∀ o, din'.fileByte t.sector o =
    if off ≤ o ∧ o < off + p.length then p.getD (o - off) 0 else din.fileByte s.sector o
  otherBytes : ∀ j, j ≠ i → ∀ o, (node j).fileByte t.sector o = (node j).fileByte s.sector o
  otherAddrs : ∀ j, j ≠ i → ∀ q, (node j).addrAt t.sector q = (node j).addrAt s.sector q
  low : ∀ b < first, t.sector b = s.sector b
  sectors : t.sectors = s.sectors
  freeinode : t.freeinode = s.freeinode
  fields : din' = { din with addrs := din'.addrs }
  bound : p ≠ [] → off + p.length ≤ MAXFILE * BSIZE

variable {q : Pos} {x : UInt32}

/-- The place of a block in the tree of the inode that is being changed. -/
theorem addrAt_own {x : Nat} (here : din.addrAt s.sector q = x) :
    (Function.update node i din i).addrAt s.sector q = x := by
  rw [Function.update_self]
  exact here

theorem Open.inside (op : Open first node i din s) {x : Nat}
    (here : din.addrAt s.sector q = x) (present : x ≠ 0) : first ≤ x ∧ x < s.freeblock.toNat := by
  have hplace : (Function.update node i din i).addrAt s.sector q = x := addrAt_own here
  have h := op.forest.inside i q (hplace ▸ present)
  rwa [hplace] at h

namespace Appends

theorem refl (op : Open first node i din s) (off : Nat) :
    Appends first node i off [] din s din s where
  after := op
  bytes o := by rw [List.length_nil, if_neg (by omega)]
  otherBytes _ _ _ := rfl
  otherAddrs _ _ _ := rfl
  low _ _ := rfl
  sectors := rfl
  freeinode := rfl
  fields := rfl
  bound h := absurd rfl h

theorem trans {u : Mkfs} {din'' : Dinode} {q : List UInt8}
    (first_part : Appends first node i off p din s din' t)
    (rest : Appends first node i (off + p.length) q din' t din'' u) :
    Appends first node i off (p ++ q) din s din'' u where
  after := rest.after
  bytes o := by
    rw [rest.bytes, first_part.bytes, List.length_append]
    by_cases hq : off + p.length ≤ o ∧ o < off + p.length + q.length
    · rw [if_pos hq, if_pos (by omega), List.getD_append_right _ _ _ _ (by omega)]
      congr 1
      omega
    · rw [if_neg hq]
      by_cases hp : off ≤ o ∧ o < off + p.length
      · rw [if_pos hp, if_pos (by omega), List.getD_append _ _ _ _ (by omega)]
      · rw [if_neg hp, if_neg (by omega)]
  otherBytes j hj o := (rest.otherBytes j hj o).trans (first_part.otherBytes j hj o)
  otherAddrs j hj q := (rest.otherAddrs j hj q).trans (first_part.otherAddrs j hj q)
  low b hb := (rest.low b hb).trans (first_part.low b hb)
  sectors := rest.sectors.trans first_part.sectors
  freeinode := rest.freeinode.trans first_part.freeinode
  fields := by
    rw [rest.fields, first_part.fields]
  bound h := by
    rw [List.length_append]
    by_cases hq : q = []
    · subst hq
      rw [List.append_nil] at h
      exact first_part.bound h
    · have hbound := rest.bound hq
      omega

end Appends

/-! ### Finding the block -/

/-- The block `x` has been found at place `q`, or hung in there. -/
structure Found (first : Nat) (node : Nat → Dinode) (i off : Nat) (din : Dinode) (s : Mkfs)
    (q : Pos) (din' : Dinode) (x : UInt32) (t : Mkfs) : Prop where
  appends : Appends first node i off [] din s din' t
  present : x.toNat ≠ 0
  here : din'.addrAt t.sector q = x.toNat
  room : x.toNat < t.sectors → t.Room first
  places : ∀ r, din'.addrAt t.sector r ≠ 0 ↔ din.addrAt s.sector r ≠ 0 ∨ r = q
  free : t.freeblock.toNat = s.freeblock.toNat + if din.addrAt s.sector q = 0 then 1 else 0

theorem Found.lt (found : Found first node i off din s q din' x t) : x.toNat < t.freeblock.toNat :=
  (found.appends.after.inside found.here found.present).2

theorem Found.of_present (op : Open first node i din s) (room : s.Room first) (off : Nat)
    (here : din.addrAt s.sector q = x.toNat) (present : x ≠ 0) :
    Found first node i off din s q din x s := by
  have hne : x.toNat ≠ 0 := fun h => present (UInt32.toNat_inj.mp h)
  refine ⟨Appends.refl op off, hne, here, fun _ => room, fun r => ?_, ?_⟩
  · refine ⟨.inl, ?_⟩
    rintro (h | rfl)
    · exact h
    · rw [here]
      exact hne
  · rw [here, if_neg hne, Nat.add_zero]

/-- A new block, which has no bytes yet. -/
theorem Found.of_grows (op : Open first node i din s) (room : s.Room first) (off : Nat)
    (grows : Forest.Grows s.freeblock.toNat i q (Function.update node i din) s.sector
      (Function.update node i din') t.sector)
    (counters : t = { s.nextBlock with sector := t.sector })
    (low : ∀ b < first, t.sector b = s.sector b)
    (fields : din' = { din with addrs := din'.addrs }) :
    Found first node i off din s q din' s.freeblock t := by
  have hsmall := op.small
  have hfree : t.freeblock.toNat = s.freeblock.toNat + 1 := by
    unfold Room at room
    rw [counters, nextBlock, UInt32.toNat_add]
    exact Nat.mod_eq_of_lt (by rw [show (1 : UInt32).toNat = 1 from rfl]; omega)
  have hsectors : t.sectors = s.sectors := by
    rw [counters]
    rfl
  have hfreeinode : t.freeinode = s.freeinode := by
    rw [counters]
    rfl
  have hpresent : s.freeblock.toNat ≠ 0 := (op.pos.trans_le op.le).ne'
  have hother (j : Nat) (hj : j ≠ i) (r : Pos) :
      (node j).addrAt t.sector r = (node j).addrAt s.sector r := by
    have h := grows.addrAt j r
    rwa [Function.update_of_ne hj, Function.update_of_ne hj, if_neg fun h => hj h.1] at h
  have hown (r : Pos) : din'.addrAt t.sector r =
      if r = q then s.freeblock.toNat else din.addrAt s.sector r := by
    have h := grows.addrAt i r
    rw [Function.update_self, Function.update_self] at h
    simpa using h
  have habsent : din.addrAt s.sector q = 0 := by
    have h := grows.absent
    rwa [Function.update_self] at h
  have hbyte := op.forest.fileByte_grows grows
  have hafter : Open first node i din' t := by
    refine ⟨?_, op.pos, op.le.trans (by omega), by rw [hsectors]; exact hsmall, ?_⟩
    · rw [hfree]
      exact op.forest.grows op.le grows
    · rw [counters, nextBlock, op.used]
  refine ⟨⟨hafter, fun o => ?_, fun j hj o => ?_, hother, low, hsectors,
    hfreeinode, fields, fun h => absurd rfl h⟩, hpresent, ?_, fun h => ?_,
    fun r => ?_, ?_⟩
  · have h := hbyte i o
    rw [Function.update_self, Function.update_self] at h
    rw [h, List.length_nil, if_neg (by omega)]
  · have h := hbyte j o
    rwa [Function.update_of_ne hj, Function.update_of_ne hj] at h
  · rw [hown, if_pos rfl]
  · rw [Room, hfree]
    exact (Nat.succ_le_of_lt h).trans (le_max_left _ _)
  · rw [hown]
    split
    next h => exact ⟨fun _ => .inr h, fun _ => hpresent⟩
    next h => exact (or_iff_left h).symm
  · rw [hfree, if_pos habsent]

theorem addrOrNew_ensures (op : Open first node i din s) (room : s.Room first) (off : Nat)
    (k : Fin NADDRS) {stops : MkfsStop → Prop} :
    Ensures (fun t => t = s) (addrOrNew din k)
      (fun r t => Found first node i off din s (addrsPos k) r.1 r.2 t) stops := by
  refine Ensures.ite (fun habsent => ?_) fun hpresent => ?_
  · refine Ensures.step (newBlock_run s) (Ensures.ret ?_)
    have hgrows := op.forest.grows_addrs s.freeblock.toNat_lt (Function.update_self ..) habsent
    rw [UInt32.ofNat_toNat, Function.update_idem] at hgrows
    exact Found.of_grows op room off hgrows rfl (fun _ _ => rfl) rfl
  · exact Ensures.ret (Found.of_present op room off (Dinode.addrAt_addrsPos k) hpresent)

theorem entryOrNew_ensures (op : Open first node i din s) (off : Nat)
    (table : q.IsTable) (present : x.toNat ≠ 0)
    (here : din.addrAt s.sector q = x.toNat) (room : x.toNat < s.sectors → s.Room first) {e : Nat}
    (index : e < NADDRBLOCK) :
    Ensures (fun t => t = s) (entryOrNew x e)
      (fun r t => Found first node i off din s (q.child e) din r t)
      fun _ => s.sectors ≤ x.toNat := by
  refine rsect_bind id fun hinside => Ensures.ite (fun habsent => ?_) fun hpresent => ?_
  · refine Ensures.step (newBlock_run s) (Ensures.step
      (wsect_run (s := s.nextBlock) hinside _) (Ensures.ret ?_))
    have hgrows := op.forest.grows_entry op.le op.pos s.freeblock.toNat_lt table index
      (addrAt_own here) present habsent
    rw [UInt32.ofNat_toNat] at hgrows
    have hfirst := (op.inside here present).1
    refine Found.of_grows op (room hinside) off hgrows rfl (fun b hb => ?_) rfl
    exact Function.update_of_ne (by omega) _ _
  · refine Ensures.ret (Found.of_present op (room hinside) off ?_ hpresent)
    rw [Dinode.addrAt_child table, here, entry, if_neg present]

/-- Block `fbn` of a file with `d` data blocks has been found, or hung in with what was missing
for it. -/
structure FoundBlock (first : Nat) (node : Nat → Dinode) (i off : Nat) (din : Dinode) (s : Mkfs)
    (d fbn : Nat) (din' : Dinode) (x : UInt32) (t : Mkfs) : Prop where
  appends : Appends first node i off [] din s din' t
  present : x.toNat ≠ 0
  here : din'.addrAt t.sector (.ofBlock fbn) = x.toNat
  room : x.toNat < t.sectors → t.Room first
  filled : din'.Filled t.sector (max d (fbn + 1))
  free : t.freeblock.toNat = s.freeblock.toNat + cost d fbn

theorem fileBlock_ensures (op : Open first node i din s) (room : s.Room first) (off : Nat)
    {d fbn : Nat} (filled : din.Filled s.sector d) (le : fbn ≤ d) (inside : fbn < MAXFILE) :
    Ensures (fun t => t = s) (fileBlock din fbn)
      (fun r t => FoundBlock first node i off din s d fbn r.1 r.2 t)
      fun _ => s.sectors < s.freeblock.toNat + cost d fbn := by
  have hplace := Pos.ofBlock_inside inside
  unfold fileBlock
  split
  next hdirect =>
    have hpos : Pos.ofBlock fbn = .direct fbn := if_pos hdirect
    refine (addrOrNew_ensures op room off _).weaken (fun r t hfound => ?_) fun _ h => h
    rw [addrsPos, if_pos hdirect] at hfound
    refine ⟨hfound.appends, hfound.present, hpos ▸ hfound.here, hfound.room, fun q hq => ?_, ?_⟩
    · rw [hfound.places, filled q hq, Pos.needed_direct le hdirect]
    · have hneeded := filled (.direct fbn) hdirect
      change _ ↔ fbn < d at hneeded
      have hfree : _ = _ + if din.addrAt s.sector (.direct fbn) = 0 then 1 else 0 := hfound.free
      rw [hfree, cost, newBlocks, if_pos hdirect]
      split_ifs <;> omega
  next hindirect =>
    have hpos : Pos.ofBlock fbn = .data ((fbn - NDIRECT) / NADDRBLOCK)
      ((fbn - NDIRECT) % NADDRBLOCK) := if_neg hindirect
    rw [hpos] at hplace
    set j := (fbn - NDIRECT) / NADDRBLOCK with hj
    set k := (fbn - NDIRECT) % NADDRBLOCK with hk
    have hcost : cost d fbn = if fbn < d then 0 else
        1 + (if fbn = NDIRECT then 1 else 0) + if k = 0 then 1 else 0 := by
      rw [cost, newBlocks, if_neg hindirect]
    -- which of the three blocks are there already
    have hroot : din.addrAt s.sector .root ≠ 0 ↔ NDIRECT < d := filled .root trivial
    have hsecond : din.addrAt s.sector (.second j) ≠ 0 ↔ NDIRECT + NADDRBLOCK * j < d :=
      filled (.second j) hplace.1
    have hdata : din.addrAt s.sector (.data j k) ≠ 0 ↔ NDIRECT + NADDRBLOCK * j + k < d :=
      filled (.data j k) hplace
    refine (addrOrNew_ensures op room off rootIndex).bindAt
      fun r t (htop : Found first node i off din s .root r.1 r.2 t) => ?_
    have htopFree := htop.free
    have htopLt := htop.lt
    have htopSectors := htop.appends.sectors
    refine ((entryOrNew_ensures htop.appends.after off (q := .root) trivial htop.present htop.here
      htop.room hplace.1).weaken (fun _ _ h => h) fun _ h => ?_).bindAt
        fun x u (htable : Found first node i off r.1 t (.second j) r.1 x u) => ?_
    · unfold NDIRECT NADDRBLOCK at *
      split_ifs at hcost htopFree <;> omega
    have htableFree := htable.free
    have hsecond' := htop.places (.second j)
    have htableLt := htable.lt
    have htableSectors := htable.appends.sectors
    refine ((entryOrNew_ensures htable.appends.after off (q := .second j) trivial htable.present
      htable.here htable.room hplace.2).weaken (fun _ _ h => h) fun _ h => ?_).bind fun y =>
        Ensures.pure fun v (hblock : Found first node i off r.1 u (.data j k) r.1 y v) => ?_
    · simp only [reduceCtorEq, or_false] at hsecond'
      unfold NDIRECT NADDRBLOCK at *
      split_ifs at hcost htopFree htableFree <;> omega
    have hblockFree := hblock.free
    have hdata' := htable.places (.data j k)
    rw [htop.places (.data j k)] at hdata'
    refine ⟨htop.appends.trans (htable.appends.trans hblock.appends), hblock.present,
      hpos ▸ hblock.here, hblock.room, fun q hq => ?_, ?_⟩
    · rw [hblock.places, htable.places, htop.places, filled q hq]
      exact Pos.needed_indirect le hindirect hq
    · simp only [reduceCtorEq, or_false] at hsecond' hdata'
      unfold NDIRECT NADDRBLOCK at *
      split_ifs at hcost htopFree htableFree hblockFree <;> omega

/-! ### The loop -/

/-- Some bytes are written into a block of the file. -/
theorem Appends.of_write (op : Open first node i din s) {m : Nat}
    (here : din.addrAt s.sector (.ofBlock (off / BSIZE)) = x.toNat) (present : x.toNat ≠ 0)
    (inside : off / BSIZE < MAXFILE) (some_bytes : m ≤ p.length) (fits : off % BSIZE + m ≤ BSIZE) :
    Appends first node i off (p.take m) din s din
      (s.setSector x.toNat ((s.sector x.toNat).write (off % BSIZE) (fun i => p.getD i 0) m)) := by
  have hplace : (Function.update node i din i).addrAt s.sector (.ofBlock (off / BSIZE)) = x.toNat :=
    addrAt_own here
  have hlength : (p.take m).length = m := by
    rw [List.length_take, Nat.min_eq_left some_bytes]
  have hfirst := (op.inside here present).1
  have hdiv : off = off / BSIZE * BSIZE + off % BSIZE := by
    rw [Nat.mul_comm, Nat.div_add_mod]
  have hbyte := op.forest.fileByte_write
    ((s.sector x.toNat).write (off % BSIZE) (fun i => p.getD i 0) m) hplace present
  refine ⟨⟨op.forest.write _ hplace present, op.pos, op.le, op.small, op.used⟩, fun o => ?_,
    fun j hj o => ?_, fun j hj q => ?_, fun b hb => ?_, rfl, rfl, rfl, fun _ => ?_⟩
  · have h := hbyte i o
    simp only [Function.update_self, true_and] at h
    refine h.trans ?_
    rw [hlength]
    have hmod : o % BSIZE < BSIZE := Nat.mod_lt _ (by decide)
    by_cases hblock : o / BSIZE = off / BSIZE
    · have hodiv : o = off / BSIZE * BSIZE + o % BSIZE := by
        rw [← hblock, Nat.mul_comm, Nat.div_add_mod]
      rw [if_pos hblock, Block.byte_of_lt _ hmod, Block.write]
      by_cases hin : off ≤ o ∧ o < off + m
      · have hin' : off % BSIZE ≤ o % BSIZE ∧ o % BSIZE < off % BSIZE + m := by omega
        have hsub : o % BSIZE - off % BSIZE = o - off := by omega
        rw [if_pos hin, if_pos hin']
        dsimp only
        rw [hsub, List.getD_eq_getElem?_getD, List.getD_eq_getElem?_getD,
          List.getElem?_take_of_lt (by omega)]
      · have hout : ¬ (off % BSIZE ≤ o % BSIZE ∧ o % BSIZE < off % BSIZE + m) := by omega
        rw [if_neg hin, if_neg hout, Dinode.fileByte, hblock, here, if_neg present,
          Block.byte_of_lt _ hmod]
    · have hout : ¬ (off ≤ o ∧ o < off + m) := by
        rintro ⟨hle, hlt⟩
        refine hblock (Nat.div_eq_of_lt_le (by omega) ?_)
        rw [Nat.succ_mul]
        omega
      rw [if_neg hblock, if_neg hout]
  · have h := hbyte j o
    rw [Function.update_of_ne hj, if_neg fun h => hj h.1] at h
    exact h
  · have h := op.forest.addrAt_write
      ((s.sector x.toNat).write (off % BSIZE) (fun i => p.getD i 0) m) hplace present j q
    rw [Function.update_of_ne hj] at h
    exact h
  · exact Function.update_of_ne (by omega) _ _
  · rw [hlength]
    have hle : (off / BSIZE + 1) * BSIZE ≤ MAXFILE * BSIZE := Nat.mul_le_mul_right _ inside
    rw [Nat.succ_mul] at hle
    omega

/-- The file has grown from `off` by `len` bytes and has its blocks. -/
structure Filling (off len : Nat) (s : Mkfs) (din' : Dinode) (t : Mkfs) : Prop where
  filled : din'.Filled t.sector (dataBlocks (off + len))
  free : t.freeblock.toNat + treeBlocks (dataBlocks off) =
    s.freeblock.toNat + treeBlocks (dataBlocks (off + len))

/-- There are not enough blocks to append `len` bytes at `off`, or a file cannot be that large. -/
def Lacks (off len : Nat) (s : Mkfs) : Prop :=
  s.sectors + treeBlocks (dataBlocks off) <
      s.freeblock.toNat + treeBlocks (dataBlocks (off + len)) ∨
    MAXFILE * BSIZE < off + len

theorem iappendLoop_ensures (op : Open first node i din s) (room : s.Room first) {fuel : Nat}
    (enough : p.length ≤ fuel) (filled : din.Filled s.sector (dataBlocks off)) :
    Ensures (fun t => t = s) (iappendLoop fuel din off p)
      (fun r t => Appends first node i off p din s r.1 t ∧ r.2 = off + p.length ∧ t.Room first ∧
        Filling off p.length s r.1 t) fun _ => Lacks off p.length s := by
  induction fuel generalizing din off p s with
  | zero =>
    obtain rfl : p = [] := List.length_eq_zero_iff.mp (by omega)
    exact Ensures.ret ⟨Appends.refl op off, rfl, room, filled, rfl⟩
  | succ fuel ih =>
    refine Ensures.ite (fun hnil => ?_) fun hne => ?_
    · subst hnil
      exact Ensures.ret ⟨Appends.refl op off, rfl, room, filled, rfl⟩
    have hpos : 0 < p.length := List.length_pos_of_ne_nil hne
    refine Ensures.ite (fun hinside => ?_) fun hoverflow => Ensures.throw (.inr ?_)
    · have hmod : off - off / 512 * 512 = off % BSIZE := by
        unfold BSIZE
        omega
      have hmin : min p.length ((off / 512 + 1) * 512 - off) ≤ p.length := Nat.min_le_left _ _
      have hfits : off % BSIZE + min p.length ((off / 512 + 1) * 512 - off) ≤ BSIZE := by
        unfold BSIZE
        omega
      have hleft : 0 < min p.length ((off / 512 + 1) * 512 - off) := by omega
      rw [hmod]
      set m := min p.length ((off / 512 + 1) * 512 - off) with hm
      obtain ⟨hle, hmax, hcost⟩ := dataBlocks_add hleft hfits
      have hgrows := treeBlocks_dataBlocks_mono (show off + m ≤ off + p.length by omega)
      have hblock := fileBlock_ensures op room off filled hle hinside
      refine (hblock.weaken (fun _ _ h => h) fun _ h => .inl (by omega)).bindAt fun r t hfound => ?_
      have hfree := hfound.free
      have hsectors := hfound.appends.sectors
      have hlt := (hfound.appends.after.inside hfound.here hfound.present).2
      refine rsect_bind (fun h => .inl (by omega)) fun hsector =>
        Ensures.step (wsect_run hsector _) ?_
      have hwrite := Appends.of_write hfound.appends.after hfound.here hfound.present hinside hmin
        hfits
      have hfilled : r.1.Filled (t.setSector r.2.toNat ((t.sector r.2.toNat).write (off % BSIZE)
          (fun i => p.getD i 0) m)).sector (dataBlocks (off + m)) := by
        rw [hmax]
        refine hfound.filled.congr fun q => ?_
        have h := hfound.appends.after.forest.addrAt_write
          ((t.sector r.2.toNat).write (off % BSIZE) (fun i => p.getD i 0) m)
          (addrAt_own hfound.here) hfound.present i q
        rw [Function.update_self] at h
        exact h
      have hlength : (p.take m).length = m := by
        rw [List.length_take, Nat.min_eq_left hmin]
      have hdrop : (p.drop m).length = p.length - m := List.length_drop
      have hsum : off + m + (p.drop m).length = off + p.length := by omega
      refine (@ih (off + m) (p.drop m) r.1 _ hwrite.after (hfound.room hsector) (by omega)
        hfilled).weaken ?_ fun _ h => ?_
      · rintro ⟨din', off'⟩ u ⟨happends, hoff, hroom, hfilling, hcount⟩
        rw [hsum] at hoff hfilling hcount
        refine ⟨?_, hoff, hroom, hfilling, ?_⟩
        · have hall := hfound.appends.trans (hwrite.trans (by rw [hlength]; exact happends))
          rwa [List.nil_append, List.take_append_drop] at hall
        · change _ = t.freeblock.toNat + _ at hcount
          omega
      · unfold Lacks at h ⊢
        rw [hsum] at h
        change t.sectors + _ < t.freeblock.toNat + _ ∨ _ at h
        omega
    · have hmax : MAXFILE ≤ off / 512 := Nat.le_of_not_lt hoverflow
      generalize MAXFILE = largest at hmax ⊢
      unfold BSIZE
      omega

end Mkfs

end Xv6
