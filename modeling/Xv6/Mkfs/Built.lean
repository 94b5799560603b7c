/-
# The image builder, operation by operation

Between two operations every inode of the image has the bytes of its file and exactly the blocks
that they need, and the blocks that have been handed out are counted. `main` fails only for a file
that it refuses or for want of blocks.
-/

import Xv6.Fs.Dirents
import Xv6.Mkfs.Append
import Xv6.Mkfs.Regions

namespace Xv6

open Math

namespace Mkfs

variable {first : Nat} {sb : Block} {s t : Mkfs} {inum : UInt32}

/-! ### Inodes -/

/-- Inode `i` of the image. -/
def node (s : Mkfs) (i : Nat) : Dinode :=
  if i < ninodes then (s.sector (IBLOCK i)).dinode (i % IPB) else Dinode.zero

/-- Store inode `i`. -/
def setNode (s : Mkfs) (i : Nat) (n : Dinode) : Mkfs :=
  s.setSector (IBLOCK i) ((s.sector (IBLOCK i)).setDinode (i % IPB) n)

variable {i size : Nat} {bytes : List UInt8} {stops : MkfsStop → Prop} {files : List InputFile}

theorem iblock_lt (inside : i < ninodes) : 2 < IBLOCK i ∧ IBLOCK i < 229 := by
  have hdiv : i / 8 < 25 := Nat.div_lt_of_lt_mul inside
  change 2 < i / 8 + 2 + 201 ∧ i / 8 + 2 + 201 < 229
  omega

theorem i2b_of_inside (inside : inum.toNat < ninodes) : (i2b inum).toNat = IBLOCK inum.toNat :=
  toNat_i2b (inside.trans (by decide))

theorem node_setNode (inside : i < ninodes) (n : Dinode) :
    (s.setNode i n).node = Function.update s.node i n := by
  funext j
  by_cases hj : j = i
  · subst hj
    rw [Function.update_self, node, if_pos inside, setNode, setSector]
    dsimp only
    rw [Function.update_self, Block.dinode_setDinode_self _ (Nat.mod_lt _ (by decide))]
  · rw [Function.update_of_ne hj, node, node]
    split
    next hlt =>
      rw [setNode, setSector]
      dsimp only
      by_cases hblock : IBLOCK j = IBLOCK i
      · have hmod : j % IPB ≠ i % IPB := by
          unfold IBLOCK IPB at *
          omega
        rw [hblock, Function.update_self, Block.dinode_setDinode_ne _ hmod]
      · rw [Function.update_of_ne hblock]
    next => rfl

theorem setNode_sector {b : Nat} {n : Dinode} (h : b ≠ IBLOCK i) :
    (s.setNode i n).sector b = s.sector b := Function.update_of_ne h _ _

/-- The inodes are those of their blocks. -/
theorem node_congr (same : ∀ j < ninodes, t.sector (IBLOCK j) = s.sector (IBLOCK j)) :
    t.node = s.node := by
  funext j
  rw [node, node]
  split
  next hj => rw [same j hj]
  next => rfl

section Access

variable {α : Type} {post : α → Mkfs → Prop} {stops : MkfsStop → Prop}

theorem rinode_bind (inside : inum.toNat < ninodes) {f : Dinode → MkfsM α}
    (behind : s.sectors < 229 → stops (.exit "read"))
    (rest : Ensures (fun t => t = s) (f (s.node inum.toNat)) post stops) :
    Ensures (fun t => t = s) (rinode inum >>= f) post stops := by
  have hblock := i2b_of_inside inside
  have hlt := iblock_lt inside
  rw [rinode, bind_assoc]
  refine rsect_bind (fun h => behind (by omega)) fun _ => ?_
  rw [pure_bind, hblock]
  rw [node, if_pos inside] at rest
  exact rest

theorem winode_bind (inside : inum.toNat < ninodes) (n : Dinode) {f : Unit → MkfsM α}
    (behind : s.sectors < 229 → stops (.exit "read"))
    (rest : Ensures (fun t => t = s.setNode inum.toNat n) (f ()) post stops) :
    Ensures (fun t => t = s) (winode inum n >>= f) post stops := by
  have hblock := i2b_of_inside inside
  have hlt := iblock_lt inside
  rw [winode, bind_assoc]
  refine rsect_bind (fun h => behind (by omega)) fun h => Ensures.step (wsect_run h _) ?_
  rw [hblock]
  exact rest

end Access

/-! ### The image between two operations -/

/-- The image is well formed; its files start at `first` and its super block is `sb`. Every inode
has the blocks for its bytes, and the bitmap has not been written. -/
structure Image (first : Nat) (sb : Block) (s : Mkfs) : Prop where
  forest : Forest first s.freeblock.toNat s.node s.sector
  metadata : 229 < first
  le : first ≤ s.freeblock.toNat
  room : s.Room first
  small : max s.sectors first + 1 < 2 ^ 32
  super : s.sector 1 = sb
  used : s.usedblocks = s.freeblock
  filled : ∀ i, (s.node i).Filled s.sector (dataBlocks (s.node i).size.toNat)
  bitmap : ∀ c, 229 ≤ c → c < first → s.sector c = Block.zero

/-- Inode `i` has the given bytes. -/
structure Holds (s : Mkfs) (i : Nat) (bytes : List UInt8) : Prop where
  type : (s.node i).type = T_FILE
  size : (s.node i).size.toNat = bytes.length
  bound : bytes.length ≤ MAXFILE * BSIZE
  reads : ∀ o < bytes.length, (s.node i).fileByte s.sector o = bytes.getD o 0

/-- What one operation on inode `i` does to the image. -/
structure Changes (first : Nat) (sb : Block) (i : Nat) (s t : Mkfs) : Prop where
  image : Image first sb t
  others : ∀ j, j ≠ i → t.node j = s.node j
  bytes : ∀ j, j ≠ i → ∀ o, (s.node j).fileByte t.sector o = (s.node j).fileByte s.sector o
  sectors : t.sectors = s.sectors

theorem Changes.holds {j : Nat} (changes : Changes first sb i s t)
    (holds : Holds s j bytes) (other : j ≠ i) : Holds t j bytes := by
  obtain ⟨htype, hsize, hbound, hbytes⟩ := holds
  have hnode := changes.others j other
  refine ⟨by rw [hnode]; exact htype, by rw [hnode]; exact hsize, hbound, fun o ho => ?_⟩
  rw [hnode, changes.bytes j other, hbytes o ho]

theorem Changes.refl (image : Image first sb s) (i : Nat) : Changes first sb i s s where
  image := image
  others _ _ := rfl
  bytes _ _ _ := rfl
  sectors := rfl

theorem Changes.trans {u : Mkfs} (first_part : Changes first sb i s t)
    (rest : Changes first sb i t u) : Changes first sb i s u where
  image := rest.image
  others j hj := (rest.others j hj).trans (first_part.others j hj)
  bytes j hj o := by
    have h := rest.bytes j hj o
    rw [first_part.others j hj] at h
    rw [h, first_part.bytes j hj]
  sectors := rest.sectors.trans first_part.sectors

/-- What `iappend` does to inode `i`. -/
structure Grown (first : Nat) (sb : Block) (i : Nat) (p : List UInt8) (s t : Mkfs) : Prop where
  changes : Changes first sb i s t
  type : (t.node i).type = (s.node i).type
  size : (t.node i).size.toNat = (s.node i).size.toNat + p.length
  own : ∀ o, (t.node i).fileByte t.sector o =
    if (s.node i).size.toNat ≤ o ∧ o < (s.node i).size.toNat + p.length then
      p.getD (o - (s.node i).size.toNat) 0
    else (s.node i).fileByte s.sector o
  bound : p ≠ [] → (s.node i).size.toNat + p.length ≤ MAXFILE * BSIZE
  freeinode : t.freeinode = s.freeinode
  free : t.freeblock.toNat + treeBlocks (dataBlocks (s.node i).size.toNat) =
    s.freeblock.toNat + treeBlocks (dataBlocks ((s.node i).size.toNat + p.length))

theorem iappend_ensures (image : Image first sb s) (inside : inum.toNat < ninodes)
    (p : List UInt8) :
    Ensures (fun t => t = s) (iappend inum p) (fun _ t => Grown first sb inum.toNat p s t)
      fun _ => s.sectors < 229 ∨ Lacks (s.node inum.toNat).size.toNat p.length s := by
  set i := inum.toNat with hi
  have hmeta := image.metadata
  have hlt := iblock_lt inside
  have hself : Function.update s.node i (s.node i) = s.node := Function.update_eq_self i s.node
  have hopen : Open first s.node i (s.node i) s := by
    refine ⟨?_, by omega, image.le, image.small, image.used⟩
    rw [hself]
    exact image.forest
  refine rinode_bind inside .inl ?_
  refine ((iappendLoop_ensures hopen image.room le_rfl (image.filled i)).weaken (fun _ _ h => h)
    fun _ => .inr).bindAt ?_
  rintro ⟨din, off⟩ t ⟨happends, hoff, hroom, hfilling⟩
  dsimp only at happends hoff hfilling ⊢
  have hsectors := happends.sectors
  rw [← bind_pure (winode _ _)]
  refine winode_bind inside _ (fun h => .inl (by omega)) (Ensures.ret ?_)
  rw [← hi]
  -- the inodes on disk are still the old ones
  have hnode : t.node = s.node := node_congr fun j hj => happends.low _ (by
    have := iblock_lt hj
    omega)
  have hsize : (UInt32.ofNat off).toNat = (s.node i).size.toNat + p.length := by
    rw [hoff]
    refine UInt32.toNat_ofNat_of_lt' ?_
    by_cases hp : p = []
    · subst hp
      exact (s.node i).size.toNat_lt
    · have hbound := happends.bound hp
      have hmax : MAXFILE * BSIZE < UInt32.size := by decide
      omega
  have hforest := happends.after.forest
  have hhigh (b : Nat) (hb : 229 ≤ b) :
      (t.setNode i { din with size := UInt32.ofNat off }).sector b = t.sector b :=
    setNode_sector (by omega)
  have hfiles (b : Nat) (hb : first ≤ b) := hhigh b (by omega)
  have hnew : (t.setNode i { din with size := UInt32.ofNat off }).node i =
      { din with size := UInt32.ofNat off } := by
    rw [node_setNode inside, Function.update_self]
  have hother (j : Nat) (hj : j ≠ i) :
      (t.setNode i { din with size := UInt32.ofNat off }).node j = s.node j := by
    rw [node_setNode inside, Function.update_of_ne hj, hnode]
  -- neither the trees nor the bytes of files are in the inode blocks
  have haddrOwn (q : Pos) := hforest.addrAt_of_low hfiles i q
  have hbyteOwn (o : Nat) := hforest.fileByte_of_low hfiles i o
  simp only [Function.update_self] at haddrOwn hbyteOwn
  have himage : Image first sb (t.setNode i { din with size := UInt32.ofNat off }) := by
    refine ⟨?_, hmeta, happends.after.le, hroom, happends.after.small, ?_, happends.after.used,
      fun j => ?_, fun c hle hc => ?_⟩
    · refine (hforest.of_addrs fun j => ?_).of_low happends.after.le hfiles
      by_cases hj : j = i
      · rw [hj, hnew, Function.update_self]
      · rw [hother j hj, Function.update_of_ne hj]
    · rw [setNode_sector (by omega), happends.low 1 (by omega), image.super]
    · by_cases hj : j = i
      · subst hj
        rw [hnew, hsize]
        exact hfilling.filled.congr fun q =>
          (Dinode.addrAt_of_addrs (m := din) rfl q).trans (haddrOwn q)
      · rw [hother j hj]
        refine (image.filled j).congr fun q => ?_
        have h := hforest.addrAt_of_low hfiles j q
        rw [Function.update_of_ne hj] at h
        rw [h, happends.otherAddrs j hj]
    · rw [hhigh c hle, happends.low c hc, image.bitmap c hle hc]
  refine ⟨⟨himage, hother, fun j hj o => ?_, hsectors⟩, ?_, ?_, fun o => ?_, happends.bound,
    happends.freeinode, hfilling.free⟩
  · have h := hforest.fileByte_of_low hfiles j o
    rw [Function.update_of_ne hj] at h
    rw [h, happends.otherBytes j hj]
  · rw [hnew]
    exact (congrArg Dinode.type happends.fields :)
  · rw [hnew]
    exact hsize
  · rw [hnew]
    exact (Dinode.fileByte_of_addrs (m := din) rfl o).trans ((hbyteOwn o).trans (happends.bytes o))

theorem ialloc_ensures (image : Image first sb s) (inside : s.freeinode.toNat < ninodes)
    (type : Short) :
    Ensures (fun t => t = s) (ialloc type)
      (fun r t => r = s.freeinode ∧ t.freeinode = s.freeinode + 1 ∧ t.freeblock = s.freeblock ∧
        Changes first sb s.freeinode.toNat s t ∧
        t.node s.freeinode.toNat = ⟨type, 0, 0, 1, 0, fun _ => 0⟩) fun _ => s.sectors < 229 := by
  refine Ensures.step (s := s) (a := s) (t := s) rfl ?_
  refine Ensures.step (s := s) (t := { s with freeinode := s.freeinode + 1 }) rfl ?_
  refine winode_bind inside _ id (Ensures.ret ?_)
  set i := s.freeinode.toNat with hi
  set n : Dinode := ⟨type, 0, 0, 1, 0, fun _ => 0⟩ with hn
  set t : Mkfs := { s with freeinode := s.freeinode + 1 } with ht
  have hlt := iblock_lt inside
  have hmeta := image.metadata
  have hnode : (t.setNode i n).node = Function.update s.node i n := node_setNode inside n
  have hhigh (b : Nat) (hb : 229 ≤ b) : (t.setNode i n).sector b = s.sector b :=
    setNode_sector (by omega)
  have hfiles (b : Nat) (hb : first ≤ b) := hhigh b (by omega)
  refine ⟨rfl, rfl, rfl, ⟨⟨?_, hmeta, image.le, image.room, image.small, ?_, image.used,
    fun j => ?_, fun c hle hc => ?_⟩, fun j hj => ?_, fun j _ o => ?_, rfl⟩, ?_⟩
  · rw [hnode]
    exact (image.forest.of_empty fun _ => rfl).of_low image.le hfiles
  · exact (setNode_sector (by omega)).trans image.super
  · rw [hnode]
    by_cases hj : j = i
    · rw [hj, Function.update_self]
      exact Dinode.filled_of_empty (fun _ => rfl) _
    · rw [Function.update_of_ne hj]
      exact (image.filled j).congr fun q => image.forest.addrAt_of_low hfiles j q
  · rw [hhigh c hle, image.bitmap c hle hc]
  · rw [hnode, Function.update_of_ne hj]
  · exact image.forest.fileByte_of_low hfiles j o
  · rw [hnode, Function.update_self]

/-! ### One file -/

theorem Grown.holds {p : List UInt8} (grown : Grown first sb i p s t)
    (holds : Holds s i bytes) : Holds t i (bytes ++ p) := by
  obtain ⟨htype, hsize, hbound, hreads⟩ := holds
  refine ⟨grown.type.trans htype, ?_, ?_, fun o ho => ?_⟩
  · rw [grown.size, hsize, List.length_append]
  · rw [List.length_append]
    by_cases hp : p = []
    · subst hp
      exact hbound
    · have h := grown.bound hp
      omega
  · rw [List.length_append] at ho
    rw [grown.own, hsize]
    by_cases h : bytes.length ≤ o
    · rw [if_pos ⟨h, ho⟩, List.getD_append_right _ _ _ _ h]
    · rw [if_neg fun hc => h hc.1, hreads o (by omega), List.getD_append _ _ _ _ (by omega)]

/-- What the loop that copies a file does. -/
structure Copied (first : Nat) (sb : Block) (i : Nat) (bytes p : List UInt8) (s t : Mkfs) :
    Prop where
  changes : Changes first sb i s t
  holds : Holds t i (bytes ++ p)
  freeinode : t.freeinode = s.freeinode
  free : t.freeblock.toNat + treeBlocks (dataBlocks bytes.length) =
    s.freeblock.toNat + treeBlocks (dataBlocks (bytes.length + p.length))

/-- The loop that copies a file into the image. -/
theorem chunks_ensures (image : Image first sb s) (inside : inum.toNat < ninodes)
    (holds : Holds s inum.toNat bytes) (chunks : List (List UInt8)) :
    Ensures (fun t => t = s) (chunks.forM (iappend inum))
      (fun _ t => Copied first sb inum.toNat bytes chunks.flatten s t)
      fun _ => s.sectors < 229 ∨ Lacks bytes.length chunks.flatten.length s := by
  induction chunks generalizing s bytes with
  | nil =>
    refine Ensures.ret ⟨Changes.refl image _, ?_, rfl, rfl⟩
    rw [List.flatten_nil, List.append_nil]
    exact holds
  | cons c chunks ih =>
    have htotal : (c :: chunks).flatten.length = c.length + chunks.flatten.length := by
      rw [List.flatten_cons, List.length_append]
    have hgrows := treeBlocks_dataBlocks_mono (show bytes.length + c.length ≤
      bytes.length + (c :: chunks).flatten.length by omega)
    have hstep := iappend_ensures image inside c
    rw [holds.size] at hstep
    refine (hstep.weaken (fun _ _ h => h) fun _ h => ?_).bindAt fun _ t hgrown => ?_
    · unfold Lacks at h ⊢
      omega
    have hsectors := hgrown.changes.sectors
    have hfree := hgrown.free
    rw [holds.size] at hfree
    refine (ih hgrown.changes.image (hgrown.holds holds)).weaken (fun _ u hcopied => ?_)
      fun _ h => ?_
    · refine ⟨hgrown.changes.trans hcopied.changes, ?_, hcopied.freeinode.trans hgrown.freeinode,
        ?_⟩
      · rw [List.flatten_cons, ← List.append_assoc]
        exact hcopied.holds
      · have hcount := hcopied.free
        rw [List.length_append, Nat.add_assoc, ← htotal] at hcount
        omega
    · unfold Lacks at h ⊢
      rw [List.length_append, Nat.add_assoc, ← htotal] at h
      omega

/-- Why a file cannot be added. -/
def Refuses (first n : Nat) (files : List InputFile) : Prop :=
  (∃ f ∈ files, slash ∈ f.name ∨ MAXFILE * BSIZE < f.bytes.length) ∨ n < blocksUsed first files

/-- The image after the files `done`; it has `n` sectors. The root directory has an entry for each
of the files, and the blocks of all files have been counted. -/
structure Built (first : Nat) (sb : Block) (n : Nat) (done : List InputFile) (s : Mkfs) :
    Prop where
  image : Image first sb s
  next : s.freeinode.toNat = done.length + 2
  files : ∀ k f, done[k]? = some f → Holds s (k + 2) f.bytes
  sectors : s.sectors = n
  root : (s.node 1).size.toNat = DIRENT * (done.length + 2)
  free : s.freeblock.toNat = blocksUsed first done

variable {n : Nat} {done : List InputFile}

theorem length_direntBytes (inum : Nat) (name : List UInt8) :
    (direntBytes inum name).length = DIRENT := by
  rw [direntBytes, List.length_cons, List.length_cons, length_strncpy]
  rfl

/-- One more entry of the root directory. -/
theorem rootEntry_ensures {k : Nat} (image : Image first sb s) (few : k < ninodes)
    (size : (s.node 1).size.toNat = DIRENT * k) (i : Nat) (name : List UInt8) :
    Ensures (fun t => t = s) (iappend 1 (direntBytes i name))
      (fun _ t => Changes first sb 1 s t ∧ t.freeinode = s.freeinode ∧
        (t.node 1).size.toNat = DIRENT * (k + 1) ∧
        t.freeblock.toNat + treeBlocks (dataBlocks (DIRENT * k)) =
          s.freeblock.toNat + treeBlocks (dataBlocks (DIRENT * (k + 1))))
      fun _ => s.sectors < 229 ∨ s.sectors + treeBlocks (dataBlocks (DIRENT * k)) <
        s.freeblock.toNat + treeBlocks (dataBlocks (DIRENT * (k + 1))) := by
  have hinside : (1 : UInt32).toNat < ninodes := by decide
  have hentry := iappend_ensures image hinside (direntBytes i name)
  rw [show (1 : UInt32).toNat = 1 from rfl, size, length_direntBytes] at hentry
  refine hentry.weaken (fun _ t hgrown => ?_) fun _ h => ?_
  · have hsize := hgrown.size
    have hfree := hgrown.free
    rw [size, length_direntBytes] at hsize hfree
    exact ⟨hgrown.changes, hgrown.freeinode, hsize, hfree⟩
  · -- the root directory is far smaller than the largest file
    have hlarge : DIRENT * ninodes ≤ MAXFILE * BSIZE := by decide
    have hroot : DIRENT * (k + 1) ≤ DIRENT * ninodes := Nat.mul_le_mul_left _ few
    exact h.imp_right fun h => h.resolve_right (hroot.trans hlarge).not_gt

theorem addFile_ensures (built : Built first sb n done s) (few : done.length + 2 < ninodes)
    (f : InputFile) :
    Ensures (fun t => t = s) (addFile 1 f) (fun _ t => Built first sb n (done ++ [f]) t)
      fun _ => Refuses first n (done ++ [f]) := by
  have hcount := blocksUsed_concat first done f
  have hmem : f ∈ done ++ [f] := List.mem_append_right _ (List.mem_singleton_self f)
  have hmeta := built.image.metadata
  have hn := built.sectors
  have hfree := built.free
  have hinside : s.freeinode.toNat < ninodes := by
    rw [built.next]
    exact few
  have hother : s.freeinode.toNat ≠ 1 := by
    rw [built.next]
    omega
  have hused : first ≤ blocksUsed first (done ++ [f]) := by
    unfold blocksUsed
    omega
  refine Ensures.ite (fun hslash => Ensures.throw (.inl ⟨f, hmem, .inl hslash⟩)) fun _ => ?_
  -- the new inode
  refine ((ialloc_ensures built.image hinside T_FILE).weaken (fun _ _ h => h)
    fun _ h => .inr (by omega)).bindAt ?_
  rintro _ t ⟨rfl, htinode, htfree, halloc, hnode⟩
  have htsectors := halloc.sectors
  -- its entry in the root directory
  refine ((rootEntry_ensures halloc.image few ((congrArg (·.size.toNat) (halloc.others 1
    hother.symm)).trans built.root) _ _).weaken (fun _ _ h => h)
      fun _ h => ?_).bindAt fun _ u hu => ?_
  · rw [htfree] at h
    exact .inr (by omega)
  obtain ⟨hentry, huinode, husize, hufree⟩ := hu
  have husectors := hentry.sectors
  rw [htfree] at hufree
  -- its contents
  have hempty : Holds t s.freeinode.toNat [] := by
    refine ⟨by rw [hnode], by rw [hnode]; rfl, Nat.zero_le _, fun o ho => ?_⟩
    exact absurd ho (Nat.not_lt_zero o)
  have hzero : treeBlocks (dataBlocks 0) = 0 := by decide
  refine (chunks_ensures hentry.image hinside (hentry.holds hempty hother) f.chunks).weaken
    (fun _ v hcopied => ?_) fun _ h => ?_
  · have hvfree := hcopied.free
    rw [List.length_nil, hzero, Nat.zero_add] at hvfree
    change _ = _ + treeBlocks (dataBlocks f.bytes.length) at hvfree
    refine ⟨hcopied.changes.image, ?_, fun k g hg => ?_, ?_, ?_, by omega⟩
    · rw [hcopied.freeinode, huinode, htinode, UInt32.toNat_add, built.next, List.length_append]
      unfold ninodes at few
      exact Nat.mod_eq_of_lt (by change done.length + 2 + 1 < 2 ^ 32; omega)
    · by_cases hk : k < done.length
      · rw [List.getElem?_append_left hk] at hg
        have hk' : k + 2 ≠ s.freeinode.toNat := by
          rw [built.next]
          omega
        exact hcopied.changes.holds
          (hentry.holds (halloc.holds (built.files k g hg) hk') (by omega)) hk'
      · rw [List.getElem?_append_right (by omega)] at hg
        obtain ⟨h, hg'⟩ := List.getElem?_eq_some_iff.mp hg
        simp only [List.length_cons, List.length_nil] at h
        obtain rfl : k = done.length := by omega
        simp only [Nat.sub_self, List.getElem_cons_zero] at hg'
        rw [← hg', ← built.next]
        exact hcopied.holds
    · rw [hcopied.changes.sectors, husectors, htsectors, hn]
    · rw [hcopied.changes.others 1 hother.symm, husize, List.length_append,
        List.length_singleton]
  · rw [Lacks, List.length_nil, hzero, Nat.zero_add] at h
    change _ ∨ _ < _ + treeBlocks (dataBlocks f.bytes.length) ∨ _ < f.bytes.length at h
    rcases h with h | h | h
    · exact .inr (by omega)
    · exact .inr (by omega)
    · exact .inl ⟨f, hmem, .inr h⟩

/-- More files do not help. -/
theorem Refuses.append (refuses : Refuses first n done) (files : List InputFile) :
    Refuses first n (done ++ files) := by
  rcases refuses with ⟨f, hf, h⟩ | h
  · exact .inl ⟨f, List.mem_append_left _ hf, h⟩
  · exact .inr (h.trans_le (blocksUsed_mono first done files))

theorem files_ensures (built : Built first sb n done s) (files : List InputFile)
    (few : done.length + files.length + 2 ≤ ninodes) :
    Ensures (fun t => t = s) (files.forM (addFile 1))
      (fun _ t => Built first sb n (done ++ files) t)
      fun _ => Refuses first n (done ++ files) := by
  induction files generalizing s done with
  | nil =>
    rw [List.append_nil]
    exact Ensures.ret built
  | cons f files ih =>
    rw [List.length_cons] at few
    rw [List.append_cons]
    refine ((addFile_ensures built (by omega) f).weaken (fun _ _ h => h)
      fun _ h => h.append files).bindAt fun _ t hbuilt => ih hbuilt ?_
    rw [List.length_append, List.length_singleton]
    omega

/-! ### The whole program -/

theorem firstblock_eq (size : Nat) : firstblock size = size / 4096 + 230 := by
  change 200 / 8 + 3 + (size / (512 * 8) + 1) + 201 = _
  omega

/-- The loop that zeroes the image. -/
theorem zeroLoop_run (small : size ≤ 65534) (fresh : s.sector = fun _ => Block.zero) :
    ((List.range size).forM fun i => wsect (UInt32.ofNat i) Block.zero).run s =
      .ok () { s with sectors := max s.sectors size } := by
  induction size with
  | zero =>
    rw [Nat.max_zero]
    rfl
  | succ size ih =>
    have hnat : (UInt32.ofNat size).toNat = size := UInt32.toNat_ofNat_of_lt' (by
      change size < 2 ^ 32
      omega)
    have hself : Function.update s.sector size Block.zero = s.sector := by
      rw [fresh]
      exact Function.update_eq_self size fun _ => Block.zero
    rw [List.forM_eq_forM] at ih ⊢
    rw [List.range_succ, List.forM_append, run_bind_of_ok (ih (by omega))]
    change EStateM.Result.ok () _ = _
    dsimp only
    rw [hnat, hself, Nat.max_assoc, Nat.max_eq_right (Nat.le_succ size)]

/-- The zeroed image. -/
theorem mkBlank_ensures (small : size ≤ 65534) (pastSb pastJsb : Block) :
    Ensures (fun t => t = start) (mkBlank size pastSb pastJsb)
      (fun _ t => Image (firstblock size) (superblockOf size pastSb) t ∧ t.freeinode = 1 ∧
        t.sectors = max size 3 ∧ t.freeblock.toNat = firstblock size) stops := by
  have hfirst := firstblock_eq size
  have hfree : (UInt32.ofNat (firstblock size)).toNat = firstblock size :=
    UInt32.toNat_ofNat_of_lt' (by change _ < 2 ^ 32; omega)
  refine Ensures.step (s := start) (t := { start with
    freeblock := UInt32.ofNat (firstblock size),
    usedblocks := UInt32.ofNat (firstblock size) }) rfl ?_
  refine Ensures.step (zeroLoop_run small rfl) ?_
  refine Ensures.step (a := ()) rfl (Ensures.modify ?_)
  rintro t rfl
  have hsectors : max (max (max start.sectors size) 2) 3 = max size 3 := by
    change max (max (max 0 size) 2) 3 = _
    omega
  have hzero (b : Nat) (hb : 2 < b) (d d' : Block) : Function.update
      (Function.update start.sector (1 : UInt32).toNat d) (2 : UInt32).toNat d' b =
        Block.zero := by
    have hone : (1 : UInt32).toNat = 1 := rfl
    have htwo : (2 : UInt32).toNat = 2 := rfl
    rw [Function.update_of_ne (by omega), Function.update_of_ne (by omega)]
    rfl
  have hnode (i : Nat) (d d' : Block) (m : Nat) (fb ub fi : UInt32) : (Mkfs.mk m (Function.update
      (Function.update start.sector (1 : UInt32).toNat d) (2 : UInt32).toNat d') fb ub fi).node i =
        Dinode.zero := by
    rw [node]
    split
    next hi =>
      dsimp only
      rw [hzero _ (iblock_lt hi).1, Block.dinode_zero]
    next => rfl
  refine ⟨⟨⟨fun i p h => ?_, fun i j p q h => ?_, fun b hb => hzero b ?_ _ _⟩, by omega, hfree.ge,
    hfree.le.trans (le_max_right _ _), ?_, rfl, rfl, fun i => ?_, fun c hc _ => hzero c ?_ _ _⟩,
    rfl, hsectors, hfree⟩
  · rw [hnode, Dinode.addrAt_of_empty fun _ => rfl] at h
    exact absurd rfl h
  · rw [hnode, Dinode.addrAt_of_empty fun _ => rfl] at h
    exact absurd rfl h
  · change (UInt32.ofNat (firstblock size)).toNat ≤ b at hb
    omega
  · change max (max (max (max 0 size) 2) 3) (firstblock size) + 1 < 2 ^ 32
    omega
  · rw [hnode]
    exact Dinode.filled_of_empty (fun _ => rfl) _
  · omega

/-- The root directory. -/
theorem mkRoot_ensures (image : Image first sb s) (fresh : s.freeinode = 1)
    (free : s.freeblock.toNat = first) :
    Ensures (fun t => t = s) mkRoot (fun r t => r = 1 ∧ Built first sb s.sectors [] t)
      fun _ => Refuses first s.sectors [] := by
  have hmeta := image.metadata
  have hempty : blocksUsed first [] = first + 1 := rfl
  refine ((ialloc_ensures image (by rw [fresh]; decide) T_DIR).weaken (fun _ _ h => h)
    fun _ h => .inr (by omega)).bindAt ?_
  rintro _ t ⟨rfl, htinode, htfree, halloc, hnode⟩
  rw [fresh] at hnode halloc htinode ⊢
  have htsectors := halloc.sectors
  refine Ensures.ite (fun _ => ?_) fun h => absurd rfl h
  refine ((rootEntry_ensures (k := 0) halloc.image (by decide) (congrArg (·.size.toNat) hnode) _
    _).weaken (fun _ _ h => h) fun _ h => ?_).bindAt fun _ u hu => ?_
  · change _ ∨ t.sectors + 0 < t.freeblock.toNat + 1 at h
    rw [htfree] at h
    exact .inr (by omega)
  obtain ⟨hdot, huinode, husize, hufree⟩ := hu
  change u.freeblock.toNat + 0 = t.freeblock.toNat + 1 at hufree
  rw [htfree] at hufree
  have husectors := hdot.sectors
  refine ((rootEntry_ensures hdot.image (by decide) husize _ _).weaken (fun _ _ h => h)
    fun _ h => ?_).bindAt fun _ v hv => ?_
  · change _ ∨ u.sectors + 1 < u.freeblock.toNat + 1 at h
    exact .inr (by omega)
  obtain ⟨hdotdot, hvinode, hvsize, hvfree⟩ := hv
  change v.freeblock.toNat + 1 = u.freeblock.toNat + 1 at hvfree
  refine Ensures.ret ⟨rfl, hdotdot.image, ?_, nofun, ?_, hvsize, by omega⟩
  · rw [hvinode, huinode, htinode]
    rfl
  · rw [hdotdot.sectors, husectors, htsectors]

/-- A finished image of `n` sectors. -/
structure Finished (first : Nat) (sb : Block) (n : Nat) (files : List InputFile) (s : Mkfs) :
    Prop where
  forest : Forest first s.freeblock.toNat s.node s.sector
  le : first ≤ s.freeblock.toNat
  room : s.freeblock.toNat ≤ n
  super : s.sector 1 = sb
  holds : ∀ k f, files[k]? = some f → Holds s (k + 2) f.bytes
  filled : ∀ i, i ≠ 1 → (s.node i).Filled s.sector (dataBlocks (s.node i).size.toNat)
  size : (s.node 1).size.toNat = (DIRENT * (files.length + 2) / BSIZE + 1) * BSIZE
  root : (s.node 1).Filled s.sector (dataBlocks (DIRENT * (files.length + 2)))
  free : s.freeblock.toNat = blocksUsed first files
  used : s.usedblocks = s.freeblock
  bitmap : s.sector 229 = bitmap s.usedblocks.toNat
  zero : ∀ c, 229 < c → c < first → s.sector c = Block.zero

/-- The end of the program. -/
theorem Built.finish (built : Built first sb n files s)
    (few : files.length + 2 ≤ ninodes) (room : first < n) :
    Ensures (fun t => t = s) (do fixRoot 1; let s ← get; balloc s.usedblocks.toNat)
      (fun _ t => Finished first sb n files t) stops := by
  have hone : (1 : UInt32).toNat < ninodes := by decide
  have hlt := iblock_lt hone
  have image := built.image
  have hmeta := image.metadata
  have hn := built.sectors
  rw [fixRoot, bind_assoc]
  refine rinode_bind hone (fun h => by omega) (winode_bind hone _ (fun h => by omega) ?_)
  rw [show (1 : UInt32).toNat = 1 from rfl] at hlt ⊢
  rw [built.root]
  set d := { s.node 1 with
    size := UInt32.ofNat ((DIRENT * (files.length + 2) / BSIZE + 1) * BSIZE) } with hd
  set u := s.setNode 1 d with hu
  have hsector : (UInt32.ofNat (ninodes / IPB + NJB + 3)).toNat = 229 := rfl
  have hballoc : (balloc u.usedblocks.toNat).run u =
      .ok () (u.setSector 229 (Mkfs.bitmap u.usedblocks.toNat)) := by
    rw [balloc, wsect_run (by rw [hsector]; change 229 < s.sectors; omega), hsector]
  refine Ensures.step (s := u) (a := u) (t := u) rfl ?_
  rintro _ rfl
  rw [hballoc]
  dsimp only
  set t := u.setSector 229 (Mkfs.bitmap u.usedblocks.toNat) with ht
  have hnode : t.node = Function.update s.node 1 d := by
    rw [← node_setNode (i := 1) hone, ← hu]
    refine node_congr fun j hj => Function.update_of_ne ?_ _ _
    exact (iblock_lt hj).2.ne
  have hsame (c : Nat) (hc : c ≠ 229) (hc' : c ≠ IBLOCK 1) : t.sector c = s.sector c :=
    (Function.update_of_ne hc _ _).trans (setNode_sector hc')
  have hfiles (b : Nat) (hb : first ≤ b) : t.sector b = s.sector b :=
    hsame b (by omega) (by omega)
  have haddrs (j : Nat) : (t.node j).addrs = (s.node j).addrs := by
    rw [hnode]
    by_cases hj : j = 1
    · rw [hj, Function.update_self]
    · rw [Function.update_of_ne hj]
  have haddr (j : Nat) (q : Pos) : (t.node j).addrAt t.sector q = (s.node j).addrAt s.sector q :=
    (Dinode.addrAt_of_addrs (haddrs j) q).trans (image.forest.addrAt_of_low hfiles j q)
  have hother (j : Nat) (hj : j ≠ 1) : t.node j = s.node j := by
    rw [hnode, Function.update_of_ne hj]
  have hroom := image.room
  unfold Room at hroom
  refine ⟨(image.forest.of_addrs haddrs).of_low image.le hfiles, image.le, ?_, ?_,
    fun k f hf => ?_, fun i hi => ?_, ?_, ?_, built.free, image.used, ?_, fun c hle hc => ?_⟩
  · exact hroom.trans (by omega)
  · rw [hsame 1 (by decide) (by omega), image.super]
  · obtain ⟨htype, hsize, hbound, hreads⟩ := built.files k f hf
    have h := hother (k + 2) (by omega)
    refine ⟨by rw [h]; exact htype, by rw [h]; exact hsize, hbound, fun o ho => ?_⟩
    rw [h, image.forest.fileByte_of_low hfiles, hreads o ho]
  · have hfilled := image.filled i
    rw [← hother i hi] at hfilled
    refine hfilled.congr fun q => ?_
    rw [haddr, hother i hi]
  · rw [hnode, Function.update_self]
    refine UInt32.toNat_ofNat_of_lt' ?_
    unfold ninodes at few
    unfold DIRENT BSIZE
    change _ < 2 ^ 32
    omega
  · have hfilled := image.filled 1
    rw [built.root] at hfilled
    exact hfilled.congr (haddr 1)
  · exact Function.update_self 229 (Mkfs.bitmap u.usedblocks.toNat) u.sector
  · rw [hsame c (by omega) (by omega), image.bitmap c (by omega) hc]

/-- What the program leaves behind when it finishes, and why it can fail to finish. -/
theorem main_ensures (kb : Int) (few : files.length ≤ ninodes - 2) (pastSb pastJsb : Block) :
    Ensures (fun t => t = start) (main kb files pastSb pastJsb)
      (fun _ t => Finished (firstblock (kb.toNat * 1024 / BSIZE))
          (superblockOf (kb.toNat * 1024 / BSIZE) pastSb) (kb.toNat * 1024 / BSIZE) files t ∧
        kb.toNat * 1024 / BSIZE ≤ 65534)
      fun _ => kb < 1 ∨ 32767 < kb ∨
        Refuses (firstblock (kb.toNat * 1024 / BSIZE)) (kb.toNat * 1024 / BSIZE) files := by
  have hfew : files.length + 2 ≤ ninodes := by
    unfold ninodes at few ⊢
    omega
  refine Ensures.ite (fun h => Ensures.throw (.inl h)) fun hlow => ?_
  refine Ensures.ite (fun h => Ensures.throw (.inr (.inl h))) fun hhigh => ?_
  have hlimit : kb.toNat * 1024 / BSIZE ≤ 65534 := by
    unfold BSIZE
    omega
  generalize kb.toNat * 1024 / BSIZE = size at *
  have hfirst := firstblock_eq size
  refine (mkBlank_ensures hlimit pastSb pastJsb).bindAt ?_
  rintro _ s ⟨himage, hfresh, hsectors, hfree⟩
  -- an image of less than three sectors has no room for anything either
  have hrefuses (h : Refuses (firstblock size) s.sectors files) :
      kb < 1 ∨ 32767 < kb ∨ Refuses (firstblock size) size files := by
    refine .inr (.inr (h.imp_right fun hlt => ?_))
    have : firstblock size ≤ blocksUsed (firstblock size) files := by
      unfold blocksUsed
      omega
    omega
  refine ((mkRoot_ensures himage hfresh hfree).weaken (fun _ _ h => h)
    fun _ h => hrefuses (h.append files)).bindAt ?_
  rintro _ t ⟨rfl, hbuilt⟩
  have hroom := hbuilt.image.room
  have hroot := hbuilt.free
  change _ = firstblock size + 1 at hroot
  unfold Room at hroom
  rw [hbuilt.sectors] at hroom
  have hn : s.sectors = size := by omega
  refine ((files_ensures hbuilt files (by rw [List.length_nil]; omega)).weaken (fun _ _ h => h)
    fun _ h => hrefuses h).bindAt fun _ u hfiles => ?_
  rw [hn, List.nil_append] at hfiles
  exact (hfiles.finish hfew (by omega)).weaken (fun _ _ h => ⟨h, hlimit⟩) fun _ h => h

end Mkfs

end Xv6
