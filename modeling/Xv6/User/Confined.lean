/-
# User buffers

`argptr` adds the length to the pointer as `uint`s and compares the sum with the size of the
process. A length of an `int` that is negative passes the test as well, and `readi` and `writei`
take it for a huge `uint`. This file says for which arguments, and for which files, a read or a
write stays in the buffer of the caller.
-/

import Xv6.User.Copy

namespace Xv6

open Math Fs

namespace Copying

/-- The addresses accessed in between all have the property. -/
def Touches (range : Nat → Prop) (s t : Copying) : Prop :=
  ∃ new, t.touched = new ++ s.touched ∧ ∀ a ∈ new, range a

instance (range : Nat → Prop) : IsPreorder Copying (Touches range) where
  refl _ := ⟨[], rfl, fun _ h => absurd h List.not_mem_nil⟩
  trans := by
    rintro s t u ⟨new, hnew, hrange⟩ ⟨new', hnew', hrange'⟩
    refine ⟨new' ++ new, by rw [hnew', hnew, List.append_assoc], fun a ha => ?_⟩
    rcases List.mem_append.mp ha with h | h
    · exact hrange' a h
    · exact hrange a h

variable {s : Copying} {a : Nat} {ip : InodeId} {n : Int32} {sz i : UInt32} {call : CopyM Int}

section Touches

variable {range : Nat → Prop}

theorem Touches.of_same {t : Copying} (same : t.touched = s.touched) : Touches range s t :=
  ⟨[], same, fun _ h => absurd h List.not_mem_nil⟩

theorem modify_touches (change : Copying → Copying)
    (same : ∀ s, (change s).touched = s.touched) :
    Evolves (Touches range) (modify change : CopyM PUnit) :=
  Evolves.modify fun s => Touches.of_same (same s)

theorem lift_touches {α : Type} (x : FsM α) : Evolves (Touches range) (lift x) := by
  have hkeeps : Keeps Copying.touched (lift x) := by
    rw [lift_eq_zoom]
    exact keeps_zoom fun _ _ => rfl
  exact fun s => Touches.of_same (hkeeps s)

theorem poke_touches (inside : range a) (c : UInt8) : Evolves (Touches range) (poke a c) :=
  Evolves.modify fun _ => ⟨[a], rfl, fun _ h => List.mem_singleton.mp h ▸ inside⟩

theorem peek_touches (inside : range a) : Evolves (Touches range) (peek a) := by
  refine Evolves.bind (Evolves.modify fun _ => ⟨[a], rfl, fun _ h => ?_⟩) fun _ => ?_
  · exact List.mem_singleton.mp h ▸ inside
  · exact Evolves.bind Evolves.get fun _ => Evolves.pure _

variable {dst src fuel off left : Nat}

theorem copyOut_touches {bytes : List UInt8}
    (inside : ∀ a, dst ≤ a → a < dst + bytes.length → range a) :
    Evolves (Touches range) (copyOut dst bytes) := by
  induction bytes generalizing dst with
  | nil => exact Evolves.pure _
  | cons c cs ih =>
    rw [List.length_cons] at inside
    refine Evolves.bind (poke_touches (inside dst le_rfl (by omega)) c) fun _ => ?_
    exact ih fun a h h' => inside a (by omega) (by omega)

theorem copyIn_touches {m : Nat} (inside : ∀ a, src ≤ a → a < src + m → range a) :
    Evolves (Touches range) (copyIn src m) := by
  induction m generalizing src with
  | zero => exact Evolves.pure _
  | succ m ih =>
    refine Evolves.bind (peek_touches (inside src le_rfl (by omega))) fun _ => ?_
    refine Evolves.bind (ih fun a h h' => inside a (by omega) (by omega)) fun _ => ?_
    exact Evolves.pure _

theorem length_read (d : Block) (pos m : Nat) : (d.read pos m).length = m := by
  rw [Block.read, List.length_map, List.length_range]

/-! ### Inodes -/

theorem readiLoop_touches (inside : ∀ a, dst ≤ a → a < dst + left → range a) :
    Evolves (Touches range) (readiLoop ip fuel dst off left) := by
  induction fuel generalizing dst off left with
  | zero => exact Evolves.pure _
  | succ fuel ih =>
    rw [readiLoop]
    refine Evolves.ite (fun _ => Evolves.pure _) fun _ => ?_
    refine (lift_touches _).bind fun r => (lift_touches _).bind fun bno =>
      (lift_touches _).bind fun bp => Evolves.bind ?_ fun _ => ?_
    · refine copyOut_touches fun a h h' => inside a h ?_
      rw [length_read] at h'
      omega
    · exact ih fun a h h' => inside a (by omega) (by omega)

theorem writeiLoop_touches {n tot : Nat} (inside : ∀ a, src ≤ a → a < src + (n - tot) → range a) :
    Evolves (Touches range) (writeiLoop ip n fuel src tot off) := by
  induction fuel generalizing src tot off with
  | zero => exact Evolves.pure _
  | succ fuel ih =>
    rw [writeiLoop]
    refine Evolves.ite (fun _ => ?_) fun _ => Evolves.pure _
    refine (lift_touches _).bind fun r => (lift_touches _).bind fun bno =>
      (lift_touches _).bind fun bp => Evolves.bind ?_ fun _ => (lift_touches _).bind fun _ => ?_
    · exact copyIn_touches fun a h h' => inside a h (by omega)
    · exact ih fun a h h' => inside a (by omega) (by omega)

theorem load_run (ip : InodeId) (s : Copying) : (lift (load ip)).run s = .ok (s.fs.inode ip) s :=
  rfl

/-- What comes after a `bmap` that does not return accesses nothing. -/
theorem bmap_stops {α : Type} {bn : Nat} {alloc : Bool} {rest : Inode → UInt32 → CopyM α}
    (stops : ∀ b u, (bmap ip bn alloc).run s.fs ≠ .ok b u) :
    Touches range s (endState
      ((lift (load ip) >>= fun r => lift (bmap ip bn alloc) >>= rest r).run s)) := by
  rw [run_bind_of_ok (load_run ip s)]
  cases hmap : (bmap ip bn alloc).run s.fs with
  | ok b u => exact absurd hmap (stops b u)
  | error e u =>
    rw [run_bind_of_error (lift_run_of_error hmap)]
    exact Touches.of_same rfl

theorem writeiLoop_stops {n tot : Nat}
    (stops : ∀ b u, (bmap ip (off / BSIZE) true).run s.fs ≠ .ok b u) :
    Touches range s (endState ((writeiLoop ip n fuel src tot off).run s)) := by
  cases fuel with
  | zero => exact Evolves.pure _ s
  | succ fuel =>
    rw [writeiLoop]
    by_cases hmore : tot < n
    · rw [if_pos hmore]
      exact bmap_stops stops
    · rw [if_neg hmore]
      exact Evolves.pure _ s

theorem readiLoop_stops (stops : ∀ b u, (bmap ip (off / BSIZE) false).run s.fs ≠ .ok b u) :
    Touches range s (endState ((readiLoop ip fuel dst off left).run s)) := by
  cases fuel with
  | zero => exact Evolves.pure _ s
  | succ fuel =>
    rw [readiLoop]
    by_cases hdone : left = 0
    · rw [if_pos hdone]
      exact Evolves.pure _ s
    · rw [if_neg hdone]
      exact bmap_stops stops

/-- Behind the largest file size `bmap` panics. -/
theorem bmap_behind {alloc : Bool} {f : Fs} (behind : MAXFILE * BSIZE ≤ off) (b : UInt32) (u : Fs) :
    (bmap ip (off / BSIZE) alloc).run f ≠ .ok b u := by
  have hblock : MAXFILE ≤ off / BSIZE := (Nat.le_div_iff_mul_le (by decide)).mpr behind
  unfold MAXFILE at hblock
  rw [bmap, dif_neg (by omega), if_neg (by omega)]
  intro h
  cases h

theorem consoleReadLoop_touches {keys : List (Option UInt8)} {got n : Nat}
    (inside : ∀ a, dst ≤ a → a < dst + n → range a) :
    Evolves (Touches range) (consoleReadLoop keys dst got n) := by
  induction keys generalizing dst got n with
  | nil =>
    cases n with
    | zero => exact Evolves.pure _
    | succ n => exact Evolves.throw _
  | cons key keys ih =>
    cases n with
    | zero =>
      rw [consoleReadLoop]
      exact Evolves.pure _
    | succ n =>
      cases key with
      | none => exact Evolves.bind (modify_touches _ fun _ => rfl) fun _ => Evolves.pure _
      | some c =>
        rw [consoleReadLoop]
        refine Evolves.ite (fun _ => ?_) fun _ => ?_
        · exact Evolves.bind (modify_touches _ fun _ => rfl) fun _ => Evolves.pure _
        · refine Evolves.bind (modify_touches _ fun _ => rfl) fun _ => ?_
          refine (poke_touches (inside dst le_rfl (by omega)) c).bind fun _ => ?_
          refine Evolves.ite (fun _ => Evolves.pure _) fun _ => ?_
          exact ih fun a h h' => inside a (by omega) (by omega)

theorem consoleRead_touches {n : Int} (inside : ∀ a, dst ≤ a → a < dst + n.toNat → range a) :
    Evolves (Touches range) (consoleRead ip dst n) := by
  refine (lift_touches _).bind fun _ => Evolves.get.bind fun s =>
    (consoleReadLoop_touches inside).bind fun got => (lift_touches _).bind fun _ => ?_
  cases got <;> exact Evolves.pure _

theorem consoleWrite_touches {n : Int} (inside : ∀ a, src ≤ a → a < src + n.toNat → range a) :
    Evolves (Touches range) (consoleWrite ip src n) :=
  (lift_touches _).bind fun _ => (copyIn_touches inside).bind fun _ =>
    (lift_touches _).bind fun _ => Evolves.pure _

theorem int32_toNat_le (n : Nat) : (int32 n).toNat ≤ n := by
  unfold int32
  split <;> omega

/-- `readi` stores `n` bytes at most. -/
theorem readi_touches {n : Nat} (inside : ∀ a, dst ≤ a → a < dst + n → range a) :
    Evolves (Touches range) (readi ip dst off n) := by
  refine (lift_touches _).bind fun r => Evolves.ite (fun _ => ?_) fun _ => ?_
  · refine Evolves.ite (fun _ => ?_) fun _ => Evolves.pure _
    have hle := int32_toNat_le n
    exact consoleRead_touches fun a h h' => inside a h (by omega)
  · refine Evolves.ite (fun _ => Evolves.pure _) fun hrange => ?_
    refine Evolves.bind (readiLoop_touches fun a h h' => inside a h ?_) fun _ => Evolves.pure _
    split at h' <;> omega

/-- After its loop `writei` stores the size. -/
theorem grow_touches {c : Inode → Prop} [∀ r, Decidable (c r)] (f : Dinode → Dinode)
    (result : Int) : Evolves (Touches range) (lift (load ip) >>= fun r => if c r then
      (lift (modifyCopy ip f) >>= fun _ => lift (iupdate ip) >>= fun _ => pure result)
      else pure result) :=
  (lift_touches _).bind fun _ => Evolves.ite
    (fun _ => (lift_touches _).bind fun _ => (lift_touches _).bind fun _ => Evolves.pure _)
    fun _ => Evolves.pure _

/-- `writei` reads `n` bytes at most. -/
theorem writei_touches {n : Nat} (inside : ∀ a, src ≤ a → a < src + n → range a) :
    Evolves (Touches range) (writei ip src off n) := by
  refine (lift_touches _).bind fun r => Evolves.ite (fun _ => ?_) fun _ => ?_
  · refine Evolves.ite (fun _ => ?_) fun _ => Evolves.pure _
    have hle := int32_toNat_le n
    exact consoleWrite_touches fun a h h' => inside a h (by omega)
  · refine Evolves.ite (fun _ => Evolves.pure _) fun hrange => ?_
    refine Evolves.bind ?_ fun off' => grow_touches _ _
    -- behind the largest file the clipped length wraps around, but `bmap` panics first
    by_cases hbehind : MAXFILE * BSIZE ≤ off
    · exact fun s => writeiLoop_stops (bmap_behind hbehind)
    · refine writeiLoop_touches fun a h h' => inside a h ?_
      have hclip : (MAXFILE * BSIZE + 2 ^ 32 - off) % 2 ^ 32 = MAXFILE * BSIZE - off := by
        have hmax : MAXFILE * BSIZE < 2 ^ 32 := by decide
        omega
      rw [hclip] at h'
      split at h' <;> omega

/-! ### Pipes -/

theorem sleepUntil_touches {now : Copying → Option Bool} {wakes : List (Pipe × Bool)} :
    Evolves (Touches range) (sleepUntil now wakes) := by
  induction wakes with
  | nil =>
    refine Evolves.get.bind fun s => ?_
    cases now s with
    | none => exact Evolves.throw _
    | some goesOn => exact Evolves.pure _
  | cons wake wakes ih =>
    refine Evolves.get.bind fun s => ?_
    cases now s with
    | none => exact Evolves.bind (modify_touches _ fun _ => rfl) fun _ => ih
    | some goesOn => exact Evolves.pure _

theorem pipewriteLoop_touches {addr i : Nat}
    (inside : ∀ a, addr + i ≤ a → a < addr + i + left → range a) :
    Evolves (Touches range) (pipewriteLoop addr left i) := by
  induction left generalizing i with
  | zero => exact Evolves.pure _
  | succ left ih =>
    refine Evolves.get.bind fun s => sleepUntil_touches.bind fun room => ?_
    refine Evolves.ite (fun _ => ?_) fun _ => Evolves.pure _
    refine (peek_touches (inside (addr + i) le_rfl (by omega))).bind fun c => ?_
    refine Evolves.bind (modify_touches _ fun _ => rfl) fun _ => ih fun a h h' => ?_
    exact inside a (by omega) (by omega)

theorem pipereadLoop_touches {addr i : Nat}
    (inside : ∀ a, addr + i ≤ a → a < addr + i + left → range a) :
    Evolves (Touches range) (pipereadLoop addr left i) := by
  induction left generalizing i with
  | zero => exact Evolves.pure _
  | succ left ih =>
    refine Evolves.get.bind fun s => Evolves.ite (fun _ => Evolves.pure _) fun _ => ?_
    refine (poke_touches (inside (addr + i) le_rfl (by omega)) _).bind fun _ => ?_
    refine Evolves.bind (modify_touches _ fun _ => rfl) fun _ => ih fun a h h' => ?_
    exact inside a (by omega) (by omega)

/-! ### Files -/

theorem advance_touches (r : Int) : Evolves (Touches range) (advance r) := by
  refine modify_touches _ fun s => ?_
  split <;> rfl

section Length

variable {addr : Nat} {n : Int} (inside : ∀ a, addr ≤ a → a < addr + word32 n → range a)
  (nonneg : n.toNat ≤ word32 n)
include inside nonneg

theorem fileread_touches : Evolves (Touches range) (fileread addr n) := by
  refine Evolves.get.bind fun s => Evolves.ite (fun _ => Evolves.pure _) fun _ => ?_
  cases s.file.type with
  | FD_PIPE =>
    refine Evolves.get.bind fun s => sleepUntil_touches.bind fun more => ?_
    refine Evolves.ite (fun _ => ?_) fun _ => Evolves.pure _
    exact pipereadLoop_touches fun a h h' => inside a (by omega) (by omega)
  | FD_INODE =>
    refine (lift_touches _).bind fun _ => (readi_touches inside).bind fun r => ?_
    exact (advance_touches r).bind fun _ => (lift_touches _).bind fun _ => Evolves.pure _
  | FD_NONE | FD_CLOSED => exact Evolves.throw _

theorem filewrite_touches : Evolves (Touches range) (filewrite addr n) := by
  refine Evolves.get.bind fun s => Evolves.ite (fun _ => Evolves.pure _) fun _ => ?_
  cases s.file.type with
  | FD_PIPE => exact pipewriteLoop_touches fun a h h' => inside a (by omega) (by omega)
  | FD_INODE =>
    refine (lift_touches _).bind fun _ => (writei_touches inside).bind fun r => ?_
    exact (advance_touches r).bind fun _ => (lift_touches _).bind fun _ => Evolves.pure _
  | FD_NONE | FD_CLOSED => exact Evolves.throw _

end Length

end Touches

/-! ### The calls -/

/-- The addresses that a call accesses. -/
def touchedBy (x : CopyM Int) (s : Copying) : List Nat :=
  (endState (x.run { s with touched := [] })).touched

/-- If `argptr` accepts the buffer, then the call accesses nothing but the buffer, and the buffer
is in the memory of the process. -/
def Confined (sz i : UInt32) (n : Int32) (call : CopyM Int) (s : Copying) : Prop :=
  ∀ p, argptr sz i n = some p →
    (∀ a ∈ touchedBy call s, p ≤ a ∧ (a : Int) < p + n.toInt) ∧
      ∀ a : Nat, p ≤ a → (a : Int) < p + n.toInt → a < sz.toNat

theorem argptr_eq_some {p : Nat} (accepted : argptr sz i n = some p) :
    p = i.toNat ∧ i.toNat < sz.toNat ∧ word32 (i.toNat + n.toInt) < sz.toNat := by
  unfold argptr at accepted
  split at accepted
  · cases accepted
  next h =>
    rw [not_or] at h
    exact ⟨(Option.some.inj accepted).symm,
      Nat.not_le.mp fun hle => h.1 (UInt32.le_iff_toNat_le.mpr hle), Nat.not_le.mp h.2⟩

/-- A call that accesses `n` bytes from its pointer on at most is confined if `n` is not negative
and the end of the buffer does not wrap around. -/
theorem confined_of_touches (nonneg : 0 ≤ n.toInt) (fits : i.toNat + n.toInt < 2 ^ 32)
    (touches : ∀ p, argptr sz i n = some p →
      Evolves (Touches fun a => p ≤ a ∧ (a : Int) < p + n.toInt) call) (s : Copying) :
    Confined sz i n call s := by
  intro p hp
  obtain ⟨rfl, -, hend⟩ := argptr_eq_some hp
  refine ⟨fun a ha => ?_, fun a h h' => ?_⟩
  · obtain ⟨new, hnew, hrange⟩ := touches _ hp { s with touched := [] }
    rw [touchedBy, hnew, List.append_nil] at ha
    exact hrange a ha
  · unfold word32 at hend
    omega

/-- The start of the buffer is accessed by this call although the length is negative. -/
theorem not_confined_of_negative (negative : n.toInt < 0) (accepted : argptr sz i n = some i.toNat)
    (accessed : i.toNat ∈ touchedBy call s) : ¬ Confined sz i n call s := by
  intro hconfined
  have h := (hconfined _ accepted).1 _ accessed
  omega

/-- The buffer that wraps around is not in the memory of the process. -/
theorem not_confined_of_wrap
    (wraps : 2 ^ 32 ≤ i.toNat + n.toInt) (accepted : argptr sz i n = some i.toNat) :
    ¬ Confined sz i n call s := by
  intro hconfined
  have hsz := sz.toNat_lt
  have hi := i.toNat_lt
  have h := (hconfined _ accepted).2 (2 ^ 32 - 1) (by omega) (by omega)
  omega

/-! ### A negative length -/

theorem word32_of_negative (negative : n.toInt < 0) :
    2 ^ 31 ≤ word32 n.toInt ∧ word32 n.toInt < 2 ^ 32 ∧ (int32 (word32 n.toInt)).toNat = 0 := by
  have hlow := n.le_toInt
  unfold int32 word32
  split <;> omega

/-- A read or a write of `n` bytes, a `uint`, gets to the data of the file: the inode can be
locked and is no device, the offset and the length do not wrap around, and `bmap` finds a block.
A read starts in the file as well. -/
def Reaches (s : Copying) (n : Nat) (writes : Bool) : Prop :=
  s.file.type = .FD_INODE ∧ ∃ t, (ilock s.file.ip).run s.fs = .ok () t ∧
    (t.inode s.file.ip).copy.type ≠ T_DEV ∧ s.file.off + n < 2 ^ 32 ∧
    (writes = true ∨ s.file.off < (t.inode s.file.ip).copy.size.toNat) ∧
    ∃ b u, (bmap s.file.ip (s.file.off / BSIZE) writes).run t = .ok b u

/-- What was accessed stays in the history. -/
theorem mem_touched_bind {α β : Type} {x : CopyM α} {f : α → CopyM β}
    (mem : a ∈ (endState (x.run s)).touched) (grows : ∀ b, Evolves (Touches fun _ => True) (f b)) :
    a ∈ (endState ((x >>= f).run s)).touched := by
  cases h : x.run s with
  | ok b t =>
    rw [h] at mem
    rw [run_bind_of_ok h]
    obtain ⟨new, hnew, -⟩ := grows b t
    rw [hnew]
    exact List.mem_append_right _ mem
  | error e t =>
    rw [h] at mem
    rw [run_bind_of_error h]
    exact mem

/-- What `fileread` and `filewrite` do for an inode, around `readi` or `writei`. -/
def onInode (ip : InodeId) (x : CopyM Int) : CopyM Int := do
  lift (ilock ip)
  let r ← x
  advance r
  lift (iunlock ip)
  pure r

theorem finish_touches {range : Nat → Prop} (ip : InodeId) (r : Int) : Evolves (Touches range)
    (advance r >>= fun _ => lift (iunlock ip) >>= fun _ => pure r) :=
  (advance_touches r).bind fun _ => (lift_touches _).bind fun _ => Evolves.pure r

theorem onInode_accesses {x : CopyM Int} {t : Fs} (lock : (ilock ip).run s.fs = .ok () t)
    (mem : a ∈ (endState (x.run { s with fs := t })).touched) :
    a ∈ (endState ((onInode ip x).run s)).touched := by
  rw [onInode, run_bind_of_ok (lift_run lock)]
  exact mem_touched_bind mem fun r => finish_touches ip r

theorem onInode_quiet {x : CopyM Int} {range : Nat → Prop}
    (quiet : ∀ t, (ilock ip).run s.fs = .ok () t →
      Touches range { s with fs := t } (endState (x.run { s with fs := t }))) :
    Touches range s (endState ((onInode ip x).run s)) := by
  rw [onInode]
  cases hlock : (ilock ip).run s.fs with
  | error e t =>
    rw [run_bind_of_error (lift_run_of_error hlock)]
    exact Touches.of_same rfl
  | ok _ t =>
    rw [run_bind_of_ok (lift_run hlock)]
    change Touches range { s with fs := t } _
    exact Evolves.bind_at (quiet t hlock) fun r v _ => finish_touches ip r v

section Negative

variable {addr off n : Nat}

/-- `readi` clips a huge length to the size of the file, and stores the first byte. -/
theorem readi_accesses (plain : (s.fs.inode ip).copy.type ≠ T_DEV) (long : 0 < n)
    (fits : off + n < 2 ^ 32) (starts : off < (s.fs.inode ip).copy.size.toNat) {b : UInt32} {u : Fs}
    (maps : (bmap ip (off / BSIZE) false).run s.fs = .ok b u) :
    addr ∈ (endState ((readi ip addr off n).run s)).touched := by
  rw [readi, run_bind_of_ok (load_run ip s)]
  dsimp only
  rw [if_neg plain, if_neg (by omega)]
  obtain ⟨k, hk⟩ : ∃ k, (if (s.fs.inode ip).copy.size.toNat < off + n then
      (s.fs.inode ip).copy.size.toNat - off else n) = k + 1 :=
    Nat.exists_eq_add_one.mpr (by split <;> omega)
  rw [hk]
  refine mem_touched_bind ?_ fun _ => Evolves.pure _
  rw [readiLoop, if_neg k.succ_ne_zero, run_bind_of_ok (load_run ip s),
    run_bind_of_ok (lift_run maps)]
  have hread : (lift (Fs.bread (s.fs.inode ip).dev b.toNat)).run { s with fs := u } =
      .ok (u.sector ⟨(s.fs.inode ip).dev, b.toNat⟩) { s with fs := u } := rfl
  rw [run_bind_of_ok hread]
  refine mem_touched_bind ?_ fun _ => readiLoop_touches fun _ _ _ => trivial
  have hfirst : min (k + 1) (BSIZE - off % BSIZE) = min k (BSIZE - off % BSIZE - 1) + 1 := by
    unfold BSIZE
    omega
  rw [hfirst, Block.read, List.range_succ_eq_map, List.map_cons]
  exact mem_touched_bind List.mem_cons_self fun _ => copyOut_touches fun _ _ _ => trivial

/-- `writei` clips a huge length to the largest file, and reads the first byte. -/
theorem writei_accesses (plain : (s.fs.inode ip).copy.type ≠ T_DEV) (long : 2 ^ 31 ≤ n)
    (fits : off + n < 2 ^ 32) {b : UInt32} {u : Fs}
    (maps : (bmap ip (off / BSIZE) true).run s.fs = .ok b u) :
    addr ∈ (endState ((writei ip addr off n).run s)).touched := by
  have hin : off < MAXFILE * BSIZE := by
    by_contra hbehind
    exact bmap_behind (Nat.le_of_not_lt hbehind) b u maps
  have hmax : MAXFILE * BSIZE < 2 ^ 31 := by decide
  rw [writei, run_bind_of_ok (load_run ip s)]
  rw [if_neg plain, if_neg (by omega)]
  obtain ⟨k, hk⟩ : ∃ k, (MAXFILE * BSIZE + 2 ^ 32 - off) % 2 ^ 32 = k + 1 :=
    Nat.exists_eq_add_one.mpr (by omega)
  dsimp only
  rw [if_pos (by omega), hk]
  refine mem_touched_bind ?_ fun off => grow_touches _ _
  rw [writeiLoop, if_pos k.succ_pos, run_bind_of_ok (load_run ip s),
    run_bind_of_ok (lift_run maps)]
  have hread : (lift (Fs.bread (s.fs.inode ip).dev b.toNat)).run { s with fs := u } =
      .ok (u.sector ⟨(s.fs.inode ip).dev, b.toNat⟩) { s with fs := u } := rfl
  rw [run_bind_of_ok hread]
  refine mem_touched_bind ?_ fun bytes => (lift_touches _).bind fun _ =>
    writeiLoop_touches fun _ _ _ => trivial
  have hfirst : min (k + 1 - 0) (BSIZE - off % BSIZE) = min k (BSIZE - off % BSIZE - 1) + 1 := by
    unfold BSIZE
    omega
  rw [hfirst, copyIn]
  refine mem_touched_bind (List.mem_cons_self) fun c => ?_
  exact (copyIn_touches fun _ _ _ => trivial).bind fun cs => Evolves.pure _

/-- A `uint` that is a negative `int` makes `readi` store nothing, unless it gets to the data. -/
theorem readi_quiet (negative : (int32 n).toNat = 0) (long : 2 ^ 31 ≤ n ∧ n < 2 ^ 32)
    (stops : (s.fs.inode ip).copy.type ≠ T_DEV → off + n < 2 ^ 32 →
      off < (s.fs.inode ip).copy.size.toNat →
      ∀ b u, (bmap ip (off / BSIZE) false).run s.fs ≠ .ok b u) :
    Touches (fun _ => False) s (endState ((readi ip addr off n).run s)) := by
  rw [readi, run_bind_of_ok (load_run ip s)]
  dsimp only
  by_cases hdev : (s.fs.inode ip).copy.type = T_DEV
  · rw [if_pos hdev]
    exact Evolves.ite (fun _ => consoleRead_touches fun a h h' => by omega)
      (fun _ => Evolves.pure _) s
  rw [if_neg hdev]
  by_cases hrange : (s.fs.inode ip).copy.size.toNat < off ∨ (off + n) % 2 ^ 32 < off
  · rw [if_pos hrange]
    exact Evolves.pure _ s
  rw [if_neg hrange]
  refine Evolves.bind_at ?_ fun _ t _ => Evolves.pure _ t
  -- at the end of the file the length is clipped to 0
  by_cases hstart : off < (s.fs.inode ip).copy.size.toNat
  · exact readiLoop_stops (stops hdev (by omega) hstart)
  · exact readiLoop_touches (fun a h h' => by split at h' <;> omega) s

theorem writei_quiet (negative : (int32 n).toNat = 0) (long : 2 ^ 31 ≤ n ∧ n < 2 ^ 32)
    (stops : (s.fs.inode ip).copy.type ≠ T_DEV → off + n < 2 ^ 32 →
      ∀ b u, (bmap ip (off / BSIZE) true).run s.fs ≠ .ok b u) :
    Touches (fun _ => False) s (endState ((writei ip addr off n).run s)) := by
  rw [writei, run_bind_of_ok (load_run ip s)]
  by_cases hdev : (s.fs.inode ip).copy.type = T_DEV
  · rw [if_pos hdev]
    exact Evolves.ite (fun _ => consoleWrite_touches fun a h h' => by omega)
      (fun _ => Evolves.pure _) s
  rw [if_neg hdev]
  by_cases hwrap : (off + n) % 2 ^ 32 < off
  · rw [if_pos hwrap]
    exact Evolves.pure _ s
  rw [if_neg hwrap]
  dsimp only
  exact Evolves.bind_at (writeiLoop_stops (stops hdev (by omega))) fun off' t _ =>
    grow_touches _ _ t

end Negative

section File

variable {addr : Nat} (negative : n.toInt < 0)
include negative

theorem fileread_accesses (readable : s.file.readable = true)
    (reaches : s.Reaches (word32 n.toInt) false) :
    addr ∈ (endState ((fileread addr n.toInt).run s)).touched := by
  obtain ⟨hlong, -, -⟩ := word32_of_negative negative
  obtain ⟨htype, t, hlock, hplain, hfits, hstart, b, u, hmap⟩ := reaches
  rw [fileread, run_get_bind]
  dsimp only
  rw [if_neg (by rw [readable]; decide), htype]
  exact onInode_accesses hlock
    (readi_accesses hplain (by omega) hfits (hstart.resolve_left (by decide)) hmap)

theorem filewrite_accesses (writable : s.file.writable = true)
    (reaches : s.Reaches (word32 n.toInt) true) :
    addr ∈ (endState ((filewrite addr n.toInt).run s)).touched := by
  obtain ⟨hlong, -, -⟩ := word32_of_negative negative
  obtain ⟨htype, t, hlock, hplain, hfits, -, b, u, hmap⟩ := reaches
  rw [filewrite, run_get_bind]
  dsimp only
  rw [if_neg (by rw [writable]; decide), htype]
  exact onInode_accesses hlock (writei_accesses hplain hlong hfits hmap)

theorem fileread_quiet
    (stays : s.file.readable = true → ¬ s.Reaches (word32 n.toInt) false) :
    Touches (fun _ => False) s (endState ((fileread addr n.toInt).run s)) := by
  obtain ⟨hlong, hword, hint⟩ := word32_of_negative negative
  rw [fileread, run_get_bind]
  dsimp only
  by_cases hreadable : s.file.readable = false
  · rw [if_pos hreadable]
    exact Evolves.pure _ s
  rw [if_neg hreadable]
  cases htype : s.file.type with
  | FD_PIPE =>
    refine Evolves.get.bind (fun s => sleepUntil_touches.bind fun more => ?_) s
    refine Evolves.ite (fun _ => ?_) fun _ => Evolves.pure _
    exact pipereadLoop_touches fun a h h' => by omega
  | FD_INODE =>
    refine onInode_quiet fun t hlock => readi_quiet hint ⟨hlong, hword⟩ ?_
    intro hplain hfits hstart b u hmap
    exact stays (Bool.eq_true_of_not_eq_false hreadable)
      ⟨htype, t, hlock, hplain, hfits, .inr hstart, b, u, hmap⟩
  | FD_NONE | FD_CLOSED => exact Evolves.throw _ s

theorem filewrite_quiet
    (stays : s.file.writable = true → ¬ s.Reaches (word32 n.toInt) true) :
    Touches (fun _ => False) s (endState ((filewrite addr n.toInt).run s)) := by
  obtain ⟨hlong, hword, hint⟩ := word32_of_negative negative
  rw [filewrite, run_get_bind]
  dsimp only
  by_cases hwritable : s.file.writable = false
  · rw [if_pos hwritable]
    exact Evolves.pure _ s
  rw [if_neg hwritable]
  cases htype : s.file.type with
  | FD_PIPE => exact pipewriteLoop_touches (fun a h h' => by omega) s
  | FD_INODE =>
    refine onInode_quiet fun t hlock => writei_quiet hint ⟨hlong, hword⟩ ?_
    intro hplain hfits b u hmap
    exact stays (Bool.eq_true_of_not_eq_false hwritable)
      ⟨htype, t, hlock, hplain, hfits, .inl rfl, b, u, hmap⟩
  | FD_NONE | FD_CLOSED => exact Evolves.throw _ s

end File

/-- The arguments and files with which a read or a write is confined: `argptr` rejects the
arguments; or the length is not negative and the end of the buffer does not wrap around; or the
length is negative and the call does not get to the data of a file. -/
def Safe (sz i : UInt32) (n : Int32) (reaches : Prop) : Prop :=
  argptr sz i n = none ∨ 0 ≤ n.toInt ∧ i.toNat + n.toInt < 2 ^ 32 ∨ n.toInt < 0 ∧ ¬ reaches

theorem confined_iff_safe {reaches : Prop}
    (touches : 0 ≤ n.toInt → ∀ p, argptr sz i n = some p →
      Evolves (Touches fun a => p ≤ a ∧ (a : Int) < p + n.toInt) call)
    (accesses : n.toInt < 0 → argptr sz i n = some i.toNat → reaches → i.toNat ∈ touchedBy call s)
    (quiet : n.toInt < 0 → argptr sz i n = some i.toNat → ¬ reaches →
      Touches (fun _ => False) { s with touched := [] }
        (endState (call.run { s with touched := [] }))) :
    Confined sz i n call s ↔ Safe sz i n reaches := by
  cases haccepted : argptr sz i n with
  | none =>
    refine iff_of_true (fun p hp => ?_) (.inl haccepted)
    rw [haccepted] at hp
    cases hp
  | some p =>
    obtain ⟨rfl, -, -⟩ := argptr_eq_some haccepted
    rcases lt_or_ge n.toInt 0 with hnegative | hnonneg
    · -- the buffer is empty, so the call is confined if it accesses nothing
      constructor
      · exact fun hconfined => .inr (.inr ⟨hnegative, fun h =>
          not_confined_of_negative hnegative haccepted (accesses hnegative haccepted h) hconfined⟩)
      · rintro (h | ⟨h, -⟩ | ⟨-, hstays⟩) p hp
        · rw [haccepted] at h
          cases h
        · omega
        · cases haccepted.symm.trans hp
          obtain ⟨new, hnew, hnone⟩ := quiet hnegative haccepted hstays
          refine ⟨fun a ha => ?_, fun a h h' => by omega⟩
          rw [touchedBy, hnew, List.append_nil] at ha
          exact (hnone a ha).elim
    · constructor
      · intro hconfined
        refine .inr (.inl ⟨hnonneg, ?_⟩)
        by_contra hwraps
        exact not_confined_of_wrap (not_lt.mp hwraps) haccepted hconfined
      · rintro (h | ⟨-, hfits⟩ | ⟨h, -⟩)
        · rw [haccepted] at h
          cases h
        · exact confined_of_touches hnonneg hfits (touches hnonneg) s
        · omega

theorem word32_of_nonneg (nonneg : 0 ≤ n.toInt) : (word32 n.toInt : Int) = n.toInt := by
  have hhigh := n.toInt_lt
  unfold word32
  omega

/-- For every process size, pointer and length, and every file or pipe in every state: `sys_read`
and `sys_write` stay in the buffer of the caller, and the buffer is in the memory of the process,
exactly if `argptr` rejects the arguments, or the length is not negative and the sum of the
pointer and the length does not wrap around, or the length is negative and the call does not get
to the data of a file. -/
theorem user_buffers_confined_iff (sz i : UInt32) (n : Int32) (s : Copying) :
    (Confined sz i n (sysRead sz i n) s ↔
      Safe sz i n (s.file.readable = true ∧ s.Reaches (word32 n.toInt) false)) ∧
    (Confined sz i n (sysWrite sz i n) s ↔
      Safe sz i n (s.file.writable = true ∧ s.Reaches (word32 n.toInt) true)) := by
  constructor
  · refine confined_iff_safe (fun hnonneg p hp => ?_) (fun hnegative hp h => ?_)
      fun hnegative hp h => ?_
    · have hword := word32_of_nonneg hnonneg
      rw [sysRead, hp]
      exact fileread_touches (fun a h h' => ⟨h, by omega⟩) (by omega)
    · rw [sysRead, hp]
      exact fileread_accesses hnegative h.1 h.2
    · rw [sysRead, hp]
      exact fileread_quiet hnegative fun hreadable hreaches => h ⟨hreadable, hreaches⟩
  · refine confined_iff_safe (fun hnonneg p hp => ?_) (fun hnegative hp h => ?_)
      fun hnegative hp h => ?_
    · have hword := word32_of_nonneg hnonneg
      rw [sysWrite, hp]
      exact filewrite_touches (fun a h h' => ⟨h, by omega⟩) (by omega)
    · rw [sysWrite, hp]
      exact filewrite_accesses hnegative h.1 h.2
    · rw [sysWrite, hp]
      exact filewrite_quiet hnegative fun hwritable hreaches => h ⟨hwritable, hreaches⟩

/-- A process with a small file, at its start. -/
def smallFile (size : UInt32) : Copying where
  fs :=
    { sector := fun _ => Block.zero
      inode := fun _ => ⟨ROOTDEV, 1, 1, false, true, ⟨T_FILE, 0, 0, 1, size, fun _ => 300⟩⟩
      pastIcache := 0
      buffered := fun _ => false
      typed := fun _ => none
      reads := 0 }
  file := ⟨.FD_INODE, true, true, 0, 0⟩
  pipe := ⟨⟨0, 0, fun _ => 0⟩, true, true⟩
  killed := false
  wakes := []
  keys := []
  mem _ := 0
  touched := []

/-- A read of -1 bytes to the last byte of a process passes `argptr`, and stores all ten bytes of
the file: nine of them behind the process. -/
theorem read_overruns_process :
    argptr 8192 8191 (-1) = some 8191 ∧
      touchedBy (sysRead 8192 8191 (-1)) (smallFile 10) =
        [8200, 8199, 8198, 8197, 8196, 8195, 8194, 8193, 8192, 8191] ∧
      ¬ Confined 8192 8191 (-1) (sysRead 8192 8191 (-1)) (smallFile 10) := by
  have haccepted : argptr 8192 8191 (-1) = some 8191 := by decide
  have htouched : touchedBy (sysRead 8192 8191 (-1)) (smallFile 10) =
      [8200, 8199, 8198, 8197, 8196, 8195, 8194, 8193, 8192, 8191] := by decide +kernel
  refine ⟨haccepted, htouched, fun hconfined => ?_⟩
  have hlast := (hconfined 8191 haccepted).1 8200 (by rw [htouched]; decide)
  exact absurd hlast.2 (by decide)

end Copying

end Xv6
