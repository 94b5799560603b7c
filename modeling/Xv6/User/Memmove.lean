/-
# The two `memmove` functions

`string.c` has a `memmove` for the kernel and `ulib.c` one for user programs. Both copy byte by
byte through pointers of 32 bits. The kernel's goes from the last byte to the first when the
destination starts inside the source. The one of the user library always goes from the first byte
to the last, so that what it copies can be a byte it has stored itself.
-/

import Xv6.Math.Copy

namespace Xv6

open Math

/-! ### The loops -/

/-- `while(n-- > 0) *d++ = *s++;` -/
def copyUp : Nat → ByteMem → Nat → Nat → ByteMem
  | 0, m, _, _ => m
  | n + 1, m, d, s =>
    copyUp n (Function.update m d (m s)) ((d + 1) % 2 ^ 32) ((s + 1) % 2 ^ 32)

/-- `--p` of a pointer. -/
def before (p : Nat) : Nat := if p = 0 then 2 ^ 32 - 1 else p - 1

/-- `while(n-- > 0) *--d = *--s;` -/
def copyDown : Nat → ByteMem → Nat → Nat → ByteMem
  | 0, m, _, _ => m
  | n + 1, m, d, s => copyDown n (Function.update m (before d) (m (before s))) (before d) (before s)

/-- `memmove` of `string.c`: the pointer it returns, and the memory after it. -/
def Kernel.memmove (m : ByteMem) (dst src n : Nat) : Nat × ByteMem :=
  if src < dst ∧ (src + n) % 2 ^ 32 > dst then
    (dst, copyDown n m ((dst + n) % 2 ^ 32) ((src + n) % 2 ^ 32))
  else (dst, copyUp n m dst src)

/-- `memmove` of `ulib.c`, whose `n` has a sign. -/
def Ulib.memmove (m : ByteMem) (dst src : Nat) (n : Int) : Nat × ByteMem :=
  (dst, copyUp n.toNat m dst src)

/-! ### Copying upwards -/

section CopyUp

variable {n d s : Nat}

/-- The last round of the loop. -/
theorem copyUp_succ (m : ByteMem) (hd : d < 2 ^ 32) (hs : s < 2 ^ 32) :
    copyUp (n + 1) m d s = Function.update (copyUp n m d s) ((d + n) % 2 ^ 32)
      (copyUp n m d s ((s + n) % 2 ^ 32)) := by
  induction n generalizing m d s with
  | zero =>
    rw [Nat.add_zero d, Nat.add_zero s, Nat.mod_eq_of_lt hd, Nat.mod_eq_of_lt hs]
    rfl
  | succ n ih =>
    have hnext (p : Nat) : ((p + 1) % 2 ^ 32 + n) % 2 ^ 32 = (p + (n + 1)) % 2 ^ 32 := by omega
    rw [copyUp, ih _ (Nat.mod_lt _ (by decide)) (Nat.mod_lt _ (by decide)), hnext, hnext]
    rfl

/-- A copy upwards repeats the bytes between the source and a destination behind it. -/
theorem copyUp_eq_write (m : ByteMem) (hd : d + n ≤ 2 ^ 32) (hs : s + n ≤ 2 ^ 32) :
    copyUp n m d s = m.write d n fun i => m (s + i % (d - s)) := by
  induction n with
  | zero => exact (ByteMem.write_zero ..).symm
  | succ n ih =>
    rw [copyUp_succ m (by omega) (by omega), ih (by omega) (by omega),
      Nat.mod_eq_of_lt (by omega), Nat.mod_eq_of_lt (by omega), ByteMem.write_succ]
    congr 1
    -- The byte read last is one that the loop has stored iff the ranges overlap that far.
    by_cases hstored : s < d ∧ d ≤ s + n
    · have hindex : s + n - d = n - (d - s) := by omega
      rw [ByteMem.write_of_mem hstored.2 (by omega), hindex, ← Nat.mod_eq_sub_mod (by omega)]
    · rw [ByteMem.write_of_apart (by omega)]
      by_cases hbehind : s < d
      · rw [Nat.mod_eq_of_lt (by omega)]
      · rw [Nat.sub_eq_zero_of_le (by omega), Nat.mod_zero]

end CopyUp

/-! ### Copying downwards -/

/-- A copy downwards to a destination behind the source reads each byte before it stores over
it. -/
theorem copyDown_eq_write {n d s : Nat} (m : ByteMem) (hd : d + n ≤ 2 ^ 32) (behind : s < d) :
    copyDown n m ((d + n) % 2 ^ 32) ((s + n) % 2 ^ 32) = m.write d n fun i => m (s + i) := by
  induction n generalizing m with
  | zero => exact (ByteMem.write_zero ..).symm
  | succ n ih =>
    have hbefore (p : Nat) : before ((p + (n + 1)) % 2 ^ 32) = (p + n) % 2 ^ 32 := by
      unfold before
      split <;> omega
    rw [copyDown, hbefore, hbefore, ih _ (by omega), Nat.mod_eq_of_lt (by omega : d + n < 2 ^ 32),
      Nat.mod_eq_of_lt (by omega : s + n < 2 ^ 32), ByteMem.write_succ, ByteMem.write_update]
    congr 1
    refine ByteMem.write_congr fun i hi => ?_
    exact Function.update_of_ne (by omega) _ _

/-! ### The functions -/

section Memmove

variable {n dst src : Nat}

/-- The kernel's `memmove` copies the old bytes of the source whatever the ranges. -/
theorem Kernel.memmove_eq_write (m : ByteMem) (hd : dst + n ≤ 2 ^ 32) (hs : src + n ≤ 2 ^ 32) :
    Kernel.memmove m dst src n = (dst, m.write dst n fun i => m (src + i)) := by
  unfold Kernel.memmove
  split
  · case isTrue hover => rw [copyDown_eq_write m hd hover.1]
  · case isFalse hover =>
    rw [copyUp_eq_write m hd hs]
    refine congrArg (Prod.mk dst) (ByteMem.write_congr fun i hi => ?_)
    by_cases hbehind : src < dst
    · rw [Nat.mod_eq_of_lt (by omega)]
    · rw [Nat.sub_eq_zero_of_le (by omega), Nat.mod_zero]

/-- A source that repeats itself at the distance `k` is known from its first `k` bytes. -/
theorem repeats_iff (m : ByteMem) {k : Nat} (pos : 0 < k) :
    (∀ i < n, m (src + i % k) = m (src + i)) ↔
      ∀ x, src + k ≤ x → x < src + n → m x = m (x - k) := by
  constructor
  · intro same x hle hlt
    have hhere := same (x - src) (by omega)
    have hthere := same (x - src - k) (by omega)
    rw [← Nat.mod_eq_sub_mod (by omega), hhere] at hthere
    rw [Nat.add_sub_cancel' (by omega)] at hthere
    rw [hthere]
    congr 1
    omega
  · intro same i
    induction i using Nat.strong_induction_on with
    | _ i ih =>
      intro hi
      by_cases hsmall : i < k
      · rw [Nat.mod_eq_of_lt hsmall]
      · rw [Nat.mod_eq_sub_mod (by omega), ih (i - k) (by omega) (by omega),
          same (src + i) (by omega) (by omega)]
        congr 1
        omega

/-- Both functions leave the old bytes of the source at the destination and every other byte as
it was iff the destination does not start behind the source, or each byte of the source from the
destination on equals the one that is copied over it. -/
theorem memmove_agree_iff (m : ByteMem) (dst src n : Nat) (hd : dst + n ≤ 2 ^ 32)
    (hs : src + n ≤ 2 ^ 32) :
    (Kernel.memmove m dst src n = (dst, m.write dst n fun i => m (src + i)) ∧
      Ulib.memmove m dst src n = (dst, m.write dst n fun i => m (src + i))) ↔
      dst ≤ src ∨ ∀ x, dst ≤ x → x < src + n → m x = m (x - (dst - src)) := by
  have hulib : Ulib.memmove m dst src n = (dst, m.write dst n fun i => m (src + i)) ↔
      ∀ i < n, m (src + i % (dst - src)) = m (src + i) := by
    unfold Ulib.memmove
    rw [Int.toNat_natCast, copyUp_eq_write m hd hs, Prod.mk_right_inj, ByteMem.write_eq_iff]
  rw [and_iff_right (Kernel.memmove_eq_write m hd hs), hulib]
  by_cases hbehind : src < dst
  · rw [or_iff_right (by omega), repeats_iff m (by omega), Nat.add_sub_cancel' (by omega)]
  · refine iff_of_true (fun i _ => ?_) (Or.inl (by omega))
    rw [Nat.sub_eq_zero_of_le (by omega), Nat.mod_zero]

/-- A memory with the letters `a` and `b` at 12288. -/
def lettersMem : ByteMem := fun x => if x = 12288 then 97 else if x = 12289 then 98 else 0

theorem memmove_agree_downwards :
    Kernel.memmove lettersMem 12287 12288 2 =
        (12287, lettersMem.write 12287 2 fun i => lettersMem (12288 + i)) ∧
      Ulib.memmove lettersMem 12287 12288 2 =
        (12287, lettersMem.write 12287 2 fun i => lettersMem (12288 + i)) :=
  (memmove_agree_iff lettersMem 12287 12288 2 (by decide) (by decide)).mpr (Or.inl (by decide))

/-- Moved up by one byte, the second letter is lost in a user program. -/
theorem memmove_repeats_letter :
    ((Kernel.memmove lettersMem 12289 12288 2).2 12290,
      (Ulib.memmove lettersMem 12289 12288 2).2 12290) = (98, 97) ∧
    Ulib.memmove lettersMem 12289 12288 2 ≠
      (12289, lettersMem.write 12289 2 fun i => lettersMem (12288 + i)) := by
  have hbytes : ((Kernel.memmove lettersMem 12289 12288 2).2 12290,
      (Ulib.memmove lettersMem 12289 12288 2).2 12290) = (98, 97) := by decide
  refine ⟨hbytes, fun heq => ?_⟩
  rw [heq] at hbytes
  revert hbytes
  decide

end Memmove

end Xv6
