/-
# Words in a memory of bytes

A flat memory of bytes with little-endian 32-bit loads and stores. A load sees the last
store to the same address and is not changed by what happens to other bytes.
-/

import Mathlib

namespace Xv6.Math

/-- A memory of bytes. -/
abbrev ByteMem := Nat → UInt8

namespace ByteMem

/-- The 32-bit word at an address. -/
def load32 (m : ByteMem) (a : Nat) : Nat :=
  (m a).toNat + 256 * (m (a + 1)).toNat + 65536 * (m (a + 2)).toNat +
    16777216 * (m (a + 3)).toNat

/-- Store a 32-bit word. -/
def store32 (m : ByteMem) (a v : Nat) : ByteMem := fun x =>
  if a ≤ x ∧ x < a + 4 then UInt8.ofNat (v / 256 ^ (x - a)) else m x

/-- Set `n` bytes to the same value. -/
def memset (m : ByteMem) (a n : Nat) (c : UInt8) : ByteMem := fun x =>
  if a ≤ x ∧ x < a + n then c else m x

variable {m m' : ByteMem} {a b v n x : Nat}

theorem load32_congr (same : ∀ x, a ≤ x → x < a + 4 → m' x = m x) :
    m'.load32 a = m.load32 a := by
  unfold load32
  rw [same a le_rfl (by omega), same (a + 1) (by omega) (by omega),
    same (a + 2) (by omega) (by omega), same (a + 3) (by omega) (by omega)]

theorem store32_of_apart (apart : x < a ∨ a + 4 ≤ x) : m.store32 a v x = m x :=
  if_neg (by omega)

theorem memset_of_apart {c : UInt8} (apart : x < a ∨ a + n ≤ x) : m.memset a n c x = m x :=
  if_neg (by omega)

/-- A stored word is read back. -/
theorem load32_store32_self (m : ByteMem) (a : Nat) (small : v < 2 ^ 32) :
    (m.store32 a v).load32 a = v := by
  have byte (k : Nat) (hk : k < 4) : m.store32 a v (a + k) = UInt8.ofNat (v / 256 ^ k) := by
    unfold store32
    rw [if_pos (by omega), Nat.add_sub_cancel_left]
  have h0 : m.store32 a v a = UInt8.ofNat (v / 256 ^ 0) := byte 0 (by omega)
  unfold load32
  rw [h0, byte 1 (by omega), byte 2 (by omega), byte 3 (by omega)]
  simp only [UInt8.toNat_ofNat']
  omega

theorem load32_store32_of_apart (apart : a + 4 ≤ b ∨ b + 4 ≤ a) :
    (m.store32 b v).load32 a = m.load32 a :=
  load32_congr fun _ _ _ => store32_of_apart (by omega)

theorem load32_lt (m : ByteMem) (a : Nat) : m.load32 a < 2 ^ 32 := by
  have h0 := (m a).toNat_lt
  have h1 := (m (a + 1)).toNat_lt
  have h2 := (m (a + 2)).toNat_lt
  have h3 := (m (a + 3)).toNat_lt
  unfold load32
  omega

end ByteMem

end Xv6.Math
