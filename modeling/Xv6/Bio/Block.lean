/-
# Disk blocks

A block is the 512 bytes a sector holds (`uchar data[512]` in `struct buf`). The
kernel reads and writes blocks through C structures laid over the bytes; this
file gives the little-endian words those structures are made of.
-/

import Mathlib

namespace Xv6

/-- Block size in bytes. -/
def BSIZE : Nat := 512

/-- Contents of one disk sector. -/
abbrev Block := Fin BSIZE → UInt8

namespace Block

/-- The block of zero bytes. -/
def zero : Block := fun _ => 0

/-- The byte at an offset; reads past the end of the block give zero. -/
def byte (d : Block) (i : Nat) : UInt8 := if h : i < BSIZE then d ⟨i, h⟩ else 0

/-- The `i`-th `uint` of a block. -/
def word (d : Block) (i : Nat) : Nat :=
  (d.byte (4 * i)).toNat + 256 * (d.byte (4 * i + 1)).toNat +
    65536 * (d.byte (4 * i + 2)).toNat + 16777216 * (d.byte (4 * i + 3)).toNat

/-- Store a `uint`. A store past the end of the block leaves the block alone. -/
def setWord (d : Block) (i v : Nat) : Block := fun j =>
  if j.val / 4 = i then UInt8.ofNat (v / 256 ^ (j.val % 4)) else d j

@[simp] theorem byte_of_lt (d : Block) {i : Nat} (h : i < BSIZE) : d.byte i = d ⟨i, h⟩ :=
  dif_pos h

theorem word_lt (d : Block) (i : Nat) : d.word i < 2 ^ 32 := by
  have h0 := (d.byte (4 * i)).toNat_lt
  have h1 := (d.byte (4 * i + 1)).toNat_lt
  have h2 := (d.byte (4 * i + 2)).toNat_lt
  have h3 := (d.byte (4 * i + 3)).toNat_lt
  unfold word
  omega

theorem byte_setWord_ne (d : Block) {i j v : Nat} (h : j / 4 ≠ i) :
    (d.setWord i v).byte j = d.byte j := by
  by_cases hj : j < BSIZE
  · rw [byte_of_lt _ hj, byte_of_lt _ hj]
    exact if_neg h
  · rw [byte, byte, dif_neg hj, dif_neg hj]

/-- A stored word is read back modulo `2 ^ 32`. -/
theorem word_setWord_self (d : Block) {i : Nat} (h : i < 128) (v : Nat) :
    (d.setWord i v).word i = v % 2 ^ 32 := by
  have inside (k : Nat) (hk : k < 4) : (d.setWord i v).byte (4 * i + k) =
      UInt8.ofNat (v / 256 ^ k) := by
    have hlt : 4 * i + k < BSIZE := by unfold BSIZE; omega
    rw [byte_of_lt _ hlt]
    unfold setWord
    have hdiv : (4 * i + k) / 4 = i := by omega
    have hmod : (4 * i + k) % 4 = k := by omega
    simp only [hdiv, hmod, if_true]
  have h0 := inside 0 (by omega)
  have h1 := inside 1 (by omega)
  have h2 := inside 2 (by omega)
  have h3 := inside 3 (by omega)
  unfold word
  rw [h1, h2, h3, show (d.setWord i v).byte (4 * i) = _ from h0]
  simp only [UInt8.toNat_ofNat']
  omega

theorem word_setWord_of_lt (d : Block) {i v : Nat} (h : i < 128) (hv : v < 2 ^ 32) :
    (d.setWord i v).word i = v := by
  rw [word_setWord_self d h, Nat.mod_eq_of_lt hv]

theorem word_setWord_ne (d : Block) {i j : Nat} (h : j ≠ i) (v : Nat) :
    (d.setWord i v).word j = d.word j := by
  unfold word
  rw [byte_setWord_ne, byte_setWord_ne, byte_setWord_ne, byte_setWord_ne] <;> omega

end Block

end Xv6
