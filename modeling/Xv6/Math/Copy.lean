/-
# Copies and strings in a memory of bytes

The memory of a 32-bit machine. A copy goes byte by byte and its addresses wrap around at the top;
a string is what stands before the next zero byte.
-/

import Xv6.Math.ByteMem

namespace Xv6.Math

/-- The addresses of `n` bytes from `a` on. -/
def wrapped (a n : Nat) : Set Nat := {x | ∃ i < n, x = (a + i) % 2 ^ 32}

/-- As long as a copy stays below the top, its addresses are an interval. -/
theorem wrapped_eq_Ico {a n : Nat} (fits : a + n ≤ 2 ^ 32) : wrapped a n = Set.Ico a (a + n) := by
  ext x
  constructor
  · rintro ⟨i, hi, rfl⟩
    rw [Nat.mod_eq_of_lt (by omega)]
    exact ⟨by omega, by omega⟩
  · rintro ⟨hle, hlt⟩
    exact ⟨x - a, by omega, by omega⟩

namespace ByteMem

/-! ### Copies -/

/-- Store the `n` bytes of `src` from `a` on. -/
def blit (m : ByteMem) (a n : Nat) (src : Nat → UInt8) : ByteMem := fun x =>
  if x < 2 ^ 32 ∧ (x + (2 ^ 32 - a)) % 2 ^ 32 < n then src ((x + (2 ^ 32 - a)) % 2 ^ 32) else m x

variable {m m' : ByteMem} {a n x : Nat} {src : Nat → UInt8}

theorem blit_of_not_mem (small : a < 2 ^ 32) (out : x ∉ wrapped a n) : m.blit a n src x = m x := by
  refine if_neg fun ⟨hx, hn⟩ => out ⟨_, hn, ?_⟩
  omega

theorem blit_of_mem (fits : a + n ≤ 2 ^ 32) (lower : a ≤ x) (upper : x < a + n) :
    m.blit a n src x = src (x - a) := by
  have hindex : (x + (2 ^ 32 - a)) % 2 ^ 32 = x - a := by omega
  unfold blit
  rw [hindex, if_pos (by omega)]

/-- Set the `n` bytes from `a` on to those of `src`, in a memory without a top. -/
def write (m : ByteMem) (a n : Nat) (src : Nat → UInt8) : ByteMem := fun x =>
  if a ≤ x ∧ x < a + n then src (x - a) else m x

theorem write_of_mem (lower : a ≤ x) (upper : x < a + n) : m.write a n src x = src (x - a) :=
  if_pos ⟨lower, upper⟩

theorem write_of_apart (apart : x < a ∨ a + n ≤ x) : m.write a n src x = m x :=
  if_neg (by omega)

theorem write_congr {src' : Nat → UInt8} (same : ∀ i < n, src' i = src i) :
    m.write a n src' = m.write a n src := by
  funext x
  unfold write
  split
  · rw [same _ (by omega)]
  · rfl

theorem write_zero (m : ByteMem) (a : Nat) (src : Nat → UInt8) : m.write a 0 src = m := by
  funext x
  exact write_of_apart (by omega)

/-- The last byte of a run of bytes can be stored after the others. -/
theorem write_succ (m : ByteMem) (a n : Nat) (src : Nat → UInt8) :
    m.write a (n + 1) src = Function.update (m.write a n src) (a + n) (src n) := by
  funext x
  by_cases hlast : x = a + n
  · rw [hlast, write_of_mem (by omega) (by omega), Function.update_self, Nat.add_sub_cancel_left]
  · rw [Function.update_of_ne hlast]
    unfold write
    exact if_congr (by omega) rfl rfl

/-- A byte behind a run of bytes can be stored before or after it. -/
theorem write_update (m : ByteMem) (a n : Nat) (src : Nat → UInt8) (v : UInt8) :
    write (Function.update m (a + n) v) a n src = Function.update (m.write a n src) (a + n) v := by
  funext x
  by_cases hlast : x = a + n
  · rw [hlast, write_of_apart (by omega), Function.update_self, Function.update_self]
  · rw [Function.update_of_ne hlast]
    unfold write
    rw [Function.update_of_ne hlast]

theorem write_eq_iff {src' : Nat → UInt8} :
    m.write a n src' = m.write a n src ↔ ∀ i < n, src' i = src i := by
  refine ⟨fun same i hi => ?_, write_congr⟩
  have hbyte := congrFun same (a + i)
  rwa [write_of_mem (by omega) (by omega), write_of_mem (by omega) (by omega),
    Nat.add_sub_cancel_left] at hbyte

/-! ### Strings -/

/-- The bytes from `a` on up to a zero byte, but not more than `fuel`. -/
def strFrom (m : ByteMem) : Nat → Nat → List UInt8
  | 0, _ => []
  | fuel + 1, a => if m a = 0 then [] else m a :: strFrom m fuel ((a + 1) % 2 ^ 32)

/-- The string at `a`. -/
def str (m : ByteMem) (a : Nat) : List UInt8 := m.strFrom (2 ^ 32) a

/-- A string is read again as long as its bytes and the zero behind them stay. -/
theorem strFrom_congr {fuel : Nat} (top : a + (m.strFrom fuel a).length < 2 ^ 32)
    (same : ∀ x, a ≤ x → x ≤ a + (m.strFrom fuel a).length → m' x = m x) :
    m'.strFrom fuel a = m.strFrom fuel a := by
  induction fuel generalizing a with
  | zero => rfl
  | succ fuel ih =>
    have hhead := same a le_rfl (Nat.le_add_right _ _)
    rw [strFrom] at top same
    rw [strFrom, strFrom, hhead]
    by_cases hzero : m a = 0
    · rw [if_pos hzero, if_pos hzero]
    · rw [if_neg hzero, List.length_cons] at top same
      have hnext : (a + 1) % 2 ^ 32 = a + 1 := Nat.mod_eq_of_lt (by omega)
      rw [if_neg hzero, if_neg hzero]
      rw [hnext] at top same ⊢
      rw [ih (by omega) fun x hle hx => same x (by omega) (by omega)]

theorem str_congr (top : a + (m.str a).length < 2 ^ 32)
    (same : ∀ x, a ≤ x → x ≤ a + (m.str a).length → m' x = m x) : m'.str a = m.str a :=
  strFrom_congr top same

/-- The bytes of a string that ends. -/
theorem strFrom_getD (fuel : Nat) (ends : (m.strFrom fuel a).length < fuel)
    (top : a + (m.strFrom fuel a).length < 2 ^ 32) {i : Nat}
    (inside : i ≤ (m.strFrom fuel a).length) :
    m (a + i) = (m.strFrom fuel a).getD i 0 := by
  induction fuel generalizing a i with
  | zero => cases ends
  | succ fuel ih =>
    rw [strFrom] at ends top inside ⊢
    by_cases hzero : m a = 0
    · rw [if_pos hzero] at inside ⊢
      obtain rfl : i = 0 := by simpa using inside
      exact hzero
    · rw [if_neg hzero, List.length_cons] at ends top inside
      have hnext : (a + 1) % 2 ^ 32 = a + 1 := Nat.mod_eq_of_lt (by omega)
      rw [if_neg hzero]
      rw [hnext] at ends top inside ⊢
      cases i with
      | zero => rfl
      | succ i =>
        rw [List.getD_cons_succ, ← ih (by omega) (by omega) (by omega)]
        congr 1
        omega

/-- The bytes of a string below the top of the memory, and the zero behind them. -/
theorem str_getD (top : a + (m.str a).length < 2 ^ 32) {i : Nat} (inside : i ≤ (m.str a).length) :
    m (a + i) = (m.str a).getD i 0 :=
  strFrom_getD (2 ^ 32) (by unfold str at top; omega) top inside

end ByteMem

end Xv6.Math
