/-
# Write logs

A store maps addresses to values and a write log is the ordered list of writes
made to it. Stopping the machine after some write means keeping a prefix of the
log. The lemmas here say which writes a prefix can leave behind and that
repeating a list of writes over a store that already holds part of them gives
the same store, which is what makes redo recovery possible.
-/

import Mathlib

namespace Xv6.Math

variable {Addr Val : Type}

/-- Writes to consecutive cells `f k, f (k+1), …`. -/
def writeSeq (f : Nat → Addr) : Nat → List Val → List (Addr × Val)
  | _, [] => []
  | k, v :: vs => (f k, v) :: writeSeq f (k + 1) vs

@[simp] theorem writeSeq_nil (f : Nat → Addr) (k : Nat) :
    writeSeq f k ([] : List Val) = [] := rfl

@[simp] theorem writeSeq_cons (f : Nat → Addr) (k : Nat) (v : Val) (vs : List Val) :
    writeSeq f k (v :: vs) = (f k, v) :: writeSeq f (k + 1) vs := rfl

theorem exists_of_mem_writeSeq {f : Nat → Addr} {k : Nat} {vs : List Val} {w : Addr × Val}
    (member : w ∈ writeSeq f k vs) : ∃ i < vs.length, w.1 = f (k + i) := by
  induction vs generalizing k with
  | nil => cases member
  | cons v vs ih =>
    rcases List.mem_cons.mp member with rfl | member
    · exact ⟨0, by simp, rfl⟩
    · obtain ⟨i, hi, hw⟩ := ih member
      exact ⟨i + 1, by simpa using hi, by rw [hw]; congr 1; omega⟩

variable [DecidableEq Addr]

/-- The store after a list of writes, the first one applied first. -/
def applyWrites (ws : List (Addr × Val)) (store : Addr → Val) : Addr → Val :=
  ws.foldl (fun d w => Function.update d w.1 w.2) store

@[simp] theorem applyWrites_nil (store : Addr → Val) : applyWrites [] store = store := rfl

@[simp] theorem applyWrites_cons (w : Addr × Val) (ws : List (Addr × Val))
    (store : Addr → Val) :
    applyWrites (w :: ws) store = applyWrites ws (Function.update store w.1 w.2) := rfl

theorem applyWrites_append (ws vs : List (Addr × Val)) (store : Addr → Val) :
    applyWrites (ws ++ vs) store = applyWrites vs (applyWrites ws store) := by
  unfold applyWrites
  rw [List.foldl_append]

variable {ws : List (Addr × Val)}

/-- An address that no write names keeps its value. -/
theorem applyWrites_of_notMem {a : Addr} (untouched : ∀ w ∈ ws, w.1 ≠ a) (store : Addr → Val) :
    applyWrites ws store a = store a := by
  induction ws generalizing store with
  | nil => rfl
  | cons w ws ih =>
    rw [applyWrites_cons, ih (fun v hv => untouched v (List.mem_cons_of_mem _ hv)),
      Function.update_of_ne (untouched w List.mem_cons_self).symm]

/-- An address some write names ends up the same whatever it held before. -/
theorem applyWrites_congr {a : Addr} {store store' : Addr → Val}
    (agree : (∃ w ∈ ws, w.1 = a) ∨ store a = store' a) :
    applyWrites ws store a = applyWrites ws store' a := by
  induction ws generalizing store store' with
  | nil => simpa using agree
  | cons w ws ih =>
    rw [applyWrites_cons, applyWrites_cons]
    apply ih
    by_cases hw : w.1 = a
    · right
      rw [← hw, Function.update_self, Function.update_self]
    · rcases agree with ⟨v, hv, hva⟩ | same
      · rcases List.mem_cons.mp hv with rfl | hv
        · exact absurd hva hw
        · exact Or.inl ⟨v, hv, hva⟩
      · right
        rw [Function.update_of_ne (Ne.symm hw), Function.update_of_ne (Ne.symm hw), same]

/-- Redoing a list of writes after a prefix of it has already been made gives the
same store as making the list once. -/
theorem applyWrites_redo (ws : List (Addr × Val)) (k : Nat) (store : Addr → Val) :
    applyWrites ws (applyWrites (ws.take k) store) = applyWrites ws store := by
  funext a
  apply applyWrites_congr
  by_cases touched : ∃ w ∈ ws, w.1 = a
  · exact Or.inl touched
  · right
    exact applyWrites_of_notMem
      (fun w hw hwa => touched ⟨w, List.mem_of_mem_take hw, hwa⟩) store

/-- With distinct addresses, each address ends up with the value written to it. -/
theorem applyWrites_of_mem (distinct : (ws.map Prod.fst).Nodup)
    {w : Addr × Val} (member : w ∈ ws) (store : Addr → Val) : applyWrites ws store w.1 = w.2 := by
  induction ws generalizing store with
  | nil => cases member
  | cons v ws ih =>
    rw [List.map_cons, List.nodup_cons] at distinct
    rw [applyWrites_cons]
    rcases List.mem_cons.mp member with rfl | member
    · rw [applyWrites_of_notMem _, Function.update_self]
      intro u hu hua
      exact distinct.1 (hua ▸ List.mem_map_of_mem hu)
    · exact ih distinct.2 member _

/-- With distinct addresses the order of the writes does not matter. -/
theorem applyWrites_reverse (distinct : (ws.map Prod.fst).Nodup)
    (store : Addr → Val) : applyWrites ws.reverse store = applyWrites ws store := by
  funext a
  by_cases touched : ∃ w ∈ ws, w.1 = a
  · obtain ⟨w, hw, rfl⟩ := touched
    rw [applyWrites_of_mem distinct hw,
      applyWrites_of_mem (by rwa [List.map_reverse, List.nodup_reverse]) (List.mem_reverse.mpr hw)]
  · have hout : ∀ w ∈ ws, w.1 ≠ a := fun w hw hwa => touched ⟨w, hw, hwa⟩
    rw [applyWrites_of_notMem hout,
      applyWrites_of_notMem fun w hw => hout w (List.mem_reverse.mp hw)]

/-- After consecutive writes each cell holds its own value. -/
theorem applyWrites_writeSeq {f : Nat → Addr} (inj : Function.Injective f) {k i : Nat}
    {vs : List Val} (hi : i < vs.length) (store : Addr → Val) :
    applyWrites (writeSeq f k vs) store (f (k + i)) = vs[i] := by
  induction vs generalizing k i store with
  | nil => simp at hi
  | cons v vs ih =>
    rw [writeSeq_cons, applyWrites_cons]
    cases i with
    | zero =>
      rw [applyWrites_of_notMem _, Nat.add_zero, Function.update_self]
      · rfl
      · intro w hw hwa
        obtain ⟨j, -, hj⟩ := exists_of_mem_writeSeq hw
        have := inj (hj.symm.trans hwa)
        omega
    | succ i =>
      have hi' : i < vs.length := by simpa using hi
      rw [show k + (i + 1) = (k + 1) + i by omega, ih hi']
      rfl

end Xv6.Math
