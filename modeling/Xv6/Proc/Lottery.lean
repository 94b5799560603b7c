/-
# The lottery

`lottery_scheduler` walks over the process table and gives every process an interval of as
many draws as it has tickets. This file cuts the loop at the process it stops at, and counts
the draws for each process.
-/

import Xv6.Proc.Tickets

namespace Xv6

namespace ProcTable

variable (t : ProcTable)

/-- The loop of `lottery_scheduler` from `curtct` on, up to the store `i = NPROC` that ends it:
the process at which it stops. -/
def stop (random : Nat) : List ProcId → Nat → Option ProcId
  | [], _ => none
  | p :: ps, curtct =>
    if (t p).state = .UNUSED ∨ (t p).state = .ZOMBIE then stop random ps curtct
    else
      let nxttct := ((curtct + (t p).tctcnt) % 2 ^ 32).toNat
      if curtct ≤ random ∧ random < nxttct then some p else stop random ps nxttct

/-- The tickets of a process that takes part in the lottery. -/
def weight (p : ProcId) : Nat := if (t p).state.Live then (t p).tctcnt.toNat else 0

/-- The tickets of the processes in a part of the table. -/
def weights (ps : List ProcId) : Nat := (ps.map t.weight).sum

/-- The loop switches to the process it stops at if that is runnable, and to no other. -/
theorem pick_eq_stop (random : Nat) (ps : List ProcId) (curtct : Nat) :
    t.pick random ps curtct =
      (t.stop random ps curtct).filter fun p => (t p).state = .RUNNABLE := by
  induction ps generalizing curtct with
  | nil => rfl
  | cons p ps ih =>
    rw [pick, stop]
    split
    next => exact ih curtct
    next =>
      dsimp only
      split
      next => simp only [Option.filter_some, decide_eq_true_eq]
      next => exact ih _

section Intervals

variable {t} {random curtct : Nat} {p : ProcId} {ps : List ProcId}

theorem weight_of_not_live (gone : ¬ (t p).state.Live) : t.weight p = 0 := if_neg gone

theorem weights_cons (p : ProcId) (ps : List ProcId) :
    t.weights (p :: ps) = t.weight p + t.weights ps := by
  rw [weights, List.map_cons, List.sum_cons, weights]

theorem weights_append (ps qs : List ProcId) :
    t.weights (ps ++ qs) = t.weights ps + t.weights qs := by
  rw [weights, List.map_append, List.sum_append, weights, weights]

theorem stop_of_not_live (gone : ¬ (t p).state.Live) :
    t.stop random (p :: ps) curtct = t.stop random ps curtct := by
  rw [stop, if_pos]
  by_contra h
  exact gone (not_or.mp h)

/-- The bounds of the intervals do not wrap around as long as the tickets fit in an `int`. -/
theorem stop_of_live (live : (t p).state.Live) (positive : 0 < (t p).tctcnt)
    (fits : curtct + t.weight p < 2 ^ 31) :
    t.stop random (p :: ps) curtct =
      if curtct ≤ random ∧ random < curtct + t.weight p then some p
      else t.stop random ps (curtct + t.weight p) := by
  have hnext : ((curtct + (t p).tctcnt) % 2 ^ 32).toNat = curtct + t.weight p := by
    rw [weight, if_pos live] at fits ⊢
    omega
  rw [stop, if_neg (not_or.mpr live), hnext]

/-- A draw that falls in the intervals of a part of the table stops at a process of that
part. -/
theorem stop_isSome (positive : ∀ p, (t p).state.Live → 0 < (t p).tctcnt)
    (fits : curtct + t.weights ps < 2 ^ 31) (start : curtct ≤ random)
    (below : random < curtct + t.weights ps) :
    ∃ p, t.stop random ps curtct = some p ∧ (t p).state.Live := by
  induction ps generalizing curtct with
  | nil => exact absurd (start.trans_lt below) (lt_irrefl _)
  | cons p ps ih =>
    rw [weights_cons] at fits below
    by_cases live : (t p).state.Live
    · rw [stop_of_live live (positive p live) (by omega)]
      by_cases here : random < curtct + t.weight p
      · exact ⟨p, if_pos ⟨start, here⟩, live⟩
      · rw [if_neg fun h => here h.2]
        exact ih (by omega) (by omega) (by omega)
    · rw [weight_of_not_live live, Nat.zero_add] at fits below
      rw [stop_of_not_live live]
      exact ih fits start below

/-- The loop stops at processes of the table only. -/
theorem stop_mem (found : t.stop random ps curtct = some p) : p ∈ ps := by
  induction ps generalizing curtct with
  | nil => cases found
  | cons q ps ih =>
    rw [stop] at found
    split at found
    next => exact List.mem_cons_of_mem q (ih found)
    next =>
      dsimp only at found
      split at found
      next => exact Option.some.inj found ▸ List.mem_cons_self
      next => exact List.mem_cons_of_mem q (ih found)

/-- The draws for a process form the interval behind the processes in front of it. -/
theorem stop_eq_some_iff (positive : ∀ p, (t p).state.Live → 0 < (t p).tctcnt)
    {pre post : List ProcId} (once : p ∉ pre ∧ p ∉ post) (live : (t p).state.Live)
    (fits : curtct + t.weights (pre ++ p :: post) < 2 ^ 31) (start : curtct ≤ random) :
    t.stop random (pre ++ p :: post) curtct = some p ↔
      curtct + t.weights pre ≤ random ∧ random < curtct + t.weights pre + t.weight p := by
  induction pre generalizing curtct with
  | nil =>
    rw [List.nil_append, weights_cons] at fits
    rw [List.nil_append, stop_of_live live (positive p live) (by omega)]
    change _ ↔ curtct ≤ random ∧ random < curtct + t.weight p
    split
    next h => exact iff_of_true rfl h
    next h => exact iff_of_false (fun found => once.2 (stop_mem found)) h
  | cons q pre ih =>
    have hq := List.ne_of_not_mem_cons once.1
    have hpre := List.not_mem_of_not_mem_cons once.1
    rw [List.cons_append, weights_cons] at fits
    rw [List.cons_append, weights_cons]
    by_cases hlive : (t q).state.Live
    · rw [stop_of_live hlive (positive q hlive) (by omega)]
      split
      next h =>
        refine iff_of_false (fun found => hq (Option.some.inj found).symm) fun h' => ?_
        omega
      next h =>
        rw [ih ⟨hpre, once.2⟩ (by omega) (by omega), Nat.add_assoc curtct]
    · rw [weight_of_not_live hlive, Nat.zero_add] at fits ⊢
      rw [stop_of_not_live hlive]
      exact ih ⟨hpre, once.2⟩ fits start

/-- Of the draws below the total, a process is selected for as many as it has tickets. -/
theorem card_stop (positive : ∀ p, (t p).state.Live → 0 < (t p).tctcnt) (distinct : ps.Nodup)
    (fits : t.weights ps < 2 ^ 31) (member : p ∈ ps) (live : (t p).state.Live) :
    ((Finset.range (t.weights ps)).filter fun random => t.stop random ps 0 = some p).card =
      t.weight p := by
  obtain ⟨pre, post, rfl⟩ := List.append_of_mem member
  have hnodup := List.nodup_append.mp distinct
  have hpre : p ∉ pre := fun h => hnodup.2.2 p h p List.mem_cons_self rfl
  have hpost : p ∉ post := (List.nodup_cons.mp hnodup.2.1).1
  have hinterval : (Finset.range (t.weights (pre ++ p :: post))).filter
      (fun random => t.stop random (pre ++ p :: post) 0 = some p) =
        Finset.Ico (t.weights pre) (t.weights pre + t.weight p) := by
    ext random
    rw [Finset.mem_filter, Finset.mem_range, Finset.mem_Ico,
      stop_eq_some_iff positive ⟨hpre, hpost⟩ live (by omega) (Nat.zero_le _), Nat.zero_add,
      and_iff_right_iff_imp, weights_append, weights_cons]
    omega
  rw [hinterval, Nat.card_Ico, Nat.add_sub_cancel_left]

end Intervals

end ProcTable

namespace Machine

variable {s : Machine}

theorem tickets_eq_weights (positive : ∀ p, (s.proc p).state.Live → 0 < (s.proc p).tctcnt) :
    s.tickets = s.proc.weights (List.finRange NPROC) := by
  rw [tickets, ProcTable.weights]
  induction List.finRange NPROC with
  | nil => rfl
  | cons p ps ih =>
    rw [List.map_cons, List.sum_cons, ih, List.map_cons, List.sum_cons, Nat.cast_add,
      ProcTable.weight]
    by_cases live : (s.proc p).state.Live
    · rw [if_pos live, if_pos live, Int.toNat_of_nonneg (positive p live).le]
    · rw [if_neg live, if_neg live, Nat.cast_zero]

/-- The lottery is proportional: every draw below the total stops the loop at one process that
takes part, the scheduler switches to it if it is runnable and to no other process, and each
process is selected for as many draws as it has tickets. -/
theorem lottery_proportional {T : Nat}
    (positive : ∀ p, (s.proc p).state.Live → 0 < (s.proc p).tctcnt) (sum : s.tickets = T)
    (fits : T < 2 ^ 31) (total : s.ttltcts = T) :
    (∀ random < T, ∃ p, s.proc.stop random (List.finRange NPROC) 0 = some p ∧
      (s.proc p).state.Live ∧
      ∀ c fastrand, s.Free .procTable → fastrand % T = random →
        s.runIdle c fastrand = some
          (if (s.proc p).state = .RUNNABLE then
            (s.setTable (s.proc.setState p .RUNNING)).setCpu c fun _ =>
              ⟨some p, .process p, [.procTable]⟩
          else s)) ∧
    ∀ p, (s.proc p).state.Live →
      (((Finset.range T).filter fun random =>
        s.proc.stop random (List.finRange NPROC) 0 = some p).card : Int) = (s.proc p).tctcnt := by
  have hT : s.proc.weights (List.finRange NPROC) = T := by
    have h := tickets_eq_weights positive
    rw [sum] at h
    exact_mod_cast h.symm
  constructor
  · intro random hrandom
    obtain ⟨p, hstop, hlive⟩ := ProcTable.stop_isSome positive
      (by rw [hT, Nat.zero_add]; exact fits) (Nat.zero_le random)
      (by rw [hT, Nat.zero_add]; exact hrandom)
    refine ⟨p, hstop, hlive, fun c fastrand hfree hmod => ?_⟩
    have hword : (s.ttltcts % 2 ^ 32).toNat = T := by
      rw [total]
      omega
    have hpos : s.ttltcts % 2 ^ 32 ≠ 0 := by
      rw [total]
      omega
    rw [runIdle, if_pos ⟨hfree, hpos⟩, draw, hword, hmod, ProcTable.pick_eq_stop, hstop,
      Option.filter_some]
    by_cases hrun : (s.proc p).state = .RUNNABLE
    · rw [if_pos hrun, if_pos (decide_eq_true hrun)]
    · rw [if_neg hrun, if_neg (by simpa using hrun)]
  · intro p hlive
    have hcard := ProcTable.card_stop positive (List.nodup_finRange NPROC)
      (by rw [hT]; exact fits) (List.mem_finRange p) hlive
    rw [hT] at hcard
    rw [hcard, ProcTable.weight, if_pos hlive, Int.toNat_of_nonneg (positive p hlive).le]

/-- Three processes with different numbers of tickets, and a zombie among them. -/
def withZombie : Machine :=
  { boot 0 (fun _ => false) fun _ _ => 0 with
    proc := fun p =>
      if p = 0 then ⟨0, .RUNNABLE, 1, none, none, false, 100, 0⟩
      else if p = 1 then ⟨0, .ZOMBIE, 2, some 0, none, false, 50, 0⟩
      else if p = 2 then ⟨0, .SLEEPING, 3, some 0, none, false, 30, 0⟩
      else if p = 3 then ⟨0, .RUNNABLE, 4, some 0, none, false, 20, 0⟩
      else Proc.zero
    ttltcts := 150 }

/-- Each process is selected for its own tickets, the zombie for none. Behind the zombie, draw 135
switches to the third process, and draw 110 falls to the one that sleeps. -/
theorem lottery_proportional_withZombie :
    (∀ pn ∈ [((0 : ProcId), 100), (2, 30), (3, 20)], ((Finset.range 150).filter fun random =>
      withZombie.proc.stop random (List.finRange NPROC) 0 = some pn.1).card = pn.2) ∧
    (withZombie.runIdle 5 285).map (fun t => (t.cpus 5).curproc) = some (some 3) ∧
    withZombie.runIdle 5 110 = some withZombie := by
  have hpositive : ∀ p, (withZombie.proc p).state.Live → 0 < (withZombie.proc p).tctcnt := by decide
  have hfree : withZombie.Free .procTable := by decide
  have hsleeps : withZombie.proc.stop 110 (List.finRange NPROC) 0 = some 2 := by decide
  have hruns : withZombie.proc.stop 135 (List.finRange NPROC) 0 = some 3 := by decide
  obtain ⟨hdraw, hcard⟩ := lottery_proportional (T := 150) hpositive (by decide) (by decide) rfl
  refine ⟨fun pn hpn => ?_, ?_, ?_⟩
  · have hlive : (withZombie.proc pn.1).state.Live ∧ (withZombie.proc pn.1).tctcnt = pn.2 := by
      revert pn
      decide
    exact_mod_cast (hcard pn.1 hlive.1).trans hlive.2
  · obtain ⟨p, hstop, -, hrun⟩ := hdraw 135 (by decide)
    obtain rfl := Option.some.inj (hruns.symm.trans hstop)
    rw [hrun 5 285 hfree rfl]
    rfl
  · obtain ⟨p, hstop, -, hrun⟩ := hdraw 110 (by decide)
    obtain rfl := Option.some.inj (hsleeps.symm.trans hstop)
    exact hrun 5 110 hfree rfl

end Machine

end Xv6
