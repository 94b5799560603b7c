/-
# The range of the total

`ttltcts` is a plain `int`, and every process may choose any positive `int` as its number of
tickets, so the total can wrap around. It stays in range as long as every sum that is stored fits
in an `int` and no two updates of the total overlap: then it covers the tickets of every process
that is not between two stores to it. It may be larger, because a `fork` that fails leaves its
tickets in it.
-/

import Xv6.Proc.Lottery
import Xv6.Proc.Parents

namespace Xv6

open Math

/-- The bounds `curtct` and `nxttct` that the loop of `lottery_scheduler` computes for each
process, if it does not stop before. -/
def ProcTable.bounds (t : ProcTable) : List ProcId → Nat → List (ProcId × Nat × Nat)
  | [], _ => []
  | p :: ps, curtct =>
    if (t p).state = .UNUSED ∨ (t p).state = .ZOMBIE then bounds t ps curtct
    else
      let nxttct := ((curtct + (t p).tctcnt) % 2 ^ 32).toNat
      (p, curtct, nxttct) :: bounds t ps nxttct

/-- The bounds do not wrap around as long as the tickets fit in an `int`. -/
theorem ProcTable.bounds_exact {t : ProcTable}
    (positive : ∀ p, (t p).state.Live → 0 < (t p).tctcnt) {ps : List ProcId} {curtct : Nat}
    (fits : curtct + t.weights ps < 2 ^ 31) {p : ProcId} {cur nxt : Nat}
    (mem : (p, cur, nxt) ∈ t.bounds ps curtct) :
    (nxt : Int) = cur + (t p).tctcnt ∧ nxt < 2 ^ 31 := by
  induction ps generalizing curtct with
  | nil => exact absurd mem List.not_mem_nil
  | cons q ps ih =>
    rw [weights_cons] at fits
    rw [bounds] at mem
    split at mem
    next gone => exact ih (by omega) mem
    next live =>
      have hlive : (t q).state.Live := not_or.mp live
      have hpositive := positive q hlive
      have hweight : (t.weight q : Int) = (t q).tctcnt := by
        rw [weight, if_pos hlive, Int.toNat_of_nonneg hpositive.le]
      rcases List.mem_cons.mp mem with heq | hmem
      · obtain ⟨rfl, hcur⟩ := Prod.mk.inj heq
        obtain ⟨rfl, rfl⟩ := Prod.mk.inj hcur
        omega
      · exact ih (by omega) hmem

/-- What the code of a process with `tctcnt` tickets adds to the total that it has read. -/
def Frame.adds (tctcnt : Int) : Frame → Int
  | .fork _ (.count _ _) => 100
  | .procTickets (.add _) _ => tctcnt
  | _ => 0

theorem bmod_of_small {i : Int} (low : -2 ^ 31 ≤ i) (high : i < 2 ^ 31) : i.bmod (2 ^ 32) = i := by
  rw [Int.bmod_eq_of_le_mul_two (by omega) (by omega)]

/-- A sum of two `int`s that are not negative shows by its sign whether it fits. -/
theorem bmod_nonneg_iff {i : Int} (low : 0 ≤ i) (high : i < 2 ^ 32) :
    0 ≤ i.bmod (2 ^ 32) ↔ i < 2 ^ 31 := by
  rw [Int.bmod_def]
  split <;> omega

namespace Machine

/-- The conditions under which the total stays in range: nobody has stored to `ttltcts` between a
load and the store that belongs to it, the sum that is stored fits in an `int`, and the argument
of `proc_tickets` is an `int`. -/
structure TotalFits (s : Machine) (x : Act) : Prop where
  current : ∀ c ans q f total, x = .step c ans → s.InCall c q f → f.loaded = some total →
    total = s.ttltcts
  sum : ∀ c ans q f total, x = .step c ans → s.InCall c q f → f.loaded = some total →
    total + f.adds (s.proc q).tctcnt < 2 ^ 31
  int : ∀ c n, x = .call c (.procTickets n) → n < 2 ^ 31

/-- A step that keeps the total in range. -/
def FitStep (x : Act) (s t : Machine) : Prop := s.TotalFits x ∧ Step x s t

/-- What holds about the range of the total between any two segments. The numbers of tickets are
in the table, and on their way there in `sys_proc_tickets`. -/
structure Covered (s : Machine) : Prop extends Forking s, Rooted s where
  asked : ∀ q pc n, (s.thread q).call = some (.procTickets pc n) →
    n < 2 ^ 31 ∧ (pc ≠ .start → 0 < n)
  positive : ∀ p, (s.proc p).state.Live → 0 < (s.proc p).tctcnt ∧ (s.proc p).tctcnt < 2 ^ 31
  covers : ∑ p, s.share p ≤ s.ttltcts
  fits : s.ttltcts < 2 ^ 31

section Steps

variable {s t : Machine} {x : Act} {p q : ProcId}

namespace Covered

variable (cov : s.Covered)
include cov

theorem share_nonneg (p : ProcId) : 0 ≤ s.share p := by
  rw [share]
  split
  next h => exact (cov.positive p h.1).1.le
  next => exact le_refl 0

/-- Nobody has more in the total than there is. -/
theorem share_le (p : ProcId) : s.share p ≤ s.ttltcts :=
  (Finset.single_le_sum (fun p _ => cov.share_nonneg p) (Finset.mem_univ p)).trans cov.covers

theorem nonneg : 0 ≤ s.ttltcts := (cov.share_nonneg s.initproc).trans (cov.share_le s.initproc)

/-- The numbers of tickets in `sys_proc_tickets` are those of the calls that were made. -/
theorem asked_step (inv : s.Inv) (int : ∀ c n, x = .call c (.procTickets n) → n < 2 ^ 31)
    (step : Step x s t) {pc : TicketsPc} {n : Int}
    (place : (t.thread q).call = some (.procTickets pc n)) :
    n < 2 ^ 31 ∧ (pc ≠ .start → 0 < n) := by
  cases step.call_origin inv place with
  | same place => exact cov.asked q pc n place
  | make c k act here begin =>
    cases k <;> cases begin
    exact ⟨int c n act, fun h => absurd rfl h⟩
  | frame c ans g act here run thread same =>
    cases g with
    | procTickets pc' n' =>
      obtain rfl : n = n' := by
        cases same
        rfl
      obtain ⟨hint, hpos⟩ := cov.asked q pc' n here.call
      refine ⟨hint, fun _ => ?_⟩
      by_cases hstart : pc' = .start
      · -- the call goes on only if the number is positive
        subst hstart
        rw [thread, frameThread, ticketsThread] at place
        split at place
        next h => exact h
        next => cases place
      · exact hpos hstart
    | _ => cases same
  | block c chan lk here busy => cases busy
  | fresh q b place fresh => cases fresh

theorem positive_step (inv : s.Inv) (step : Step x s t) (live : (t.proc p).state.Live) :
    0 < (t.proc p).tctcnt ∧ (t.proc p).tctcnt < 2 ^ 31 := by
  rcases (step.state inv p).live_origin live with hlive | hnew
  · rcases (step.row inv p).tctcnt with h | h | ⟨c, n, here, h⟩
    · rw [h]
      exact cov.positive p hlive
    · rw [h] at hlive
      exact absurd hlive (by decide)
    · obtain ⟨hint, hpos⟩ := cov.asked p _ n here.call
      rw [h]
      exact ⟨hpos (by simp), hint⟩
  · rw [(cov.toForking.step inv step).new p (step.new_slot inv hnew).2]
    decide

/-- A step that fits keeps the shares below the total, and the total in an `int`. -/
theorem total_step (inv : s.Inv) (fits : s.TotalFits x) (step : Step x s t) :
    ∑ p, t.share p ≤ t.ttltcts ∧ t.ttltcts < 2 ^ 31 := by
  have hcovers := cov.covers
  have hfits := cov.fits
  have hnonneg := cov.nonneg
  cases cov.toForking.total_move inv step fits.current with
  | same total shares =>
    rw [total, Finset.sum_congr rfl fun p _ => shares p]
    exact ⟨hcovers, hfits⟩
  | gives np fails total others gone =>
    -- a `fork` that fails leaves its tickets in the total
    have hsum := sum_share_change np others
    have hshare := cov.share_nonneg np
    omega
  | takesOff q inside moves =>
    -- a share is at most the total, so the difference is not negative
    have hsum := moves.sum
    have hle := cov.share_le q
    have hshare := cov.share_nonneg q
    have htotal := moves.total
    rw [bmod_of_small (by omega) (by omega)] at htotal
    omega
  | putsBack c ans q n act here moves =>
    have hsum := moves.sum
    have hlive : (s.proc q).state.Live := by
      rw [inv.state_running here.here]
      decide
    have hpos := (cov.positive q hlive).1
    have hstored : s.ttltcts + (s.proc q).tctcnt < 2 ^ 31 := fits.sum c ans q _ _ act here rfl
    have htotal := moves.total
    rw [bmod_of_small (by omega) hstored] at htotal
    omega
  | counts c ans q b np act here moves =>
    have hsum := moves.sum
    have hstored : s.ttltcts + 100 < 2 ^ 31 := fits.sum c ans q _ _ act here rfl
    have htotal := moves.total
    rw [bmod_of_small (by omega) hstored] at htotal
    omega

theorem step (inv : s.Inv) (step : FitStep x s t) : t.Covered where
  toForking := cov.toForking.step inv step.2
  toRooted := cov.toRooted.step inv step.2
  asked _ _ _ place := cov.asked_step inv step.1.int step.2 place
  positive _ live := cov.positive_step inv step.2 live
  covers := (cov.total_step inv step.1 step.2).1
  fits := (cov.total_step inv step.1 step.2).2

/-- A store of the total leaves it in range exactly if the sum fits in an `int`. -/
theorem nonneg_iff (inv : s.Inv) {c : CpuId} {ans : Nat} {f : Frame} (here : s.InCall c q f)
    (loaded : f.loaded = some s.ttltcts) (step : Step (.step c ans) s t) :
    0 ≤ t.ttltcts ↔ s.ttltcts + f.adds (s.proc q).tctcnt < 2 ^ 31 := by
  have hfits := cov.fits
  have hnonneg := cov.nonneg
  have hlive : (s.proc q).state.Live := by
    rw [inv.state_running here.here]
    decide
  obtain ⟨hpos, hint⟩ := cov.positive q hlive
  have hrun := step.runFrame inv here
  -- taking off what a process has in the total always fits
  have hoff : f.outside = false → t.ttltcts = (s.ttltcts - (s.proc q).tctcnt).bmod (2 ^ 32) →
      (0 ≤ t.ttltcts ↔ s.ttltcts + 0 < 2 ^ 31) := by
    intro hinside htotal
    have hle := cov.share_le q
    rw [inv.share_inside here hinside] at hle
    rw [htotal, bmod_of_small (by omega) (by omega)]
    omega
  unfold Frame.loaded at loaded
  split at loaded
  next isThread total =>
    cases loaded
    exact hoff rfl (congrArg Shared.ttltcts (runFrame_effect (by simp) hrun).shared)
  next b np total =>
    cases loaded
    have htotal : t.ttltcts = (s.ttltcts + 100).bmod (2 ^ 32) :=
      congrArg Shared.ttltcts (runFrame_effect (by simp) hrun).shared
    rw [htotal]
    exact bmod_nonneg_iff (by omega) (by omega)
  next total n =>
    cases loaded
    exact hoff rfl (congrArg Shared.ttltcts (runFrame_effect (by simp) hrun).shared)
  next total n =>
    cases loaded
    have htotal : t.ttltcts = (s.ttltcts + (s.proc q).tctcnt).bmod (2 ^ 32) :=
      congrArg Shared.ttltcts (runFrame_effect (by simp) hrun).shared
    rw [htotal]
    exact bmod_nonneg_iff (by omega) (by omega)
  next => cases loaded

end Covered

end Steps

section Main

variable {mem : Nat} {cond : Nat → Bool} {word : Nat → Int → Int} {as : List Act} {s : Machine}

theorem boot_covered (mem : Nat) (cond : Nat → Bool) (word : Nat → Int → Int) :
    (boot mem cond word).Covered where
  toForking := (boot_balance mem cond word).toForking
  toRooted := boot_rooted mem cond word
  asked _ _ _ h := by cases h
  positive p live := by
    by_cases hp : p = 0
    · subst hp
      change (0 : Int) < 100 ∧ (100 : Int) < 2 ^ 31
      decide
    · simp only [boot, Function.update_of_ne hp] at live
      exact absurd live (by decide)
  covers := by
    rw [boot_shares]
    exact le_refl _
  fits := by
    change (100 : Int) < 2 ^ 31
    decide

/-- The conditions for an action, as a test. -/
def fitsPlainly (s : Machine) : Act → Bool
  | .call _ (.procTickets n) => n < 2 ^ 31
  | .step c _ =>
    match (s.cpus c).place with
    | .process q => (s.thread q).call.all fun f => f.loaded.all fun total =>
      total = s.ttltcts ∧ total + f.adds (s.proc q).tctcnt < 2 ^ 31
    | _ => true
  | _ => true

theorem fits_of_plainly {x : Act} (plain : s.fitsPlainly x = true) : s.TotalFits x := by
  have hframe : ∀ c ans q f total, x = .step c ans → s.InCall c q f → f.loaded = some total →
      total = s.ttltcts ∧ total + f.adds (s.proc q).tctcnt < 2 ^ 31 := by
    rintro c ans q f total rfl here loaded
    simpa only [fitsPlainly, here.here, here.call, loaded, Option.all_some,
      decide_eq_true_eq] using plain
  refine ⟨fun c ans q f total act here loaded => (hframe c ans q f total act here loaded).1,
    fun c ans q f total act here loaded => (hframe c ans q f total act here loaded).2, ?_⟩
  rintro c n rfl
  exact of_decide_eq_true plain

theorem run_of_fits {s₀ : Machine}
    (done : execute (fun s x => if s.fitsPlainly x then s.act x else none) s₀ as = some s) :
    Run FitStep s₀ as s := by
  refine Run.of_execute (fun x s t hact => ?_) done
  split at hact
  next hplain => exact ⟨fits_of_plainly hplain, hact⟩
  next => cases hact

/-- The process on a CPU changes its tickets. -/
def changeTickets (c : CpuId) (n : Int) : List Act :=
  .call c (.procTickets n) :: List.replicate 7 (.step c 0)

end Main

end Machine

end Xv6
