/-
# Freeing a pipe

The last close of the read end and the last close of the write end of a pipe, on two CPUs.
`pipeclose` marks its end closed with the lock held, releases the lock, then looks at both
ends, and gives the page to `kfree` if both are closed. The three parts are separate steps,
and the steps of the two processes may come in any order.
-/

import Xv6.Math.Runs
import Xv6.Pipe.Model

namespace Xv6

open Math

/-- Where a process is in `pipeclose`. -/
inductive ClosePc where
  /-- About to acquire the lock. -/
  | start
  /-- Has released the lock; about to test `readopen` and `writeopen`. -/
  | test
  /-- About to call `kfree`. -/
  | free
  | done
  deriving DecidableEq, Repr

/-- A pipe with a process that closes its write end (`true`) and one that closes its read end
(`false`). -/
structure PipeClosing where
  pipe : PipeSystem
  pc : Bool → ClosePc
  /-- The number of calls of `kfree` on the page of the pipe. -/
  frees : Nat
  /-- History: some step has read the pipe after its page was freed. -/
  late : Bool

namespace PipeClosing

/-- Both last closes are about to begin. -/
def begin (pipe : PipeSystem) : PipeClosing := ⟨pipe, fun _ => .start, 0, false⟩

/-- A step that reads the pipe. -/
def touch (s : PipeClosing) : PipeClosing := { s with late := s.late || decide (0 < s.frees) }

/-- A process goes on at another place. -/
def goto (s : PipeClosing) (writable : Bool) (pc : ClosePc) : PipeClosing :=
  { s with pc := Function.update s.pc writable pc }

/-- The next step of `pipeclose(p, writable)`. -/
def run (s : PipeClosing) (writable : Bool) : Option PipeClosing :=
  match s.pc writable with
  | .start =>
    if s.pipe.lock = none then
      some ({ s.touch with pipe := s.pipe.close writable }.goto writable .test)
    else none
  | .test =>
    if s.pipe.pipe.readopen = false ∧ s.pipe.pipe.writeopen = false then
      some (s.touch.goto writable .free)
    else some (s.touch.goto writable .done)
  | .free => some ({ s with frees := s.frees + 1 }.goto writable .done)
  | .done => none

/-- One step of one of the two processes. -/
def Step (writable : Bool) (s t : PipeClosing) : Prop := s.run writable = some t

/-- A process does not enter its locked section while the other is between its locked section
and its test. -/
def Apart (s : PipeClosing) (writable : Bool) : Prop :=
  s.pc writable = .start → s.pc (!writable) ≠ .test

instance (s : PipeClosing) (writable : Bool) : Decidable (s.Apart writable) :=
  inferInstanceAs (Decidable (_ → _))

/-- A step that keeps the two processes apart. -/
def ApartStep (writable : Bool) (s t : PipeClosing) : Prop := s.Apart writable ∧ Step writable s t

/-- Whether an end of the pipe is open. -/
def isOpen (s : PipeClosing) (writable : Bool) : Bool :=
  if writable then s.pipe.pipe.writeopen else s.pipe.pipe.readopen

/-- What holds while the two processes stay apart: an end is open until its process has passed
the locked section, and whoever is behind it is alone, with the other process done as soon as
it has found both ends closed. -/
structure Orderly (s : PipeClosing) : Prop where
  opened : ∀ w, s.isOpen w = true ↔ s.pc w = .start
  alone : ∀ w, s.pc w = .test → s.pc (!w) = .start ∨ s.pc (!w) = .done
  last : ∀ w, s.pc w = .free → s.pc (!w) = .done
  freed : s.frees = if s.pc true = .done ∧ s.pc false = .done then 1 else 0
  early : s.late = false

section Steps

variable {s t : PipeClosing} {w : Bool}

theorem isOpen_close (s : PipeClosing) (w v : Bool) (pc : ClosePc) :
    ({ s.touch with pipe := s.pipe.close w }.goto w pc).isOpen v =
      if v = w then false else s.isOpen v := by
  cases w <;> cases v <;> rfl

theorem goto_self (s : PipeClosing) (w : Bool) (pc : ClosePc) : (s.goto w pc).pc w = pc :=
  Function.update_self ..

theorem goto_other (s : PipeClosing) (w : Bool) (pc : ClosePc) :
    (s.goto w pc).pc (!w) = s.pc (!w) :=
  Function.update_of_ne (Bool.not_ne_self w) ..

theorem Orderly.frees_of_running (inv : s.Orderly) (running : s.pc w ≠ .done) : s.frees = 0 := by
  rw [inv.freed, if_neg]
  rintro ⟨h, h'⟩
  cases w with
  | true => exact running h
  | false => exact running h'

/-- A process that is not done reads a page that is not freed. -/
theorem Orderly.touch_eq (inv : s.Orderly) (running : s.pc w ≠ .done) : s.touch = s := by
  have hearly := inv.early
  have hzero := inv.frees_of_running running
  cases s
  dsimp only at hearly hzero
  subst hearly hzero
  rfl

/-- Both ends are closed when a process tests them with the other one done, and not before. -/
theorem Orderly.closed_iff (inv : s.Orderly) (here : s.pc w = .test) :
    (s.pipe.pipe.readopen = false ∧ s.pipe.pipe.writeopen = false) ↔ s.pc (!w) = .done := by
  have hself : s.isOpen w = false := by
    rw [← Bool.not_eq_true, inv.opened w, here]
    exact ClosePc.noConfusion
  have hother := inv.opened (!w)
  rcases inv.alone w here with h | h
  · rw [h] at hother ⊢
    have hopen : s.isOpen (!w) = true := hother.mpr rfl
    refine iff_of_false (fun hclosed => ?_) (by decide)
    cases w with
    | true => exact absurd (hopen.symm.trans hclosed.1) (by decide)
    | false => exact absurd (hopen.symm.trans hclosed.2) (by decide)
  · have hclosed : s.isOpen (!w) = false := by
      rw [← Bool.not_eq_true, hother, h]
      exact ClosePc.noConfusion
    refine iff_of_true ?_ h
    cases w with
    | true => exact ⟨hclosed, hself⟩
    | false => exact ⟨hself, hclosed⟩

/-- What a predicate of both processes says, from one of them. -/
theorem forall_of_pair {P : Bool → Prop} (self : P w) (other : P (!w)) : ∀ v, P v := by
  intro v
  cases w <;> cases v <;> assumption

theorem done_iff (w : Bool) :
    (s.pc true = .done ∧ s.pc false = .done) ↔ s.pc w = .done ∧ s.pc (!w) = .done := by
  cases w with
  | true => exact Iff.rfl
  | false => exact and_comm

/-- The locked section. -/
theorem Orderly.enter (inv : s.Orderly) (here : s.pc w = .start) (apart : s.pc (!w) ≠ .test) :
    ({ s.touch with pipe := s.pipe.close w }.goto w .test).Orderly := by
  have hfree : s.pc (!w) ≠ .free := by
    intro h
    have hdone := inv.last (!w) h
    rw [Bool.not_not, here] at hdone
    cases hdone
  have hrunning : s.pc w ≠ .done := by
    rw [here]
    exact ClosePc.noConfusion
  refine ⟨forall_of_pair (w := w) ?_ ?_, forall_of_pair (w := w) ?_ ?_,
    forall_of_pair (w := w) ?_ ?_, ?_, (congrArg late (inv.touch_eq hrunning)).trans inv.early⟩
  · rw [isOpen_close, if_pos rfl, goto_self]
    exact iff_of_false Bool.false_ne_true ClosePc.noConfusion
  · rw [isOpen_close, if_neg (Bool.not_ne_self w), goto_other]
    exact inv.opened (!w)
  · intro _
    rw [goto_other]
    change s.pc (!w) = .start ∨ s.pc (!w) = .done
    cases h : s.pc (!w) with
    | start => exact .inl rfl
    | test => exact absurd h apart
    | free => exact absurd h hfree
    | done => exact .inr rfl
  · rw [goto_other]
    exact fun h => absurd h apart
  · rw [goto_self]
    exact ClosePc.noConfusion
  · rw [goto_other]
    exact fun h => absurd h hfree
  · rw [if_neg]
    · exact inv.frees_of_running hrunning
    · rw [done_iff w, goto_self]
      exact fun h => ClosePc.noConfusion h.1

/-- A process behind its locked section goes on: to `kfree` if the other one is done, or to its
end. -/
theorem Orderly.advance (inv : s.Orderly) (pc : ClosePc) (frees : Nat) (here : s.pc w ≠ .start)
    (running : s.pc w ≠ .done) (next : pc = .free ∧ s.pc (!w) = .done ∨ pc = .done)
    (count : frees = if pc = .done ∧ s.pc (!w) = .done then 1 else 0) :
    ({ s with frees := frees }.goto w pc).Orderly := by
  have hstart : pc ≠ .start ∧ pc ≠ .test := by
    rcases next with ⟨rfl, -⟩ | rfl <;> decide
  refine ⟨forall_of_pair (w := w) ?_ ?_, forall_of_pair (w := w) ?_ ?_,
    forall_of_pair (w := w) ?_ ?_, ?_, inv.early⟩
  · rw [goto_self]
    exact iff_of_false (fun h => here ((inv.opened w).mp h)) hstart.1
  · rw [goto_other]
    exact inv.opened (!w)
  · rw [goto_self]
    exact fun h => absurd h hstart.2
  · rw [goto_other]
    intro h
    have hself := inv.alone (!w) h
    rw [Bool.not_not] at hself
    exact absurd hself (not_or.mpr ⟨here, running⟩)
  · rw [goto_self, goto_other]
    intro h
    rcases next with ⟨-, hdone⟩ | rfl
    · exact hdone
    · cases h
  · rw [goto_other]
    intro h
    have hself := inv.last (!w) h
    rw [Bool.not_not] at hself
    exact absurd hself running
  · simp only [done_iff w, goto_self, goto_other]
    exact count

/-- One step of one process. -/
theorem Orderly.step (inv : s.Orderly) (step : ApartStep w s t) : t.Orderly := by
  obtain ⟨hapart, hstep⟩ := step
  rw [Step, run] at hstep
  split at hstep
  next here =>
    split at hstep
    next =>
      obtain rfl := Option.some.inj hstep
      exact inv.enter here (hapart here)
    next => cases hstep
  next here =>
    have hrunning : s.pc w ≠ .done := by simp [here]
    have hzero := inv.frees_of_running hrunning
    rw [inv.touch_eq hrunning] at hstep
    split at hstep
    next hclosed =>
      obtain rfl := Option.some.inj hstep
      have hdone := (inv.closed_iff here).mp hclosed
      exact inv.advance .free s.frees (by simp [here]) hrunning (.inl ⟨rfl, hdone⟩)
        (by simp [hzero])
    next hopen =>
      obtain rfl := Option.some.inj hstep
      have hother : s.pc (!w) ≠ .done := fun h => hopen ((inv.closed_iff here).mpr h)
      exact inv.advance .done s.frees (by simp [here]) hrunning (.inr rfl)
        (by simp [hzero, hother])
  next here =>
    have hrunning : s.pc w ≠ .done := by simp [here]
    obtain rfl := Option.some.inj hstep
    exact inv.advance .done (s.frees + 1) (by simp [here]) hrunning (.inr rfl)
      (by simp [inv.frees_of_running hrunning, inv.last w here])
  next => cases hstep

end Steps

section Main

variable {pipe : PipeSystem} {ws : List Bool} {s : PipeClosing}

theorem begin_orderly (readable : pipe.pipe.readopen = true)
    (writable : pipe.pipe.writeopen = true) : (begin pipe).Orderly where
  opened w := by
    cases w with
    | true => exact iff_of_true writable rfl
    | false => exact iff_of_true readable rfl
  alone w h := by cases h
  last w h := by cases h
  freed := rfl
  early := rfl

/-- Where the two processes stay apart, the page is freed once: never twice, no step reads the
pipe after it, and when both processes are done it has happened. -/
theorem pipe_freed_once (readable : pipe.pipe.readopen = true)
    (writable : pipe.pipe.writeopen = true) (run : Run ApartStep (begin pipe) ws s) :
    s.frees ≤ 1 ∧ s.late = false ∧ ((∀ w, s.pc w = .done) → s.frees = 1) := by
  have inv : s.Orderly :=
    run.invariant (motive := fun _ s => s.Orderly) (begin_orderly readable writable)
      fun _ _ _ _ inv step => inv.step step
  refine ⟨?_, inv.early, fun done => ?_⟩
  · rw [inv.freed]
    split <;> decide
  · rw [inv.freed, if_pos ⟨done true, done false⟩]

/-- The write end is closed and tested, then the read end: the second process frees the
page. -/
theorem pipe_freed_once_in_turn :
    ∃ s, Run ApartStep (begin (PipeSystem.fresh fun _ => 0)) [true, true, false, false, false] s ∧
      (∀ w, s.pc w = .done) ∧ s.frees = 1 := by
  have hdone : (execute (fun s w => if s.Apart w then s.run w else none)
      (begin (PipeSystem.fresh fun _ => 0)) [true, true, false, false, false]).map
      (fun s => (s.pc true, s.pc false)) = some (.done, .done) := by decide +kernel
  obtain ⟨s, hs, hpcs⟩ := Option.map_eq_some_iff.mp hdone
  obtain ⟨hwrite, hread⟩ := Prod.mk.inj hpcs
  have hrun : Run ApartStep (begin (PipeSystem.fresh fun _ => 0))
      [true, true, false, false, false] s := by
    refine Run.of_execute (fun w s t hact => ?_) hs
    split at hact
    next hapart => exact ⟨hapart, hact⟩
    next => cases hact
  have hpc : ∀ w, s.pc w = .done := forall_of_pair (w := true) hwrite hread
  exact ⟨s, hrun, hpc, (pipe_freed_once rfl rfl hrun).2.2 hpc⟩

/-- Both processes pass their locked sections before either tests the ends. If both test next,
the page is freed twice; if one frees the page first, the other reads it afterwards. -/
theorem pipe_freed_twice :
    (∃ s, Run Step (begin (PipeSystem.fresh fun _ => 0))
      [true, false, true, false, true, false] s ∧ s.frees = 2) ∧
    ∃ s, Run Step (begin (PipeSystem.fresh fun _ => 0)) [true, false, true, true, false] s ∧
      s.late = true := by
  have htwice : (execute run (begin (PipeSystem.fresh fun _ => 0))
      [true, false, true, false, true, false]).map frees = some 2 := by decide +kernel
  have hlate : (execute run (begin (PipeSystem.fresh fun _ => 0))
      [true, false, true, true, false]).map late = some true := by decide +kernel
  obtain ⟨s, hs, hfrees⟩ := Option.map_eq_some_iff.mp htwice
  obtain ⟨t, ht, hread⟩ := Option.map_eq_some_iff.mp hlate
  exact ⟨⟨s, Run.of_execute (fun _ _ _ h => h) hs, hfrees⟩,
    ⟨t, Run.of_execute (fun _ _ _ h => h) ht, hread⟩⟩

end Main

end PipeClosing

end Xv6
