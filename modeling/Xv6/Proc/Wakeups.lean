/-
# Sleep and wakeup

Processes wait for a condition with `sleep` in a loop, under a lock, and others make it true
under the same lock and call `wakeup`. The lock covers the time from the test to the moment
when `sleep` holds the table lock, and the table lock covers the rest: a wakeup is not lost.
-/

import Xv6.Proc.States

namespace Xv6

open Math

/-- The code has made the condition true and has not finished `wakeup`. -/
def WakerPc.pending : WakerPc → Bool
  | .wakeLocked | .unlockFirst | .wake => true
  | _ => false

/-- A call that waits for condition `a`, or makes it true, does so with this channel and lock. -/
def ProcCall.Agrees (a chan : Nat) (lk : LockId) : ProcCall → Prop
  | .waiter a' chan' lk' _ => a' = a → chan' = chan ∧ lk' = lk
  | .waker a' chan' lk' _ => a' = a → chan' = chan ∧ lk' = lk
  | _ => True

instance (a chan : Nat) (lk : LockId) (k : ProcCall) : Decidable (k.Agrees a chan lk) := by
  unfold ProcCall.Agrees
  split <;> infer_instance

/-- An action agrees if it makes no other call. -/
def Act.Agrees (a chan : Nat) (lk : LockId) : Act → Prop
  | .call _ k => k.Agrees a chan lk
  | _ => True

instance (a chan : Nat) (lk : LockId) (x : Act) : Decidable (x.Agrees a chan lk) := by
  unfold Act.Agrees
  split <;> infer_instance

namespace Machine

section Watched

variable (a chan : Nat) (lk : LockId) (s : Machine)

/-- An action that agrees on the channel and the lock of the condition. -/
def WaitStep (x : Act) (s t : Machine) : Prop := x.Agrees a chan lk ∧ Step x s t

/-- The process is in the loop that waits for the condition. -/
def Waits (p : ProcId) : Prop :=
  ∃ take, (s.thread p).call = some (.waiter .test a chan lk take)

/-- The process has made the condition true, and has not finished its `wakeup`. -/
def Waking (q : ProcId) : Prop :=
  (s.proc q).state.Alive ∧ ∃ pc early, (s.thread q).call = some (.waker pc a chan lk early) ∧
    pc.pending = true

/-- The process runs in `sleep`, called from the loop. -/
structure Falls (p : ProcId) (pc : SleepPc) : Prop where
  running : (s.proc p).state = .RUNNING
  quiet : (s.thread p).yielding = none
  waits : s.Waits a chan lk p
  place : ∃ ch, (s.thread p).inner = some (.sleep pc ch lk)

/-- What holds about the condition between any two segments. -/
structure Watched : Prop where
  agrees : ∀ p f k, (s.thread p).call = some f → f.toCall = some k → k.Agrees a chan lk
  tested : ∀ p pc, s.Falls a chan lk p pc → pc = .start ∨ pc = .unlock → s.cond a = false
  falls : ∀ p, s.Falls a chan lk p .doze → s.cond a = true → ∃ q, s.Waking a chan lk q
  asleep : ∀ p, s.Waits a chan lk p → s.proc.AsleepOn p (.object chan) → s.cond a = true →
    ∃ q, s.Waking a chan lk q

end Watched

section Steps

variable {a chan : Nat} {lk : LockId} {s t : Machine} {x : Act} {p q : ProcId}

theorem forkShared_cond (b : Bool) (ans : Nat) (pc : ForkPc) :
    (s.forkShared q b ans pc).cond = s.cond := by
  unfold forkShared
  (repeat' split) <;> rfl

/-- A condition becomes true in one place only. -/
theorem Step.cond_set (inv : s.Inv) (step : Step x s t) (after : t.cond a = true) :
    s.cond a = true ∨ ∃ c ans q chan lk early, x = .step c ans ∧
      s.InCall c q (.waker .set a chan lk early) := by
  cases step.shared_move inv with
  | table _ cond _ => exact Or.inl (by rw [← cond, after])
  | inner c ans q i act here shared =>
    have hcond : t.cond = (s.innerShared q i).cond := congrArg Shared.cond shared
    rw [hcond] at after
    unfold innerShared sleepShared at after
    (repeat' split at after) <;> exact Or.inl after
  | frame c ans q f act here shared =>
    have hcond : t.cond = (s.frameShared q ans f).cond := congrArg Shared.cond shared
    rw [hcond] at after
    cases f with
    | waiter pc a' chan' lk' take =>
      cases pc with
      | start => exact Or.inl after
      | test =>
        cases take with
        | false => exact Or.inl after
        | true =>
          rw [frameShared] at after
          split at after
          next =>
            dsimp only at after
            rw [Function.update_apply] at after
            split at after
            next => cases after
            next => exact Or.inl after
          next => exact Or.inl after
    | waker pc a' chan' lk' early =>
      cases pc with
      | set =>
        by_cases ha : a = a'
        · subst ha
          exact Or.inr ⟨c, ans, q, chan', lk', early, act, here⟩
        · rw [frameShared] at after
          dsimp only at after
          rw [Function.update_of_ne ha] at after
          exact Or.inl after
      | start | wakeLocked | unlockLast | unlockFirst | wake => exact Or.inl after
    | fork b pc =>
      rw [frameShared, forkShared_cond] at after
      exact Or.inl after
    | wait pc =>
      cases pc with
      | start => exact Or.inl after
      | scan =>
        rw [frameShared] at after
        split at after <;> exact Or.inl after
    | condWaiter pc _ _ _ _ =>
      cases pc with
      | test =>
        rw [frameShared] at after
        split at after <;> exact Or.inl after
      | start | relock => exact Or.inl after
    | exit pc | procTickets pc _ | signaller pc _ _ _ => cases pc <;> exact Or.inl after
    | forkret | kill _ | wakeOnCond _ | sleepOnCond => exact Or.inl after

/-- The calls keep to the agreement. -/
theorem Watched.agrees_step (watched : s.Watched a chan lk) (inv : s.Inv)
    (agrees : x.Agrees a chan lk) (step : Step x s t) {f : Frame}
    {k : ProcCall} (after : (t.thread p).call = some f) (call : f.toCall = some k) :
    k.Agrees a chan lk := by
  cases step.call_origin inv after with
  | same place => exact watched.agrees p f k place call
  | make c k' act here begin =>
    subst act begin
    cases k' <;> cases call <;> exact agrees
  | frame c ans g act here run thread same =>
    exact watched.agrees p g k here.call (same ▸ call)
  | block c chan lk here busy =>
    subst busy
    cases call
    trivial
  | fresh q b place fresh =>
    subst fresh
    cases call

variable {pc : SleepPc} {c : CpuId} {chan' : Nat} {lk' : LockId} {early : Bool}

/-- The locks of a process that falls asleep. -/
theorem Falls.locks (falls : s.Falls a chan lk p pc) : (s.thread p).locks = pc.locks lk := by
  obtain ⟨ch, place⟩ := falls.place
  exact Thread.locks_inner falls.quiet place

/-- A process that falls asleep did so before, comes from the place before in `sleep`, or has
just tested the condition. -/
theorem Falls.origin (falls : t.Falls a chan lk p pc) (inv : s.Inv)
    (step : Step x s t) (here : pc = .start ∨ pc = .unlock ∨ pc = .doze) :
    s.Falls a chan lk p pc ∨
    (pc ≠ .start ∧ (s.Falls a chan lk p .start ∨ s.Falls a chan lk p .unlock)) ∨
    (pc = .start ∧ s.cond a = false ∧ s.Waits a chan lk p ∧ (s.proc p).state = .RUNNING ∧
      lk ∈ (s.thread p).locks) := by
  obtain ⟨hrunning, hquiet, ⟨take, hcall⟩, ch, place⟩ := falls
  have origin := step.sleep_origin inv place
  rw [origin.call] at hcall
  cases origin with
  | same thread =>
    rw [thread] at hquiet place
    rcases (step.state inv p).running hrunning with hstate | hstate
    · exact Or.inl ⟨hstate, hquiet, ⟨take, hcall⟩, ch, place⟩
    · obtain rfl := (inv.parked p (Or.inl hstate)).sleep_sched hquiet place
      rcases here with h | h | h <;> cases h
  | interrupted call place' during =>
    -- no interrupt comes while `sleep` holds a lock
    have hbase := (inv.threads p).yield (during.resolve_right fun h => h hquiet)
    rw [Thread.baseLocks, place'] at hbase
    rcases here with rfl | rfl | rfl <;> cases hbase
  | next c ans before act here' thread =>
    have hfalls : s.Falls a chan lk p before :=
      ⟨inv.state_running here'.here, here'.quiet, ⟨take, hcall⟩, ch, here'.place⟩
    rw [thread] at place
    cases before with
    | start =>
      rw [sleepThread] at place
      refine Or.inr (Or.inl ⟨?_, Or.inl hfalls⟩)
      rintro rfl
      split at place <;> cases place
    | unlock =>
      refine Or.inr (Or.inl ⟨?_, Or.inr hfalls⟩)
      rintro rfl
      cases place
    | doze =>
      cases place
      rcases here with h | h | h <;> cases h
    | sched =>
      rw [sleepThread] at place
      split at place
      next => cases place
      next =>
        cases place
        rcases here with h | h | h <;> cases h
    | relock => cases place
  | waiter c ans cond n take' act here' on start found thread =>
    cases here'.call.symm.trans hcall
    refine Or.inr (Or.inr ⟨start, found, ⟨take, hcall⟩, inv.state_running here'.here, ?_⟩)
    rw [Thread.locks_call here'.quiet here'.noInner here'.call]
    exact List.mem_singleton_self _
  | wait c ans act here' on table start found thread | busy c ans n act here' on start thread =>
    cases here'.call.symm.trans hcall

/-- While a waiter holds the lock, nobody makes the condition true. -/
theorem Watched.no_setter (watched : s.Watched a chan lk) (inv : s.Inv)
    (running : (s.proc p).state = .RUNNING) (waits : s.Waits a chan lk p)
    (holds : lk ∈ (s.thread p).locks) : ¬ s.InCall c q (.waker .set a chan' lk' early) := by
  intro here
  obtain ⟨-, rfl⟩ := watched.agrees q _ _ here.call rfl rfl
  have hholds : lk' ∈ (s.thread q).locks := by
    rw [Thread.locks_call here.quiet here.noInner here.call]
    exact List.mem_singleton_self _
  obtain rfl := inv.holder_unique running holds here.here hholds
  obtain ⟨take, hcall⟩ := waits
  cases here.call.symm.trans hcall

theorem Watched.tested_step (watched : s.Watched a chan lk) (inv : s.Inv) (step : Step x s t)
    (falls : t.Falls a chan lk p pc) (before : pc = .start ∨ pc = .unlock) : t.cond a = false := by
  -- the condition was false, and the waiter holds the lock
  have hfalse : s.cond a = false ∧ s.Waits a chan lk p ∧ (s.proc p).state = .RUNNING ∧
      lk ∈ (s.thread p).locks := by
    have hholds : ∀ pc, s.Falls a chan lk p pc → pc = .start ∨ pc = .unlock →
        s.cond a = false ∧ s.Waits a chan lk p ∧ (s.proc p).state = .RUNNING ∧
        lk ∈ (s.thread p).locks := by
      intro pc h hpc
      refine ⟨watched.tested p pc h hpc, h.waits, h.running, ?_⟩
      rw [h.locks]
      rcases hpc with rfl | rfl <;> simp [SleepPc.locks]
    rcases falls.origin inv step (before.imp_right Or.inl) with h | ⟨-, h | h⟩ | ⟨-, h⟩
    · exact hholds pc h before
    · exact hholds _ h (Or.inl rfl)
    · exact hholds _ h (Or.inr rfl)
    · exact h
  obtain ⟨hcond, hwaits, hrunning, hholds⟩ := hfalse
  by_contra hne
  rcases step.cond_set inv (Bool.not_eq_false _ ▸ hne) with
    h | ⟨c, ans, q, chan', lk', early, -, here⟩
  · rw [hcond] at h
    cases h
  · exact watched.no_setter inv hrunning hwaits hholds here

/-- A process that has made the condition true goes on to `wakeup`, and calls it when the
table lock is free. -/
theorem Waking.stays (waking : s.Waking a chan lk q) (inv : s.Inv) (step : Step x s t) :
    t.Waking a chan lk q ∨
      s.Free .procTable ∧ t.proc = s.proc.wakeup1 (some (.object chan)) := by
  obtain ⟨halive, pc, early, hcall, hpending⟩ := waking
  have halive' : (t.proc q).state.Alive := by
    rcases (step.state inv q).alive halive with h | ⟨c, ans, act, here⟩
    · exact h
    · cases here.call.symm.trans hcall
  have hsame : (t.thread q).call = (s.thread q).call → t.Waking a chan lk q :=
    fun h => ⟨halive', pc, early, h.trans hcall, hpending⟩
  cases step.goes inv q with
  | same thread => exact Or.inl (hsame (by rw [thread]))
  | make c k act here user thread => cases user.1.symm.trans hcall
  | timer c act here enabled thread | yield c ans pc act here place thread =>
    exact Or.inl (hsame (by rw [thread]; rfl))
  | inner c ans i act here thread => exact Or.inl (hsame (by rw [thread, innerThread_call]))
  | frame c ans f act here run thread =>
    obtain rfl := Option.some.inj (here.call.symm.trans hcall)
    cases pc with
    | wakeLocked | wake =>
      obtain ⟨hfree, rfl⟩ := critical_eq_some.mp run
      exact Or.inr ⟨hfree, rfl⟩
    | unlockFirst =>
      refine Or.inl ⟨halive', .wake, early, ?_, rfl⟩
      rw [thread]
      rfl
    | start | set | unlockLast => cases hpending
  | block c n l act here thread => cases here.call.symm.trans hcall
  | fresh q' b other place fresh =>
    have h := inv.embryo q' q (by rw [Thread.embryo, place]; rfl)
    rw [h] at halive
    exact absurd halive (by decide)

/-- The process that makes the condition true has its `wakeup` before it. -/
theorem Watched.waking_of_set (watched : s.Watched a chan lk) (inv : s.Inv) {ans : Nat}
    (step : Step (.step c ans) s t)
    (here : s.InCall c q (.waker .set a chan' lk' early)) : t.Waking a chan lk q := by
  obtain ⟨rfl, rfl⟩ := watched.agrees q _ _ here.call rfl rfl
  have hthread := runFrame_thread inv here (step.runFrame inv here)
  refine ⟨?_, (if early then .wakeLocked else .unlockFirst), early, by rw [hthread]; rfl, ?_⟩
  · rcases (step.state inv q).alive (by rw [inv.state_running here.here]; decide) with
      h | ⟨c, ans, act, here'⟩
    · exact h
    · cases here'.call.symm.trans here.call
  · cases early <;> rfl

/-- A process that falls asleep with the table lock keeps `wakeup` waiting. -/
theorem Falls.not_free (falls : s.Falls a chan lk p .doze) (inv : s.Inv) :
    ¬ s.Free .procTable := by
  obtain ⟨c, here⟩ := inv.running p falls.running
  refine fun free => free c ((inv.mem_held here).mpr ?_)
  rw [falls.locks]
  exact List.mem_singleton_self _

theorem Watched.falls_step (watched : s.Watched a chan lk) (inv : s.Inv) (step : Step x s t)
    (falls : t.Falls a chan lk p .doze) (true_ : t.cond a = true) :
    ∃ q, t.Waking a chan lk q := by
  rcases step.cond_set inv true_ with h | ⟨c, ans, q, chan', lk', early, rfl, here⟩
  · rcases falls.origin inv step (Or.inr (Or.inr rfl)) with h' | ⟨-, h'⟩ | ⟨h', -⟩
    · obtain ⟨q, hq⟩ := watched.falls p h' h
      rcases hq.stays inv step with hstays | ⟨hfree, -⟩
      · exact ⟨q, hstays⟩
      · exact absurd hfree (h'.not_free inv)
    · have hcond : s.cond a = false := by
        rcases h' with h' | h'
        · exact watched.tested p _ h' (Or.inl rfl)
        · exact watched.tested p _ h' (Or.inr rfl)
      rw [hcond] at h
      cases h
    · cases h'
  · exact ⟨q, watched.waking_of_set inv step here⟩

theorem Watched.asleep_step (watched : s.Watched a chan lk) (inv : s.Inv) (step : Step x s t)
    (waits : t.Waits a chan lk p) (asleep : t.proc.AsleepOn p (.object chan))
    (true_ : t.cond a = true) : ∃ q, t.Waking a chan lk q := by
  rcases step.cond_set inv true_ with h | ⟨c, ans, q, chan', lk', early, rfl, here⟩
  · obtain ⟨take, hcall⟩ := waits
    rcases (step.state inv p).sleeping asleep.1 with
      hstate | ⟨c, ans, ch, lk', rfl, here, on⟩ | ⟨c, ans, cond, mutex, rfl, here⟩
    · -- the process slept before
      have hthread := step.thread_of_idle inv (p := p) (by simp [hstate]) (by simp [hstate])
      rw [hthread] at hcall
      have hchan : (s.proc p).chan = some (.object chan) := by
        rcases (step.row inv p).chan asleep.2 with h | ⟨c, ans, lk, act, here⟩
        · exact h
        · rw [inv.state_running here.here] at hstate
          cases hstate
      obtain ⟨q, hq⟩ := watched.asleep p ⟨take, hcall⟩ ⟨hstate, hchan⟩ h
      rcases hq.stays inv step with hstays | ⟨-, hproc⟩
      · exact ⟨q, hstays⟩
      · rw [hproc] at asleep
        exact absurd asleep (ProcTable.wakeup1_not_asleep p _)
    · -- the process falls asleep now
      have hthread := (runInner_effect (step.runInner inv here)).2
      rw [hthread, Function.update_self, innerThread_call] at hcall
      have hlk := ((inv.threads p).sleep _ _ _ here.place).1
      rw [Thread.callLocks, hcall] at hlk
      obtain rfl : lk = lk' := List.singleton_inj.mp hlk
      have hfalls : s.Falls a chan lk p .doze :=
        ⟨inv.state_running here.here, here.quiet, ⟨take, hcall⟩, ch, here.place⟩
      obtain ⟨q, hq⟩ := watched.falls p hfalls h
      rcases hq.stays inv step with hstays | ⟨hfree, -⟩
      · exact ⟨q, hstays⟩
      · exact absurd hfree (hfalls.not_free inv)
    · -- a waiter does not call `sleep_on_cond`
      have hthread := (runInner_effect (step.runInner inv here)).2
      rw [hthread, Function.update_self, innerThread_call] at hcall
      have hlk := (inv.threads p).sleepOnCond _ _ _ here.place
      rw [Thread.callLocks, hcall] at hlk
      cases hlk
  · exact ⟨q, watched.waking_of_set inv step here⟩

theorem Watched.step (watched : s.Watched a chan lk) (inv : s.Inv)
    (step : WaitStep a chan lk x s t) :
    t.Watched a chan lk where
  agrees _ _ _ place call := watched.agrees_step inv step.1 step.2 place call
  tested _ _ falls before := watched.tested_step inv step.2 falls before
  falls _ falls true_ := watched.falls_step inv step.2 falls true_
  asleep _ waits asleep true_ := watched.asleep_step inv step.2 waits asleep true_

end Steps

section Main

variable {a chan : Nat} {lk : LockId} {mem : Nat} {cond : Nat → Bool} {word : Nat → Int → Int}
  {as : List Act} {s : Machine}

theorem boot_watched (mem : Nat) (cond : Nat → Bool) (word : Nat → Int → Int) :
    (boot mem cond word).Watched a chan lk where
  agrees _ _ _ place call := by
    cases place
    cases call
  tested _ _ falls := by
    obtain ⟨take, hcall⟩ := falls.waits
    cases hcall
  falls _ falls := by
    obtain ⟨take, hcall⟩ := falls.waits
    cases hcall
  asleep _ waits := by
    obtain ⟨take, hcall⟩ := waits
    cases hcall

/-- In every run in which all calls agree on the channel and the lock of condition `a`: it
never happens that the condition is true, every process that made it true has finished its
`wakeup`, and a process that waits for the condition is still asleep on the channel. -/
theorem no_lost_wakeup (run : Run (WaitStep a chan lk) (boot mem cond word) as s) :
    ¬ (s.cond a = true ∧ (∀ q, ¬ s.Waking a chan lk q) ∧
      ∃ p, s.Waits a chan lk p ∧ s.proc.AsleepOn p (.object chan)) := by
  rintro ⟨true_, done, p, waits, asleep⟩
  have inv : s.Inv ∧ s.Watched a chan lk :=
    run.invariant (motive := fun _ s => s.Inv ∧ s.Watched a chan lk)
      ⟨boot_inv mem cond word, boot_watched mem cond word⟩
      fun _ _ _ _ inv step => ⟨inv.1.step step.2, inv.2.step inv.1 step⟩
  obtain ⟨q, hq⟩ := inv.2.asleep p waits asleep true_
  exact done q hq

/-- Init sleeps until the condition holds; the child makes it true and calls `wakeup` after it
has released the lock. Then init is still in its loop, and not asleep. -/
theorem no_lost_wakeup_woken :
    ∃ as s, Run (WaitStep 0 5 (.object 9)) (boot 4096 (fun _ => false) fun _ _ => 0) as s ∧
      s.cond 0 = true ∧ s.Waits 0 5 (.object 9) 0 ∧ (∀ q, ¬ s.Waking 0 5 (.object 9) q) ∧
      ¬ s.proc.AsleepOn 0 (.object 5) := by
  let as : List Act := List.flatten [twoProcesses,
    [.call 0 (.waiter 0 5 (.object 9) false)], List.replicate 6 (.step 0 0),
    [.call 1 (.waker 0 5 (.object 9) false)], List.replicate 4 (.step 1 0)]
  have hdone : (execute (fun s x => if x.Agrees 0 5 (.object 9) then s.act x else none)
      (boot 4096 (fun _ => false) fun _ _ => 0) as).map
      (fun s => (s.cond 0, (s.thread 0).call, decide (∀ q, (s.thread q).call.elim true fun f =>
        f.toCall ≠ some (.waker 0 5 (.object 9) false) ∧
        f.toCall ≠ some (.waker 0 5 (.object 9) true)))) =
      some (true, some (.waiter .test 0 5 (.object 9) false), true) := by decide +kernel
  obtain ⟨s, hs, hstate⟩ := Option.map_eq_some_iff.mp hdone
  simp only [Prod.mk.injEq, decide_eq_true_eq] at hstate
  obtain ⟨hcond, hcall, hnone⟩ := hstate
  have hrun : Run (WaitStep 0 5 (.object 9)) (boot 4096 (fun _ => false) fun _ _ => 0) as s := by
    refine Run.of_execute (fun x s t hact => ?_) hs
    split at hact
    next hagrees => exact ⟨hagrees, hact⟩
    next => cases hact
  have hwaits : s.Waits 0 5 (.object 9) 0 := ⟨false, hcall⟩
  have hdone : ∀ q, ¬ s.Waking 0 5 (.object 9) q := by
    rintro q ⟨-, pc, early, hq, -⟩
    have h := hnone q
    rw [hq] at h
    cases early <;> simp [Frame.toCall] at h
  refine ⟨as, s, hrun, hcond, hwaits, hdone, fun hasleep => ?_⟩
  exact no_lost_wakeup hrun ⟨hcond, hdone, 0, hwaits, hasleep⟩

end Main

end Machine

end Xv6
