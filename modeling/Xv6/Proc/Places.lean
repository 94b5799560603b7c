/-
# Where a process comes from

The place where the code of a process is after an action, read backwards: from which
place it came, and what the code found there.
-/

import Xv6.Proc.Rows

namespace Xv6

/-- The call that a frame belongs to. -/
def Frame.toCall : Frame → Option ProcCall
  | .forkret => none
  | .waiter _ a chan lk take => some (.waiter a chan lk take)
  | .waker _ a chan lk early => some (.waker a chan lk early)
  | .kill pid => some (.kill pid)
  | .wait _ => some .wait
  | .exit _ => some .exit
  | .fork thread _ => some (.fork thread)
  | .procTickets _ n => some (.procTickets n)
  | .wakeOnCond cond => some (.wakeOnCond cond)
  | .sleepOnCond => none
  | .condWaiter _ pred cond mutex take => some (.condWaiter pred cond mutex take)
  | .signaller _ pred cond mutex => some (.signaller pred cond mutex)

/-- The code calls `sleep` from here. -/
def Frame.sleeps : Frame → Bool
  | .waiter .test _ _ _ _ => true
  | .wait .scan => true
  | .exit (.busy _ _) => true
  | _ => false

/-- The function that a call has called is one that this call calls. -/
def Thread.Paired (th : Thread) : Prop :=
  match th.inner with
  | some (.sleep _ _ _) => ∃ f, th.call = some f ∧ f.sleeps = true
  | some (.mutexLock m) =>
    (∃ pred c take, th.call = some (.condWaiter .test pred c m take)) ∨
      ∃ pred c, th.call = some (.signaller .set pred c m)
  | some (.sleepOnCond _ c m) =>
    (∃ pred take, th.call = some (.condWaiter .relock pred c m take)) ∨
      th.call = some .sleepOnCond
  | none => True

namespace Machine

variable {s t : Machine} {a : Act}

/-- A function that a call has called does not change the call. -/
theorem innerThread_call (q : ProcId) (i : Inner) :
    (s.innerThread q i).call = (s.thread q).call := by
  cases i with
  | sleep pc chan lk =>
    rw [innerThread]
    cases pc with
    | sched =>
      rw [sleepThread]
      split <;> rfl
    | start | unlock | doze | relock => rfl
  | sleepOnCond switched cond mutex => cases switched <;> rfl
  | mutexLock m =>
    rw [innerThread]
    split <;> rfl

variable {ans : Nat} {f : Frame} {p : ProcId} {chan : Chan} {lk : LockId} {pc : SleepPc}

/-- After a segment, the process is still in the same call, or has returned. -/
theorem frameThread_call {q : ProcId} {g : Frame}
    (place : (s.thread q).call = some f) (after : (s.frameThread q ans f).call = some g) :
    g.toCall = f.toCall := by
  have hsame : ∀ th : Thread, th.call = (s.thread q).call → th.call = some g →
      g.toCall = f.toCall := fun th h h' => by
    rw [Option.some.inj ((h'.symm.trans h).trans place)]
  -- every segment ends with `goto` in the same call, with a called function, or returns
  unfold frameThread exitThread forkThread ticketsThread at after
  (repeat' split at after) <;>
    first
    | exact Option.some.inj after ▸ rfl
    | exact hsame _ rfl after
    | cases after

/-- Where the call of a process comes from. -/
inductive CallOrigin (s : Machine) (a : Act) (t : Machine) (p : ProcId) (f : Frame) : Prop
  | same (place : (s.thread p).call = some f)
  | make (c : CpuId) (k : ProcCall) (act : a = .call c k)
      (here : (s.cpus c).place = .process p) (begin : f = k.begin)
  | frame (c : CpuId) (ans : Nat) (g : Frame) (act : a = .step c ans) (here : s.InCall c p g)
      (run : s.runFrame c p p ans g = some t) (thread : t.thread p = s.frameThread p ans g)
      (same : f.toCall = g.toCall)
  | block (c : CpuId) (chan : Nat) (lk : LockId) (here : s.InCall c p (.exit .files))
      (busy : f = .exit (.busy chan lk))
  | fresh (q : ProcId) (thread : Bool)
      (place : (s.thread q).call = some (.fork thread (.context p)))
      (fresh : f = .forkret)

theorem Step.call_origin (inv : s.Inv) (step : Step a s t)
    (after : (t.thread p).call = some f) : CallOrigin s a t p f := by
  cases step.goes inv p with
  | same thread => exact .same (thread ▸ after)
  | make c k act here user thread =>
    rw [thread] at after
    exact .make c k act here (Option.some.inj after).symm
  | timer c act here enabled thread | yield c ans pc act here place thread =>
    rw [thread] at after
    exact .same after
  | inner c ans i act here thread =>
    rw [thread, innerThread_call] at after
    exact .same after
  | frame c ans g act here run thread =>
    rw [thread] at after
    exact .frame c ans g act here run thread (frameThread_call here.call after)
  | block c chan lk act here thread =>
    rw [thread] at after
    exact .block c chan lk here (Option.some.inj after).symm
  | fresh q b other place fresh =>
    rw [fresh] at after
    exact .fresh q b place (Option.some.inj after).symm

/-- Where a process in `sleep` comes from. -/
inductive SleepOrigin (s : Machine) (a : Act) (t : Machine) (p : ProcId) (chan : Chan)
    (lk : LockId) (pc : SleepPc) : Prop
  | same (thread : t.thread p = s.thread p)
  /-- An interrupt makes the process yield, or the process is in that `yield`. -/
  | interrupted (call : (s.thread p).call = (t.thread p).call)
      (place : (s.thread p).inner = some (.sleep pc chan lk))
      (during : (s.thread p).yielding ≠ none ∨ (t.thread p).yielding ≠ none)
  | next (c : CpuId) (ans : Nat) (before : SleepPc) (act : a = .step c ans)
      (here : s.InInner c p (.sleep before chan lk))
      (thread : t.thread p = s.sleepThread p chan lk before)
  | waiter (c : CpuId) (ans cond n : Nat) (take : Bool) (act : a = .step c ans)
      (here : s.InCall c p (.waiter .test cond n lk take)) (on : chan = .object n)
      (start : pc = .start) (found : s.cond cond = false)
      (thread : t.thread p = (s.thread p).enter (.sleep .start chan lk))
  | wait (c : CpuId) (ans : Nat) (act : a = .step c ans) (here : s.InCall c p (.wait .scan))
      (on : chan = .proc p) (table : lk = .procTable) (start : pc = .start)
      (found : s.proc.zombieChild p = none)
      (thread : t.thread p = (s.thread p).enter (.sleep .start chan lk))
  | busy (c : CpuId) (ans n : Nat) (act : a = .step c ans)
      (here : s.InCall c p (.exit (.busy n lk))) (on : chan = .object n) (start : pc = .start)
      (thread : t.thread p = (s.thread p).enter (.sleep .start chan lk))

/-- The calls that go to sleep. -/
theorem sleep_of_frameThread {c : CpuId} (act : a = .step c ans) (here : s.InCall c p f)
    (thread : t.thread p = s.frameThread p ans f)
    (after : (t.thread p).inner = some (.sleep pc chan lk)) : SleepOrigin s a t p chan lk pc := by
  rw [thread] at after
  have hdead : (s.thread p).inner ≠ some (.sleep pc chan lk) := by
    rw [here.noInner]
    exact nofun
  cases f with
  | waiter wpc cond n lk' take =>
    cases wpc with
    | start => cases after
    | test =>
      rw [frameThread] at after thread
      by_cases hcond : s.cond cond = true
      · rw [if_pos hcond] at after
        cases after
      · rw [if_neg hcond] at after thread
        cases after
        exact .waiter c ans cond n take act here rfl rfl (Bool.eq_false_iff.mpr hcond) thread
  | wait wpc =>
    cases wpc with
    | start => cases after
    | scan =>
      rw [frameThread] at after thread
      cases hfound : s.proc.zombieChild p with
      | some z =>
        rw [hfound] at after
        cases after
      | none =>
        simp only [hfound] at after thread
        by_cases hkids : s.proc.haveKids p = false ∨ (s.proc p).killed = true
        · rw [if_pos hkids] at after
          cases after
        · rw [if_neg hkids] at after thread
          cases after
          exact .wait c ans act here rfl rfl rfl hfound thread
  | exit xpc =>
    cases xpc with
    | busy n lk' =>
      rw [frameThread, exitThread] at after thread
      by_cases hans : ans = 0
      · rw [if_pos hans] at after
        cases after
      · rw [if_neg hans] at after thread
        cases after
        exact .busy c ans n act here rfl rfl thread
    | dead => exact absurd after hdead
    | start | load _ | sub _ _ | check _ | files | lock | pass => cases after
  | fork b fpc =>
    rw [frameThread] at after
    cases fpc with
    | start =>
      rw [forkThread] at after
      split at after <;> cases after
    | load _ | count _ _ | kstack _ | giveUp _ | parent _ | image _ | drop _ | clear _
    | context _ | ready _ => cases after
  | procTickets tpc n =>
    rw [frameThread] at after
    cases tpc with
    | start =>
      rw [ticketsThread] at after
      split at after <;> cases after
    | load | sub _ | set | reload | add _ | unlock => cases after
  | condWaiter wpc pred cond mutex take =>
    cases wpc with
    | test =>
      rw [frameThread] at after
      split at after <;> cases after
    | start | relock => cases after
  | waker wpc _ _ _ _ => cases wpc <;> cases after
  | signaller wpc _ _ _ => cases wpc <;> cases after
  | forkret | kill _ | wakeOnCond _ | sleepOnCond => cases after

/-- The call of a process in `sleep` is the one it had before. -/
theorem SleepOrigin.call
    (origin : SleepOrigin s a t p chan lk pc) : (t.thread p).call = (s.thread p).call := by
  cases origin with
  | same thread => rw [thread]
  | interrupted call _ _ => exact call.symm
  | next c ans before act here thread =>
    rw [thread]
    exact innerThread_call p (.sleep before chan lk)
  | waiter _ _ _ _ _ _ _ _ _ _ thread | wait _ _ _ _ _ _ _ _ thread | busy _ _ _ _ _ _ _ thread =>
    rw [thread]; rfl

theorem Step.sleep_origin (inv : s.Inv) (step : Step a s t)
    (after : (t.thread p).inner = some (.sleep pc chan lk)) : SleepOrigin s a t p chan lk pc := by
  cases step.goes inv p with
  | same thread => exact .same thread
  | make c k act here user thread =>
    rw [thread, Thread.make] at after
    cases k <;> cases after
  | timer c act here enabled thread =>
    refine .interrupted (by rw [thread]; rfl) ?_
      (Or.inr (by rw [thread]; exact Option.some_ne_none _))
    rw [thread] at after
    exact after
  | yield c ans pc' act here place thread =>
    refine .interrupted (by rw [thread]; rfl) ?_
      (Or.inl (by rw [place]; exact Option.some_ne_none _))
    rw [thread] at after
    exact after
  | inner c ans i act here thread =>
    cases i with
    | sleep before chan' lk' =>
      have hsame : chan' = chan ∧ lk' = lk := by
        rw [thread, innerThread] at after
        cases before with
        | start | unlock | doze =>
          cases after
          exact ⟨rfl, rfl⟩
        | sched =>
          rw [sleepThread] at after
          split at after
          next => cases after
          next =>
            cases after
            exact ⟨rfl, rfl⟩
        | relock => cases after
      obtain ⟨rfl, rfl⟩ := hsame
      exact .next c ans before act here thread
    | sleepOnCond switched cond mutex =>
      rw [thread] at after
      cases switched <;> cases after
    | mutexLock m =>
      rw [thread, innerThread] at after
      split at after
      next =>
        rw [here.place] at after
        cases after
      next => cases after
  | frame c ans f act here run thread =>
    exact sleep_of_frameThread act here thread after
  | block c n l act here thread =>
    rw [thread] at after
    cases after
  | fresh q b other place fresh =>
    rw [fresh] at after
    cases after

/-- A process that is asleep, runnable or a zombie stays where it is. -/
theorem Step.thread_of_idle (inv : s.Inv) (step : Step a s t)
    (idle : (s.proc p).state ≠ .RUNNING) (old : (s.proc p).state ≠ .EMBRYO) :
    t.thread p = s.thread p := by
  cases step.goes inv p with
  | same thread => exact thread
  | make c k act here user thread | timer c act here enabled thread
  | yield c ans pc act here place thread => exact absurd (inv.state_running here) idle
  | inner c ans i act here thread | frame c ans f act here run thread
  | block c n l act here thread => exact absurd (inv.state_running here.here) idle
  | fresh q b other place fresh =>
    exact absurd (inv.embryo q p (by rw [Thread.embryo, place]; rfl)) old

theorem frameThread_paired {c : CpuId} (here : s.InCall c p f) :
    (s.frameThread p ans f).Paired := by
  cases f with
  | waiter pc a chan lk take =>
    cases pc with
    | start => trivial
    | test =>
      rw [frameThread]
      split
      · trivial
      · exact ⟨_, here.call, rfl⟩
  | wait pc =>
    cases pc with
    | start => trivial
    | scan =>
      rw [frameThread]
      split
      · trivial
      · split
        · trivial
        · exact ⟨_, here.call, rfl⟩
  | exit pc =>
    rw [frameThread]
    cases pc with
    | busy chan lk =>
      rw [exitThread]
      split
      · trivial
      · exact ⟨_, here.call, rfl⟩
    | dead =>
      rw [exitThread, Thread.Paired, here.noInner]
      trivial
    | start | load _ | sub _ _ | check _ | files | lock | pass => trivial
  | fork b pc =>
    rw [frameThread]
    cases pc with
    | start =>
      rw [forkThread]
      split <;> trivial
    | load _ | count _ _ | kstack _ | giveUp _ | parent _ | image _ | drop _ | clear _
    | context _ | ready _ => trivial
  | procTickets pc n =>
    rw [frameThread]
    cases pc with
    | start =>
      rw [ticketsThread]
      split <;> trivial
    | load | sub _ | set | reload | add _ | unlock => trivial
  | condWaiter pc pred cond mutex take =>
    cases pc with
    | start | relock => exact Or.inl ⟨pred, cond, take, rfl⟩
    | test =>
      rw [frameThread]
      split
      · exact Or.inl ⟨pred, take, rfl⟩
      · trivial
  | signaller pc pred cond mutex =>
    cases pc with
    | start => exact Or.inr ⟨pred, cond, rfl⟩
    | set | signal | unlock => trivial
  | waker pc _ _ _ _ => cases pc <;> trivial
  | forkret | kill _ | wakeOnCond _ | sleepOnCond => trivial

/-- A called function stays with its call. -/
theorem Step.paired (inv : s.Inv) (step : Step a s t) (paired : (s.thread p).Paired) :
    (t.thread p).Paired := by
  cases step.goes inv p with
  | same thread => rwa [thread]
  | make c k act here user thread =>
    rw [thread]
    cases k with
    | sleepOnCond c m => exact Or.inr rfl
    | _ => trivial
  | timer c act here enabled thread => rw [thread]; exact paired
  | yield c ans pc act here place thread => rw [thread]; exact paired
  | inner c ans i act here thread =>
    rw [thread]
    rw [Thread.Paired, here.place] at paired
    cases i with
    | sleep pc chan lk =>
      rw [innerThread]
      cases pc with
      | sched =>
        rw [sleepThread]
        split
        · trivial
        · exact paired
      | start | unlock | doze => exact paired
      | relock => trivial
    | sleepOnCond switched c m =>
      cases switched with
      | false => exact paired
      | true => trivial
    | mutexLock m =>
      rw [innerThread]
      split
      next =>
        rw [Thread.Paired, here.place]
        exact paired
      next => trivial
  | frame c ans f act here run thread =>
    rw [thread]
    exact frameThread_paired here
  | block c n l act here thread =>
    rw [thread]
    trivial
  | fresh q b other place fresh =>
    rw [fresh]
    trivial

/-- A process that forks is alive. -/
theorem Step.forker_alive (inv : s.Inv) (step : Step a s t) {q : ProcId}
    (alive : ∀ b pc, (s.thread q).call = some (.fork b pc) → (s.proc q).state.Alive) {b : Bool}
    {pc : ForkPc} (after : (t.thread q).call = some (.fork b pc)) : (t.proc q).state.Alive := by
  have hexit : ∀ c ans, a = .step c ans → ¬ s.InCall c q (.exit .pass) := by
    rintro c ans rfl here
    rw [runFrame_thread inv here (step.runFrame inv here)] at after
    cases after
  have halive : (s.proc q).state.Alive := by
    cases step.call_origin inv after with
    | same place => exact alive b pc place
    | make c k act here begin => rw [inv.state_running here]; decide
    | frame c ans g act here run thread same => rw [inv.state_running here.here]; decide
    | block c chan lk here busy => cases busy
    | fresh q b place fresh => cases fresh
  rcases (step.state inv q).alive halive with h | ⟨c, ans, act, here⟩
  · exact h
  · exact absurd here (hexit c ans act)

/-- A process that `fork` is not setting up keeps its image. -/
theorem Step.mem_of_old (inv : s.Inv) (step : Step a s t) (old : (s.proc p).state ≠ .EMBRYO) :
    (t.proc p).mem = (s.proc p).mem := by
  rcases (step.row inv p).mem with h | ⟨c, q, b, here⟩
  · exact h
  · exact absurd (inv.embryo q p (by rw [Thread.embryo, here.call]; rfl)) old

/-- A process that lives after an action lived in the same image before, or is new. -/
theorem Step.alive_origin (inv : s.Inv) (step : Step a s t) (alive : (t.proc p).state.Alive) :
    (s.proc p).state.Alive ∧ (t.proc p).mem = (s.proc p).mem ∨ t.thread p = Thread.fresh := by
  rcases (step.state inv p).alive_origin alive with halive | ⟨c, q, b, here⟩
  · refine Or.inl ⟨halive, step.mem_of_old inv fun h => ?_⟩
    rw [h] at halive
    exact absurd halive (by decide)
  · have hembryo := inv.embryo q p (by rw [Thread.embryo, here.call]; rfl)
    have hfresh := inv.ready q b p here.call
    have hidle : ∀ c, (s.cpus c).place ≠ .process p := fun c h => by
      rw [inv.state_running h] at hembryo
      cases hembryo
    cases step.goes inv p with
    | same thread => exact Or.inr (thread.trans hfresh)
    | fresh _ _ _ _ fresh => exact Or.inr fresh
    | make c k act here user thread | timer c act here enabled thread
    | yield c ans pc act here place thread => exact absurd here (hidle c)
    | inner c ans i act here thread | frame c ans f act here run thread
    | block c n l act here thread => exact absurd here.here (hidle c)

end Machine

end Xv6
