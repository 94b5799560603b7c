/-
# Conditions of threads

Threads that share an image wait for a predicate with `cond_wait` and signal it with
`cond_signal`, under a mutex that is a word of the image. The kernel clears the mutex in the
critical section in which the thread goes to sleep, so no signal falls between the test and
the sleep.
-/

import Xv6.Proc.States

namespace Xv6

open Math

/-- The thread has taken the mutex at `m` and not given it back. -/
inductive Thread.Holds (m : Int) (th : Thread) : Prop
  | test (pred c : Int) (take : Bool) (inner : th.inner = none)
      (call : th.call = some (.condWaiter .test pred c m take))
  | waits (pred c : Int) (take : Bool) (inner : th.inner = some (.sleepOnCond false c m))
      (call : th.call = some (.condWaiter .relock pred c m take))
  | signals (pc : SignallerPc) (pred c : Int) (started : pc ≠ .start) (inner : th.inner = none)
      (call : th.call = some (.signaller pc pred c m))

theorem Thread.Holds.congr {th th' : Thread} {m : Int} (holds : th.Holds m)
    (inner : th'.inner = th.inner) (call : th'.call = th.call) : th'.Holds m := by
  cases holds with
  | test pred c take h h' => exact .test pred c take (inner.trans h) (call.trans h')
  | waits pred c take h h' => exact .waits pred c take (inner.trans h) (call.trans h')
  | signals pc pred c started h h' =>
    exact .signals pc pred c started (inner.trans h) (call.trans h')

/-- The threads that hold a mutex hold no lock of the kernel. -/
theorem Thread.Holds.callLocks {th : Thread} {m : Int} (holds : th.Holds m) :
    th.callLocks = [] := by
  cases holds with
  | test _ _ _ _ call | waits _ _ _ _ call | signals _ _ _ _ _ call =>
    rw [Thread.callLocks, call]
    rfl

/-- The call stores to the word at `m` only as to a mutex. -/
def ProcCall.Spares (m : Int) : ProcCall → Prop
  | .condWaiter pred _ _ true => pred ≠ m
  | .sleepOnCond _ mutex => mutex ≠ m
  | _ => True

instance (m : Int) (k : ProcCall) : Decidable (k.Spares m) := by
  unfold ProcCall.Spares
  split <;> infer_instance

namespace Machine

variable {s t : Machine} {x : Act} {p q : ProcId} {m : Int}

/-! ### The mutex -/

section Mutex

/-- The code of a call takes no mutex itself. -/
theorem holds_of_frameThread {c : CpuId} {ans : Nat} {f : Frame} (here : s.InCall c p f)
    (holds : (s.frameThread p ans f).Holds m) : (s.thread p).Holds m := by
  cases f with
  | condWaiter pc pred cond mutex take =>
    cases pc with
    | start | relock =>
      cases holds with
      | test _ _ _ inner _ | waits _ _ _ inner _ | signals _ _ _ _ inner _ => cases inner
    | test =>
      rw [frameThread] at holds
      split at holds
      next =>
        cases holds with
        | test _ _ _ inner _ | signals _ _ _ _ inner _ => cases inner
        | waits _ _ _ _ call =>
          cases call
          exact .test pred cond take here.noInner here.call
      next =>
        cases holds with
        | test _ _ _ _ call | waits _ _ _ _ call | signals _ _ _ _ _ call => cases call
  | signaller pc pred cond mutex =>
    cases pc with
    | start =>
      cases holds with
      | test _ _ _ inner _ | waits _ _ _ inner _ | signals _ _ _ _ inner _ => cases inner
    | set =>
      cases holds with
      | test _ _ _ _ call | waits _ _ _ _ call => cases call
      | signals _ _ _ _ _ call =>
        cases call
        exact .signals .set pred cond (by decide) here.noInner here.call
    | signal =>
      cases holds with
      | test _ _ _ _ call | waits _ _ _ _ call => cases call
      | signals _ _ _ _ _ call =>
        cases call
        exact .signals .signal pred cond (by decide) here.noInner here.call
    | unlock =>
      cases holds with
      | test _ _ _ _ call | waits _ _ _ _ call | signals _ _ _ _ _ call => cases call
  | _ =>
    cases holds with
    | test _ _ _ _ call | waits _ _ _ _ call | signals _ _ _ _ _ call =>
      cases frameThread_call here.call call

/-- Where a thread with a mutex comes from: it had the mutex, or has just taken it. -/
theorem Step.holds_origin (inv : s.Inv) (step : Step x s t) (paired : (s.thread p).Paired)
    (holds : (t.thread p).Holds m) :
    (s.thread p).Holds m ∨
      ∃ c ans, x = .step c ans ∧ s.InInner c p (.mutexLock m) ∧ s.load p m ≠ 1 := by
  cases step.goes inv p with
  | same thread => exact Or.inl (thread ▸ holds)
  | make c k act here user thread =>
    rw [thread] at holds
    cases holds with
    | test pred c take inner call => cases k <;> cases call
    | waits pred c take inner call => cases k <;> cases call
    | signals pc pred c started inner call =>
      cases k <;> cases call
      exact absurd rfl started
  | timer c act here enabled thread | yield c ans pc act here place thread =>
    exact Or.inl (holds.congr (by rw [thread]; rfl) (by rw [thread]; rfl))
  | inner c ans i act here thread =>
    cases i with
    | sleep pc chan lk =>
      -- `sleep` is called with a lock
      have hlocks := holds.callLocks
      rw [Thread.callLocks, thread, innerThread_call] at hlocks
      have h := ((inv.threads p).sleep _ _ _ here.place).1
      rw [Thread.callLocks, hlocks] at h
      cases h
    | sleepOnCond switched cond mutex =>
      rw [thread] at holds
      cases switched with
      | false =>
        cases holds with
        | test _ _ _ inner _ | waits _ _ _ inner _ | signals _ _ _ _ inner _ => cases inner
      | true =>
        rw [Thread.Paired, here.place] at paired
        cases holds with
        | test pred c take inner call | signals pc pred c started inner call =>
          rcases paired with ⟨_, _, h⟩ | h <;> cases h.symm.trans call
        | waits pred c take inner call => cases inner
    | mutexLock m' =>
      rw [thread, innerThread] at holds
      split at holds
      next => exact Or.inl holds
      next hload =>
        -- the mutex is the one that the call locks
        obtain rfl : m' = m := by
          rw [Thread.Paired, here.place] at paired
          cases holds with
          | test pred c take inner call | signals pc pred c started inner call =>
            rcases paired with ⟨_, _, _, h⟩ | ⟨_, _, h⟩ <;> cases h.symm.trans call
            rfl
          | waits pred c take inner call => cases inner
        exact Or.inr ⟨c, ans, act, here, hload⟩
  | frame c ans f act here run thread =>
    rw [thread] at holds
    exact Or.inl (holds_of_frameThread here holds)
  | block c n l act here thread =>
    rw [thread] at holds
    cases holds with
    | test _ _ _ _ call | waits _ _ _ _ call | signals _ _ _ _ _ call => cases call
  | fresh q b other place fresh =>
    rw [fresh] at holds
    cases holds with
    | test _ _ _ _ call | waits _ _ _ _ call | signals _ _ _ _ _ call => cases call

theorem store_word (a v : Int) (mem : Nat) :
    (s.store q a v).word mem m =
      if (s.proc q).mem = mem ∧ a = m then v else s.word mem m := by
  rw [store]
  dsimp only
  by_cases hmem : (s.proc q).mem = mem
  · subst hmem
    rw [Function.update_self, Function.update_apply]
    by_cases ha : a = m
    · rw [if_pos ha.symm, if_pos ⟨rfl, ha⟩]
    · rw [if_neg (Ne.symm ha), if_neg fun h => ha h.2]
  · rw [Function.update_of_ne (Ne.symm hmem), if_neg fun h => hmem h.1]

end Mutex

/-! ### Following the protocol -/

section Protocol

variable (mem : Nat) (m : Int)

/-- The process lives in the image and has the mutex. -/
structure Holder (s : Machine) (p : ProcId) : Prop where
  alive : (s.proc p).state.Alive
  image : (s.proc p).mem = mem
  holds : (s.thread p).Holds m

/-- The threads of the image use the word at `m` as a mutex, and `kalloc` does not give the
image away while a process lives in it. -/
structure Follows (s : Machine) (x : Act) : Prop where
  calls : ∀ c k q, x = .call c k → (s.cpus c).place = .process q → (s.proc q).mem = mem →
    k.Spares m
  fresh : ∀ c ans q np, x = .step c ans → s.InCall c q (.fork false (.image np)) → ans = mem →
    ∀ p, (s.proc p).state.Alive → (s.proc p).mem ≠ mem

/-- What holds about the mutex between any two segments. -/
structure Mutex (s : Machine) : Prop where
  paired : ∀ p, (s.thread p).Paired
  spares : ∀ p f k, (s.proc p).state.Alive → (s.proc p).mem = mem →
    (s.thread p).call = some f → f.toCall = some k → k.Spares m
  direct : ∀ p b c m', (s.proc p).state.Alive → (s.proc p).mem = mem →
    (s.thread p).call = some .sleepOnCond → (s.thread p).inner = some (.sleepOnCond b c m') →
    m' ≠ m
  word : ∀ p, s.Holder mem m p → s.word mem m = 1
  unique : ∀ p p', s.Holder mem m p → s.Holder mem m p' → p = p'
  condAddr : ∀ p c m', (s.proc p).state = .SLEEPING →
    (s.thread p).inner = some (.sleepOnCond true c m') → (s.proc p).condAddr = c

variable {mem m}

/-- What an action does to the mutex. -/
theorem Mutex.word_move (mutex : s.Mutex mem m) (inv : s.Inv) (follows : s.Follows mem m x)
    (step : Step x s t) :
    t.word mem m = s.word mem m ∨ t.word mem m = 1 ∨
    (∃ q, s.Holder mem m q ∧ ¬ (t.thread q).Holds m) ∨
    ∀ p, (s.proc p).state.Alive → (s.proc p).mem ≠ mem := by
  -- a store of the process that runs
  have hstore : ∀ (c : CpuId) (q : ProcId) (a v : Int), (s.cpus c).place = .process q →
      t.word mem m = (s.store q a v).word mem m →
      (a = m → (s.proc q).mem = mem → v = 1 ∨ (s.thread q).Holds m ∧ ¬ (t.thread q).Holds m) →
      t.word mem m = s.word mem m ∨ t.word mem m = 1 ∨
        (∃ q, s.Holder mem m q ∧ ¬ (t.thread q).Holds m) ∨
        ∀ p, (s.proc p).state.Alive → (s.proc p).mem ≠ mem := by
    intro c q a v here hword hmutex
    rw [store_word] at hword
    split at hword
    next h =>
      rcases hmutex h.2 h.1 with hv | hholds
      · exact Or.inr (Or.inl (hword.trans hv))
      · refine Or.inr (Or.inr (Or.inl ⟨q, ⟨?_, h.1, hholds.1⟩, hholds.2⟩))
        rw [inv.state_running here]
        decide
    next => exact Or.inl hword
  have hspares : ∀ c q f k, s.InCall c q f → f.toCall = some k → (s.proc q).mem = mem →
      k.Spares m := by
    intro c q f k here call image
    exact mutex.spares q f k (by rw [inv.state_running here.here]; decide) image here.call call
  cases step.shared_move inv with
  | table _ _ word => exact Or.inl (by rw [word])
  | inner c ans q i act here shared =>
    have hword : t.word mem m = (s.innerShared q i).word mem m :=
      congrFun (congrFun (congrArg Shared.word shared) mem) m
    subst act
    have hthread := (runInner_effect (step.runInner inv here)).2
    cases i with
    | sleep pc chan lk =>
      refine Or.inl ?_
      cases pc <;> exact hword
    | sleepOnCond switched c' m' =>
      cases switched with
      | true => exact Or.inl hword
      | false =>
        refine hstore c q m' 0 here.here hword fun hm image => Or.inr ⟨?_, ?_⟩
        · subst hm
          have hpaired := mutex.paired q
          rw [Thread.Paired, here.place] at hpaired
          rcases hpaired with ⟨pred, take, h⟩ | h
          · exact .waits pred c' take here.place h
          · refine absurd rfl (mutex.direct q _ _ _ ?_ image h here.place)
            rw [inv.state_running here.here]
            decide
        · rw [hthread, Function.update_self]
          intro holds
          cases holds with
          | test _ _ _ inner _ | waits _ _ _ inner _ | signals _ _ _ _ inner _ => cases inner
    | mutexLock m' => exact hstore c q m' 1 here.here hword fun _ _ => Or.inl rfl
  | frame c ans q f act here shared =>
    have hword : t.word mem m = (s.frameShared q ans f).word mem m :=
      congrFun (congrFun (congrArg Shared.word shared) mem) m
    subst act
    have hthread := runFrame_thread inv here (step.runFrame inv here)
    have hgone : ∀ eax, t.thread q = Thread.user eax → ¬ (t.thread q).Holds m := by
      intro eax h holds
      rw [h] at holds
      cases holds with
      | test _ _ _ _ call | waits _ _ _ _ call | signals _ _ _ _ _ call => cases call
    cases f with
    | condWaiter pc pred c' m' take =>
      cases pc with
      | test =>
        rw [frameShared] at hword
        rw [frameThread] at hthread
        by_cases hpred : s.load q pred = 0
        · rw [if_pos hpred] at hword
          exact Or.inl hword
        · rw [if_neg hpred] at hword hthread
          have hlast : t.word mem m = (s.store q m' 0).word mem m := by
            cases take with
            | false => exact hword
            | true =>
              -- the store to the predicate does not hit the mutex
              have hother : (s.store q pred 0).word mem m = s.word mem m := by
                rw [store_word, if_neg]
                exact fun h => hspares c q _ _ here rfl h.1 h.2
              have htwice : t.word mem m = ((s.store q pred 0).store q m' 0).word mem m := hword
              rw [htwice, store_word, hother, store_word]
              rfl
          refine hstore c q m' 0 here.here hlast fun hm _ => Or.inr ⟨?_, hgone 0 hthread⟩
          subst hm
          exact .test pred c' take here.noInner here.call
      | start | relock => exact Or.inl hword
    | signaller pc pred c' m' =>
      cases pc with
      | set =>
        exact hstore c q pred 1 here.here hword fun _ _ => Or.inl rfl
      | unlock =>
        refine hstore c q m' 0 here.here hword fun hm _ => Or.inr ⟨?_, hgone 0 hthread⟩
        subst hm
        exact .signals .unlock pred c' (by decide) here.noInner here.call
      | start | signal => exact Or.inl hword
    | fork b pc =>
      rw [frameShared] at hword
      cases pc with
      | start =>
        rw [forkShared] at hword
        split at hword <;> exact Or.inl hword
      | image np =>
        rw [forkShared] at hword
        split at hword
        next => exact Or.inl hword
        next hb =>
          split at hword
          next => exact Or.inl hword
          next =>
            obtain rfl : b = false := Bool.not_eq_true _ ▸ hb
            by_cases hans : ans = mem
            · exact Or.inr (Or.inr (Or.inr (follows.fresh c ans q np rfl here hans)))
            · dsimp only at hword
              rw [Function.update_of_ne (Ne.symm hans)] at hword
              exact Or.inl hword
      | load _ | count _ _ | kstack _ | giveUp _ | parent _ | drop _ | clear _ | context _
      | ready _ => exact Or.inl hword
    | waiter pc a chan lk take =>
      refine Or.inl ?_
      cases pc with
      | start => exact hword
      | test =>
        cases take with
        | false => exact hword
        | true =>
          rw [frameShared] at hword
          split at hword <;> exact hword
    | wait pc =>
      refine Or.inl ?_
      cases pc with
      | start => exact hword
      | scan =>
        rw [frameShared] at hword
        split at hword <;> exact hword
    | waker pc _ _ _ _ | exit pc | procTickets pc _ => cases pc <;> exact Or.inl hword
    | forkret | kill _ | wakeOnCond _ | sleepOnCond => exact Or.inl hword

/-- Where a process with the mutex comes from. -/
theorem Mutex.holder_origin (mutex : s.Mutex mem m) (inv : s.Inv) (step : Step x s t)
    (holder : t.Holder mem m p) :
    s.Holder mem m p ∨ ∃ c ans, x = .step c ans ∧ s.InInner c p (.mutexLock m) ∧
      s.word mem m ≠ 1 ∧ (s.proc p).mem = mem := by
  rcases step.alive_origin inv holder.alive with ⟨halive, hmem⟩ | hfresh
  · have himage : (s.proc p).mem = mem := hmem.symm.trans holder.image
    rcases step.holds_origin inv (mutex.paired p) holder.holds with h | ⟨c, ans, act, here, hload⟩
    · exact Or.inl ⟨halive, himage, h⟩
    · rw [load, himage] at hload
      exact Or.inr ⟨c, ans, act, here, hload, himage⟩
  · have h := holder.holds
    rw [hfresh] at h
    cases h with
    | test _ _ _ _ call | waits _ _ _ _ call | signals _ _ _ _ _ call => cases call

theorem Mutex.word_step (mutex : s.Mutex mem m) (inv : s.Inv) (follows : s.Follows mem m x)
    (step : Step x s t) (holder : t.Holder mem m p) : t.word mem m = 1 := by
  rcases mutex.holder_origin inv step holder with hp | ⟨c, ans, rfl, here, -, himage⟩
  · rcases mutex.word_move inv follows step with h | h | ⟨q, hq, hgone⟩ | h
    · rw [h, mutex.word p hp]
    · exact h
    · rw [mutex.unique q p hq hp] at hgone
      exact absurd holder.holds hgone
    · exact absurd hp.image (h p hp.alive)
  · have hshared := (runInner_effect (step.runInner inv here)).1
    have hword : t.word mem m = (s.store p m 1).word mem m :=
      congrFun (congrFun (congrArg Shared.word hshared) mem) m
    rw [hword, store_word, if_pos ⟨himage, rfl⟩]

theorem Mutex.unique_step (mutex : s.Mutex mem m) (inv : s.Inv) (step : Step x s t)
    (holder : t.Holder mem m p) (holder' : t.Holder mem m q) : p = q := by
  rcases mutex.holder_origin inv step holder with hp | ⟨c, ans, act, here, hfree, -⟩
  · rcases mutex.holder_origin inv step holder' with hq | ⟨c, ans, act, here, hfree, -⟩
    · exact mutex.unique p q hp hq
    · exact absurd (mutex.word p hp) hfree
  · rcases mutex.holder_origin inv step holder' with hq | ⟨c', ans', act', here', -, -⟩
    · exact absurd (mutex.word q hq) hfree
    · -- one CPU makes the step
      cases act.symm.trans act'
      exact CpuPlace.process.inj (here.here.symm.trans here'.here)

theorem Mutex.spares_step (mutex : s.Mutex mem m) (inv : s.Inv) (follows : s.Follows mem m x)
    (step : Step x s t) {f : Frame} {k : ProcCall} (alive : (t.proc p).state.Alive)
    (image : (t.proc p).mem = mem) (after : (t.thread p).call = some f)
    (call : f.toCall = some k) : k.Spares m := by
  rcases step.alive_origin inv alive with ⟨halive, hmem⟩ | hfresh
  · have himage : (s.proc p).mem = mem := hmem.symm.trans image
    cases step.call_origin inv after with
    | same place => exact mutex.spares p f k halive himage place call
    | make c k' act here begin =>
      have hk := follows.calls c k' p act here himage
      subst begin
      cases k' <;> cases call <;> exact hk
    | frame c ans g act here run thread same =>
      exact mutex.spares p g k halive himage here.call (same ▸ call)
    | block c chan lk here busy =>
      subst busy
      cases call
      trivial
    | fresh q b place fresh =>
      subst fresh
      cases call
  · rw [hfresh] at after
    cases after
    cases call

theorem Mutex.direct_step (mutex : s.Mutex mem m) (inv : s.Inv) (follows : s.Follows mem m x)
    (step : Step x s t) {b : Bool} {c m' : Int} (alive : (t.proc p).state.Alive)
    (image : (t.proc p).mem = mem) (call : (t.thread p).call = some .sleepOnCond)
    (inner : (t.thread p).inner = some (.sleepOnCond b c m')) : m' ≠ m := by
  rcases step.alive_origin inv alive with ⟨halive, hmem⟩ | hfresh
  · have himage : (s.proc p).mem = mem := hmem.symm.trans image
    cases step.goes inv p with
    | same thread | timer c' act here enabled thread | yield c' ans pc act here place thread =>
      rw [thread] at call inner
      exact mutex.direct p b c m' halive himage call inner
    | make c' k act here user thread =>
      have hk := follows.calls c' k p act here himage
      rw [thread] at inner
      cases k <;> cases inner
      exact hk
    | inner c' ans i act here thread =>
      rw [thread, innerThread_call] at call
      rw [thread] at inner
      have hplace := here.place
      cases i with
      | sleep pc chan lk =>
        have h := ((inv.threads p).sleep _ _ _ hplace).1
        rw [Thread.callLocks, call] at h
        cases h
      | sleepOnCond switched cond mutex' =>
        cases switched with
        | false =>
          cases inner
          exact mutex.direct p false c m' halive himage call hplace
        | true => cases inner
      | mutexLock n =>
        rw [innerThread] at inner
        split at inner
        next =>
          rw [hplace] at inner
          cases inner
        next => cases inner
    | frame c' ans f act here run thread =>
      rw [thread] at call
      have hsame := frameThread_call here.call call
      cases f with
      | forkret | sleepOnCond => cases call
      | _ => cases hsame
    | block c' n l act here thread =>
      rw [thread] at call
      cases call
    | fresh q b other place fresh =>
      rw [fresh] at call
      cases call
  · rw [hfresh] at call
    cases call

theorem Mutex.condAddr_step (mutex : s.Mutex mem m) (inv : s.Inv) (step : Step x s t)
    {c m' : Int} (asleep : (t.proc p).state = .SLEEPING)
    (inner : (t.thread p).inner = some (.sleepOnCond true c m')) : (t.proc p).condAddr = c := by
  rcases (step.state inv p).sleeping asleep with
    hstate | ⟨c', ans, ch, lk, rfl, here, -⟩ | ⟨c', ans, cond, mutex', rfl, here⟩
  · rw [step.thread_of_idle inv (by simp [hstate]) (by simp [hstate])] at inner
    rcases (step.row inv p).condAddr with h | ⟨_, _, _, _, _, here, _⟩
    · rw [h]
      exact mutex.condAddr p c m' hstate inner
    · rw [inv.state_running here.here] at hstate
      cases hstate
  · rw [(runInner_effect (step.runInner inv here)).2, Function.update_self] at inner
    cases inner
  · have heffect := runInner_effect (step.runInner inv here)
    rw [heffect.2, Function.update_self] at inner
    cases inner
    have hproc : t.proc = s.proc.set p fun r => { r with condAddr := c, state := .SLEEPING } :=
      congrArg Shared.proc heffect.1
    rw [hproc, ProcTable.set_self]

theorem Mutex.step (mutex : s.Mutex mem m) (inv : s.Inv) (follows : s.Follows mem m x)
    (step : Step x s t) : t.Mutex mem m where
  paired p := step.paired inv (mutex.paired p)
  spares _ _ _ alive image after call :=
    mutex.spares_step inv follows step alive image after call
  direct _ _ _ _ alive image call inner :=
    mutex.direct_step inv follows step alive image call inner
  word _ holder := mutex.word_step inv follows step holder
  unique _ _ holder holder' := mutex.unique_step inv step holder holder'
  condAddr _ _ _ asleep inner := mutex.condAddr_step inv step asleep inner

theorem boot_not_holder (image : Nat) (cond : Nat → Bool) (word : Nat → Int → Int) (p : ProcId) :
    ¬ (boot image cond word).Holder mem m p := by
  intro holder
  cases holder.holds with
  | test _ _ _ _ call | waits _ _ _ _ call | signals _ _ _ _ _ call => cases call

theorem boot_mutex (image : Nat) (cond : Nat → Bool) (word : Nat → Int → Int) :
    (boot image cond word).Mutex mem m where
  paired _ := trivial
  spares _ _ _ _ _ place call := by
    cases place
    cases call
  direct _ _ _ _ _ _ place := by cases place
  word p holder := absurd holder (boot_not_holder image cond word p)
  unique p _ holder := absurd holder (boot_not_holder image cond word p)
  condAddr _ _ _ _ inner := by cases inner

end Protocol

/-! ### Signals -/

/-- What has happened between waiting and signalling threads: `since g w` says that `g` has
taken the mutex after the last test of `w` that failed, and `missed w` that such a `g` has
finished `wake_on_cond`. -/
structure History where
  since : ProcId → ProcId → Bool
  missed : ProcId → Bool

namespace History

variable (h : History)

/-- Nothing has happened. -/
def start : History := ⟨fun _ _ => false, fun _ => false⟩

/-- Thread `w` finds the predicate false. -/
def tested (w : ProcId) : History :=
  ⟨fun g => Function.update (h.since g) w false, Function.update h.missed w false⟩

/-- Thread `g` takes the mutex to signal. -/
def took (g : ProcId) : History := { h with since := Function.update h.since g fun _ => true }

/-- Thread `g` has finished `wake_on_cond`. -/
def signalled (g : ProcId) : History := { h with missed := fun w => h.missed w || h.since g w }

/-- The history after an action, for condition `c` and mutex `m` of image `mem`. -/
def after (mem : Nat) (c m : Int) (s : Machine) : Act → History
  | .step cpu _ =>
    match (s.cpus cpu).place with
    | .process q =>
      if (s.proc q).mem = mem ∧ (s.thread q).yielding = none then
        match (s.thread q).inner, (s.thread q).call with
        | none, some (.condWaiter .test pred c' m' _) =>
          if c' = c ∧ m' = m ∧ s.load q pred = 0 then h.tested q else h
        | some (.mutexLock m'), some (.signaller .set _ c' _) =>
          if c' = c ∧ m' = m ∧ s.load q m ≠ 1 then h.took q else h
        | none, some (.signaller .signal _ c' m') =>
          if c' = c ∧ m' = m then h.signalled q else h
        | _, _ => h
      else h
    | _ => h
  | _ => h

end History

section Signals

variable (mem : Nat) (c m : Int)

/-- The thread is in `sleep_on_cond`, called from its loop. -/
structure InCond (s : Machine) (w : ProcId) (switched : Bool) : Prop where
  alive : (s.proc w).state.Alive
  image : (s.proc w).mem = mem
  place : (s.thread w).inner = some (.sleepOnCond switched c m)
  call : ∃ pred take, (s.thread w).call = some (.condWaiter .relock pred c m take)

/-- The thread tests the predicate and finds it false. -/
structure Tests (s : Machine) (x : Act) (w : ProcId) : Prop where
  image : (s.proc w).mem = mem
  test : ∃ cpu ans pred take, x = .step cpu ans ∧
    s.InCall cpu w (.condWaiter .test pred c m take) ∧ s.load w pred = 0

/-- The thread runs `wake_on_cond`. -/
structure Signals (s : Machine) (x : Act) (g : ProcId) : Prop where
  image : (s.proc g).mem = mem
  signal : ∃ cpu ans pred, x = .step cpu ans ∧ s.InCall cpu g (.signaller .signal pred c m)

/-- A thread that a signal has passed by is not about to sleep, and does not sleep. -/
def NoMiss (s : Machine) (h : History) : Prop :=
  ∀ w, h.missed w = true → ¬ s.InCond mem c m w false ∧
    ¬ (s.InCond mem c m w true ∧ (s.proc w).state = .SLEEPING)

variable {mem c m}

/-- A thread is passed by by a signal only. -/
theorem missed_of_after {h : History} {w : ProcId}
    (missed : (h.after mem c m s x).missed w = true) :
    (h.missed w = true ∧ ¬ s.Tests mem c m x w) ∨ ∃ g, s.Signals mem c m x g := by
  by_cases htests : s.Tests mem c m x w
  · obtain ⟨himage, cpu, ans, pred, take, rfl, here, hload⟩ := htests
    simp [History.after, here.here, himage, here.quiet, here.noInner, here.call, hload,
      History.tested] at missed
  · cases x with
    | step cpu ans =>
      rw [History.after] at missed
      split at missed
      next q hplace =>
        split at missed
        next hq =>
          split at missed
          next pred c' m' take hinner hcall =>
            split at missed
            next htest =>
              refine Or.inl ⟨?_, htests⟩
              rw [History.tested] at missed
              dsimp only at missed
              rw [Function.update_apply] at missed
              split at missed
              next => cases missed
              next => exact missed
            next => exact Or.inl ⟨missed, htests⟩
          next =>
            refine Or.inl ⟨?_, htests⟩
            split at missed <;> exact missed
          next pred c' m' hinner hcall =>
            split at missed
            next hsignal =>
              obtain ⟨rfl, rfl⟩ := hsignal
              exact Or.inr ⟨q, hq.1, cpu, ans, pred, rfl, hplace, hq.2, hinner, hcall⟩
            next => exact Or.inl ⟨missed, htests⟩
          next => exact Or.inl ⟨missed, htests⟩
        next => exact Or.inl ⟨missed, htests⟩
      next => exact Or.inl ⟨missed, htests⟩
    | call _ _ | timer _ | intr _ _ | block _ _ _ => exact Or.inl ⟨missed, htests⟩

/-- A thread that is about to sleep was so before, or has just tested the predicate. -/
theorem Step.inCond_origin (inv : s.Inv) (step : Step x s t) {w : ProcId}
    (here : t.InCond mem c m w false) : s.InCond mem c m w false ∨ s.Tests mem c m x w := by
  obtain ⟨alive, image, place, pred, take, call⟩ := here
  rcases step.alive_origin inv alive with ⟨halive, hmem⟩ | hfresh
  · have himage : (s.proc w).mem = mem := hmem.symm.trans image
    have hsame : (s.thread w).inner = (t.thread w).inner → (s.thread w).call = (t.thread w).call →
        s.InCond mem c m w false :=
      fun h h' => ⟨halive, himage, h.trans place, pred, take, h'.trans call⟩
    cases step.goes inv w with
    | same thread => exact Or.inl (hsame (by rw [thread]) (by rw [thread]))
    | make cpu k act here user thread =>
      rw [thread] at place call
      cases k <;> cases place
      cases call
    | timer cpu act here enabled thread | yield cpu ans pc act here place' thread =>
      exact Or.inl (hsame (by rw [thread]; rfl) (by rw [thread]; rfl))
    | inner cpu ans i act here thread =>
      rw [thread] at place
      cases i with
      | sleep pc chan lk =>
        rw [thread, innerThread_call] at call
        have h := ((inv.threads w).sleep _ _ _ here.place).1
        rw [Thread.callLocks, call] at h
        cases h
      | sleepOnCond switched cond mutex' => cases switched <;> cases place
      | mutexLock n =>
        rw [innerThread] at place
        split at place
        next =>
          rw [here.place] at place
          cases place
        next => cases place
    | frame cpu ans f act here run thread =>
      rw [thread] at place call
      have hf := frameThread_call here.call call
      cases f with
      | condWaiter pc pred' c' m' take' =>
        cases pc with
        | test =>
          rw [frameThread] at place
          split at place
          next hload =>
            cases place
            exact Or.inr ⟨himage, cpu, ans, pred', take', act, here, hload⟩
          next => cases place
        | start | relock => cases place
      | _ => cases hf
    | block cpu n l act here thread =>
      rw [thread] at place
      cases place
    | fresh q b other place' fresh =>
      rw [fresh] at place
      cases place
  · rw [hfresh] at place
    cases place

/-- After `wake_on_cond`, no thread sleeps or is about to sleep on the condition. -/
theorem Mutex.signal_wakes (mutex : s.Mutex mem m) (inv : s.Inv) (follows : s.Follows mem m x)
    (step : Step x s t) {g w : ProcId} (signals : s.Signals mem c m x g) :
    ¬ t.InCond mem c m w false ∧ ¬ (t.InCond mem c m w true ∧ (t.proc w).state = .SLEEPING) := by
  obtain ⟨himage, cpu, ans, pred, rfl, here⟩ := signals
  have heffect := runFrame_effect (by simp) (step.runFrame inv here)
  have hproc : t.proc = s.proc.wakeOnCond mem c := by
    rw [← himage]
    exact congrArg Shared.proc heffect.shared
  have hcall : (t.thread g).call = some (.signaller .unlock pred c m) := by
    rw [heffect.thread, Function.update_self]
    rfl
  constructor
  · -- the signaller has the mutex
    rintro ⟨alive, image, place, pred', take, call⟩
    have hg : t.Holder mem m g := by
      refine ⟨?_, ?_, .signals .unlock pred c (by decide) ?_ hcall⟩
      · rcases (step.state inv g).alive (by rw [inv.state_running here.here]; decide) with
          h | ⟨_, _, _, here'⟩
        · exact h
        · cases here'.call.symm.trans here.call
      · rw [hproc, ← himage]
        exact Proc.wakeIf_field Proc.mem (fun _ _ => rfl) _ _
      · rw [heffect.thread, Function.update_self]
        rfl
    obtain rfl := (mutex.step inv follows step).unique w g
      ⟨alive, image, .waits pred' c take place call⟩ hg
    cases hcall.symm.trans call
  · -- a thread that slept is awake now
    rintro ⟨⟨alive, image, place, call⟩, asleep⟩
    have hstate : (s.proc w).state = .SLEEPING := by
      rw [hproc] at asleep
      rcases Proc.wakeIf_state _ (s.proc w) with h | ⟨h, -⟩
      · exact h.symm.trans asleep
      · exact h
    rw [step.thread_of_idle inv (by simp [hstate]) (by simp [hstate])] at place
    have hmem : (s.proc w).mem = mem := by
      rw [hproc] at image
      exact (Proc.wakeIf_field Proc.mem (fun _ _ => rfl) _ _).symm.trans image
    have haddr := mutex.condAddr w c m hstate place
    rw [hproc, ProcTable.wakeOnCond, Proc.wakeIf, if_pos] at asleep
    · cases asleep
    · exact ⟨hstate, by simp [hmem, haddr]⟩

theorem NoMiss.step {h : History} (no : s.NoMiss mem c m h) (mutex : s.Mutex mem m) (inv : s.Inv)
    (follows : s.Follows mem m x) (step : Step x s t) :
    t.NoMiss mem c m (h.after mem c m s x) := by
  intro w missed
  rcases missed_of_after missed with ⟨hmissed, htests⟩ | ⟨g, hg⟩
  · obtain ⟨hfalls, hsleeps⟩ := no w hmissed
    have horigin : ¬ t.InCond mem c m w false := fun here =>
      (step.inCond_origin inv here).elim hfalls htests
    refine ⟨horigin, fun ⟨here, asleep⟩ => ?_⟩
    obtain ⟨-, image, place, pred, take, call⟩ := here
    rcases (step.state inv w).sleeping asleep with
      hstate | ⟨cpu, ans, ch, lk, rfl, here, -⟩ | ⟨cpu, ans, cond, mutex', rfl, here⟩
    · -- the thread slept before
      rw [step.thread_of_idle inv (by simp [hstate]) (by simp [hstate])] at place call
      have halive : (s.proc w).state.Alive := by rw [hstate]; decide
      have hmem := step.mem_of_old inv (p := w) (by simp [hstate])
      exact hsleeps ⟨⟨halive, hmem.symm.trans image, place, pred, take, call⟩, hstate⟩
    · rw [(runInner_effect (step.runInner inv here)).2, Function.update_self] at place
      cases place
    · -- the thread goes to sleep now
      have hthread := (runInner_effect (step.runInner inv here)).2
      rw [hthread, Function.update_self] at place call
      cases place
      refine hfalls ⟨?_, ?_, here.place, pred, take, call⟩
      · rw [inv.state_running here.here]
        decide
      · exact (step.mem_of_old inv (by simp [inv.state_running here.here])).symm.trans image
  · exact mutex.signal_wakes inv follows step hg

variable (mem c m) in
/-- An action that follows the protocol, with the history beside it. -/
def SignalStep (x : Act) (u v : Machine × History) : Prop :=
  u.1.Follows mem m x ∧ Step x u.1 v.1 ∧ v.2 = u.2.after mem c m u.1 x

/-- In every run in which the threads of an image follow the protocol: no thread is asleep in
`sleep_on_cond` that found the predicate false before a signaller took the mutex, when that
signaller has finished `wake_on_cond`. -/
theorem no_lost_signal {image : Nat} {cond : Nat → Bool} {word : Nat → Int → Int} {as : List Act}
    {h : History} (run : Run (SignalStep mem c m) (boot image cond word, .start) as (s, h)) :
    ¬ ∃ w, h.missed w = true ∧ s.InCond mem c m w true ∧ (s.proc w).state = .SLEEPING := by
  have inv : s.Inv ∧ s.Mutex mem m ∧ s.NoMiss mem c m h :=
    run.invariant (motive := fun _ u => u.1.Inv ∧ u.1.Mutex mem m ∧ u.1.NoMiss mem c m u.2)
      ⟨boot_inv image cond word, boot_mutex image cond word, fun _ missed => by cases missed⟩
      fun _ _ _ _ ⟨inv, mutex, no⟩ ⟨follows, step, after⟩ =>
        ⟨inv.step step, mutex.step inv follows step, after ▸ no.step mutex inv follows step⟩
  rintro ⟨w, missed, asleep⟩
  exact (inv.2.2 w missed).2 asleep

/-- Calls that spare the mutex, and no `kalloc` of the image. -/
def followsPlainly (mem : Nat) (m : Int) : Act → Bool
  | .call _ k => decide (k.Spares m)
  | .step _ ans => ans ≠ mem
  | _ => true

theorem follows_of_plainly (plain : followsPlainly mem m x = true) : s.Follows mem m x where
  calls c k q act _ _ := by
    subst act
    exact of_decide_eq_true plain
  fresh c ans q np act _ hans := by
    subst act
    exact absurd hans (of_decide_eq_true plain)

/-- Init waits for a predicate, and another thread makes it true and signals: the signaller took
the mutex after the test of init, has finished `wake_on_cond`, and init is not asleep. -/
theorem no_lost_signal_woken :
    ∃ as s h, Run (SignalStep 4096 16 24) (boot 4096 (fun _ => false) fun _ _ => 0, .start) as
        (s, h) ∧
      h.missed 0 = true ∧ s.InCond 4096 16 24 0 true ∧ (s.proc 0).state ≠ .SLEEPING := by
  let as : List Act := List.flatten [[.step 0 7, .step 0 0, .call 0 (.fork true)],
    List.replicate 8 (.step 0 1), [.step 1 150, .step 1 0, .call 0 (.condWaiter 8 16 24 false)],
    List.replicate 5 (.step 0 0), [.call 1 (.signaller 8 16 24)], List.replicate 5 (.step 1 0)]
  have hdone : (execute (fun (u : Machine × History) x =>
      if followsPlainly 4096 24 x then (u.1.act x).map (·, u.2.after 4096 16 24 u.1 x) else none)
      (boot 4096 (fun _ => false) fun _ _ => 0, .start) as).map
      (fun u => (u.2.missed 0, (u.1.proc 0).mem, (u.1.proc 0).state, (u.1.thread 0).inner,
        (u.1.thread 0).call)) =
      some (true, 4096, .RUNNABLE, some (.sleepOnCond true 16 24),
        some (.condWaiter .relock 8 16 24 false)) := by decide +kernel
  obtain ⟨⟨s, h⟩, hs, hstate⟩ := Option.map_eq_some_iff.mp hdone
  simp only [Prod.mk.injEq] at hstate
  obtain ⟨hmissed, hmem, halive, hinner, hcall⟩ := hstate
  have hrun : Run (SignalStep 4096 16 24) (boot 4096 (fun _ => false) fun _ _ => 0, .start) as
      (s, h) := by
    refine Run.of_execute (fun x u v hact => ?_) hs
    split at hact
    next hplain =>
      obtain ⟨t, hstep, rfl⟩ := Option.map_eq_some_iff.mp hact
      exact ⟨follows_of_plainly hplain, hstep, rfl⟩
    next => cases hact
  have hcond : s.InCond 4096 16 24 0 true :=
    ⟨by rw [halive]; decide, hmem, hinner, 8, false, hcall⟩
  exact ⟨as, s, h, hrun, hmissed, hcond,
    fun hsleep => no_lost_signal hrun ⟨0, hmissed, hcond, hsleep⟩⟩

end Signals

end Machine

end Xv6
