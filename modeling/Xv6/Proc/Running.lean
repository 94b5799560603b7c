/-
# Running processes

Which locks a process holds follows from the place where its code is. With this, a
process runs on at most one CPU, and a CPU runs a process that is `RUNNING`, except while
the CPU switches stacks with the table lock in its hands.
-/

import Xv6.Proc.Machine
import Xv6.Math.Runs

namespace Xv6

open Math

/-! ### The locks of a process -/

/-- The locks that `sleep` holds. -/
def SleepPc.locks (lk : LockId) : SleepPc → List LockId
  | .start => [lk]
  | .unlock => [.procTable, lk]
  | .doze => [.procTable]
  | .sched => [.procTable]
  | .relock => []

/-- The locks held inside a function that a call has called. -/
def Inner.locks : Inner → List LockId
  | .sleep pc _ lk => pc.locks lk
  | .sleepOnCond true _ _ => [.procTable]
  | _ => []

/-- The locks held by the code of a call. -/
def Frame.locks : Frame → List LockId
  | .forkret => [.procTable]
  | .waiter .test _ _ lk _ => [lk]
  | .waker pc _ _ lk _ => if pc = .start ∨ pc = .wake then [] else [lk]
  | .wait .scan => [.procTable]
  | .exit (.busy _ lk) => [lk]
  | .exit .pass => [.procTable]
  | .fork _ (.load _) => [.procTable]
  | .fork _ (.count _ _) => [.procTable]
  | .procTickets pc _ => if pc = .start then [] else [.tickets]
  | _ => []

/-- The slot that the code of a call is filling. -/
def Frame.embryo : Frame → Option ProcId
  | .fork _ (.load np) => some np
  | .fork _ (.count np _) => some np
  | .fork _ (.kstack np) => some np
  | .fork _ (.giveUp np) => some np
  | .fork _ (.parent np) => some np
  | .fork _ (.image np) => some np
  | .fork _ (.drop np) => some np
  | .fork _ (.context np) => some np
  | .fork _ (.ready np) => some np
  | _ => none

namespace Thread

variable (th : Thread)

/-- The locks held by the call itself. -/
def callLocks : List LockId := th.call.elim [] Frame.locks

/-- The locks held without `yield`. -/
def baseLocks : List LockId := th.inner.elim th.callLocks Inner.locks

/-- The locks that a process holds when it runs. -/
def locks : List LockId :=
  match th.yielding with
  | some .start => []
  | some .sched => [.procTable]
  | none => th.baseLocks

/-- The slot that a process is filling. -/
def embryo : Option ProcId := th.call.bind Frame.embryo

variable {th} {f : Frame} {i : Inner}

theorem locks_call (quiet : th.yielding = none) (noInner : th.inner = none)
    (place : th.call = some f) : th.locks = f.locks := by
  rw [locks, quiet, baseLocks, noInner, callLocks, place]
  rfl

theorem locks_inner (quiet : th.yielding = none) (place : th.inner = some i) :
    th.locks = i.locks := by
  rw [locks, quiet, baseLocks, place]
  rfl

theorem locks_goto (quiet : th.yielding = none) : (th.goto f).locks = f.locks :=
  locks_call quiet rfl rfl

theorem locks_enter (quiet : th.yielding = none) : (th.enter i).locks = i.locks :=
  locks_inner quiet rfl

theorem locks_leave (quiet : th.yielding = none) : th.leave.locks = th.callLocks := by
  rw [locks, leave, quiet]
  rfl

@[simp] theorem locks_user (eax : Int) : (user eax).locks = [] := rfl

variable (th)

/-- The process is switched away in `sched`, or has never run. -/
inductive Parked : Thread → Prop
  | yield (call : Option Frame) (inner : Option Inner) (eax : Int) :
      Parked ⟨call, inner, some .sched, eax⟩
  | sleep (call : Option Frame) (chan : Chan) (lk : LockId) (eax : Int) :
      Parked ⟨call, some (.sleep .sched chan lk), none, eax⟩
  | sleepOnCond (call : Option Frame) (cond mutex : Int) (eax : Int) :
      Parked ⟨call, some (.sleepOnCond true cond mutex), none, eax⟩
  | forkret (eax : Int) : Parked ⟨some .forkret, none, none, eax⟩

variable {th} in
theorem Parked.locks (parked : Parked th) : th.locks = [.procTable] := by
  cases parked <;> rfl

variable {th} in
theorem Parked.sleep_sched (parked : Parked th) (quiet : th.yielding = none) {pc : SleepPc}
    {chan : Chan} {lk : LockId} (place : th.inner = some (.sleep pc chan lk)) : pc = .sched := by
  cases parked with
  | yield _ _ _ => cases quiet
  | sleep _ _ _ _ =>
    cases place
    rfl
  | sleepOnCond _ _ _ _ | forkret _ => cases place

/-- An interrupt comes while no lock is held, and `sleep` is called with one lock. -/
structure Ok : Prop where
  yield : th.yielding ≠ none → th.baseLocks = []
  sleep : ∀ pc chan lk, th.inner = some (.sleep pc chan lk) →
    th.callLocks = [lk] ∧ (pc = .unlock ∨ pc = .relock → lk ≠ .procTable)
  sleepOnCond : ∀ switched cond mutex, th.inner = some (.sleepOnCond switched cond mutex) →
    th.callLocks = []
  mutexLock : ∀ m, th.inner = some (.mutexLock m) → th.callLocks = []

variable {th} in
theorem goto_ok (quiet : th.yielding = none) (f : Frame) : (th.goto f).Ok where
  yield h := absurd quiet h
  sleep _ _ _ h := by cases h
  sleepOnCond _ _ _ h := by cases h
  mutexLock _ h := by cases h

theorem fresh_ok : fresh.Ok where
  yield h := absurd rfl h
  sleep _ _ _ h := by cases h
  sleepOnCond _ _ _ h := by cases h
  mutexLock _ h := by cases h

end Thread

namespace Machine

/-- The locks that a CPU has to hold where it is. -/
def locksAt (s : Machine) (c : CpuId) : List LockId :=
  match (s.cpus c).place with
  | .idle => []
  | .back => [.procTable]
  | .process p => (s.thread p).locks

/-- The process of a CPU is `RUNNING`, except between the two halves of a switch. -/
def CpuOk (s : Machine) (c : CpuId) : Prop :=
  match (s.cpus c).place with
  | .idle => (s.cpus c).curproc = none
  | .back => ∃ p, (s.cpus c).curproc = some p ∧ (s.proc p).state ≠ .RUNNING
  | .process p => (s.cpus c).curproc = some p ∧ (s.proc p).state = .RUNNING

/-- What holds between any two segments. -/
structure Inv (s : Machine) : Prop where
  exclusive : ∀ c c' l, l ∈ (s.cpus c).held → l ∈ (s.cpus c').held → c = c'
  nodup : ∀ c, (s.cpus c).held.Nodup
  locks : ∀ c l, l ∈ (s.cpus c).held ↔ l ∈ s.locksAt c
  cpu : ∀ c, s.CpuOk c
  single : ∀ c c' p, (s.cpus c).curproc = some p → (s.cpus c').curproc = some p → c = c'
  running : ∀ p, (s.proc p).state = .RUNNING → ∃ c, (s.cpus c).place = .process p
  parked : ∀ p, (s.proc p).state = .RUNNABLE ∨ (s.proc p).state = .SLEEPING →
    (s.thread p).Parked
  threads : ∀ p, (s.thread p).Ok
  embryo : ∀ q np, (s.thread q).embryo = some np → (s.proc np).state = .EMBRYO
  forker : ∀ q q' np, (s.thread q).embryo = some np → (s.thread q').embryo = some np → q = q'
  ready : ∀ q b np, (s.thread q).call = some (.fork b (.ready np)) → s.thread np = Thread.fresh

theorem boot_inv (mem : Nat) (cond : Nat → Bool) (word : Nat → Int → Int) :
    (boot mem cond word).Inv where
  exclusive _ _ _ h := by cases h
  nodup _ := List.nodup_nil
  locks _ _ := Iff.rfl
  cpu _ := rfl
  single _ _ _ h := by cases h
  running p hp := by
    by_cases h : p = 0
    · subst h
      cases hp
    · simp only [boot, Function.update_of_ne h] at hp
      cases hp
  parked _ _ := Thread.Parked.forkret 0
  threads _ := Thread.fresh_ok
  embryo _ _ h := by cases h
  forker _ _ _ h := by cases h
  ready _ _ _ h := by cases h

/-! ### What keeps the invariant -/

section Keep

variable {s t : Machine} {c : CpuId} {q : ProcId} {th : Thread}

theorem Inv.curproc (inv : s.Inv) (here : (s.cpus c).place = .process q) :
    (s.cpus c).curproc = some q := by
  have h := inv.cpu c
  rw [CpuOk, here] at h
  exact h.1

theorem Inv.state_running (inv : s.Inv) (here : (s.cpus c).place = .process q) :
    (s.proc q).state = .RUNNING := by
  have h := inv.cpu c
  rw [CpuOk, here] at h
  exact h.2

theorem Inv.mem_held (inv : s.Inv) (here : (s.cpus c).place = .process q) {l : LockId} :
    l ∈ (s.cpus c).held ↔ l ∈ (s.thread q).locks := by
  rw [inv.locks, locksAt, here]

/-- Two processes that run do not hold the same lock. -/
theorem Inv.holder_unique (inv : s.Inv) {p : ProcId} {l : LockId}
    (running : (s.proc p).state = .RUNNING) (holds : l ∈ (s.thread p).locks)
    (here : (s.cpus c).place = .process q) (holds' : l ∈ (s.thread q).locks) : p = q := by
  obtain ⟨c', there⟩ := inv.running p running
  obtain rfl := inv.exclusive c' c l ((inv.mem_held there).mpr holds)
    ((inv.mem_held here).mpr holds')
  rw [there] at here
  exact CpuPlace.process.inj here

/-- The states of the table change, but nobody starts or stops running. -/
theorem Inv.setTable (inv : s.Inv) {table : ProcTable}
    (running : ∀ p, (table p).state = .RUNNING ↔ (s.proc p).state = .RUNNING)
    (parked : ∀ p, (table p).state = .RUNNABLE ∨ (table p).state = .SLEEPING →
      (s.thread p).Parked)
    (embryo : ∀ q np, (s.thread q).embryo = some np → (table np).state = .EMBRYO) :
    (s.setTable table).Inv where
  exclusive := inv.exclusive
  nodup := inv.nodup
  locks := inv.locks
  cpu c := by
    have hc := inv.cpu c
    unfold CpuOk at hc ⊢
    change match (s.cpus c).place with
      | .idle => (s.cpus c).curproc = none
      | .back => ∃ p, (s.cpus c).curproc = some p ∧ (table p).state ≠ .RUNNING
      | .process p => (s.cpus c).curproc = some p ∧ (table p).state = .RUNNING
    cases hplace : (s.cpus c).place with
    | idle =>
      rw [hplace] at hc
      exact hc
    | back =>
      rw [hplace] at hc
      obtain ⟨p, hp, hstate⟩ := hc
      exact ⟨p, hp, fun h => hstate ((running p).mp h)⟩
    | process p =>
      rw [hplace] at hc
      exact ⟨hc.1, (running p).mpr hc.2⟩
  single := inv.single
  running p hp := inv.running p ((running p).mp hp)
  parked := parked
  threads := inv.threads
  embryo := embryo
  forker := inv.forker
  ready := inv.ready

/-- Fields other than `state` change. -/
theorem Inv.setFields (inv : s.Inv) {table : ProcTable}
    (same : ∀ p, (table p).state = (s.proc p).state) : (s.setTable table).Inv :=
  inv.setTable (fun p => by rw [same]) (fun p hp => inv.parked p (by rwa [same] at hp))
    (fun q np h => by rw [same]; exact inv.embryo q np h)

/-- What the invariant says about the code of a process that runs. -/
structure Fits (s : Machine) (q : ProcId) (th : Thread) : Prop where
  ok : th.Ok
  embryo : ∀ np, th.embryo = some np →
    (s.proc np).state = .EMBRYO ∧ ∀ q', (s.thread q').embryo = some np → q' = q
  ready : ∀ b np, th.call = some (.fork b (.ready np)) → s.thread np = Thread.fresh

/-- A process that fills no new slot. -/
theorem Inv.fits (inv : s.Inv) (ok : th.Ok)
    (embryo : th.embryo = none ∨ th.embryo = (s.thread q).embryo)
    (ready : ∀ b np, th.call = some (.fork b (.ready np)) →
      (s.thread q).call = some (.fork b (.ready np))) : s.Fits q th where
  ok := ok
  embryo np hnp := by
    have hq : (s.thread q).embryo = some np := by
      rcases embryo with h | h
      · rw [h] at hnp
        cases hnp
      · rw [← h, hnp]
    exact ⟨inv.embryo q np hq, fun q' hq' => inv.forker q' q np hq' hq⟩
  ready b np h := inv.ready q b np (ready b np h)

/-- The fields that speak about the threads, when the code of one process that runs
changes. -/
theorem Inv.threads_update (inv : s.Inv) (here : (s.cpus c).place = .process q)
    (fits : s.Fits q th) :
    (∀ p, (Function.update s.thread q th p).Ok) ∧
    (∀ p np, (Function.update s.thread q th p).embryo = some np →
      (s.proc np).state = .EMBRYO) ∧
    (∀ p p' np, (Function.update s.thread q th p).embryo = some np →
      (Function.update s.thread q th p').embryo = some np → p = p') ∧
    (∀ p b np, (Function.update s.thread q th p).call = some (.fork b (.ready np)) →
      Function.update s.thread q th np = Thread.fresh) := by
  have hrun := inv.state_running here
  refine ⟨fun p => ?_, fun p np hp => ?_, fun p p' np hp hp' => ?_, fun p b np hp => ?_⟩
  · by_cases h : p = q
    · rw [h, Function.update_self]
      exact fits.ok
    · rw [Function.update_of_ne h]
      exact inv.threads p
  · by_cases h : p = q
    · rw [h, Function.update_self] at hp
      exact (fits.embryo np hp).1
    · rw [Function.update_of_ne h] at hp
      exact inv.embryo p np hp
  · by_cases h : p = q
    · by_cases h' : p' = q
      · rw [h, h']
      · rw [h, Function.update_self] at hp
        rw [Function.update_of_ne h'] at hp'
        rw [h, (fits.embryo np hp).2 p' hp']
    · rw [Function.update_of_ne h] at hp
      by_cases h' : p' = q
      · rw [h', Function.update_self] at hp'
        rw [h', (fits.embryo np hp').2 p hp]
      · rw [Function.update_of_ne h'] at hp'
        exact inv.forker p p' np hp hp'
  · -- the slot that is ready is an embryo, so it is not the process that runs
    have hnp : np ≠ q := by
      rintro rfl
      have hembryo : (s.proc np).state = .EMBRYO := by
        by_cases h : p = np
        · rw [h, Function.update_self] at hp
          exact (fits.embryo np (by rw [Thread.embryo, hp]; rfl)).1
        · rw [Function.update_of_ne h] at hp
          exact inv.embryo p np (by rw [Thread.embryo, hp]; rfl)
      rw [hrun] at hembryo
      cases hembryo
    rw [Function.update_of_ne hnp]
    by_cases h : p = q
    · rw [h, Function.update_self] at hp
      exact fits.ready b np hp
    · rw [Function.update_of_ne h] at hp
      exact inv.ready p b np hp

/-- The process of a CPU is on no other CPU. -/
theorem Inv.elsewhere (inv : s.Inv) (here : (s.cpus c).place = .process q) (c' : CpuId)
    (other : c' ≠ c) : (s.cpus c').curproc ≠ some q :=
  fun h => other (inv.single c' c q h (inv.curproc here))

theorem place_eq (here : (s.cpus c).place = .process q) (p : ProcId)
    (there : (s.cpus c).place = .process p) : p = q :=
  (CpuPlace.process.inj (here.symm.trans there)).symm

theorem of_update (thread : t.thread = Function.update s.thread q th) (p : ProcId)
    (other : p ≠ q) : t.thread p = s.thread p := by
  rw [thread, Function.update_of_ne other]

/-- A CPU and the process `q` change. No other CPU has `q`, and the locks that the CPU now
has are held by nobody else. -/
theorem Inv.change (inv : s.Inv) {r : Cpu} (cpus : t.cpus = Function.update s.cpus c r)
    (proc : ∀ p, p ≠ q → t.proc p = s.proc p) (thread : ∀ p, p ≠ q → t.thread p = s.thread p)
    (elsewhere : ∀ c', c' ≠ c → (s.cpus c').curproc ≠ some q)
    (was : ∀ p, (s.cpus c).place = .process p → p = q)
    (curproc : ∀ p, r.curproc = some p → p = q) (nodup : r.held.Nodup)
    (alone : ∀ c', c' ≠ c → ∀ l ∈ r.held, l ∉ (s.cpus c').held)
    (locks : ∀ l, l ∈ r.held ↔ l ∈ t.locksAt c) (cpu : t.CpuOk c)
    (runs : (t.proc q).state = .RUNNING → r.place = .process q)
    (parked : (t.proc q).state = .RUNNABLE ∨ (t.proc q).state = .SLEEPING → (t.thread q).Parked)
    (code : (∀ p, (t.thread p).Ok) ∧
      (∀ p np, (t.thread p).embryo = some np → (t.proc np).state = .EMBRYO) ∧
      (∀ p p' np, (t.thread p).embryo = some np → (t.thread p').embryo = some np → p = p') ∧
      (∀ p b np, (t.thread p).call = some (.fork b (.ready np)) → t.thread np = Thread.fresh)) :
    t.Inv := by
  have hself : t.cpus c = r := by rw [cpus, Function.update_self]
  have hother : ∀ c', c' ≠ c → t.cpus c' = s.cpus c' := by
    intro c' h
    rw [cpus, Function.update_of_ne h]
  -- another CPU runs another process
  have hplace : ∀ c' p, c' ≠ c → (s.cpus c').place = .process p → p ≠ q := by
    rintro c' p h hp rfl
    exact elsewhere c' h (inv.curproc hp)
  constructor
  case exclusive =>
    intro c₁ c₂ l h₁ h₂
    by_cases hc₁ : c₁ = c
    · by_cases hc₂ : c₂ = c
      · rw [hc₁, hc₂]
      · rw [hc₁, hself] at h₁
        rw [hother c₂ hc₂] at h₂
        exact absurd h₂ (alone c₂ hc₂ l h₁)
    · rw [hother c₁ hc₁] at h₁
      by_cases hc₂ : c₂ = c
      · rw [hc₂, hself] at h₂
        exact absurd h₁ (alone c₁ hc₁ l h₂)
      · rw [hother c₂ hc₂] at h₂
        exact inv.exclusive c₁ c₂ l h₁ h₂
  case nodup =>
    intro c'
    by_cases h : c' = c
    · rwa [h, hself]
    · rw [hother c' h]
      exact inv.nodup c'
  case locks =>
    intro c' l
    by_cases h : c' = c
    · rw [h, hself, locks]
    · rw [locksAt, hother c' h, inv.locks, locksAt]
      cases hp : (s.cpus c').place with
      | idle => rfl
      | back => rfl
      | process p => simp only [thread p (hplace c' p h hp)]
  case cpu =>
    intro c'
    by_cases h : c' = c
    · rwa [h]
    · have hc := inv.cpu c'
      rw [CpuOk] at hc ⊢
      rw [hother c' h]
      cases hp : (s.cpus c').place with
      | idle =>
        rw [hp] at hc
        exact hc
      | back =>
        rw [hp] at hc
        obtain ⟨p, hcur, hstate⟩ := hc
        exact ⟨p, hcur, by rwa [proc p fun e => elsewhere c' h (e ▸ hcur)]⟩
      | process p =>
        rw [hp] at hc
        exact ⟨hc.1, by rw [proc p (hplace c' p h hp)]; exact hc.2⟩
  case single =>
    intro c₁ c₂ p h₁ h₂
    by_cases hc₁ : c₁ = c
    · by_cases hc₂ : c₂ = c
      · rw [hc₁, hc₂]
      · rw [hc₁, hself] at h₁
        rw [hother c₂ hc₂, curproc p h₁] at h₂
        exact absurd h₂ (elsewhere c₂ hc₂)
    · rw [hother c₁ hc₁] at h₁
      by_cases hc₂ : c₂ = c
      · rw [hc₂, hself] at h₂
        rw [curproc p h₂] at h₁
        exact absurd h₁ (elsewhere c₁ hc₁)
      · rw [hother c₂ hc₂] at h₂
        exact inv.single c₁ c₂ p h₁ h₂
  case running =>
    intro p hp
    by_cases hpq : p = q
    · exact ⟨c, by rw [hself, hpq, runs (hpq ▸ hp)]⟩
    · rw [proc p hpq] at hp
      obtain ⟨c', hc'⟩ := inv.running p hp
      have hcc : c' ≠ c := fun e => hpq (was p (e ▸ hc'))
      exact ⟨c', by rw [hother c' hcc, hc']⟩
  case parked =>
    intro p hp
    by_cases hpq : p = q
    · rw [hpq] at hp ⊢
      exact parked hp
    · rw [proc p hpq] at hp
      rw [thread p hpq]
      exact inv.parked p hp
  case threads => exact code.1
  case embryo => exact code.2.1
  case forker => exact code.2.2.1
  case ready => exact code.2.2.2

/-- The process on a CPU goes on; it may take free locks and release locks. -/
theorem Inv.move (inv : s.Inv) (here : (s.cpus c).place = .process q) {held : List LockId}
    (fits : s.Fits q th) (table : t.proc = s.proc)
    (thread : t.thread = Function.update s.thread q th)
    (cpus : t.cpus = Function.update s.cpus c { s.cpus c with held := held }) (nodup : held.Nodup)
    (locks : ∀ l, l ∈ held ↔ l ∈ th.locks)
    (free : ∀ l ∈ held, l ∈ (s.cpus c).held ∨ s.Free l) : t.Inv := by
  have hself : t.cpus c = { s.cpus c with held := held } := by rw [cpus, Function.update_self]
  have hrun := inv.state_running here
  refine inv.change cpus (fun p _ => by rw [table]) (of_update thread) (inv.elsewhere here)
    (place_eq here) (fun p h => ?_) nodup (fun c' hc l hl hl' => ?_) (fun l => ?_) ?_
    (fun _ => here) (fun hp => ?_) ?_
  · exact Option.some.inj (h.symm.trans (inv.curproc here))
  · -- what `c` holds now, nobody else holds
    rcases free l hl with h | h
    · exact hc (inv.exclusive c' c l hl' h)
    · exact h c' hl'
  · rw [locksAt, hself, here, thread, locks]
    simp only [Function.update_self]
  · have hc := inv.cpu c
    rw [CpuOk] at hc ⊢
    rw [hself, table]
    exact hc
  · rw [table, hrun] at hp
    rcases hp with h | h <;> cases h
  · rw [thread, table]
    exact inv.threads_update here fits

/-- The process on a CPU goes on with the locks it has. -/
theorem Inv.stay (inv : s.Inv) (here : (s.cpus c).place = .process q) (fits : s.Fits q th)
    (table : t.proc = s.proc) (thread : t.thread = Function.update s.thread q th)
    (cpus : t.cpus = s.cpus) (locks : ∀ l, l ∈ th.locks ↔ l ∈ (s.thread q).locks) : t.Inv :=
  inv.move here fits table thread (by rw [cpus]; exact (Function.update_eq_self c _).symm)
    (inv.nodup c) (fun l => by rw [inv.mem_held here, locks]) (fun _ h => Or.inl h)

/-- The process on a CPU acquires a lock. -/
theorem Inv.acquire (inv : s.Inv) (here : (s.cpus c).place = .process q) {l : LockId}
    (free : s.Free l) (fits : s.Fits q th) (table : t.proc = s.proc)
    (thread : t.thread = Function.update s.thread q th) (cpus : t.cpus = (s.lock c l).cpus)
    (locks : ∀ k, k ∈ th.locks ↔ k = l ∨ k ∈ (s.thread q).locks) :
    t.Inv := by
  refine inv.move here fits table thread cpus (List.nodup_cons.mpr ⟨free c, inv.nodup c⟩)
    (fun k => ?_) (fun k hk => ?_)
  · rw [List.mem_cons, inv.mem_held here, locks]
  · rcases List.mem_cons.mp hk with rfl | h
    · exact Or.inr free
    · exact Or.inl h

/-- The process on a CPU releases a lock. -/
theorem Inv.release (inv : s.Inv) (here : (s.cpus c).place = .process q) {l : LockId}
    (fits : s.Fits q th) (table : t.proc = s.proc)
    (thread : t.thread = Function.update s.thread q th) (cpus : t.cpus = (s.unlock c l).cpus)
    (locks : ∀ k, k ∈ th.locks ↔ k ≠ l ∧ k ∈ (s.thread q).locks) : t.Inv := by
  refine inv.move here fits table thread cpus ((inv.nodup c).erase l) (fun k => ?_)
    (fun k hk => Or.inl (List.mem_of_mem_erase hk))
  rw [(inv.nodup c).mem_erase_iff, inv.mem_held here, locks]

/-- The process on a CPU gives itself another state and switches to the scheduler. -/
theorem Inv.switch (inv : s.Inv) (here : (s.cpus c).place = .process q) {change : Proc → Proc}
    (fits : s.Fits q th) (table : t.proc = s.proc.set q change)
    (thread : t.thread = Function.update s.thread q th)
    (cpus : t.cpus = Function.update s.cpus c ⟨some q, .back, [.procTable]⟩)
    (stops : (change (s.proc q)).state ≠ .RUNNING)
    (parked : (change (s.proc q)).state = .RUNNABLE ∨ (change (s.proc q)).state = .SLEEPING →
      th.Parked)
    (free : s.Free .procTable ∨ .procTable ∈ (s.cpus c).held) : t.Inv := by
  obtain ⟨hok, hembryo, hforker, hready⟩ := inv.threads_update here fits
  have hself : t.cpus c = ⟨some q, .back, [.procTable]⟩ := by rw [cpus, Function.update_self]
  have hproc : ∀ p, p ≠ q → t.proc p = s.proc p := by
    intro p h
    rw [table, ProcTable.set, Function.update_of_ne h]
  have hprocq : t.proc q = change (s.proc q) := by
    rw [table, ProcTable.set, Function.update_self]
  refine inv.change cpus hproc (of_update thread) (inv.elsewhere here) (place_eq here)
    (fun p h => (Option.some.inj h).symm) (List.nodup_singleton _) (fun c' hc l hl hl' => ?_)
    (fun l => ?_) ?_ (fun h => absurd (hprocq ▸ h) stops) (fun h => ?_) ?_
  · rw [List.mem_singleton.mp hl] at hl'
    rcases free with h | h
    · exact h c' hl'
    · exact hc (inv.exclusive c' c _ hl' h)
  · rw [locksAt, hself]
  · rw [CpuOk, hself]
    exact ⟨q, rfl, by rwa [hprocq]⟩
  · rw [hprocq] at h
    rw [thread, Function.update_self]
    exact parked h
  · rw [thread]
    refine ⟨hok, fun p np hp => ?_, hforker, hready⟩
    have hnp := hembryo p np hp
    rw [hproc np fun e => by rw [e, inv.state_running here] at hnp; cases hnp]
    exact hnp

/-- A runnable process is on no CPU while the table lock is free. -/
theorem Inv.nowhere (inv : s.Inv) (free : s.Free .procTable)
    (runnable : (s.proc q).state = .RUNNABLE) (c : CpuId) : (s.cpus c).curproc ≠ some q := by
  intro hcur
  have hc := inv.cpu c
  rw [CpuOk] at hc
  cases hp : (s.cpus c).place with
  | idle =>
    rw [hp] at hc
    rw [hc] at hcur
    cases hcur
  | back =>
    refine free c ((inv.locks c _).mpr ?_)
    rw [locksAt, hp]
    exact List.mem_singleton_self _
  | process r =>
    rw [hp] at hc
    obtain rfl : r = q := Option.some.inj (hc.1.symm.trans hcur)
    exact absurd (runnable.symm.trans hc.2) (by decide)

/-- A scheduler switches to a runnable process. -/
theorem Inv.dispatch (inv : s.Inv) (here : (s.cpus c).place = .idle) {p : ProcId}
    (free : s.Free .procTable) (runnable : (s.proc p).state = .RUNNABLE) :
    ((s.setTable (s.proc.setState p .RUNNING)).setCpu c fun _ =>
      ⟨some p, .process p, [.procTable]⟩).Inv := by
  set t := (s.setTable (s.proc.setState p .RUNNING)).setCpu c fun _ =>
    ⟨some p, .process p, [.procTable]⟩ with ht
  have hself : t.cpus c = ⟨some p, .process p, [.procTable]⟩ := Function.update_self ..
  have hproc : ∀ r, r ≠ p → t.proc r = s.proc r := fun r h => Function.update_of_ne h ..
  have hprocp : (t.proc p).state = .RUNNING := by
    change (Function.update s.proc p _ p).state = _
    rw [Function.update_self]
  refine inv.change (q := p) rfl hproc (fun _ _ => rfl)
    (fun c' _ => inv.nowhere free runnable c') (fun r h => ?_)
    (fun r h => (Option.some.inj h).symm) (List.nodup_singleton _) (fun c' _ l hl => ?_)
    (fun l => ?_) ?_ (fun _ => rfl) (fun h => ?_)
    ⟨inv.threads, fun r np hr => ?_, inv.forker, inv.ready⟩
  · rw [here] at h
    cases h
  · rw [List.mem_singleton.mp hl]
    exact free c'
  · rw [locksAt, hself]
    change _ ↔ l ∈ (s.thread p).locks
    rw [(inv.parked p (Or.inl runnable)).locks]
  · rw [CpuOk, hself]
    exact ⟨rfl, hprocp⟩
  · rw [hprocp] at h
    rcases h with h | h <;> cases h
  · have hnp := inv.embryo r np hr
    rw [hproc np fun e => by rw [e, runnable] at hnp; cases hnp]
    exact hnp

/-- A scheduler comes back from `swtch` and releases the lock. -/
theorem Inv.runBack (inv : s.Inv) (here : (s.cpus c).place = .back)
    (step : s.runBack c = some t) : t.Inv := by
  rw [Machine.runBack, Machine.release] at step
  split at step
  case isFalse => cases step
  cases step
  set t := (s.setCpu c fun r => { r with curproc := none, place := .idle }).unlock c .procTable
    with ht
  have hcpus : t.cpus =
      Function.update s.cpus c ⟨none, .idle, (s.cpus c).held.erase .procTable⟩ := by
    rw [ht, Machine.unlock, Machine.setCpu, Machine.setCpu]
    simp only [Function.update_self, Function.update_idem]
  have hself : t.cpus c = ⟨none, .idle, (s.cpus c).held.erase .procTable⟩ := by
    rw [hcpus, Function.update_self]
  have hnone : ∀ l, l ∉ (s.cpus c).held.erase .procTable := by
    intro l hl
    rw [(inv.nodup c).mem_erase_iff, inv.locks, locksAt, here] at hl
    exact hl.1 (List.mem_singleton.mp hl.2)
  have hc := inv.cpu c
  rw [CpuOk, here] at hc
  obtain ⟨p, hcur, hstate⟩ := hc
  refine inv.change (q := p) hcpus (fun _ _ => rfl) (fun _ _ => rfl)
    (fun c' hc' h => hc' (inv.single c' c p h hcur)) (fun r h => ?_) (fun r h => by cases h)
    ((inv.nodup c).erase _) (fun _ _ l hl => absurd hl (hnone l)) (fun l => ?_) ?_
    (fun h => absurd h hstate) (inv.parked p) ⟨inv.threads, inv.embryo, inv.forker, inv.ready⟩
  · rw [here] at h
    cases h
  · rw [locksAt, hself]
    exact iff_of_false (hnone l) List.not_mem_nil
  · rw [CpuOk, hself]

end Keep

end Machine

end Xv6
