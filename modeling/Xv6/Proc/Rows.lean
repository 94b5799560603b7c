/-
# How slots change

An action changes few slots of the process table, and each in one of a few ways. The
state of a process follows the arrows of a small state machine.
-/

import Xv6.Proc.Effects

namespace Xv6

namespace Machine

/-- `fork` or `thread_fork` gives the slot up. -/
def GivesUp (s : Machine) (a : Act) (np : ProcId) : Prop := ∃ c ans q b, a = .step c ans ∧
  (s.InCall c q (.fork b (.giveUp np)) ∨ s.InCall c q (.fork b (.drop np)))

/-- How the slot of process `p` changes in an action. -/
inductive RowMove (s : Machine) (a : Act) (table : ProcTable) (p : ProcId) : Prop
  | same (row : table p = s.proc p)
  /-- `wakeup1` or `wake_on_cond` finds the process asleep. -/
  | woken (before : (s.proc p).state = .SLEEPING)
      (row : table p = { s.proc p with state := .RUNNABLE })
  /-- `kill` finds the process. -/
  | killed (finds : ∃ c ans q pid, a = .step c ans ∧ s.InCall c q (.kill pid) ∧
        (List.finRange NPROC).find? (fun r => (s.proc r).pid = pid) = some p)
      (row : table p = { (s.proc p).wakeIf fun _ => true with killed := true })
  /-- A scheduler switches to the process. -/
  | dispatched (before : (s.proc p).state = .RUNNABLE)
      (row : table p = { s.proc p with state := .RUNNING })
  | yields (before : (s.proc p).state = .RUNNING)
      (row : table p = { s.proc p with state := .RUNNABLE })
  | dozes (c : CpuId) (ans : Nat) (chan : Chan) (lk : LockId) (act : a = .step c ans)
      (here : s.InInner c p (.sleep .doze chan lk))
      (row : table p = { s.proc p with chan := some chan, state := .SLEEPING })
  | resumes (c : CpuId) (ans : Nat) (chan : Chan) (lk : LockId) (act : a = .step c ans)
      (here : s.InInner c p (.sleep .sched chan lk))
      (row : table p = { s.proc p with chan := none })
  | condSleeps (c : CpuId) (ans : Nat) (cond mutex : Int) (act : a = .step c ans)
      (here : s.InInner c p (.sleepOnCond false cond mutex))
      (row : table p = { s.proc p with condAddr := cond, state := .SLEEPING })
  /-- `wait` frees the slot. -/
  | reaped (before : (s.proc p).state = .ZOMBIE)
      (row : table p = { s.proc p with state := .UNUSED, pid := 0, parent := none })
  /-- The process exits. -/
  | exits (c : CpuId) (ans : Nat) (act : a = .step c ans) (here : s.InCall c p (.exit .pass))
      (row : table = s.proc.exit s.initproc p)
  /-- Another process exits. -/
  | handedOver (c : CpuId) (ans : Nat) (x : ProcId) (act : a = .step c ans)
      (here : s.InCall c x (.exit .pass)) (other : p ≠ x)
      (row : table = s.proc.exit s.initproc x)
  /-- `allocproc` takes the slot. -/
  | allocated (start : ∃ c ans q b, a = .step c ans ∧ s.InCall c q (.fork b .start) ∧
        s.proc.unused = some p) (before : (s.proc p).state = .UNUSED)
      (row : table p = { s.proc p with state := .EMBRYO, pid := s.nextpid, tctcnt := 100 })
  | dropped (fails : s.GivesUp a p) (row : table p = { s.proc p with state := .UNUSED })
  | parented (c : CpuId) (q : ProcId) (thread : Bool)
      (here : s.InCall c q (.fork thread (.parent p)))
      (row : table p = { s.proc p with parent := some q })
  | image (c : CpuId) (q : ProcId) (thread : Bool) (mem : Nat)
      (here : s.InCall c q (.fork thread (.image p))) (row : table p = { s.proc p with mem := mem })
  | cleared (c : CpuId) (ans : Nat) (q : ProcId) (thread : Bool) (act : a = .step c ans)
      (here : s.InCall c q (.fork thread (.clear p)))
      (row : table p = { s.proc p with parent := none })
  | readied (c : CpuId) (q : ProcId) (thread : Bool)
      (here : s.InCall c q (.fork thread (.ready p)))
      (row : table p = { s.proc p with state := .RUNNABLE })
  | tickets (c : CpuId) (n : Int) (here : s.InCall c p (.procTickets .set n))
      (row : table p = { s.proc p with tctcnt := n })

variable {s t : Machine} {c : CpuId} {q : ProcId} {a : Act} {ans : Nat}

/-- A store to one slot. -/
theorem RowMove.of_set {table : ProcTable} (np : ProcId) (change : Proc → Proc)
    (store : table = s.proc.set np change)
    (move : table np = change (s.proc np) → RowMove s a table np) (p : ProcId) :
    RowMove s a table p := by
  by_cases h : p = np
  · subst h
    exact move (by rw [store, ProcTable.set_self])
  · exact .same (by rw [store, ProcTable.set_of_ne _ h])

theorem RowMove.of_wake {table : ProcTable} (selected : Proc → Bool)
    (wake : table = fun p => (s.proc p).wakeIf selected) (p : ProcId) : RowMove s a table p := by
  have row : table p = (s.proc p).wakeIf selected := by rw [wake]
  rw [Proc.wakeIf] at row
  split at row
  next h => exact .woken h.1 row
  next => exact .same row

theorem innerShared_row {i : Inner} (act : a = .step c ans) (here : s.InInner c q i) (p : ProcId) :
    RowMove s a (s.innerShared q i).proc p := by
  cases i with
  | sleep pc chan lk =>
    cases pc with
    | doze =>
      exact .of_set q (fun r => { r with chan := some chan, state := .SLEEPING }) rfl
        (fun h => .dozes c ans chan lk act here h) p
    | sched =>
      exact .of_set q (fun r => { r with chan := none }) rfl
        (fun h => .resumes c ans chan lk act here h) p
    | start | unlock | relock => exact .same rfl
  | sleepOnCond switched cond mutex =>
    cases switched with
    | false =>
      exact .of_set q (fun r => { r with condAddr := cond, state := .SLEEPING }) rfl
        (fun h => .condSleeps c ans cond mutex act here h) p
    | true => exact .same rfl
  | mutexLock m => exact .same rfl

theorem forkShared_row {b : Bool} {pc : ForkPc} (here : s.InCall c q (.fork b pc)) (p : ProcId) :
    RowMove s (.step c ans) (s.forkShared q b ans pc).proc p := by
  cases pc with
  | start =>
    rw [forkShared]
    cases hnp : s.proc.unused with
    | none => exact .same rfl
    | some np =>
      exact .of_set np (fun r => { r with state := .EMBRYO, pid := s.nextpid, tctcnt := 100 }) rfl
        (fun h => .allocated ⟨c, ans, q, b, rfl, here, hnp⟩ (s.proc.unused_eq_some hnp) h) p
  | giveUp np =>
    exact .of_set np (fun r => { r with state := .UNUSED }) rfl
      (fun h => .dropped ⟨c, ans, q, b, rfl, Or.inl here⟩ h) p
  | parent np =>
    exact .of_set np (fun r => { r with parent := some q }) rfl
      (fun h => .parented c q b here h) p
  | image np =>
    rw [forkShared]
    split
    · exact .of_set np (fun r => { r with mem := (s.proc q).mem }) rfl
        (fun h => .image c q b _ here h) p
    · split
      · exact .of_set np (fun r => { r with mem := 0 }) rfl
          (fun h => .image c q b _ here h) p
      · exact .of_set np (fun r => { r with mem := ans }) rfl
          (fun h => .image c q b _ here h) p
  | drop np =>
    exact .of_set np (fun r => { r with state := .UNUSED }) rfl
      (fun h => .dropped ⟨c, ans, q, b, rfl, Or.inr here⟩ h) p
  | clear np =>
    exact .of_set np (fun r => { r with parent := none }) rfl
      (fun h => .cleared c ans q b rfl here h) p
  | ready np =>
    exact .of_set np (fun r => { r with state := .RUNNABLE }) rfl
      (fun h => .readied c q b here h) p
  | load np | count np _ | kstack np | context np => exact .same rfl

theorem frameShared_row {f : Frame} (here : s.InCall c q f) (p : ProcId) :
    RowMove s (.step c ans) (s.frameShared q ans f).proc p := by
  cases f with
  | waiter pc a chan lk take =>
    cases pc with
    | start => exact .same rfl
    | test =>
      cases take with
      | false => exact .same rfl
      | true =>
        rw [frameShared]
        split <;> exact .same rfl
  | waker pc a chan lk early =>
    cases pc with
    | wakeLocked | wake => exact .of_wake (fun r => r.chan = some (.object chan)) rfl p
    | start | set | unlockLast | unlockFirst => exact .same rfl
  | kill pid =>
    rw [frameShared, withTable, ProcTable.kill]
    dsimp only
    split
    next r hr =>
      exact .of_set r (fun r => { r.wakeIf fun _ => true with killed := true }) rfl
        (fun h => .killed ⟨c, ans, q, pid, rfl, here, hr⟩ h) p
    next => exact .same rfl
  | wait pc =>
    cases pc with
    | start => exact .same rfl
    | scan =>
      rw [frameShared]
      split
      next r hr =>
        exact .of_set r (fun r => { r with state := .UNUSED, pid := 0, parent := none }) rfl
          (fun h => .reaped (s.proc.zombieChild_eq_some hr).2 h) p
      next => exact .same rfl
  | exit pc =>
    cases pc with
    | pass =>
      by_cases h : p = q
      · subst h
        exact .exits c ans rfl here rfl
      · exact .handedOver c ans q rfl here h rfl
    | start | load | sub | check | files | busy | lock | dead => exact .same rfl
  | fork b pc => exact forkShared_row here p
  | procTickets pc n =>
    cases pc with
    | set =>
      exact .of_set q (fun r => { r with tctcnt := n }) rfl
        (fun h => .tickets c n here h) p
    | start | load | sub | reload | add | unlock => exact .same rfl
  | wakeOnCond cond =>
    exact .of_wake (fun r => r.mem = (s.proc q).mem ∧ r.condAddr = cond) rfl p
  | condWaiter pc pred cond mutex take =>
    cases pc with
    | start | relock => exact .same rfl
    | test =>
      rw [frameShared]
      split <;> exact .same rfl
  | signaller pc pred cond mutex =>
    cases pc with
    | signal => exact .of_wake (fun r => r.mem = (s.proc q).mem ∧ r.condAddr = cond) rfl p
    | start | set | unlock => exact .same rfl
  | forkret | sleepOnCond => exact .same rfl

/-- How the slot of every process changes. -/
theorem Step.row (inv : s.Inv) (step : Step a s t) (p : ProcId) : RowMove s a t.proc p := by
  have hproc : t.proc = (s.sharedAfter a).proc := congrArg Shared.proc (step.shared inv)
  rw [hproc]
  cases a with
  | call _ _ | timer _ | block _ _ _ => exact .same rfl
  | intr c chan => exact .of_wake (fun r => r.chan = some (.object chan)) rfl p
  | step c ans =>
    rw [sharedAfter]
    cases hplace : (s.cpus c).place with
    | idle =>
      dsimp only
      cases hdraw : s.draw ans with
      | none => exact .same rfl
      | some r =>
        exact .of_set r (fun r => { r with state := .RUNNING }) rfl
          (fun h => .dispatched (pick_runnable hdraw) h) p
    | back => exact .same rfl
    | process q =>
      dsimp only
      rw [processShared]
      cases hy : (s.thread q).yielding with
      | some pc =>
        cases pc with
        | start =>
          exact .of_set q (fun r => { r with state := .RUNNABLE }) rfl
            (fun h => .yields (inv.state_running hplace) h) p
        | sched => exact .same rfl
      | none =>
        cases hi : (s.thread q).inner with
        | some i => exact innerShared_row rfl ⟨hplace, hy, hi⟩ p
        | none =>
          cases hf : (s.thread q).call with
          | some f => exact frameShared_row ⟨hplace, hy, hi, hf⟩ p
          | none => exact .same rfl

/-- The process state machine: how the state of process `p` changes in an action. -/
inductive StateMove (s : Machine) (a : Act) (table : ProcTable) (p : ProcId) : Prop
  | same (state : (table p).state = (s.proc p).state)
  | wakes (before : (s.proc p).state = .SLEEPING) (after : (table p).state = .RUNNABLE)
  | dispatched (before : (s.proc p).state = .RUNNABLE) (after : (table p).state = .RUNNING)
  | yields (before : (s.proc p).state = .RUNNING) (after : (table p).state = .RUNNABLE)
  | dozes (c : CpuId) (ans : Nat) (chan : Chan) (lk : LockId) (act : a = .step c ans)
      (here : s.InInner c p (.sleep .doze chan lk))
      (before : (s.proc p).state = .RUNNING) (after : (table p).state = .SLEEPING)
      (on : (table p).chan = some chan)
  | condSleeps (c : CpuId) (ans : Nat) (cond mutex : Int) (act : a = .step c ans)
      (here : s.InInner c p (.sleepOnCond false cond mutex))
      (before : (s.proc p).state = .RUNNING) (after : (table p).state = .SLEEPING)
      (on : (table p).chan = (s.proc p).chan)
  | exits (c : CpuId) (ans : Nat) (act : a = .step c ans) (here : s.InCall c p (.exit .pass))
      (before : (s.proc p).state = .RUNNING) (after : (table p).state = .ZOMBIE)
  | reaped (before : (s.proc p).state = .ZOMBIE) (after : (table p).state = .UNUSED)
  | allocated (start : ∃ c ans q b, a = .step c ans ∧ s.InCall c q (.fork b .start) ∧
        s.proc.unused = some p)
      (before : (s.proc p).state = .UNUSED) (after : (table p).state = .EMBRYO)
  | dropped (fails : s.GivesUp a p) (before : (s.proc p).state = .EMBRYO)
      (after : (table p).state = .UNUSED)
  | readied (c : CpuId) (q : ProcId) (b : Bool) (here : s.InCall c q (.fork b (.ready p)))
      (before : (s.proc p).state = .EMBRYO) (after : (table p).state = .RUNNABLE)

theorem RowMove.state (inv : s.Inv) {table : ProcTable} {p : ProcId} (row : RowMove s a table p) :
    StateMove s a table p := by
  cases row with
  | same row | resumes c ans chan lk act here row | parented c q b here row
  | image c q b mem here row | cleared c ans q b act here row | tickets c n here row =>
    exact .same (by rw [row])
  | woken before row => exact .wakes before (by rw [row])
  | killed _ row =>
    have hstate : (table p).state = ((s.proc p).wakeIf fun _ => true).state := by rw [row]
    rcases Proc.wakeIf_state (fun _ => true) (s.proc p) with h | ⟨h, h'⟩
    · exact .same (hstate.trans h)
    · exact .wakes h (hstate.trans h')
  | dispatched before row => exact .dispatched before (by rw [row])
  | yields before row => exact .yields before (by rw [row])
  | dozes c ans chan lk act here row =>
    exact .dozes c ans chan lk act here (inv.state_running here.here) (by rw [row]) (by rw [row])
  | condSleeps c ans cond mutex act here row =>
    exact .condSleeps c ans cond mutex act here (inv.state_running here.here) (by rw [row])
      (by rw [row])
  | reaped before row => exact .reaped before (by rw [row])
  | exits c ans act here row =>
    exact .exits c ans act here (inv.state_running here.here)
      (by rw [row, ProcTable.exit_self])
  | handedOver c ans x act here other row =>
    have hrow : table p = s.proc.handOver s.initproc x p := by
      rw [row, ProcTable.exit_of_ne _ other]
    rcases s.proc.handOver_wakes s.initproc x p with h | ⟨h, h'⟩
    · exact .same (by rw [hrow, h])
    · exact .wakes h (by rw [hrow, h'])
  | allocated start before row => exact .allocated start before (by rw [row])
  | dropped fails row =>
    obtain ⟨c, ans, q, b, act, here⟩ := fails
    have hmine : (s.thread q).embryo = some p := by
      rcases here with h | h <;> rw [Thread.embryo, h.call] <;> rfl
    exact .dropped ⟨c, ans, q, b, act, here⟩ (inv.embryo q p hmine) (by rw [row])
  | readied c q b here row =>
    have hmine : (s.thread q).embryo = some p := by rw [Thread.embryo, here.call]; rfl
    exact .readied c q b here (inv.embryo q p hmine) (by rw [row])

/-- How the state of every process changes. -/
theorem Step.state (inv : s.Inv) (step : Step a s t) (p : ProcId) : StateMove s a t.proc p :=
  (step.row inv p).state inv

section Moves

variable {s : Machine} {table : ProcTable} {a : Act} {p : ProcId}

/-- A process stays alive until it exits. -/
theorem StateMove.alive (move : StateMove s a table p) (alive : (s.proc p).state.Alive) :
    (table p).state.Alive ∨ ∃ c ans, a = .step c ans ∧ s.InCall c p (.exit .pass) := by
  cases move with
  | same state => exact Or.inl (by rwa [state])
  | wakes _ after | yields _ after | dispatched _ after | dozes _ _ _ _ _ _ _ after _
  | condSleeps _ _ _ _ _ _ _ after _ | readied _ _ _ _ _ after =>
    exact Or.inl (by rw [after]; decide)
  | exits c ans act here _ _ => exact Or.inr ⟨c, ans, act, here⟩
  | reaped before _ | allocated _ before _ | dropped _ before _ =>
    rw [before] at alive
    exact absurd alive (by decide)

/-- A slot stays in use until its process exits or its `fork` gives it up. -/
theorem StateMove.live (move : StateMove s a table p) (live : (s.proc p).state.Live) :
    (table p).state.Live ∨ (∃ c ans, a = .step c ans ∧ s.InCall c p (.exit .pass)) ∨
      s.GivesUp a p := by
  cases move with
  | same state => exact Or.inl (by rwa [state])
  | wakes _ after | yields _ after | dispatched _ after | dozes _ _ _ _ _ _ _ after _
  | condSleeps _ _ _ _ _ _ _ after _ | readied _ _ _ _ _ after =>
    exact Or.inl (by rw [after]; decide)
  | exits c ans act here _ _ => exact Or.inr (Or.inl ⟨c, ans, act, here⟩)
  | dropped fails _ _ => exact Or.inr (Or.inr fails)
  | reaped before _ | allocated _ before _ =>
    rw [before] at live
    exact absurd live (by decide)

/-- A slot in use was so before, or `allocproc` takes it. -/
theorem StateMove.live_origin (move : StateMove s a table p) (live : (table p).state.Live) :
    (s.proc p).state.Live ∨ ∃ c ans q b, a = .step c ans ∧ s.InCall c q (.fork b .start) ∧
      s.proc.unused = some p := by
  cases move with
  | same state => exact Or.inl (by rwa [← state])
  | wakes before _ | yields before _ | dispatched before _ | dozes _ _ _ _ _ _ before _ _
  | condSleeps _ _ _ _ _ _ before _ _ | exits _ _ _ _ before _ | readied _ _ _ _ before _ =>
    exact Or.inl (by rw [before]; decide)
  | allocated start _ _ => exact Or.inr start
  | reaped _ after | dropped _ _ after =>
    rw [after] at live
    exact absurd live (by decide)

/-- A process that lives has lived before, or `fork` makes it runnable. -/
theorem StateMove.alive_origin (move : StateMove s a table p) (alive : (table p).state.Alive) :
    (s.proc p).state.Alive ∨ ∃ c q b, s.InCall c q (.fork b (.ready p)) := by
  cases move with
  | same state => exact Or.inl (by rwa [← state])
  | wakes before _ | yields before _ | dispatched before _ | dozes _ _ _ _ _ _ before _ _
  | condSleeps _ _ _ _ _ _ before _ _ =>
    exact Or.inl (by rw [before]; decide)
  | exits _ _ _ _ _ after | reaped _ after | allocated _ _ after | dropped _ _ after =>
    rw [after] at alive
    exact absurd alive (by decide)
  | readied c q b here _ _ => exact Or.inr ⟨c, q, b, here⟩

/-- A process becomes known when `fork` makes it runnable. -/
theorem StateMove.known (move : StateMove s a table p) (known : (table p).state.Known) :
    (s.proc p).state.Known ∨ ∃ c q b, s.InCall c q (.fork b (.ready p)) := by
  cases move with
  | same state => exact Or.inl (by rwa [← state])
  | wakes before _ | yields before _ | dispatched before _ | dozes _ _ _ _ _ _ before _ _
  | condSleeps _ _ _ _ _ _ before _ _ | exits _ _ _ _ before _ =>
    exact Or.inl (by rw [before]; decide)
  | reaped _ after | allocated _ _ after | dropped _ _ after =>
    rw [after] at known
    exact absurd known (by decide)
  | readied c q b here _ _ => exact Or.inr ⟨c, q, b, here⟩

/-- A process becomes a zombie when it exits. -/
theorem StateMove.zombie (move : StateMove s a table p) (zombie : (table p).state = .ZOMBIE) :
    (s.proc p).state = .ZOMBIE ∨ ∃ c ans, a = .step c ans ∧ s.InCall c p (.exit .pass) := by
  cases move with
  | same state => exact Or.inl (by rwa [← state])
  | exits c ans act here _ _ => exact Or.inr ⟨c, ans, act, here⟩
  | wakes _ after | yields _ after | dispatched _ after | reaped _ after | allocated _ _ after
  | dropped _ _ after | readied _ _ _ _ _ after | dozes _ _ _ _ _ _ _ after _
  | condSleeps _ _ _ _ _ _ _ after _ =>
    rw [after] at zombie
    cases zombie

theorem StateMove.running (move : StateMove s a table p) (running : (table p).state = .RUNNING) :
    (s.proc p).state = .RUNNING ∨ (s.proc p).state = .RUNNABLE := by
  cases move with
  | same state => exact Or.inl (by rwa [← state])
  | dispatched before _ => exact Or.inr before
  | wakes _ after | yields _ after | exits _ _ _ _ _ after | reaped _ after | allocated _ _ after
  | dropped _ _ after | readied _ _ _ _ _ after | dozes _ _ _ _ _ _ _ after _
  | condSleeps _ _ _ _ _ _ _ after _ =>
    rw [after] at running
    cases running

/-- A process falls asleep in `sleep` or `sleep_on_cond`. -/
theorem StateMove.sleeping (move : StateMove s a table p)
    (sleeping : (table p).state = .SLEEPING) :
    (s.proc p).state = .SLEEPING ∨
    (∃ c ans chan lk, a = .step c ans ∧ s.InInner c p (.sleep .doze chan lk) ∧
      (table p).chan = some chan) ∨
    ∃ c ans cond mutex, a = .step c ans ∧ s.InInner c p (.sleepOnCond false cond mutex) := by
  cases move with
  | same state => exact Or.inl (by rwa [← state])
  | dozes c ans chan lk act here _ _ on => exact Or.inr (Or.inl ⟨c, ans, chan, lk, act, here, on⟩)
  | condSleeps c ans cond mutex act here _ _ _ =>
    exact Or.inr (Or.inr ⟨c, ans, cond, mutex, act, here⟩)
  | wakes _ after | dispatched _ after | yields _ after | exits _ _ _ _ _ after
  | reaped _ after | allocated _ _ after | dropped _ _ after | readied _ _ _ _ _ after =>
    rw [after] at sleeping
    cases sleeping

/-- The changes of a slot that store more than the state, the pid, the parent and `killed`. -/
inductive Stores (s : Machine) (a : Act) (table : ProcTable) (p : ProcId) : Prop
  | dozes (c : CpuId) (ans : Nat) (chan : Chan) (lk : LockId) (act : a = .step c ans)
      (here : s.InInner c p (.sleep .doze chan lk))
      (row : table p = { s.proc p with chan := some chan, state := .SLEEPING })
  | resumes (row : table p = { s.proc p with chan := none })
  | condSleeps (c : CpuId) (ans : Nat) (cond mutex : Int) (act : a = .step c ans)
      (here : s.InInner c p (.sleepOnCond false cond mutex))
      (row : table p = { s.proc p with condAddr := cond, state := .SLEEPING })
  | allocated (before : (s.proc p).state = .UNUSED)
      (row : table p = { s.proc p with state := .EMBRYO, pid := s.nextpid, tctcnt := 100 })
  | image (c : CpuId) (q : ProcId) (thread : Bool) (mem : Nat)
      (here : s.InCall c q (.fork thread (.image p))) (row : table p = { s.proc p with mem := mem })
  | tickets (c : CpuId) (n : Int) (here : s.InCall c p (.procTickets .set n))
      (row : table p = { s.proc p with tctcnt := n })

theorem RowMove.field {α : Type} (field : Proc → α)
    (state : ∀ (r : Proc) (st : ProcState), field { r with state := st } = field r)
    (pid : ∀ (r : Proc) (n : Int), field { r with pid := n } = field r)
    (parent : ∀ (r : Proc) (q : Option ProcId), field { r with parent := q } = field r)
    (killed : ∀ (r : Proc) (b : Bool), field { r with killed := b } = field r)
    (row : RowMove s a table p) : field (table p) = field (s.proc p) ∨ Stores s a table p := by
  cases row with
  | same row => exact Or.inl (by rw [row])
  | woken _ row | dispatched _ row | yields _ row => exact Or.inl (by rw [row, state])
  | killed _ row => exact Or.inl (by rw [row, killed, Proc.wakeIf_field field state])
  | dozes c ans chan lk act here row => exact Or.inr (.dozes c ans chan lk act here row)
  | resumes c ans chan lk act here row => exact Or.inr (.resumes row)
  | condSleeps c ans cond mutex act here row =>
    exact Or.inr (.condSleeps c ans cond mutex act here row)
  | reaped _ row =>
    have h : table p = { { { s.proc p with state := .UNUSED } with pid := 0 } with
        parent := none } := row
    exact Or.inl (by rw [h, parent, pid, state])
  | exits c ans act here row =>
    have h : table p = { { s.proc.handOver s.initproc p p with killed := false } with
        state := .ZOMBIE } := by rw [row, ProcTable.exit_self]
    exact Or.inl (by rw [h, state, killed, ProcTable.handOver_field field state parent])
  | handedOver c ans x act here other row =>
    exact Or.inl (by
      rw [row, ProcTable.exit_of_ne _ other, ProcTable.handOver_field field state parent])
  | allocated start before row => exact Or.inr (.allocated before row)
  | dropped _ row | readied _ _ _ _ row => exact Or.inl (by rw [row, state])
  | parented _ _ _ _ row | cleared _ _ _ _ _ _ row => exact Or.inl (by rw [row, parent])
  | image c q b mem here row => exact Or.inr (.image c q b mem here row)
  | tickets c n here row => exact Or.inr (.tickets c n here row)

/-- A process goes to sleep on a channel in `sleep` only. -/
theorem RowMove.chan (row : RowMove s a table p) {chan : Chan} (on : (table p).chan = some chan) :
    (s.proc p).chan = some chan ∨
      ∃ c ans lk, a = .step c ans ∧ s.InInner c p (.sleep .doze chan lk) := by
  rcases row.field Proc.chan (fun _ _ => rfl) (fun _ _ => rfl) (fun _ _ => rfl) (fun _ _ => rfl)
    with h | stores
  · exact Or.inl (h.symm.trans on)
  · cases stores with
    | dozes c ans chan' lk act here row =>
      rw [row] at on
      obtain rfl : chan' = chan := Option.some.inj on
      exact Or.inr ⟨c, ans, lk, act, here⟩
    | resumes row =>
      rw [row] at on
      cases on
    | condSleeps _ _ _ _ _ _ row | allocated _ row | image _ _ _ _ _ row | tickets _ _ _ row =>
      exact Or.inl (by rwa [row] at on)

/-- A process keeps its image, once `fork` has given it one. -/
theorem RowMove.mem (row : RowMove s a table p) :
    (table p).mem = (s.proc p).mem ∨ ∃ c q b, s.InCall c q (.fork b (.image p)) := by
  rcases row.field Proc.mem (fun _ _ => rfl) (fun _ _ => rfl) (fun _ _ => rfl) (fun _ _ => rfl)
    with h | stores
  · exact Or.inl h
  · cases stores with
    | image c q b mem here row => exact Or.inr ⟨c, q, b, here⟩
    | dozes _ _ _ _ _ _ row | resumes row | condSleeps _ _ _ _ _ _ row | allocated _ row
    | tickets _ _ _ row => exact Or.inl (by rw [row])

/-- `condAddr` is stored when a process goes to sleep in `sleep_on_cond`. -/
theorem RowMove.condAddr (row : RowMove s a table p) :
    (table p).condAddr = (s.proc p).condAddr ∨ ∃ c ans cond mutex, a = .step c ans ∧
      s.InInner c p (.sleepOnCond false cond mutex) ∧ (table p).condAddr = cond := by
  rcases row.field Proc.condAddr (fun _ _ => rfl) (fun _ _ => rfl) (fun _ _ => rfl)
    (fun _ _ => rfl) with h | stores
  · exact Or.inl h
  · cases stores with
    | condSleeps c ans cond mutex act here row =>
      exact Or.inr ⟨c, ans, cond, mutex, act, here, by rw [row]⟩
    | dozes _ _ _ _ _ _ row | resumes row | image _ _ _ _ _ row | allocated _ row
    | tickets _ _ _ row => exact Or.inl (by rw [row])

end Moves

end Machine

end Xv6
