/-
# Parents and zombies

Every process that is in use, other than init, has a parent that can still wait for it,
and nobody sleeps in `wait` with a zombie among its children. This holds as long as no
`fork` that runs out of memory stores `np->parent = 0` into a slot that another `fork` has
filled in the meantime: the store comes after `np->state = UNUSED`, without the lock.
-/

import Xv6.Proc.States

namespace Xv6

open Math

/-- The slot whose parent the code of `fork` has stored. -/
def Frame.parented : Frame → Option ProcId
  | .fork _ (.image np) => some np
  | .fork _ (.drop np) => some np
  | .fork _ (.context np) => some np
  | .fork _ (.ready np) => some np
  | _ => none

/-- The code of `fork` is about to store `np->parent = 0`. -/
def Frame.clears : Frame → Bool
  | .fork _ (.clear _) => true
  | _ => false

variable {f : Frame} {np : ProcId}

theorem Frame.fork_of_parented (filled : f.parented = some np) : ∃ b pc, f = .fork b pc := by
  unfold Frame.parented at filled
  split at filled
  case h_5 => cases filled
  all_goals exact ⟨_, _, rfl⟩

theorem Frame.embryo_of_parented (filled : f.parented = some np) : f.embryo = some np := by
  unfold Frame.parented at filled
  split at filled <;> cases filled <;> rfl

/-- The code of `exit` has found that the process is not init. -/
def ExitPc.committed : ExitPc → Bool
  | .files | .busy _ _ | .lock | .pass | .dead => true
  | _ => false

namespace Machine

/-- Init is alive, and gets no further in `exit` than to its panic. -/
structure Rooted (s : Machine) : Prop where
  init : (s.proc s.initproc).state.Alive
  exits : ∀ q pc, (s.thread q).call = some (.exit pc) → pc.committed = true → q ≠ s.initproc

/-- What holds about parents, children and zombies between any two segments. -/
structure Family (s : Machine) : Prop extends Rooted s where
  parent : ∀ q, q ≠ s.initproc → (s.proc q).state.Known →
    ∃ r, (s.proc q).parent = some r ∧ r ≠ q ∧ (s.proc r).state.Alive
  forker : ∀ q b pc, (s.thread q).call = some (.fork b pc) → (s.proc q).state.Alive
  filled : ∀ q f np, (s.thread q).call = some f → f.parented = some np →
    (s.proc np).parent = some q
  dozing : ∀ p chan, (s.proc p).chan = some chan →
    (s.proc p).state.Alive ∧ ∃ lk, (s.thread p).inner = some (.sleep .sched chan lk)
  waits : ∀ q pc r lk, (s.thread q).inner = some (.sleep pc (.proc r) lk) →
    r = q ∧ lk = .procTable
  asleep : ∀ p, s.proc.AsleepOn p (.proc p) →
    ∀ z, (s.proc z).state = .ZOMBIE → (s.proc z).parent ≠ some p
  dozes : ∀ q pc r lk, (s.proc q).state = .RUNNING → (s.thread q).yielding = none →
    (s.thread q).inner = some (.sleep pc (.proc r) lk) → pc = .start ∨ pc = .doze →
    ∀ z, (s.proc z).state = .ZOMBIE → (s.proc z).parent ≠ some q

/-- When a `fork` without memory stores `np->parent = 0`, no other `fork` has stored a
parent in the slot. -/
def ClearsOwn (s : Machine) (a : Act) : Prop :=
  ∀ c ans q b np, a = .step c ans → s.InCall c q (.fork b (.clear np)) →
    (s.proc np).state = .UNUSED ∨ (s.proc np).state = .EMBRYO ∧
      ((s.proc np).parent = some q ∨ (s.proc np).parent = none)

section Rows

variable {s : Machine} {table : ProcTable} {a : Act} {p : ProcId}

/-- Where the parent of a process comes from. -/
inductive ParentMove (s : Machine) (a : Act) (table : ProcTable) (p : ProcId) : Prop
  | same (row : (table p).parent = (s.proc p).parent)
  | reaped (before : (s.proc p).state = .ZOMBIE) (after : (table p).state = .UNUSED)
  | passed (c : CpuId) (ans : Nat) (x : ProcId) (act : a = .step c ans)
      (here : s.InCall c x (.exit .pass)) (before : (s.proc p).parent = some x)
      (after : (table p).parent = some s.initproc)
  | parented (c : CpuId) (q : ProcId) (b : Bool) (here : s.InCall c q (.fork b (.parent p)))
      (after : (table p).parent = some q) (state : (table p).state = (s.proc p).state)
  | cleared (c : CpuId) (ans : Nat) (q : ProcId) (b : Bool) (act : a = .step c ans)
      (here : s.InCall c q (.fork b (.clear p))) (after : (table p).parent = none)
      (state : (table p).state = (s.proc p).state)

theorem RowMove.parent (row : RowMove s a table p) : ParentMove s a table p := by
  -- what `exit` of `x` does to the parent
  have hexit : ∀ c ans x, a = .step c ans → s.InCall c x (.exit .pass) →
      (table p).parent = (s.proc.handOver s.initproc x p).parent → ParentMove s a table p := by
    intro c ans x act here hrow
    rw [ProcTable.handOver_parent] at hrow
    split at hrow
    next h => exact .passed c ans x act here h hrow
    next => exact .same hrow
  cases row with
  | same row | woken _ row | dispatched _ row | yields _ row | dozes _ _ _ _ _ _ row
  | resumes _ _ _ _ _ _ row | condSleeps _ _ _ _ _ _ row | allocated _ _ row | dropped _ row
  | image _ _ _ _ _ row | readied _ _ _ _ row | tickets _ _ _ row => exact .same (by rw [row])
  | killed _ row =>
    exact .same (by rw [row]; exact Proc.wakeIf_field Proc.parent (fun _ _ => rfl) _ _)
  | reaped before row => exact .reaped before (by rw [row])
  | exits c ans act here row =>
    exact hexit c ans p act here (by rw [row, ProcTable.exit_self])
  | handedOver c ans x act here other row =>
    exact hexit c ans x act here (by rw [row, ProcTable.exit_of_ne _ other])
  | parented c q b here row => exact .parented c q b here (by rw [row]) (by rw [row])
  | cleared c ans q b act here row => exact .cleared c ans q b act here (by rw [row]) (by rw [row])

end Rows

section Steps

variable {s t : Machine} {a : Act} {p q : ProcId}

/-- The segment of `exit` that makes the process a zombie. -/
theorem Step.exit_pass {c : CpuId} {ans : Nat} {x : ProcId} (inv : s.Inv)
    (step : Step (.step c ans) s t) (here : s.InCall c x (.exit .pass)) :
    t.proc = s.proc.exit s.initproc x :=
  congrArg Shared.proc (runFrame_effect (by simp) (step.runFrame inv here)).shared

theorem Rooted.exits_step (rooted : s.Rooted) (inv : s.Inv) (step : Step a s t) {pc : ExitPc}
    (after : (t.thread q).call = some (.exit pc)) (committed : pc.committed = true) :
    q ≠ s.initproc := by
  cases step.call_origin inv after with
  | same place => exact rooted.exits q pc place committed
  | make c k act here begin =>
    cases k <;> cases begin
    cases committed
  | frame c ans g act here run thread same =>
    cases g with
    | exit pc' =>
      have hthread := (runFrame_effect (by simp) run).thread
      rw [hthread, Function.update_self, frameThread] at after
      by_cases hpc : pc'.committed = true
      · exact rooted.exits q pc' here.call hpc
      · cases pc' with
        | start | load _ | sub _ _ =>
          cases after
          cases committed
        | check isThread =>
          rw [runFrame, runExit] at run
          split at run
          next => cases run
          next hne => exact hne
        | files | busy _ _ | lock | pass | dead => exact absurd rfl hpc
    | _ => cases same
  | block c chan lk here busy => exact rooted.exits q _ here.call rfl
  | fresh q b place fresh => cases fresh

/-- A parent that a `fork` has stored stays as long as that `fork` goes on. -/
theorem Family.filled_stays (fam : s.Family) (inv : s.Inv) (clears : s.ClearsOwn a)
    (step : Step a s t) (place : (s.thread q).call = some f)
    (filled : f.parented = some np) : (t.proc np).parent = some q := by
  have hparent := fam.filled q f np place filled
  have hmine : (s.thread q).embryo = some np := by
    rw [Thread.embryo, place, Option.bind_some]
    exact Frame.embryo_of_parented filled
  have hembryo := inv.embryo q np hmine
  cases (step.row inv np).parent with
  | same row => rw [row, hparent]
  | reaped before after =>
    rw [hembryo] at before
    cases before
  | passed c ans x act here before after =>
    -- the process that exits would be the one that forks
    obtain rfl : q = x := Option.some.inj (hparent.symm.trans before)
    rw [Option.some.inj (place.symm.trans here.call)] at filled
    cases filled
  | parented c q' b here after state =>
    have h : (s.thread q').embryo = some np := by rw [Thread.embryo, here.call]; rfl
    rw [after, inv.forker q' q np h hmine]
  | cleared c ans q' b act here after state =>
    rcases clears c ans q' b np act here with h | ⟨-, h | h⟩
    · rw [hembryo] at h
      cases h
    · obtain rfl : q = q' := Option.some.inj (hparent.symm.trans h)
      rw [Option.some.inj (place.symm.trans here.call)] at filled
      cases filled
    · rw [hparent] at h
      cases h

/-- Where a `fork` has just stored the parent. -/
theorem parent_of_parented {ans : Nat} {g : Frame}
    (after : (s.frameThread q ans g).call = some f) (same : f.toCall = g.toCall)
    (filled : f.parented = some np) (before : g.parented ≠ some np) :
    ∃ b, g = .fork b (.parent np) := by
  cases g with
  | fork b pc =>
    rw [frameThread] at after
    cases pc with
    | start =>
      rw [forkThread] at after
      split at after
      next => cases after
      next =>
        cases after
        cases filled
    | parent np' =>
      cases after
      cases filled
      exact ⟨b, rfl⟩
    | kstack np' =>
      rw [forkThread] at after
      split at after <;> cases after <;> cases filled
    | image np' =>
      rw [forkThread] at after
      split at after <;>
      · cases after
        cases filled
        exact absurd rfl before
    | context np' =>
      cases after
      cases filled
      exact absurd rfl before
    | load _ | count _ _ | drop _ =>
      cases after
      cases filled
    | giveUp _ | clear _ | ready _ => cases after
  | _ =>
    obtain ⟨b, pc, rfl⟩ := Frame.fork_of_parented filled
    cases same

theorem Family.filled_step (fam : s.Family) (inv : s.Inv) (clears : s.ClearsOwn a)
    (step : Step a s t) (after : (t.thread q).call = some f)
    (filled : f.parented = some np) : (t.proc np).parent = some q := by
  cases step.call_origin inv after with
  | same place => exact fam.filled_stays inv clears step place filled
  | make c k act here begin =>
    subst begin
    cases k <;> cases filled
  | frame c ans g act here run thread same =>
    subst act
    by_cases hg : g.parented = some np
    · exact fam.filled_stays inv clears step here.call hg
    · rw [thread] at after
      obtain ⟨b, rfl⟩ := parent_of_parented after same filled hg
      have hproc : t.proc = s.proc.set np fun r => { r with parent := some q } :=
        congrArg Shared.proc (runFrame_effect (by simp) run).shared
      rw [hproc, ProcTable.set_self]
  | block c chan lk here busy =>
    subst busy
    cases filled
  | fresh q b place fresh =>
    subst fresh
    cases filled

theorem Rooted.init_step (rooted : s.Rooted) (inv : s.Inv) (step : Step a s t) :
    (t.proc s.initproc).state.Alive := by
  rcases (step.state inv s.initproc).alive rooted.init with h | ⟨c, ans, act, here⟩
  · exact h
  · exact absurd rfl (rooted.exits _ _ here.call rfl)

theorem Rooted.step (rooted : s.Rooted) (inv : s.Inv) (step : Step a s t) : t.Rooted where
  init := by
    rw [step.initproc inv]
    exact rooted.init_step inv step
  exits q pc place committed := by
    rw [step.initproc inv]
    exact rooted.exits_step inv step place committed

theorem Family.dozing_step (fam : s.Family) (inv : s.Inv) (step : Step a s t) {chan : Chan}
    (on : (t.proc p).chan = some chan) :
    (t.proc p).state.Alive ∧ ∃ lk, (t.thread p).inner = some (.sleep .sched chan lk) := by
  rcases (step.row inv p).chan on with h | ⟨c, ans, lk, rfl, here⟩
  · obtain ⟨halive, lk, place⟩ := fam.dozing p chan h
    refine ⟨?_, lk, ?_⟩
    · rcases (step.state inv p).alive halive with h | ⟨_, _, _, here⟩
      · exact h
      · rw [here.noInner] at place
        cases place
    · cases step.goes inv p with
      | same thread => rw [thread, place]
      | make c k act here user thread =>
        rw [user.2.1] at place
        cases place
      | timer c act here enabled thread =>
        rw [thread]
        exact place
      | yield c ans pc act here place' thread =>
        rw [thread]
        exact place
      | inner c ans i act here thread =>
        -- the process runs again, and has no channel any more
        subst act
        obtain rfl := Option.some.inj (here.place.symm.trans place)
        have hproc : t.proc = s.proc.set p fun r => { r with chan := none } :=
          congrArg Shared.proc (runInner_effect (step.runInner inv here)).1
        rw [hproc, ProcTable.set_self] at on
        cases on
      | frame c ans f act here run thread | block c n l act here thread =>
        rw [here.noInner] at place
        cases place
      | fresh q b other place' fresh =>
        have h := inv.embryo q p (by rw [Thread.embryo, place']; rfl)
        rw [h] at halive
        exact absurd halive (by decide)
  · have heffect := runInner_effect (step.runInner inv here)
    have hproc : t.proc = s.proc.set p fun r => { r with chan := some chan, state := .SLEEPING } :=
      congrArg Shared.proc heffect.1
    refine ⟨?_, lk, ?_⟩
    · rw [hproc, ProcTable.set_self]
      exact Or.inl rfl
    · rw [heffect.2, Function.update_self]
      rfl

theorem Family.waits_step (fam : s.Family) (inv : s.Inv) (step : Step a s t) {pc : SleepPc}
    {r : ProcId} {lk : LockId} (after : (t.thread q).inner = some (.sleep pc (.proc r) lk)) :
    r = q ∧ lk = .procTable := by
  cases step.sleep_origin inv after with
  | same thread => exact fam.waits q pc r lk (thread ▸ after)
  | interrupted call place during => exact fam.waits q pc r lk place
  | next c ans before act here thread => exact fam.waits q before r lk here.place
  | waiter c ans cond n take act here on start found thread => cases on
  | wait c ans act here on table start found thread =>
    cases on
    exact ⟨rfl, table⟩
  | busy c ans n act here on start thread => cases on

theorem Family.parent_step (fam : s.Family) (inv : s.Inv) (clears : s.ClearsOwn a)
    (step : Step a s t) (other : q ≠ s.initproc) (known : (t.proc q).state.Known) :
    ∃ r, (t.proc q).parent = some r ∧ r ≠ q ∧ (t.proc r).state.Alive := by
  -- the process was known before, or its `fork` has filled the parent in
  have hbefore : ∃ r, (s.proc q).parent = some r ∧ r ≠ q ∧ (s.proc r).state.Alive := by
    rcases (step.state inv q).known known with h | ⟨c, x, b, here⟩
    · exact fam.parent q other h
    · refine ⟨x, fam.filled x _ q here.call rfl, ?_, fam.forker x b _ here.call⟩
      rintro rfl
      have h := inv.embryo x x (by rw [Thread.embryo, here.call]; rfl)
      rw [inv.state_running here.here] at h
      cases h
  obtain ⟨r, hparent, hne, halive⟩ := hbefore
  cases (step.row inv q).parent with
  | same row =>
    rcases (step.state inv r).alive halive with h | ⟨c, ans, rfl, here⟩
    · exact ⟨r, by rw [row, hparent], hne, h⟩
    · -- `r` exits, and the child would have gone to init
      rw [step.exit_pass inv here, ProcTable.exit_parent, if_pos hparent, hparent] at row
      exact absurd (Option.some.inj row).symm (fam.exits r _ here.call rfl)
  | reaped before after =>
    rw [after] at known
    exact absurd known (by decide)
  | passed c ans x act here before after =>
    exact ⟨s.initproc, after, other.symm, fam.init_step inv step⟩
  | parented c x b here after state =>
    have h := inv.embryo x q (by rw [Thread.embryo, here.call]; rfl)
    rw [state, h] at known
    exact absurd known (by decide)
  | cleared c ans x b act here after state =>
    rw [state] at known
    rcases clears c ans x b q act here with h | ⟨h, -⟩ <;>
    · rw [h] at known
      exact absurd known (by decide)

variable {z : ProcId}

/-- Without an exit there are no new zombies. -/
theorem Step.zombie_child (inv : s.Inv) (step : Step a s t)
    (noExit : ∀ c ans x, a = .step c ans → ¬ s.InCall c x (.exit .pass))
    (zombie : (t.proc z).state = .ZOMBIE) (child : (t.proc z).parent = some p) :
    (s.proc z).state = .ZOMBIE ∧ (s.proc z).parent = some p := by
  have hzombie : (s.proc z).state = .ZOMBIE := by
    rcases (step.state inv z).zombie zombie with h | ⟨c, ans, act, here⟩
    · exact h
    · exact absurd here (noExit c ans z act)
  refine ⟨hzombie, ?_⟩
  cases (step.row inv z).parent with
  | same row => rw [← row, child]
  | reaped before after =>
    rw [zombie] at after
    cases after
  | passed c ans x act here before after => exact absurd here (noExit c ans x act)
  | parented c x b here after state =>
    have h := inv.embryo x z (by rw [Thread.embryo, here.call]; rfl)
    rw [hzombie] at h
    cases h
  | cleared c ans x b act here after state =>
    rw [child] at after
    cases after

theorem Family.asleep_step (fam : s.Family) (inv : s.Inv) (step : Step a s t)
    (asleep : t.proc.AsleepOn p (.proc p)) (zombie : (t.proc z).state = .ZOMBIE) :
    (t.proc z).parent ≠ some p := by
  by_cases hexit : ∃ c ans x, a = .step c ans ∧ s.InCall c x (.exit .pass)
  · obtain ⟨c, ans, x, rfl, here⟩ := hexit
    rw [step.exit_pass inv here] at asleep zombie ⊢
    have hknown : (s.proc x).state.Known := by
      rw [inv.state_running here.here]
      decide
    obtain ⟨r, hparent, hne, -⟩ := fam.parent x (fam.exits x _ here.call rfl) hknown
    exact ProcTable.exit_asleep hparent hne (fun h => fam.asleep p h z) asleep zombie
  · intro hchild
    obtain ⟨hzombie, hparent⟩ := step.zombie_child inv
      (fun c ans x act here => hexit ⟨c, ans, x, act, here⟩) zombie hchild
    have hdoze : ∀ c chan lk, s.InInner c p (.sleep .doze chan lk) → chan = .proc p → False := by
      rintro c chan lk here rfl
      exact fam.dozes p .doze p lk (inv.state_running here.here) here.quiet here.place
        (Or.inr rfl) z hzombie hparent
    rcases (step.state inv p).sleeping asleep.1 with
      hstate | ⟨c, ans, chan, lk, act, here, on⟩ | ⟨c, ans, cond, mutex, act, here⟩
    · rcases (step.row inv p).chan asleep.2 with hchan | ⟨c, ans, lk, act, here⟩
      · exact fam.asleep p ⟨hstate, hchan⟩ z hzombie hparent
      · exact hdoze c _ lk here rfl
    · exact hdoze c chan lk here (Option.some.inj (on.symm.trans asleep.2))
    · -- the channel is from an earlier `sleep`, which this process has left
      rcases (step.row inv p).chan asleep.2 with hchan | ⟨c, ans, lk, act, here⟩
      · obtain ⟨-, lk, place⟩ := fam.dozing p _ hchan
        rw [here.place] at place
        cases place
      · exact hdoze c _ lk here rfl

/-- A process at the start of `sleep` with the table lock was there before the action, or
has just found no zombie. -/
theorem Family.dozes_step (fam : s.Family) (inv : s.Inv) (inv' : t.Inv) (step : Step a s t)
    {pc : SleepPc} {r : ProcId} {lk : LockId} (running : (t.proc q).state = .RUNNING)
    (quiet : (t.thread q).yielding = none)
    (place : (t.thread q).inner = some (.sleep pc (.proc r) lk)) (at_ : pc = .start ∨ pc = .doze)
    (zombie : (t.proc z).state = .ZOMBIE) : (t.proc z).parent ≠ some q := by
  obtain ⟨rfl, rfl⟩ := fam.waits_step inv step place
  have hlocks : LockId.procTable ∈ (t.thread r).locks := by
    rw [Thread.locks_inner quiet place]
    rcases at_ with rfl | rfl <;> exact List.mem_cons_self
  -- the table lock keeps other processes from exiting
  have hexit : ∀ c ans x, a = .step c ans → ¬ s.InCall c x (.exit .pass) := by
    rintro c ans x rfl here
    have run := step.runFrame inv here
    rw [runFrame, runExit] at run
    obtain ⟨⟨-, hheld⟩, ht⟩ := sched_eq_some.mp run
    obtain ⟨c', there⟩ := inv'.running r running
    have hback : (t.cpus c).place = .back := by
      rw [← ht]
      simp only [setCpu, Function.update_self]
    have hheld' : .procTable ∈ (t.cpus c).held := by
      rw [inv'.locks, locksAt, hback]
      exact List.mem_cons_self
    obtain rfl := inv'.exclusive c c' _ hheld' ((inv'.mem_held there).mpr hlocks)
    rw [hback] at there
    cases there
  intro hchild
  obtain ⟨hzombie, hparent⟩ := step.zombie_child inv hexit zombie hchild
  cases step.sleep_origin inv place with
  | same thread =>
    rw [thread] at quiet place
    rcases (step.state inv r).running running with hstate | hstate
    · exact fam.dozes r pc r _ hstate quiet place at_ z hzombie hparent
    · obtain rfl := (inv.parked r (Or.inl hstate)).sleep_sched quiet place
      rcases at_ with h | h <;> cases h
  | interrupted call place' during =>
    have hyield := during.resolve_right (fun h => h quiet)
    have hbase := (inv.threads r).yield hyield
    rw [Thread.baseLocks, place'] at hbase
    rcases at_ with rfl | rfl <;> cases hbase
  | next c ans before act here thread =>
    refine fam.dozes r before r _ (inv.state_running here.here) here.quiet here.place ?_ z hzombie
      hparent
    cases before with
    | start => exact Or.inl rfl
    | unlock => exact absurd rfl (((inv.threads r).sleep _ _ _ here.place).2 (Or.inl rfl))
    | doze => exact Or.inr rfl
    | sched | relock =>
      rw [thread] at place
      cases place
  | waiter c ans cond n take act here on start found thread => cases on
  | wait c ans act here on table start found thread =>
    exact s.proc.zombieChild_eq_none found hparent hzombie
  | busy c ans n act here on start thread => cases on

/-- A step keeps the family in order, as long as no `fork` takes a parent away. -/
theorem Family.step (fam : s.Family) (inv : s.Inv) (clears : s.ClearsOwn a) (step : Step a s t) :
    t.Family where
  toRooted := fam.toRooted.step inv step
  parent q other known := by
    rw [step.initproc inv] at other
    exact fam.parent_step inv clears step other known
  forker q b pc place := step.forker_alive inv (fam.forker q) place
  filled q f np place filled := fam.filled_step inv clears step place filled
  dozing p chan on := fam.dozing_step inv step on
  waits q pc r lk place := fam.waits_step inv step place
  asleep p asleep z zombie := fam.asleep_step inv step asleep zombie
  dozes q pc r lk running quiet place at_ z zombie :=
    fam.dozes_step inv (inv.step step) step running quiet place at_ zombie

end Steps

section Main

variable {mem : Nat} {cond : Nat → Bool} {word : Nat → Int → Int} {as : List Act} {s : Machine}

theorem boot_rooted (mem : Nat) (cond : Nat → Bool) (word : Nat → Int → Int) :
    (boot mem cond word).Rooted where
  init := Or.inr (Or.inl rfl)
  exits _ _ h := by cases h

theorem boot_family (mem : Nat) (cond : Nat → Bool) (word : Nat → Int → Int) :
    (boot mem cond word).Family := by
  have hzero : ∀ p : ProcId, p ≠ 0 → (boot mem cond word).proc p = Proc.zero :=
    fun p h => by simp only [boot, Function.update_of_ne h]
  have hnone : ∀ p : ProcId, ((boot mem cond word).proc p).chan = none := by
    intro p
    by_cases hp : p = 0
    · rw [hp]
      rfl
    · rw [hzero p hp]
      rfl
  refine ⟨boot_rooted mem cond word, fun q other known => ?_, fun _ _ _ h => (by cases h),
    fun _ _ _ h => ?_, fun p chan on => ?_,
    fun _ _ _ _ h => (by cases h), fun p asleep => ?_, fun _ _ _ _ _ _ h => (by cases h)⟩
  · rw [hzero q other] at known
    exact absurd known (by decide)
  · cases h
    intro h
    cases h
  · rw [hnone] at on
    cases on
  · have h := asleep.2
    rw [hnone] at h
    cases h

/-- A step that does not take a parent away from a slot of another `fork`. -/
def FamilyStep (a : Act) (s t : Machine) : Prop := s.ClearsOwn a ∧ Step a s t

/-- In every run in which a `fork` without memory clears only its own slot: every process
that is asleep, runnable, running or a zombie, other than init, has a parent that is
neither `UNUSED` nor `ZOMBIE`, and no zombie is the child of a process that sleeps in
`wait`. This holds whether `proc_table_lock` is free or not. -/
theorem no_unreapable_zombies (run : Run FamilyStep (boot mem cond word) as s) :
    (∀ p, p ≠ s.initproc → (s.proc p).state.Known →
      ∃ r, (s.proc p).parent = some r ∧ (s.proc r).state ≠ .UNUSED ∧ (s.proc r).state ≠ .ZOMBIE) ∧
    ∀ p, s.proc.AsleepOn p (.proc p) →
      ∀ z, (s.proc z).state = .ZOMBIE → (s.proc z).parent ≠ some p := by
  have inv : s.Inv ∧ s.Family :=
    run.invariant (motive := fun _ s => s.Inv ∧ s.Family)
      ⟨boot_inv mem cond word, boot_family mem cond word⟩
      fun _ _ _ _ inv step => ⟨inv.1.step step.2, inv.2.step inv.1 step.1 step.2⟩
  refine ⟨fun p other known => ?_, inv.2.asleep⟩
  obtain ⟨r, hparent, -, halive⟩ := inv.2.parent p other known
  refine ⟨r, hparent, ?_, ?_⟩ <;> rintro h <;> rw [h] at halive <;> exact absurd halive (by decide)

/-- The action does not clear a parent. -/
def keepsParent (s : Machine) : Act → Bool
  | .step c _ =>
    match (s.cpus c).place with
    | .process q => !(s.thread q).call.any Frame.clears
    | _ => true
  | _ => true

theorem clearsOwn_of_keepsParent {a : Act} (keeps : s.keepsParent a = true) : s.ClearsOwn a := by
  rintro c ans q b np rfl here
  simp only [keepsParent, here.here, here.call] at keeps
  cases keeps

theorem run_of_keepsParent {s₀ : Machine}
    (done : execute (fun s a => if s.keepsParent a then s.act a else none) s₀ as = some s) :
    Run FamilyStep s₀ as s := by
  refine Run.of_execute (fun a s t hact => ?_) done
  split at hact
  next hkeeps => exact ⟨clearsOwn_of_keepsParent hkeeps, hact⟩
  next => cases hact

/-- Init forks a child, which runs on CPU 1 and exits: the zombie is the child of init. -/
theorem no_unreapable_zombies_child :
    ∃ as s, Run FamilyStep (boot 4096 (fun _ => false) fun _ _ => 0) as s ∧
      (s.proc 1).state = .ZOMBIE ∧ 1 ≠ s.initproc ∧
      ∃ r, (s.proc 1).parent = some r ∧ (s.proc r).state ≠ .UNUSED ∧
        (s.proc r).state ≠ .ZOMBIE := by
  let as : List Act := List.flatten [twoProcesses, [.call 1 .exit], List.replicate 7 (.step 1 0)]
  have hdone : (execute (fun s a => if s.keepsParent a then s.act a else none)
      (boot 4096 (fun _ => false) fun _ _ => 0) as).map
      (fun s => ((s.proc 1).state, s.initproc)) = some (.ZOMBIE, 0) := by decide +kernel
  obtain ⟨s, hs, hstate⟩ := Option.map_eq_some_iff.mp hdone
  obtain ⟨hzombie, hinit⟩ := Prod.mk.inj hstate
  have hrun := run_of_keepsParent hs
  have hne : 1 ≠ s.initproc := by
    rw [hinit]
    decide
  exact ⟨as, s, hrun, hzombie, hne,
    (no_unreapable_zombies hrun).1 1 hne (by rw [hzombie]; decide)⟩

/-- Init on CPU 0 forks a child, which runs on CPU 1. A second `fork` of init finds no memory
and stores `UNUSED`; the child forks, takes the slot and stores itself as the parent; then
init stores `parent = 0`. The grandchild becomes `RUNNABLE` without a parent. -/
theorem forked_without_parent :
    ∃ as s, Run Step (boot 4096 (fun _ => false) fun _ _ => 0) as s ∧ s.Free .procTable ∧
      2 ≠ s.initproc ∧ (s.proc 2).state = .RUNNABLE ∧ (s.proc 2).parent = none := by
  let as : List Act := List.flatten [twoProcesses, forkToImage 0 0, [.step 0 0],
    forkToImage 1 12288, [.step 0 0, .step 1 0, .step 1 0]]
  have hdone : (execute act (boot 4096 (fun _ => false) fun _ _ => 0) as).map
      (fun s => (decide (s.Free .procTable), decide (2 ≠ s.initproc), (s.proc 2).state,
        (s.proc 2).parent)) = some (true, true, .RUNNABLE, none) := by decide +kernel
  obtain ⟨s, hs, hstate⟩ := Option.map_eq_some_iff.mp hdone
  simp only [Prod.mk.injEq, decide_eq_true_eq] at hstate
  exact ⟨as, s, run_of_execute hs, hstate⟩

end Main

end Machine

end Xv6
