/-
# The process table

The fields of `struct proc` that scheduling, sleeping and waiting use, and the scans of
the process table in `proc.c`. Every scan runs with `proc_table_lock` held.
-/

import Mathlib

namespace Xv6

/-- Maximum number of processes. -/
def NPROC : Nat := 64

/-- Maximum number of CPUs. -/
def NCPU : Nat := 8

instance : NeZero NPROC := ⟨by decide⟩

instance : NeZero NCPU := ⟨by decide⟩

/-- A slot of the process table. -/
abbrev ProcId := Fin NPROC

/-- A CPU. -/
abbrev CpuId := Fin NCPU

/-- `enum proc_state`. -/
inductive ProcState where
  | UNUSED
  | EMBRYO
  | SLEEPING
  | RUNNABLE
  | RUNNING
  | ZOMBIE
  deriving DecidableEq, Repr

/-- The process can still run. -/
def ProcState.Alive (st : ProcState) : Prop := st = .SLEEPING ∨ st = .RUNNABLE ∨ st = .RUNNING

/-- The process can still run, or waits to be reaped. -/
def ProcState.Known (st : ProcState) : Prop := st.Alive ∨ st = .ZOMBIE

/-- The scheduler counts the process. -/
def ProcState.Live (st : ProcState) : Prop := st ≠ .UNUSED ∧ st ≠ .ZOMBIE

instance (st : ProcState) : Decidable st.Alive := inferInstanceAs (Decidable (_ ∨ _ ∨ _))

instance (st : ProcState) : Decidable st.Known := inferInstanceAs (Decidable (_ ∨ _))

instance (st : ProcState) : Decidable st.Live := inferInstanceAs (Decidable (_ ∧ _))

theorem ProcState.Alive.live {st : ProcState} (alive : st.Alive) : st.Live := by
  rcases alive with rfl | rfl | rfl <;> decide

/-- The address of the object that a process sleeps on. -/
inductive Chan where
  | proc (p : ProcId)
  | object (a : Nat)
  deriving DecidableEq, Repr

/-- `struct proc`; a null pointer is `none`. -/
structure Proc where
  mem : Nat
  state : ProcState
  pid : Int
  parent : Option ProcId
  chan : Option Chan
  killed : Bool
  tctcnt : Int
  condAddr : Int
  deriving DecidableEq, Repr

/-- A slot that was never used. -/
def Proc.zero : Proc := ⟨0, .UNUSED, 0, none, none, false, 0, 0⟩

/-- A sleeping process that is selected becomes runnable. -/
def Proc.wakeIf (selected : Proc → Bool) (p : Proc) : Proc :=
  if p.state = .SLEEPING ∧ selected p then { p with state := .RUNNABLE } else p

theorem Proc.wakeIf_state (selected : Proc → Bool) (p : Proc) :
    (p.wakeIf selected).state = p.state ∨
      p.state = .SLEEPING ∧ (p.wakeIf selected).state = .RUNNABLE := by
  rw [wakeIf]
  split
  next h => exact Or.inr ⟨h.1, rfl⟩
  next => exact Or.inl rfl

variable {α : Type}

/-- Waking changes nothing but the state. -/
theorem Proc.wakeIf_field (field : Proc → α)
    (other : ∀ (p : Proc) (st : ProcState), field { p with state := st } = field p)
    (selected : Proc → Bool) (p : Proc) : field (p.wakeIf selected) = field p := by
  rw [wakeIf]
  split
  · exact other p _
  · rfl

/-- The array `proc`. -/
abbrev ProcTable := ProcId → Proc

namespace ProcTable

variable (t : ProcTable)

/-- Change one slot. -/
def set (p : ProcId) (change : Proc → Proc) : ProcTable :=
  Function.update t p (change (t p))

@[simp] theorem set_self (p : ProcId) (change : Proc → Proc) : t.set p change p = change (t p) :=
  Function.update_self ..

variable {p init cp z : ProcId}

theorem set_of_ne {r : ProcId} (h : r ≠ p) (change : Proc → Proc) : t.set p change r = t r :=
  Function.update_of_ne h ..

/-- A store that keeps a field keeps it in the whole table. -/
theorem set_field (field : Proc → α) {change : Proc → Proc}
    (same : field (change (t p)) = field (t p)) (r : ProcId) :
    field (t.set p change r) = field (t r) := by
  by_cases h : r = p
  · rw [h, set_self, same]
  · rw [set_of_ne t h]

/-- `p->state = st`. -/
def setState (p : ProcId) (st : ProcState) : ProcTable :=
  t.set p fun r => { r with state := st }

/-- `wakeup1(chan)`. -/
def wakeup1 (chan : Option Chan) : ProcTable := fun p => (t p).wakeIf fun r => r.chan = chan

/-- The loop of `wake_on_cond(cond_addr)`, called by a process with the image `mem`. -/
def wakeOnCond (mem : Nat) (condAddr : Int) : ProcTable := fun p =>
  (t p).wakeIf fun r => r.mem = mem ∧ r.condAddr = condAddr

/-- The loop of `kill(pid)`, with its result. -/
def kill (pid : Int) : ProcTable × Int :=
  match (List.finRange NPROC).find? fun p => (t p).pid = pid with
  | some p => (t.set p fun r => { r.wakeIf fun _ => true with killed := true }, 0)
  | none => (t, -1)

/-- The slot that `allocproc` finds. -/
def unused : Option ProcId := (List.finRange NPROC).find? fun p => (t p).state = .UNUSED

theorem unused_eq_some {np : ProcId} (found : t.unused = some np) : (t np).state = .UNUSED := by
  simpa using List.find?_some found

/-- What `allocproc` stores in the slot it finds. -/
def embryo (np : ProcId) (pid : Int) : ProcTable :=
  t.set np fun r => { r with state := .EMBRYO, pid := pid, tctcnt := 100 }

/-- One round of the loop in `exit` that passes children to init. -/
def passChild (init cp : ProcId) (t : ProcTable) (p : ProcId) : ProcTable :=
  if (t p).parent = some cp then
    let t := t.set p fun r => { r with parent := some init }
    if (t p).state = .ZOMBIE then t.wakeup1 (some (.proc init)) else t
  else t

/-- The loop in `exit` that passes children to init. -/
def abandon (init cp : ProcId) : ProcTable := (List.finRange NPROC).foldl (passChild init cp) t

/-- What `exit` does for others: it wakes the parent and passes its children to init. -/
def handOver (init cp : ProcId) : ProcTable :=
  (t.wakeup1 ((t cp).parent.map .proc)).abandon init cp

/-- What `exit` does to the table with the lock held. -/
def exit (init cp : ProcId) : ProcTable :=
  (t.handOver init cp).set cp fun r => { r with killed := false, state := .ZOMBIE }

theorem exit_self (init cp : ProcId) :
    t.exit init cp cp = { t.handOver init cp cp with killed := false, state := .ZOMBIE } := by
  rw [exit, set_self]

theorem exit_of_ne (h : p ≠ cp) : t.exit init cp p = t.handOver init cp p := by
  rw [exit, set_of_ne _ h]

/-! ### Waking -/

/-- Processes that sleep may have become runnable; no other state has changed. -/
def Wakes (t t' : ProcTable) : Prop :=
  ∀ p, (t' p).state = (t p).state ∨ (t p).state = .SLEEPING ∧ (t' p).state = .RUNNABLE

variable {t}

theorem Wakes.of_same {t' : ProcTable} (same : ∀ p, (t' p).state = (t p).state) : t.Wakes t' :=
  fun p => Or.inl (same p)

theorem Wakes.trans {t₁ t₂ : ProcTable} (first : t.Wakes t₁) (second : t₁.Wakes t₂) :
    t.Wakes t₂ := by
  intro p
  rcases first p with h₁ | ⟨h₁, h₁'⟩
  · rcases second p with h₂ | ⟨h₂, h₂'⟩
    · exact Or.inl (h₂.trans h₁)
    · exact Or.inr ⟨h₁.symm.trans h₂, h₂'⟩
  · rcases second p with h₂ | ⟨h₂, -⟩
    · exact Or.inr ⟨h₁, h₂.trans h₁'⟩
    · rw [h₁'] at h₂
      cases h₂

theorem wakeup1_wakes (chan : Option Chan) : t.Wakes (t.wakeup1 chan) := fun p =>
  Proc.wakeIf_state _ (t p)

theorem wakeOnCond_wakes (mem : Nat) (condAddr : Int) : t.Wakes (t.wakeOnCond mem condAddr) :=
  fun p => Proc.wakeIf_state _ (t p)

theorem kill_wakes (pid : Int) : t.Wakes (t.kill pid).1 := by
  rw [kill]
  split
  next r _ =>
    intro p
    by_cases h : p = r
    · dsimp only
      rw [h, set_self]
      exact Proc.wakeIf_state _ (t r)
    · dsimp only
      rw [set_of_ne t h]
      exact Or.inl rfl
  next => exact Wakes.of_same fun _ => rfl

theorem passChild_wakes (init cp p : ProcId) : t.Wakes (passChild init cp t p) := by
  rw [passChild]
  split
  next =>
    have hset : t.Wakes (t.set p fun r => { r with parent := some init }) :=
      Wakes.of_same (t.set_field Proc.state rfl)
    dsimp only
    split
    · exact hset.trans (wakeup1_wakes _)
    · exact hset
  next => exact Wakes.of_same fun _ => rfl

theorem abandon_wakes (init cp : ProcId) : t.Wakes (t.abandon init cp) := by
  rw [abandon]
  generalize List.finRange NPROC = ps
  induction ps generalizing t with
  | nil => exact Wakes.of_same fun _ => rfl
  | cons p ps ih => exact (passChild_wakes init cp p).trans ih

/-! ### Passing children to init -/

/-- What holds of a table before the loop and is kept by every round holds after it. -/
theorem abandon_induction {motive : ProcTable → Prop} (start : motive t)
    (round : ∀ t p, motive t → motive (passChild init cp t p)) : motive (t.abandon init cp) := by
  rw [abandon]
  generalize List.finRange NPROC = ps
  induction ps generalizing t with
  | nil => exact start
  | cons p ps ih => exact ih (round t p start)

/-- `exit` changes nothing of other processes but the state and the parent. -/
theorem passChild_field (field : Proc → α)
    (state : ∀ (r : Proc) (st : ProcState), field { r with state := st } = field r)
    (parent : ∀ (r : Proc) (q : Option ProcId), field { r with parent := q } = field r)
    (init cp p r : ProcId) : field (passChild init cp t p r) = field (t r) := by
  have hset : field (t.set p (fun r => { r with parent := some init }) r) = field (t r) :=
    t.set_field field (parent _ _) r
  rw [passChild]
  split
  next =>
    dsimp only
    split
    · rw [wakeup1, Proc.wakeIf_field field state]
      exact hset
    · exact hset
  next => rfl

theorem passChild_parent (init cp p r : ProcId) :
    (passChild init cp t p r).parent =
      if r = p ∧ (t r).parent = some cp then some init else (t r).parent := by
  rw [passChild]
  split
  next hp =>
    have hset : (t.set p (fun r => { r with parent := some init }) r).parent =
        if r = p ∧ (t r).parent = some cp then some init else (t r).parent := by
      by_cases h : r = p
      · subst h
        rw [set_self, if_pos ⟨rfl, hp⟩]
      · rw [set_of_ne _ h, if_neg fun h' => h h'.1]
    dsimp only
    split
    · rw [wakeup1, Proc.wakeIf_field Proc.parent fun _ _ => rfl]
      exact hset
    · exact hset
  next hp =>
    rw [if_neg]
    rintro ⟨rfl, h⟩
    exact hp h

theorem abandon_field (field : Proc → α)
    (state : ∀ (r : Proc) (st : ProcState), field { r with state := st } = field r)
    (parent : ∀ (r : Proc) (q : Option ProcId), field { r with parent := q } = field r)
    (init cp r : ProcId) : field (t.abandon init cp r) = field (t r) :=
  abandon_induction (motive := fun t' => field (t' r) = field (t r)) rfl
    fun _ p h => (passChild_field field state parent init cp p r).trans h

theorem abandon_chan (init cp r : ProcId) : (t.abandon init cp r).chan = (t r).chan :=
  abandon_field Proc.chan (fun _ _ => rfl) (fun _ _ => rfl) init cp r

/-- Every child of the process that exits is passed to init, and no other process. -/
theorem abandon_parent (init cp r : ProcId) :
    (t.abandon init cp r).parent =
      if (t r).parent = some cp then some init else (t r).parent := by
  have hfold : ∀ ps : List ProcId, ∀ t : ProcTable, (ps.foldl (passChild init cp) t r).parent =
      if r ∈ ps ∧ (t r).parent = some cp then some init else (t r).parent := by
    intro ps
    induction ps with
    | nil => simp
    | cons p ps ih =>
      intro t
      rw [List.foldl_cons, ih, passChild_parent]
      by_cases hp : r = p
      · by_cases hcp : (t r).parent = some cp
        · simp [hp, hp ▸ hcp]
        · simp [hcp]
      · simp [hp]
  rw [abandon, hfold]
  simp [List.mem_finRange]

/-- A process asleep on `chan`. -/
def AsleepOn (t : ProcTable) (p : ProcId) (chan : Chan) : Prop :=
  (t p).state = .SLEEPING ∧ (t p).chan = some chan

theorem wakeup1_not_asleep (p : ProcId) (chan : Chan) :
    ¬ (t.wakeup1 (some chan)).AsleepOn p chan := by
  rintro ⟨hstate, hchan⟩
  rw [wakeup1, Proc.wakeIf] at hstate hchan
  split at hstate
  next => cases hstate
  next h =>
    rw [if_neg h] at hchan
    exact h ⟨hstate, by simpa using hchan⟩

/-- Nobody falls asleep where processes are only woken. -/
theorem Wakes.asleep {t' : ProcTable} (wakes : t.Wakes t') {chan : Chan}
    (same : (t' p).chan = (t p).chan) (asleep : t'.AsleepOn p chan) : t.AsleepOn p chan := by
  obtain ⟨hstate, hchan⟩ := asleep
  refine ⟨?_, same ▸ hchan⟩
  rcases wakes p with h | ⟨h, -⟩
  · rw [← h, hstate]
  · exact h

/-- When a zombie is passed to init, init does not stay asleep in `wait`. -/
theorem abandon_wakes_init (zombie : (t z).state = .ZOMBIE)
    (child : (t z).parent = some cp) : ¬ (t.abandon init cp).AsleepOn init (.proc init) := by
  have hfold : ∀ ps : List ProcId, ∀ t : ProcTable, z ∈ ps → (t z).state = .ZOMBIE →
      (t z).parent = some cp →
      ¬ ProcTable.AsleepOn (ps.foldl (passChild init cp) t) init (.proc init) := by
    intro ps
    induction ps with
    | nil => exact fun _ h => absurd h List.not_mem_nil
    | cons p ps ih =>
      intro t hz hstate hparent
      rw [List.foldl_cons]
      by_cases hp : z = p
      · -- this round wakes init, and nobody falls asleep later
        subst hp
        intro hasleep
        have hround : passChild init cp t z =
            (t.set z fun r => { r with parent := some init }).wakeup1 (some (.proc init)) := by
          rw [passChild, if_pos hparent]
          dsimp only
          rw [if_pos]
          rw [set_self]
          exact hstate
        have hrest : ∀ ps : List ProcId, ∀ t : ProcTable,
            ProcTable.AsleepOn (ps.foldl (passChild init cp) t) init (.proc init) →
            t.AsleepOn init (.proc init) := by
          intro ps
          induction ps with
          | nil => exact fun _ h => h
          | cons p ps ih =>
            exact fun t h =>
              (passChild_wakes init cp p).asleep
                (passChild_field Proc.chan (fun _ _ => rfl) (fun _ _ => rfl) init cp p init)
                  (ih _ h)
        have hround' := hrest ps _ hasleep
        rw [hround] at hround'
        exact wakeup1_not_asleep _ _ hround'
      · refine ih _ ((List.mem_cons.mp hz).resolve_left hp) ?_ ?_
        · rcases passChild_wakes (t := t) init cp p z with h | ⟨h, -⟩
          · rw [h, hstate]
          · rw [hstate] at h
            cases h
        · rw [passChild_parent, if_neg fun h => hp h.1, hparent]
  exact hfold _ t (List.mem_finRange z) zombie child

/-! ### Exit -/

theorem handOver_parent (init cp r : ProcId) :
    (t.handOver init cp r).parent =
      if (t r).parent = some cp then some init else (t r).parent := by
  rw [handOver, abandon_parent, wakeup1, Proc.wakeIf_field Proc.parent fun _ _ => rfl]

theorem handOver_field (field : Proc → α)
    (state : ∀ (r : Proc) (st : ProcState), field { r with state := st } = field r)
    (parent : ∀ (r : Proc) (q : Option ProcId), field { r with parent := q } = field r)
    (init cp r : ProcId) : field (t.handOver init cp r) = field (t r) := by
  rw [handOver, abandon_field field state parent, wakeup1, Proc.wakeIf_field field state]

theorem handOver_chan (init cp r : ProcId) : (t.handOver init cp r).chan = (t r).chan :=
  handOver_field Proc.chan (fun _ _ => rfl) (fun _ _ => rfl) init cp r

/-- The parent of a process that exits does not stay asleep in `wait`. -/
theorem handOver_wakes_parent {parent : ProcId} (child : (t cp).parent = some parent) :
    ¬ (t.handOver init cp).AsleepOn parent (.proc parent) := by
  intro hasleep
  rw [handOver, child] at hasleep
  exact wakeup1_not_asleep _ _ ((abandon_wakes init cp).asleep (abandon_chan ..) hasleep)

theorem handOver_wakes_init (zombie : (t z).state = .ZOMBIE)
    (child : (t z).parent = some cp) : ¬ (t.handOver init cp).AsleepOn init (.proc init) := by
  rw [handOver]
  refine abandon_wakes_init (z := z) ?_ ?_
  · rcases wakeup1_wakes ((t cp).parent.map .proc) z with h | ⟨h, -⟩
    · rw [h, zombie]
    · rw [zombie] at h
      cases h
  · rw [wakeup1, Proc.wakeIf_field Proc.parent fun _ _ => rfl, child]

theorem handOver_wakes (t : ProcTable) (init cp : ProcId) : t.Wakes (t.handOver init cp) :=
  (wakeup1_wakes _).trans (abandon_wakes init cp)

theorem exit_parent (init cp r : ProcId) :
    (t.exit init cp r).parent = if (t r).parent = some cp then some init else (t r).parent := by
  rw [← handOver_parent]
  by_cases h : r = cp
  · rw [h, exit_self]
  · rw [exit_of_ne _ h]

/-- When a process exits, nobody stays asleep in `wait` with a zombie among its children. -/
theorem exit_asleep {parent : ProcId} (child : (t cp).parent = some parent) (other : parent ≠ cp)
    (before : t.AsleepOn p (.proc p) → (t z).state = .ZOMBIE → (t z).parent ≠ some p)
    (asleep : (t.exit init cp).AsleepOn p (.proc p)) (zombie : (t.exit init cp z).state = .ZOMBIE) :
    (t.exit init cp z).parent ≠ some p := by
  have hp : p ≠ cp := by
    rintro rfl
    have h := asleep.1
    rw [exit_self] at h
    cases h
  have hover : (t.handOver init cp).AsleepOn p (.proc p) := by
    rw [AsleepOn, exit_of_ne _ hp] at asleep
    exact asleep
  have hasleep := (handOver_wakes t init cp).asleep (handOver_chan init cp p) hover
  intro hparent
  rw [exit_parent] at hparent
  by_cases hz : z = cp
  · subst hz
    rw [child, if_neg (fun h => other (Option.some.inj h))] at hparent
    obtain rfl := Option.some.inj hparent
    exact handOver_wakes_parent child hover
  · rw [exit_of_ne _ hz] at zombie
    have hzombie : (t z).state = .ZOMBIE := by
      rcases handOver_wakes t init cp z with h | ⟨-, h⟩
      · rw [← h, zombie]
      · rw [zombie] at h
        cases h
    split at hparent
    next hchild =>
      obtain rfl := Option.some.inj hparent
      exact handOver_wakes_init hzombie hchild hover
    next => exact before hasleep hzombie hparent

variable (t)

/-- The zombie that the scan in `wait` finds. -/
def zombieChild (cp : ProcId) : Option ProcId :=
  (List.finRange NPROC).find? fun p => (t p).parent = some cp ∧ (t p).state = .ZOMBIE

theorem zombieChild_eq_some (found : t.zombieChild cp = some p) :
    (t p).parent = some cp ∧ (t p).state = .ZOMBIE := by
  simpa using List.find?_some found

theorem zombieChild_eq_none (found : t.zombieChild cp = none)
    (child : (t p).parent = some cp) : (t p).state ≠ .ZOMBIE := by
  have h := List.find?_eq_none.mp found p (List.mem_finRange p)
  intro zombie
  exact h (by simp [child, zombie])

/-- `havekids` after the scan in `wait`. -/
def haveKids (cp : ProcId) : Bool :=
  (List.finRange NPROC).any fun p => (t p).state ≠ .UNUSED ∧ (t p).parent = some cp

/-- `wait` frees the slot of a zombie. -/
def reap (p : ProcId) : ProcTable :=
  t.set p fun r => { r with state := .UNUSED, pid := 0, parent := none }

/-- The loop of `lottery_scheduler` from `curtct` on: the process it switches to. The
counters are `unsigned int`. -/
def pick (random : Nat) : List ProcId → Nat → Option ProcId
  | [], _ => none
  | p :: ps, curtct =>
    if (t p).state = .UNUSED ∨ (t p).state = .ZOMBIE then pick random ps curtct
    else
      let nxttct := ((curtct + (t p).tctcnt) % 2 ^ 32).toNat
      if curtct ≤ random ∧ random < nxttct then
        if (t p).state = .RUNNABLE then some p else none
      else pick random ps nxttct

end ProcTable

end Xv6
