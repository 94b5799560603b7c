/-
# Tickets

`ttltcts` is the number of tickets of all processes, kept up to date step by step: `allocproc`
adds the tickets of a new process, `exit` takes them off, and `sys_proc_tickets` exchanges
them. Between a store to `ttltcts` and the store to the table that belongs to it, a process is
outside of the total. A `fork` that gives its slot up leaves its tickets in the total for ever.
-/

import Xv6.Proc.States

namespace Xv6

open Math

/-- The tickets of the process that runs this code are not in the total. -/
def Frame.outside : Frame → Bool
  | .exit (.check _) | .exit .files | .exit (.busy _ _) | .exit .lock | .exit .pass => true
  | .procTickets .set _ | .procTickets .reload _ | .procTickets (.add _) _ => true
  | _ => false

/-- The code is about to take the tickets of its process off the total, or to add them. -/
def Frame.crosses : Frame → Bool
  | .exit (.sub _ _) => true
  | .procTickets (.sub _) _ | .procTickets (.add _) _ => true
  | _ => false

/-- The new slot whose tickets this code has not added yet. -/
def Frame.uncounted : Frame → Option ProcId
  | .fork _ (.load np) => some np
  | .fork _ (.count np _) => some np
  | _ => none

/-- The total that this code has read and is about to replace. -/
def Frame.loaded : Frame → Option Int
  | .exit (.sub _ total) => some total
  | .fork _ (.count _ total) => some total
  | .procTickets (.sub total) _ => some total
  | .procTickets (.add total) _ => some total
  | _ => none

/-- The code of `fork` is about to give its slot up. -/
def Frame.gives : Frame → Bool
  | .fork _ (.giveUp _) | .fork _ (.drop _) => true
  | _ => false

variable {f : Frame}

theorem Frame.crosses_of_loaded (plain : f.loaded = none) : f.crosses = false := by
  unfold Frame.crosses
  split <;> first | rfl | cases plain

namespace Machine

section Definitions

variable (s : Machine)

/-- The process is between a store to `ttltcts` and the store that belongs to it. -/
def Outside (p : ProcId) : Prop :=
  (s.proc p).state.Alive ∧ (s.thread p).call.any Frame.outside = true

instance (p : ProcId) : Decidable (s.Outside p) := inferInstanceAs (Decidable (_ ∧ _))

/-- A `fork` has not added the tickets of the slot yet. -/
def Uncounted (p : ProcId) : Prop := ∃ q, (s.thread q).call.bind Frame.uncounted = some p

instance (p : ProcId) : Decidable (s.Uncounted p) := inferInstanceAs (Decidable (∃ _, _ = _))

/-- The sum of `tctcnt` over all processes that are neither `UNUSED` nor `ZOMBIE`. -/
def tickets : Int :=
  ((List.finRange NPROC).map fun p =>
    if (s.proc p).state.Live then (s.proc p).tctcnt else 0).sum

/-- What a process has in the total. -/
def share (p : ProcId) : Int :=
  if (s.proc p).state.Live ∧ ¬ s.Outside p ∧ ¬ s.Uncounted p then (s.proc p).tctcnt else 0

/-- The conditions under which the total stays right: no `fork` gives its slot up, nobody has
stored to `ttltcts` between a load and the store that belongs to it, and a scheduler draws when
no process is outside of the total and the sum fits in an `int`. -/
structure Accounts (x : Act) : Prop where
  keeps : ∀ c ans q b np, x = .step c ans →
    ¬ (s.InCall c q (.fork b (.giveUp np)) ∨ s.InCall c q (.fork b (.drop np)))
  current : ∀ c ans q f total, x = .step c ans → s.InCall c q f → f.loaded = some total →
    total = s.ttltcts
  settled : ∀ c ans, x = .step c ans → (s.cpus c).place = .idle →
    (∀ p, ¬ s.Outside p) ∧ -2 ^ 31 ≤ s.tickets ∧ s.tickets < 2 ^ 31

/-- What holds about the slots that a `fork` fills, between any two segments. -/
structure Forking : Prop where
  paired : ∀ p, (s.thread p).Paired
  forkers : ∀ q b pc, (s.thread q).call = some (.fork b pc) → (s.proc q).state.Alive
  new : ∀ np, s.Uncounted np → (s.proc np).tctcnt = 100

/-- What holds about the total between any two segments. -/
structure Balance : Prop extends s.Forking where
  total : s.ttltcts = (∑ p, s.share p).bmod (2 ^ 32)

end Definitions

variable {c : CpuId} {ans : Nat} {b : Bool}

section Shares

variable {s t : Machine} {x : Act} {p q : ProcId}

theorem frameThread_outside (here : s.InCall c p f)
    (stays : f.crosses = false) (lives : f ≠ .exit .pass) :
    (s.frameThread p ans f).call.any Frame.outside = f.outside := by
  cases f with
  | exit pc =>
    rw [frameThread]
    cases pc with
    | check b => cases b <;> rfl
    | busy chan lk =>
      rw [exitThread]
      split
      · rfl
      · exact congrArg (Option.any Frame.outside) here.call
    | dead => exact congrArg (Option.any Frame.outside) here.call
    | sub _ _ => cases stays
    | pass => exact absurd rfl lives
    | start | load _ | files | lock => rfl
  | procTickets pc n =>
    rw [frameThread]
    cases pc with
    | start =>
      rw [ticketsThread]
      split <;> rfl
    | sub _ | add _ => cases stays
    | load | set | reload | unlock => rfl
  | waiter pc a chan lk take =>
    cases pc with
    | start => rfl
    | test =>
      rw [frameThread]
      split
      · rfl
      · exact congrArg (Option.any Frame.outside) here.call
  | waker pc a chan lk early => cases pc <;> rfl
  | wait pc =>
    cases pc with
    | start => rfl
    | scan =>
      rw [frameThread]
      split
      · rfl
      · split
        · rfl
        · exact congrArg (Option.any Frame.outside) here.call
  | fork b pc =>
    rw [frameThread]
    cases pc with
    | start =>
      rw [forkThread]
      split <;> rfl
    | load _ | count _ _ | kstack _ | giveUp _ | parent _ | image _ | drop _ | clear _
    | context _ | ready _ => rfl
  | condWaiter pc pred cond mutex take =>
    cases pc with
    | test =>
      rw [frameThread]
      split <;> rfl
    | start | relock => rfl
  | signaller pc pred cond mutex => cases pc <;> rfl
  | forkret | kill _ | wakeOnCond _ | sleepOnCond => rfl

/-- Whether a process is outside of the total changes in a few places only. -/
theorem Step.outside_iff (inv : s.Inv) (step : Step x s t) (alive : (s.proc p).state.Alive)
    (alive' : (t.proc p).state.Alive)
    (stays : ∀ c ans f, x = .step c ans → s.InCall c p f → f.crosses = false) :
    t.Outside p ↔ s.Outside p := by
  have hiff : (t.thread p).call.any Frame.outside = (s.thread p).call.any Frame.outside →
      (t.Outside p ↔ s.Outside p) := fun h =>
    ⟨fun ⟨_, h'⟩ => ⟨alive, h.symm.trans h'⟩, fun ⟨_, h'⟩ => ⟨alive', h.trans h'⟩⟩
  refine hiff ?_
  cases step.goes inv p with
  | same thread => rw [thread]
  | make c k act here user thread =>
    rw [thread, user.1]
    cases k <;> rfl
  | timer c act here enabled thread => rw [thread]; rfl
  | yield c ans pc act here place thread => rw [thread]; rfl
  | inner c ans i act here thread => rw [thread, innerThread_call]
  | frame c ans f act here run thread =>
    rw [thread, frameThread_outside here (stays c ans f act here), here.call]
    · rfl
    · rintro rfl
      subst act
      have hproc : t.proc = s.proc.exit s.initproc p :=
        congrArg Shared.proc (runFrame_effect (by simp) run).shared
      rw [hproc, ProcTable.exit_self] at alive'
      rcases alive' with h | h | h <;> cases h
  | block c n l act here thread =>
    rw [thread, here.call]
    rfl
  | fresh q b other place fresh =>
    have h := inv.embryo q p (by rw [Thread.embryo, place]; rfl)
    rw [h] at alive
    exact absurd alive (by decide)

theorem fork_of_uncounted {th : Thread} (uncounted : th.call.bind Frame.uncounted = some p) :
    ∃ b, th.call = some (.fork b (.load p)) ∨
      ∃ total, th.call = some (.fork b (.count p total)) := by
  obtain ⟨f, hf, hp⟩ := Option.bind_eq_some_iff.mp uncounted
  unfold Frame.uncounted at hp
  split at hp
  next b np =>
    cases hp
    exact ⟨b, Or.inl hf⟩
  next b np total =>
    cases hp
    exact ⟨b, Or.inr ⟨total, hf⟩⟩
  next => cases hp

theorem embryo_of_fork {th : Thread}
    (fork : th.call = some (.fork b (.load p)) ∨
      ∃ total, th.call = some (.fork b (.count p total))) : th.embryo = some p := by
  rcases fork with h | ⟨total, h⟩ <;> rw [Thread.embryo, h] <;> rfl

/-- A slot whose tickets are not counted yet was so before, or is new. -/
theorem Step.uncounted_origin (inv : s.Inv) (step : Step x s t) (uncounted : t.Uncounted p) :
    s.Uncounted p ∨ ∃ c ans q b, x = .step c ans ∧ s.InCall c q (.fork b .start) ∧
      s.proc.unused = some p := by
  obtain ⟨q, hq⟩ := uncounted
  obtain ⟨f, hf, hp⟩ := Option.bind_eq_some_iff.mp hq
  cases step.call_origin inv hf with
  | same place => exact Or.inl ⟨q, by rw [place]; exact hp⟩
  | make c k act here begin =>
    subst begin
    cases k <;> cases hp
  | frame c ans g act here run thread same =>
    obtain ⟨b, hfork⟩ := fork_of_uncounted hq
    rw [thread] at hf
    cases g with
    | fork b' pc =>
      rw [frameThread] at hf
      cases pc with
      | start =>
        rw [forkThread] at hf
        split at hf
        next => cases hf
        next np hnp =>
          cases hf
          cases hp
          exact Or.inr ⟨c, ans, q, b', act, here, hnp⟩
      | load np =>
        cases hf
        cases hp
        exact Or.inl ⟨q, by rw [here.call]; rfl⟩
      | kstack _ | image _ =>
        rw [forkThread] at hf
        split at hf <;> cases hf <;> cases hp
      | count _ _ | parent _ | drop _ | context _ =>
        cases hf
        cases hp
      | giveUp _ | clear _ | ready _ => cases hf
    | _ =>
      rcases hfork with h | ⟨total, h⟩ <;>
      · rw [thread] at h
        cases frameThread_call here.call h
  | block c chan lk here busy =>
    subst busy
    cases hp
  | fresh q b place fresh =>
    subst fresh
    cases hp

/-- The tickets of a new slot stay uncounted until `fork` adds them. -/
theorem Step.uncounted_stays (inv : s.Inv) (step : Step x s t)
    (forkers : ∀ q b pc, (s.thread q).call = some (.fork b pc) → (s.proc q).state.Alive)
    (stays : ∀ c ans q b total, x = .step c ans → ¬ s.InCall c q (.fork b (.count p total)))
    (uncounted : s.Uncounted p) : t.Uncounted p := by
  obtain ⟨q, hq⟩ := uncounted
  have hsame : (t.thread q).call = (s.thread q).call → t.Uncounted p := fun h =>
    ⟨q, by rw [h, hq]⟩
  obtain ⟨b, hfork⟩ := fork_of_uncounted hq
  cases step.goes inv q with
  | same thread => exact hsame (by rw [thread])
  | make c k act here user thread =>
    rw [user.1] at hq
    cases hq
  | timer c act here enabled thread | yield c ans pc act here place thread =>
    exact hsame (by rw [thread]; rfl)
  | inner c ans i act here thread => exact hsame (by rw [thread, innerThread_call])
  | frame c ans f act here run thread =>
    rcases hfork with h | ⟨total, h⟩
    · cases here.call.symm.trans h
      exact ⟨q, by rw [thread]; rfl⟩
    · cases here.call.symm.trans h
      exact absurd here (stays c ans q b total act)
  | block c n l act here thread =>
    rcases hfork with h | ⟨total, h⟩ <;> cases here.call.symm.trans h
  | fresh q' b' other place fresh =>
    have hembryo := inv.embryo q' q (by rw [Thread.embryo, place]; rfl)
    have halive : (s.proc q).state.Alive := by
      rcases hfork with h | ⟨total, h⟩ <;> exact forkers q _ _ h
    rw [hembryo] at halive
    exact absurd halive (by decide)

/-- `tctcnt` changes when a slot is taken, and in `sys_proc_tickets`. -/
theorem RowMove.tctcnt {table : ProcTable} (row : RowMove s x table p) :
    (table p).tctcnt = (s.proc p).tctcnt ∨ (s.proc p).state = .UNUSED ∨
      ∃ c n, s.InCall c p (.procTickets .set n) ∧ (table p).tctcnt = n := by
  rcases row.field Proc.tctcnt (fun _ _ => rfl) (fun _ _ => rfl) (fun _ _ => rfl) (fun _ _ => rfl)
    with h | stores
  · exact Or.inl h
  · cases stores with
    | allocated before row => exact Or.inr (Or.inl before)
    | tickets c n here row => exact Or.inr (Or.inr ⟨c, n, here, by rw [row]⟩)
    | dozes _ _ _ _ _ _ row | resumes row | condSleeps _ _ _ _ _ _ row
    | image _ _ _ _ _ row => exact Or.inl (by rw [row])

theorem share_of_not_live (gone : ¬ (s.proc p).state.Live) : s.share p = 0 :=
  if_neg fun h => gone h.1

theorem share_of_outside (out : s.Outside p) : s.share p = 0 := if_neg fun h => h.2.1 out

theorem share_of_uncounted (new : s.Uncounted p) : s.share p = 0 := if_neg fun h => h.2.2 new

/-- `allocproc` takes a slot whose tickets are not counted yet. -/
theorem Step.new_slot (inv : s.Inv) (step : Step x s t)
    (start : ∃ c ans q b, x = .step c ans ∧ s.InCall c q (.fork b .start) ∧
      s.proc.unused = some p) : (s.proc p).state = .UNUSED ∧ t.Uncounted p := by
  obtain ⟨c, ans, q, b, rfl, here, hp⟩ := start
  refine ⟨s.proc.unused_eq_some hp, q, ?_⟩
  rw [runFrame_thread inv here (step.runFrame inv here), frameThread, forkThread, hp]
  rfl

/-- The share of a process stays the same, unless it crosses into or out of the total, or a `fork`
gives the slot up. -/
theorem Forking.share_same (forks : s.Forking) (inv : s.Inv) (step : Step x s t)
    (keeps : ¬ s.GivesUp x p)
    (stays : ∀ c ans f, x = .step c ans → s.InCall c p f → f.crosses = false)
    (stays' : ∀ c ans q b total, x = .step c ans → ¬ s.InCall c q (.fork b (.count p total))) :
    t.share p = s.share p := by
  by_cases hnew : ∃ c ans q b, x = .step c ans ∧ s.InCall c q (.fork b .start) ∧
      s.proc.unused = some p
  · obtain ⟨hunused, huncounted⟩ := step.new_slot inv hnew
    rw [share_of_uncounted huncounted, share_of_not_live]
    rw [hunused]
    decide
  have huncounted : t.Uncounted p ↔ s.Uncounted p :=
    ⟨fun h => (step.uncounted_origin inv h).resolve_right hnew,
      step.uncounted_stays inv forks.forkers stays'⟩
  -- the process is live before and after, or neither
  have hlive : ((t.proc p).state.Live ↔ (s.proc p).state.Live) → (t.Outside p ↔ s.Outside p) →
      t.share p = s.share p := by
    intro live out
    rcases (step.row inv p).tctcnt with h | h | ⟨c, n, here, -⟩
    · simp only [share, live, out, huncounted, h]
    · have hdead : ¬ (s.proc p).state.Live := by
        rw [h]
        decide
      rw [share_of_not_live hdead, share_of_not_live (mt live.mp hdead)]
    · have hout : s.Outside p := ⟨by rw [inv.state_running here.here]; decide,
        by rw [here.call]; rfl⟩
      rw [share_of_outside hout, share_of_outside (out.mpr hout)]
  -- the process is alive before and after
  have halive : (s.proc p).state.Alive → (t.proc p).state.Alive → t.share p = s.share p := by
    intro alive alive'
    exact hlive (iff_of_true alive'.live alive.live) (step.outside_iff inv alive alive' stays)
  cases step.state inv p with
  | same state =>
    by_cases alive : (s.proc p).state.Alive
    · exact halive alive (by rwa [state])
    · refine hlive (by rw [state]) (iff_of_false (fun h => alive ?_) fun h => alive h.1)
      rw [← state]
      exact h.1
  | wakes before after | dispatched before after | yields before after
  | dozes _ _ _ _ _ _ before after _ | condSleeps _ _ _ _ _ _ before after _ =>
    exact halive (by rw [before]; decide) (by rw [after]; decide)
  | exits c ans act here before after =>
    have hout : s.Outside p := ⟨by rw [before]; decide, by rw [here.call]; rfl⟩
    rw [share_of_outside hout, share_of_not_live (by rw [after]; decide)]
  | reaped before after =>
    rw [share_of_not_live (by rw [after]; decide), share_of_not_live (by rw [before]; decide)]
  | allocated start before after => exact absurd start hnew
  | dropped fails before after => exact absurd fails keeps
  | readied c q b here before after =>
    refine hlive (by rw [before, after]; decide) (iff_of_false (fun h => ?_) fun h => ?_)
    · rcases step.alive_origin inv h.1 with ⟨halive, -⟩ | hfresh
      · rw [before] at halive
        exact absurd halive (by decide)
      · have hout := h.2
        rw [hfresh] at hout
        cases hout
    · have halive := h.1
      rw [before] at halive
      exact absurd halive (by decide)

theorem frameShared_ttltcts (plain : f.loaded = none) :
    (s.frameShared q ans f).ttltcts = s.ttltcts := by
  cases f with
  | waiter pc a chan lk take =>
    cases pc with
    | start => rfl
    | test =>
      cases take with
      | false => rfl
      | true =>
        rw [frameShared]
        split <;> rfl
  | wait pc =>
    cases pc with
    | start => rfl
    | scan =>
      rw [frameShared]
      split <;> rfl
  | exit pc =>
    cases pc with
    | sub _ _ => cases plain
    | start | load _ | check _ | files | busy _ _ | lock | pass | dead => rfl
  | fork b pc =>
    rw [frameShared]
    cases pc with
    | start =>
      rw [forkShared]
      split <;> rfl
    | image np =>
      rw [forkShared]
      split
      · rfl
      · split <;> rfl
    | count _ _ => cases plain
    | load _ | kstack _ | giveUp _ | parent _ | drop _ | clear _ | context _ | ready _ => rfl
  | procTickets pc n =>
    cases pc with
    | sub _ | add _ => cases plain
    | start | load | set | reload | unlock => rfl
  | condWaiter pc pred cond mutex take =>
    cases pc with
    | test =>
      rw [frameShared]
      split <;> rfl
    | start | relock => rfl
  | waker pc _ _ _ _ => cases pc <;> rfl
  | signaller pc _ _ _ => cases pc <;> rfl
  | forkret | kill _ | wakeOnCond _ | sleepOnCond => rfl

/-- Where `ttltcts` is stored to. -/
theorem Step.total_cases (inv : s.Inv) (step : Step x s t) :
    t.ttltcts = s.ttltcts ∧ (∀ c ans q f, x = .step c ans → s.InCall c q f → f.loaded = none) ∨
      ∃ c ans q f, x = .step c ans ∧ s.InCall c q f ∧ f.loaded ≠ none := by
  by_cases hf : ∃ c ans q f, x = .step c ans ∧ s.InCall c q f ∧ f.loaded ≠ none
  · exact Or.inr hf
  have hnone : ∀ c ans q f, x = .step c ans → s.InCall c q f → f.loaded = none :=
    fun c ans q f act here => by_contra fun h => hf ⟨c, ans, q, f, act, here, h⟩
  refine Or.inl ⟨?_, hnone⟩
  cases step.shared_move inv with
  | table ttltcts _ _ => exact ttltcts
  | inner c ans q i act here shared =>
    have h : t.ttltcts = (s.innerShared q i).ttltcts := congrArg Shared.ttltcts shared
    rw [h]
    unfold innerShared sleepShared
    (repeat' split) <;> rfl
  | frame c ans q f act here shared =>
    have h : t.ttltcts = (s.frameShared q ans f).ttltcts := congrArg Shared.ttltcts shared
    rw [h, frameShared_ttltcts (hnone c ans q f act here)]

end Shares

section Sums

variable {s t : Machine} {x : Act} {p q : ProcId}

/-- When only one share changes, the sum changes by as much. -/
theorem sum_share_change (q : ProcId) (same : ∀ p, p ≠ q → t.share p = s.share p) :
    ∑ p, t.share p = ∑ p, s.share p + (t.share q - s.share q) := by
  have hs := Finset.add_sum_erase Finset.univ s.share (Finset.mem_univ q)
  have ht := Finset.add_sum_erase Finset.univ t.share (Finset.mem_univ q)
  have hrest : ∑ p ∈ Finset.univ.erase q, t.share p = ∑ p ∈ Finset.univ.erase q, s.share p :=
    Finset.sum_congr rfl fun p hp => same p (Finset.ne_of_mem_erase hp)
  rw [← hs, ← ht, hrest]
  ring

/-- A step moves the total and the share of one process by the same number of tickets. -/
structure Moves (s t : Machine) (q : ProcId) (d : Int) : Prop where
  others : ∀ p, p ≠ q → t.share p = s.share p
  share : t.share q = s.share q + d
  total : t.ttltcts = (s.ttltcts + d).bmod (2 ^ 32)

variable {d : Int}

theorem Moves.sum (moves : Moves s t q d) : ∑ p, t.share p = ∑ p, s.share p + d := by
  rw [sum_share_change q moves.others, moves.share, add_sub_cancel_left]

/-- What a step does to the total, if it replaces the total that it has read. -/
inductive TotalMove (s : Machine) (x : Act) (t : Machine) : Prop
  | same (total : t.ttltcts = s.ttltcts) (shares : ∀ p, t.share p = s.share p)
  /-- The tickets of the slot stay in the total. -/
  | gives (np : ProcId) (fails : s.GivesUp x np) (total : t.ttltcts = s.ttltcts)
      (others : ∀ p, p ≠ np → t.share p = s.share p) (gone : t.share np = 0)
  | takesOff (q : ProcId) (inside : s.share q = (s.proc q).tctcnt)
      (moves : Moves s t q (-(s.proc q).tctcnt))
  | putsBack (c : CpuId) (ans : Nat) (q : ProcId) (n : Int) (act : x = .step c ans)
      (here : s.InCall c q (.procTickets (.add s.ttltcts) n))
      (moves : Moves s t q (s.proc q).tctcnt)
  | counts (c : CpuId) (ans : Nat) (q : ProcId) (b : Bool) (np : ProcId) (act : x = .step c ans)
      (here : s.InCall c q (.fork b (.count np s.ttltcts))) (moves : Moves s t np 100)

theorem InCall.unique {g : Frame} (here : s.InCall c q f) (there : s.InCall c p g) :
    p = q ∧ g = f := by
  obtain rfl := CpuPlace.process.inj (there.here.symm.trans here.here)
  exact ⟨rfl, Option.some.inj (there.call.symm.trans here.call)⟩

/-- The share of a process that is not outside of the total. -/
theorem Inv.share_alive (inv : s.Inv) (alive : (s.proc q).state.Alive) (inside : ¬ s.Outside q) :
    s.share q = (s.proc q).tctcnt := by
  refine if_pos ⟨alive.live, inside, ?_⟩
  rintro ⟨q', hq'⟩
  obtain ⟨b, hfork⟩ := fork_of_uncounted hq'
  rw [inv.embryo q' q (embryo_of_fork hfork)] at alive
  exact absurd alive (by decide)

theorem Inv.share_running (inv : s.Inv) (running : (s.proc q).state = .RUNNING)
    (inside : (s.thread q).call.any Frame.outside = false) : s.share q = (s.proc q).tctcnt := by
  refine inv.share_alive (by rw [running]; decide) fun h => ?_
  rw [h.2] at inside
  cases inside

theorem Inv.share_inside (inv : s.Inv) (here : s.InCall c q f)
    (inside : f.outside = false) : s.share q = (s.proc q).tctcnt :=
  inv.share_running (inv.state_running here.here) (by rw [here.call]; exact inside)

theorem InCall.not_givesUp (here : s.InCall c q f)
    (keeps : f.gives = false) : ¬ s.GivesUp (.step c ans) p := by
  rintro ⟨c', ans', q', b, act, there | there⟩ <;>
  · cases act
    rw [← (here.unique there).2] at keeps
    cases keeps

/-- A process that takes its tickets off the total, or adds them, changes its own share only. -/
theorem Forking.crosses_step (forks : s.Forking) (inv : s.Inv)
    (step : Step (.step c ans) s t) (here : s.InCall c q f) (crosses : f.crosses = true)
    (share : t.share q = s.share q + d) (total : t.ttltcts = (s.ttltcts + d).bmod (2 ^ 32)) :
    Moves s t q d := by
  have hkeeps : f.gives = false := by
    unfold Frame.gives
    split <;> first | rfl | cases crosses
  refine ⟨fun p hp => forks.share_same inv step (here.not_givesUp hkeeps) ?_ ?_, share, total⟩
  · rintro c' ans' g act there
    cases act
    exact absurd (here.unique there).1 hp
  · rintro c' ans' q' b total act there
    cases act
    have h := (here.unique there).2
    rw [← h] at crosses
    cases crosses

/-- `exit` and `sys_proc_tickets` take the tickets of a process off the total. -/
theorem Forking.takes_off (forks : s.Forking) (inv : s.Inv)
    (step : Step (.step c ans) s t) (here : s.InCall c q f) (crosses : f.crosses = true)
    (inside : f.outside = false) (shared : t.shared = s.withTotal (s.ttltcts - (s.proc q).tctcnt))
    (out : (s.frameThread q ans f).call.any Frame.outside = true) :
    TotalMove s (.step c ans) t := by
  have hproc : t.proc = s.proc := congrArg Shared.proc shared
  have hshare := inv.share_inside here inside
  have hout : t.Outside q := by
    refine ⟨by rw [hproc, inv.state_running here.here]; decide, ?_⟩
    rw [runFrame_thread inv here (step.runFrame inv here), out]
  refine .takesOff q hshare (forks.crosses_step inv step here crosses ?_
    (congrArg Shared.ttltcts shared))
  rw [share_of_outside hout, hshare, add_neg_cancel]

/-- `sys_proc_tickets` adds the new tickets to the total. -/
theorem Forking.puts_back (forks : s.Forking) (inv : s.Inv) {n : Int}
    (step : Step (.step c ans) s t) (here : s.InCall c q (.procTickets (.add s.ttltcts) n)) :
    TotalMove s (.step c ans) t := by
  have hshared := (runFrame_effect (by simp) (step.runFrame inv here)).shared
  have hproc : t.proc = s.proc := congrArg Shared.proc hshared
  have hrunning := inv.state_running here.here
  have hout : s.Outside q := ⟨by rw [hrunning]; decide, by rw [here.call]; rfl⟩
  have hin : t.share q = (t.proc q).tctcnt := by
    refine (inv.step step).share_running (by rw [hproc, hrunning]) ?_
    rw [runFrame_thread inv here (step.runFrame inv here)]
    rfl
  refine .putsBack c ans q n rfl here (forks.crosses_step inv step here rfl ?_
    (congrArg Shared.ttltcts hshared))
  rw [hin, hproc, share_of_outside hout, zero_add]

/-- `allocproc` adds the tickets of the new slot to the total. -/
theorem Forking.counts (forks : s.Forking) (inv : s.Inv)
    {np : ProcId} (step : Step (.step c ans) s t)
    (here : s.InCall c q (.fork b (.count np s.ttltcts))) : TotalMove s (.step c ans) t := by
  have heffect := runFrame_effect (by simp) (step.runFrame inv here)
  have hproc : t.proc = s.proc := congrArg Shared.proc heffect.shared
  have hmine : (s.thread q).embryo = some np := by rw [Thread.embryo, here.call]; rfl
  have hembryo := inv.embryo q np hmine
  have hnew : s.Uncounted np := ⟨q, by rw [here.call]; rfl⟩
  -- no other process counts this slot
  have hcounted : ¬ t.Uncounted np := by
    rintro ⟨q', hq'⟩
    rw [heffect.thread] at hq'
    by_cases h : q' = q
    · rw [h, Function.update_self] at hq'
      cases hq'
    · rw [Function.update_of_ne h] at hq'
      obtain ⟨b', hfork⟩ := fork_of_uncounted hq'
      exact h (inv.forker q' q np (embryo_of_fork hfork) hmine)
  have hshare : t.share np = 100 := by
    rw [share, if_pos, hproc, forks.new np hnew]
    refine ⟨by rw [hproc, hembryo]; decide, fun h => ?_, hcounted⟩
    have halive := h.1
    rw [hproc, hembryo] at halive
    exact absurd halive (by decide)
  refine .counts c ans q b np rfl here ⟨fun p hp => ?_, ?_, congrArg Shared.ttltcts heffect.shared⟩
  · refine forks.share_same inv step (here.not_givesUp rfl) ?_ ?_
    · rintro c' ans' g act there
      cases act
      rw [(here.unique there).2]
      rfl
    · rintro c' ans' q' b' total act there
      cases act
      cases (here.unique there).2
      exact hp rfl
  · rw [hshare, share_of_uncounted hnew, zero_add]

/-- A `fork` that gives its slot up leaves the tickets of the slot in the total. -/
theorem Forking.gives_up (forks : s.Forking) (inv : s.Inv)
    {np : ProcId} (step : Step (.step c ans) s t)
    (here : s.InCall c q (.fork b (.giveUp np)) ∨ s.InCall c q (.fork b (.drop np))) :
    TotalMove s (.step c ans) t := by
  have hframe : ∃ f, s.InCall c q f ∧ f.loaded = none ∧
      (∀ p, s.GivesUp (.step c ans) p → p = np) ∧
      t.proc = s.proc.setState np .UNUSED ∧ t.ttltcts = s.ttltcts := by
    rcases here with here | here <;>
    · have hshared := (runFrame_effect (by simp) (step.runFrame inv here)).shared
      refine ⟨_, here, rfl, ?_, congrArg Shared.proc hshared, congrArg Shared.ttltcts hshared⟩
      rintro p ⟨c', ans', q', b', act, there | there⟩ <;>
      · cases act
        cases (here.unique there).2 <;> rfl
  obtain ⟨f, hf, hplain, honly, hproc, htotal⟩ := hframe
  refine .gives np ⟨c, ans, q, b, rfl, here⟩ htotal (fun p hp => ?_) (share_of_not_live ?_)
  · refine forks.share_same inv step (fun h => hp (honly p h)) ?_ ?_
    · rintro c' ans' g act there
      cases act
      rw [(hf.unique there).2]
      exact Frame.crosses_of_loaded hplain
    · rintro c' ans' q' b' total act there
      cases act
      rw [← (hf.unique there).2] at hplain
      cases hplain
  · rw [hproc, ProcTable.setState, ProcTable.set_self]
    exact fun h => h.1 rfl

/-- What a step does to the total. -/
theorem Forking.total_move (forks : s.Forking) (inv : s.Inv) (step : Step x s t)
    (current : ∀ c ans q f total, x = .step c ans → s.InCall c q f → f.loaded = some total →
      total = s.ttltcts) : TotalMove s x t := by
  by_cases hgives : ∃ np, s.GivesUp x np
  · obtain ⟨np, c, ans, q, b, rfl, here⟩ := hgives
    exact forks.gives_up inv step here
  rcases step.total_cases inv with ⟨htotal, hnone⟩ | ⟨c, ans, q, f, rfl, here, hloaded⟩
  · -- nobody stores to the total
    refine .same htotal fun p => forks.share_same inv step (fun h => hgives ⟨p, h⟩) ?_ ?_
    · exact fun c ans f act here => Frame.crosses_of_loaded (hnone c ans p f act here)
    · intro c ans q b n act here
      cases hnone c ans q _ act here
  · obtain ⟨total, htotal⟩ := Option.ne_none_iff_exists'.mp hloaded
    have hcurrent := current c ans q f total rfl here htotal
    have hrun := step.runFrame inv here
    unfold Frame.loaded at htotal
    split at htotal
    next isThread total' =>
      cases htotal
      subst hcurrent
      exact forks.takes_off inv step here rfl rfl (runFrame_effect (by simp) hrun).shared rfl
    next b np total' =>
      cases htotal
      subst hcurrent
      exact forks.counts inv step here
    next total' n =>
      cases htotal
      subst hcurrent
      exact forks.takes_off inv step here rfl rfl (runFrame_effect (by simp) hrun).shared rfl
    next total' n =>
      cases htotal
      subst hcurrent
      exact forks.puts_back inv step here
    next => cases htotal

theorem Forking.step (forks : s.Forking) (inv : s.Inv) (step : Step x s t) : t.Forking where
  paired p := step.paired inv (forks.paired p)
  forkers q _ _ place := step.forker_alive inv (forks.forkers q) place
  new np uncounted := by
    rcases step.uncounted_origin inv uncounted with h | ⟨c, ans, q, b, rfl, here, hnp⟩
    · have hembryo : (s.proc np).state = .EMBRYO := by
        obtain ⟨q, hq⟩ := h
        obtain ⟨b, hfork⟩ := fork_of_uncounted hq
        exact inv.embryo q np (embryo_of_fork hfork)
      rcases (step.row inv np).tctcnt with h' | h' | ⟨c, n, here, -⟩
      · rw [h', forks.new np h]
      · rw [hembryo] at h'
        cases h'
      · rw [inv.state_running here.here] at hembryo
        cases hembryo
    · have hshared := (runFrame_effect (by simp) (step.runFrame inv here)).shared
      rw [frameShared, forkShared, hnp] at hshared
      have hproc : t.proc = s.proc.embryo np s.nextpid := congrArg Shared.proc hshared
      rw [hproc, ProcTable.embryo, ProcTable.set_self]

theorem Balance.total_of_moves (bal : s.Balance) (moves : Moves s t q d) :
    t.ttltcts = (∑ p, t.share p).bmod (2 ^ 32) := by
  rw [moves.sum, moves.total, bal.total, Int.bmod_add_bmod]

theorem Balance.step (bal : s.Balance) (inv : s.Inv) (acc : s.Accounts x) (step : Step x s t) :
    t.Balance where
  toForking := bal.toForking.step inv step
  total := by
    cases bal.toForking.total_move inv step acc.current with
    | same total shares => rw [total, bal.total, Finset.sum_congr rfl fun p _ => shares p]
    | gives np fails total others gone =>
      obtain ⟨c, ans, q, b, act, here⟩ := fails
      exact absurd here (acc.keeps c ans q b np act)
    | takesOff q inside moves | putsBack c ans q n act here moves
    | counts c ans q b np act here moves => exact bal.total_of_moves moves

end Sums

section Main

variable {mem : Nat} {cond : Nat → Bool} {word : Nat → Int → Int} {as : List Act} {s t : Machine}

theorem tickets_eq_sum (s : Machine) :
    s.tickets = ∑ p, if (s.proc p).state.Live then (s.proc p).tctcnt else 0 := by
  rw [Fin.sum_univ_def]
  rfl

theorem boot_shares (mem : Nat) (cond : Nat → Bool) (word : Nat → Int → Int) :
    ∑ p, (boot mem cond word).share p = 100 := by
  have hother : ∀ p : ProcId, p ≠ 0 → (boot mem cond word).share p = 0 := by
    intro p hp
    refine share_of_not_live ?_
    simp only [boot, Function.update_of_ne hp]
    decide
  have hinit : (boot mem cond word).share 0 = 100 := by
    refine if_pos ⟨?_, fun h => ?_, fun h => ?_⟩
    · change ProcState.Live .RUNNABLE
      decide
    · cases h.2
    · obtain ⟨q, hq⟩ := h
      cases hq
  rw [Finset.sum_eq_single 0 (fun p _ hp => hother p hp) (by simp), hinit]

theorem boot_balance (mem : Nat) (cond : Nat → Bool) (word : Nat → Int → Int) :
    (boot mem cond word).Balance where
  paired _ := trivial
  forkers _ _ _ h := by cases h
  new np h := by
    obtain ⟨q, hq⟩ := h
    cases hq
  total := by
    rw [boot_shares]
    rfl

/-- A step that keeps the total right. -/
def AccountStep (x : Act) (s t : Machine) : Prop := s.Accounts x ∧ Step x s t

/-- No `fork` adds tickets while the table lock is free. -/
theorem Forking.not_uncounted (forks : s.Forking) (inv : s.Inv) (free : s.Free .procTable)
    (p : ProcId) : ¬ s.Uncounted p := by
  rintro ⟨q, hq⟩
  obtain ⟨b, hfork⟩ := fork_of_uncounted hq
  have halive : (s.proc q).state.Alive := by
    rcases hfork with h | ⟨total, h⟩ <;> exact forks.forkers q _ _ h
  -- `allocproc` calls no function, and is not interrupted
  have hinner : (s.thread q).inner = none := by
    have hpaired := forks.paired q
    rw [Thread.Paired] at hpaired
    split at hpaired
    next =>
      obtain ⟨f, hf, hsleeps⟩ := hpaired
      rcases hfork with h | ⟨total, h⟩ <;> cases hf.symm.trans h <;> cases hsleeps
    next =>
      rcases hpaired with ⟨_, _, _, h'⟩ | ⟨_, _, h'⟩ <;>
        rcases hfork with h | ⟨total, h⟩ <;> cases h'.symm.trans h
    next =>
      rcases hpaired with ⟨_, _, h'⟩ | h' <;>
        rcases hfork with h | ⟨total, h⟩ <;> cases h'.symm.trans h
    next h => exact h
  have hbase : (s.thread q).baseLocks = [.procTable] := by
    rw [Thread.baseLocks, hinner]
    rcases hfork with h | ⟨total, h⟩ <;> exact congrArg (Option.elim · [] Frame.locks) h
  have hquiet : (s.thread q).yielding = none := by
    by_contra h
    rw [(inv.threads q).yield h] at hbase
    cases hbase
  have hlocks : (s.thread q).locks = [.procTable] := by rw [Thread.locks, hquiet, hbase]
  have hrunning : (s.proc q).state = .RUNNING := by
    by_contra hidle
    have hparked := inv.parked q (by rcases halive with h | h | h <;> simp_all)
    generalize s.thread q = th at hparked hfork hinner hquiet
    cases hparked with
    | yield _ _ _ => cases hquiet
    | sleep _ _ _ _ | sleepOnCond _ _ _ _ => cases hinner
    | forkret _ => rcases hfork with h | ⟨total, h⟩ <;> cases h
  obtain ⟨c, here⟩ := inv.running q hrunning
  refine free c ((inv.mem_held here).mpr ?_)
  rw [hlocks]
  exact List.mem_singleton_self _

/-- While nobody is outside of the total, the shares are the tickets. -/
theorem Forking.tickets_eq_shares (forks : s.Forking) (inv : s.Inv) (settled : ∀ p, ¬ s.Outside p)
    (free : s.Free .procTable) : s.tickets = ∑ p, s.share p := by
  rw [tickets_eq_sum]
  refine Finset.sum_congr rfl fun p _ => ?_
  simp only [share, settled p, forks.not_uncounted inv free p, not_false_eq_true, and_true]

/-- In every run whose steps meet the conditions: when a scheduler draws a ticket, `ttltcts` is
the sum of `tctcnt` over all processes that are neither `UNUSED` nor `ZOMBIE`. -/
theorem ticket_accounting (run : Run AccountStep (boot mem cond word) as s) {c : CpuId} {ans : Nat}
    (idle : (s.cpus c).place = .idle) (draw : AccountStep (.step c ans) s t) :
    s.ttltcts = s.tickets := by
  have inv : s.Inv ∧ s.Balance :=
    run.invariant (motive := fun _ s => s.Inv ∧ s.Balance)
      ⟨boot_inv mem cond word, boot_balance mem cond word⟩
      fun _ _ _ _ inv step => ⟨inv.1.step step.2, inv.2.step inv.1 step.1 step.2⟩
  obtain ⟨hout, hlow, hhigh⟩ := draw.1.settled c ans rfl idle
  have hfree : s.Free .procTable := by
    have hstep : s.runCpu c ans = some t := draw.2
    rw [runCpu, idle] at hstep
    simp only [runIdle] at hstep
    split at hstep
    next h => exact h.1
    next => cases hstep
  rw [inv.2.total, ← inv.2.tickets_eq_shares inv.1 hout hfree]
  exact Int.bmod_eq_of_le (by omega) (by omega)

/-- The conditions for an action, as a test. -/
def accountsPlainly (s : Machine) : Act → Bool
  | .step c _ =>
    match (s.cpus c).place with
    | .idle => decide ((∀ p, ¬ s.Outside p) ∧ -2 ^ 31 ≤ s.tickets ∧ s.tickets < 2 ^ 31)
    | .process q =>
      (s.thread q).call.all fun f => !f.gives && f.loaded.all fun total => total = s.ttltcts
    | .back => true
  | _ => true

theorem accounts_of_plainly {x : Act} (plain : s.accountsPlainly x = true) : s.Accounts x where
  keeps c ans q b np act := by
    subst act
    rintro (here | here) <;> simp [accountsPlainly, here.here, here.call, Frame.gives] at plain
  current c ans q f total act here loaded := by
    subst act
    simp only [accountsPlainly, here.here, here.call, loaded, Option.all_some, Bool.and_eq_true,
      decide_eq_true_eq] at plain
    exact plain.2
  settled c ans act idle := by
    subst act
    simp only [accountsPlainly, idle, decide_eq_true_eq] at plain
    exact plain

theorem run_of_accounts {s₀ : Machine}
    (done : execute (fun s x => if s.accountsPlainly x then s.act x else none) s₀ as = some s) :
    Run AccountStep s₀ as s := by
  refine Run.of_execute (fun x s t hact => ?_) done
  split at hact
  next hplain => exact ⟨accounts_of_plainly hplain, hact⟩
  next => cases hact

/-- Init forks a child, both run, and CPU 2 draws among 200 tickets. -/
theorem ticket_accounting_fork :
    ∃ as s t, Run AccountStep (boot 4096 (fun _ => false) fun _ _ => 0) as s ∧
      (s.cpus 2).place = .idle ∧ AccountStep (.step 2 5) s t ∧ s.ttltcts = 200 ∧
      s.tickets = 200 := by
  have hdone : (execute (fun s x => if s.accountsPlainly x then s.act x else none)
      (boot 4096 (fun _ => false) fun _ _ => 0) twoProcesses).map
      (fun s => (decide ((s.cpus 2).place = .idle), s.accountsPlainly (.step 2 5),
        (s.act (.step 2 5)).isSome, s.ttltcts)) = some (true, true, true, 200) := by decide +kernel
  obtain ⟨s, hs, hstate⟩ := Option.map_eq_some_iff.mp hdone
  simp only [Prod.mk.injEq, decide_eq_true_eq] at hstate
  obtain ⟨hidle, hplain, hdraw, htotal⟩ := hstate
  obtain ⟨t, ht⟩ := Option.isSome_iff_exists.mp hdraw
  have hrun := run_of_accounts hs
  have hstep : AccountStep (.step 2 5) s t := ⟨accounts_of_plainly hplain, ht⟩
  exact ⟨twoProcesses, s, t, hrun, hidle, hstep, htotal,
    (ticket_accounting hrun hidle hstep).symm.trans htotal⟩

/-- Init calls `fork`, and `kalloc` finds no stack: the slot is `UNUSED` again, its 100 tickets
are still in the total, and CPU 1 draws among 200 tickets. -/
theorem fork_leaks_tickets :
    ∃ as s t, Run Step (boot 4096 (fun _ => false) fun _ _ => 0) as s ∧
      (s.cpus 1).place = .idle ∧ Step (.step 1 50) s t ∧ s.ttltcts = 200 ∧ s.tickets = 100 := by
  let as : List Act := [.step 0 7, .step 0 0, .call 0 (.fork false), .step 0 0, .step 0 0,
    .step 0 0, .step 0 0, .step 0 0]
  have hdone : (execute act (boot 4096 (fun _ => false) fun _ _ => 0) as).map
      (fun s => (decide ((s.cpus 1).place = .idle), (s.act (.step 1 50)).isSome, s.ttltcts,
        s.tickets)) = some (true, true, 200, 100) := by decide +kernel
  obtain ⟨s, hs, hstate⟩ := Option.map_eq_some_iff.mp hdone
  simp only [Prod.mk.injEq, decide_eq_true_eq] at hstate
  obtain ⟨hidle, hdraw, htotal⟩ := hstate
  obtain ⟨t, ht⟩ := Option.isSome_iff_exists.mp hdraw
  exact ⟨as, s, t, run_of_execute hs, hidle, ht, htotal⟩

end Main

end Machine

end Xv6
