/-
# A pipe is a lossless queue

Under any interleaving of its readers and writers, the bytes taken out of a pipe followed
by the bytes in its ring are the bytes stored in it, in the order in which they were
stored. A read of at least one byte returns 0 only at the end of the stream.
-/

import Xv6.Pipe.Model
import Xv6.Math.Runs

namespace Xv6

open Math

/-- The process is between `acquire` and the `release` or `sleep` that follows. -/
def PipeThread.inside : PipeThread → Bool
  | .write .loop _ _ => true
  | .read .test _ => true
  | .read (.loop _) _ => true
  | _ => false

section Wake

@[simp] theorem PipeThread.inside_wakeReader (t : PipeThread) :
    t.wakeReader.inside = t.inside := by
  unfold wakeReader
  split <;> rfl

@[simp] theorem PipeThread.inside_wakeWriter (t : PipeThread) :
    t.wakeWriter.inside = t.inside := by
  unfold wakeWriter
  split <;> rfl

/-- A wakeup changes nothing for a process that is inside. -/
theorem PipeThread.wake_eq_loop {t : PipeThread} {i : Nat} {n : Int} :
    (t.wakeReader = .read (.loop i) n ↔ t = .read (.loop i) n) ∧
      (t.wakeWriter = .read (.loop i) n ↔ t = .read (.loop i) n) := by
  constructor
  · unfold wakeReader
    split <;> simp
  · unfold wakeWriter
    split <;> simp

end Wake

namespace PipeSystem

/-- The invariant of a pipe and its users. -/
structure Inv (s : PipeSystem) : Prop where
  ring : s.pipe.Ok
  fifo : s.taken ++ s.pipe.contents = s.stored
  locked : ∀ p, (s.threads p).inside = true → s.lock = some p
  /-- A reader that left its waiting loop has found a byte or the end of the stream. -/
  found : ∀ p n, s.threads p = .read (.loop 0) n → 0 < s.pipe.used ∨ s.pipe.writeopen = false

theorem fresh_inv (data : Nat → UInt8) : (fresh data).Inv := by
  have hused : (fresh data).pipe.used = 0 := by simp [RingBuffer.used, fresh]
  have hcontents : (fresh data).pipe.contents = [] := by
    rw [← List.length_eq_zero_iff, RingBuffer.contents_length, hused]
  refine ⟨⟨?_, ?_, ?_⟩, ?_, ?_, ?_⟩
  · exact Nat.two_pow_pos 32
  · exact Nat.two_pow_pos 32
  · rw [hused]
    exact Nat.zero_le _
  · rw [hcontents]
    rfl
  · intro p h
    cases h
  · intro p n h
    cases h

section Keep

variable {s t : PipeSystem} {p : Nat} {th : PipeThread}

/-- What the invariant needs of a step that leaves the ring and the history alone. -/
theorem Inv.same (inv : s.Inv) (ring : t.pipe.toRingBuffer = s.pipe.toRingBuffer)
    (stored : t.stored = s.stored) (taken : t.taken = s.taken)
    (locked : ∀ q, (t.threads q).inside = true → t.lock = some q)
    (found : ∀ q n, t.threads q = .read (.loop 0) n →
      0 < s.pipe.used ∨ t.pipe.writeopen = false) : t.Inv where
  ring := by
    rw [ring]
    exact inv.ring
  fifo := by
    rw [ring, stored, taken]
    exact inv.fifo
  locked := locked
  found q n h := by
    rw [ring]
    exact found q n h

@[simp] theorem goto_threads_self : (s.goto p th).threads p = th := Function.update_self ..

theorem goto_threads_of_ne {q : Nat} (h : q ≠ p) : (s.goto p th).threads q = s.threads q :=
  Function.update_of_ne h ..

/-- A process that is not inside moves to a place that is not inside. -/
theorem Inv.goto (inv : s.Inv) (outside : th.inside = false) : (s.goto p th).Inv := by
  refine inv.same rfl rfl rfl (fun q hq => ?_) (fun q n hq => ?_)
  · by_cases hqp : q = p
    · rw [hqp, goto_threads_self, outside] at hq
      cases hq
    · rw [goto_threads_of_ne hqp] at hq
      exact inv.locked q hq
  · by_cases hqp : q = p
    · rw [hqp, goto_threads_self] at hq
      rw [hq] at outside
      cases outside
    · rw [goto_threads_of_ne hqp] at hq
      exact inv.found q n hq

theorem Inv.wakeReaders (inv : s.Inv) : s.wakeReaders.Inv :=
  inv.same rfl rfl rfl (fun q hq => inv.locked q (by simpa [PipeSystem.wakeReaders] using hq))
    fun q n hq => inv.found q n (PipeThread.wake_eq_loop.1.mp hq)

theorem Inv.wakeWriters (inv : s.Inv) : s.wakeWriters.Inv :=
  inv.same rfl rfl rfl (fun q hq => inv.locked q (by simpa [PipeSystem.wakeWriters] using hq))
    fun q n hq => inv.found q n (PipeThread.wake_eq_loop.2.mp hq)

/-- Whoever holds the lock may give it away when it leaves. -/
theorem Inv.leave (inv : s.Inv) (held : s.lock = some p) (outside : th.inside = false) :
    (s.goto p th).release.Inv := by
  have hinv := inv.goto (p := p) outside
  refine hinv.same rfl rfl rfl (fun q hq => ?_) hinv.found
  -- nobody else was inside, and `p` is not any more
  have hheld := hinv.locked q hq
  rw [show (s.goto p th).lock = s.lock from rfl, held] at hheld
  obtain rfl := Option.some.inj hheld
  rw [show (s.goto p th).release.threads p = th from goto_threads_self, outside] at hq
  cases hq

/-- A process gets the lock when nobody has it. -/
theorem Inv.enter (inv : s.Inv) (free : s.lock = none)
    (early : ∀ n, th ≠ .read (.loop 0) n) : ((s.acquire p).goto p th).Inv := by
  refine inv.same rfl rfl rfl (fun q hq => ?_) (fun q n hq => ?_)
  · by_cases hqp : q = p
    · rw [hqp]
      rfl
    · rw [goto_threads_of_ne hqp] at hq
      have := inv.locked q hq
      rw [free] at this
      cases this
  · by_cases hqp : q = p
    · rw [hqp, goto_threads_self] at hq
      exact absurd hq (early n)
    · rw [goto_threads_of_ne hqp] at hq
      exact inv.found q n hq

/-- The holder of the lock goes on inside. -/
theorem Inv.stay (inv : s.Inv) (held : s.lock = some p)
    (found : ∀ n, th = .read (.loop 0) n → 0 < s.pipe.used ∨ s.pipe.writeopen = false) :
    (s.goto p th).Inv := by
  refine inv.same rfl rfl rfl (fun q hq => ?_) (fun q n hq => ?_)
  · by_cases hqp : q = p
    · rw [hqp]
      exact held
    · rw [goto_threads_of_ne hqp] at hq
      exact inv.locked q hq
  · by_cases hqp : q = p
    · rw [hqp, goto_threads_self] at hq
      exact found n hq
    · rw [goto_threads_of_ne hqp] at hq
      exact inv.found q n hq

theorem size_lt : PIPESIZE < 2 ^ 32 := by decide

theorem size_dvd : PIPESIZE ∣ 2 ^ 32 := by decide

theorem Inv.store (inv : s.Inv) (room : s.pipe.used < PIPESIZE) (c : UInt8) : (s.store c).Inv where
  ring := inv.ring.put size_lt room c
  fifo := by
    change s.taken ++ (s.pipe.put c).contents = s.stored ++ [c]
    rw [inv.ring.contents_put size_lt size_dvd room, ← List.append_assoc, inv.fifo]
  locked := inv.locked
  found q n hq := by
    left
    change 0 < (s.pipe.put c).used
    rw [inv.ring.used_put size_lt room]
    exact Nat.succ_pos _

/-- Taking a byte keeps the invariant, apart from the reader that takes it. -/
theorem Inv.take (inv : s.Inv) (held : s.lock = some p) (some : 0 < s.pipe.used)
    (later : ∀ n, th ≠ .read (.loop 0) n) : (s.take.goto p th).Inv where
  ring := inv.ring.drop size_lt some
  fifo := by
    change s.taken ++ [s.pipe.front] ++ s.pipe.drop.contents = s.stored
    rw [List.append_assoc, List.singleton_append,
      ← inv.ring.contents_drop size_lt size_dvd some, inv.fifo]
  locked q hq := by
    by_cases hqp : q = p
    · rw [hqp]
      exact held
    · rw [goto_threads_of_ne hqp] at hq
      exact inv.locked q hq
  found q n hq := by
    by_cases hqp : q = p
    · rw [hqp, goto_threads_self] at hq
      exact absurd hq (later n)
    · -- another reader in this place would hold the lock as well
      rw [goto_threads_of_ne hqp] at hq
      have hlock : s.lock = Option.some q :=
        inv.locked q (by rw [show s.threads q = _ from hq]; rfl)
      rw [held] at hlock
      exact absurd (Option.some.inj hlock).symm hqp

theorem Inv.close (inv : s.Inv) (writable : Bool) : (s.close writable).Inv := by
  cases writable with
  | true =>
    have hinv := inv.wakeReaders
    exact hinv.same rfl rfl rfl hinv.locked fun _ _ _ => Or.inr rfl
  | false =>
    have hinv := inv.wakeWriters
    exact hinv.same rfl rfl rfl hinv.locked hinv.found

end Keep

section Steps

variable {s t : PipeSystem} {p : Nat} {r : Option Int} {a : PipeAct}

theorem Inv.runWrite (inv : s.Inv) {pc : WritePc} {todo : List UInt8} {i : Nat}
    (place : s.threads p = .write pc todo i) (step : s.runWrite p todo i pc = some (t, r)) :
    t.Inv := by
  cases pc with
  | start =>
    rw [PipeSystem.runWrite] at step
    split at step
    next free =>
      obtain ⟨rfl, -⟩ := Prod.mk.inj (Option.some.inj step)
      exact inv.enter free (by simp)
    next => cases step
  | loop =>
    have held : s.lock = some p := inv.locked p (by rw [place]; rfl)
    cases todo with
    | nil =>
      rw [PipeSystem.runWrite] at step
      obtain ⟨rfl, -⟩ := Prod.mk.inj (Option.some.inj step)
      exact inv.wakeReaders.leave held rfl
    | cons c cs =>
      rw [PipeSystem.runWrite] at step
      split at step
      next full =>
        split at step
        next =>
          obtain ⟨rfl, -⟩ := Prod.mk.inj (Option.some.inj step)
          exact inv.leave held rfl
        next =>
          obtain ⟨rfl, -⟩ := Prod.mk.inj (Option.some.inj step)
          exact inv.wakeReaders.leave held rfl
      next notFull =>
        obtain ⟨rfl, -⟩ := Prod.mk.inj (Option.some.inj step)
        have room : s.pipe.used < PIPESIZE :=
          lt_of_le_of_ne inv.ring.used fun h => notFull ((inv.ring.full_iff size_lt).mpr h)
        exact (inv.store room c).stay held (by simp)
  | asleep => cases step

theorem Inv.runRead (inv : s.Inv) {pc : ReadPc} {n : Int} (place : s.threads p = .read pc n)
    (step : s.runRead p n pc = some (t, r)) : t.Inv := by
  cases pc with
  | start =>
    rw [PipeSystem.runRead] at step
    split at step
    next free =>
      obtain ⟨rfl, -⟩ := Prod.mk.inj (Option.some.inj step)
      exact inv.enter free (by simp)
    next => cases step
  | test =>
    have held : s.lock = some p := inv.locked p (by rw [place]; rfl)
    rw [PipeSystem.runRead] at step
    split at step
    next =>
      split at step
      next =>
        obtain ⟨rfl, -⟩ := Prod.mk.inj (Option.some.inj step)
        exact inv.leave held rfl
      next =>
        obtain ⟨rfl, -⟩ := Prod.mk.inj (Option.some.inj step)
        exact inv.leave held rfl
    next ready =>
      obtain ⟨rfl, -⟩ := Prod.mk.inj (Option.some.inj step)
      refine inv.stay held fun _ _ => ?_
      by_cases hopen : s.pipe.writeopen = true
      · left
        exact Nat.pos_of_ne_zero fun h => ready ⟨(inv.ring.empty_iff size_lt).mpr h, hopen⟩
      · exact Or.inr (by simpa using hopen)
  | loop i =>
    have held : s.lock = some p := inv.locked p (by rw [place]; rfl)
    rw [PipeSystem.runRead] at step
    split at step
    next more =>
      obtain ⟨rfl, -⟩ := Prod.mk.inj (Option.some.inj step)
      refine inv.take held ?_ (by simp)
      exact Nat.pos_of_ne_zero fun h => more.2 ((inv.ring.empty_iff size_lt).mpr h)
    next =>
      obtain ⟨rfl, -⟩ := Prod.mk.inj (Option.some.inj step)
      exact inv.wakeWriters.leave held rfl
  | asleep => cases step

theorem Inv.step (inv : s.Inv) (step : Step a s t) : t.Inv := by
  obtain ⟨r, hact⟩ := step
  cases a with
  | write _ _ | read _ _ =>
    rw [act] at hact
    split at hact
    next =>
      obtain ⟨rfl, -⟩ := Prod.mk.inj (Option.some.inj hact)
      exact inv.goto rfl
    next => cases hact
  | run p =>
    rw [act, run] at hact
    split at hact
    next => cases hact
    next pc todo i place => exact inv.runWrite place hact
    next pc n place => exact inv.runRead place hact
  | close writable =>
    rw [act] at hact
    split at hact
    next =>
      obtain ⟨rfl, -⟩ := Prod.mk.inj (Option.some.inj hact)
      exact inv.close writable
    next => cases hact
  | kill p =>
    obtain ⟨rfl, -⟩ := Prod.mk.inj (Option.some.inj hact)
    refine inv.same rfl rfl rfl (fun q hq => inv.locked q ?_) (fun q n hq => inv.found q n ?_)
    · by_cases hqp : q = p
      · rw [hqp] at hq ⊢
        simpa using hq
      · exact goto_threads_of_ne hqp ▸ hq
    · by_cases hqp : q = p
      · rw [hqp] at hq ⊢
        have hwoken : (s.threads p).wakeReader.wakeWriter = .read (.loop 0) n := by simpa using hq
        exact PipeThread.wake_eq_loop.1.mp (PipeThread.wake_eq_loop.2.mp hwoken)
      · exact (goto_threads_of_ne hqp).symm.trans hq

end Steps

section Main

variable {data : Nat → UInt8} {acts : List PipeAct} {s : PipeSystem}

/-- A pipe is a lossless queue of at most `PIPESIZE` bytes, whatever its users do, and a
read of some bytes returns 0 only when the write end is closed and every byte stored has
been read. -/
theorem pipe_fifo (run : Run Step (fresh data) acts s) :
    s.taken ++ s.pipe.contents = s.stored ∧ s.pipe.contents.length ≤ PIPESIZE ∧
      ∀ p pc n t, s.threads p = .read pc n → 0 < n → s.run p = some (t, some 0) →
        s.pipe.writeopen = false ∧ s.taken = s.stored := by
  have inv : s.Inv := run.invariant (motive := fun _ s => s.Inv) (fresh_inv data)
    fun _ _ _ _ hinv hstep => hinv.step hstep
  refine ⟨inv.fifo, by rw [RingBuffer.contents_length]; exact inv.ring.used, ?_⟩
  intro p pc n t place positive step
  rw [PipeSystem.run, place] at step
  cases pc with
  | start =>
    simp only [runRead] at step
    split at step <;> simp at step
  | test =>
    simp only [runRead] at step
    split at step
    · split at step <;> simp at step
    · simp at step
  | loop i =>
    simp only [runRead] at step
    split at step
    next => simp at step
    next done =>
      obtain ⟨-, hi⟩ := Prod.mk.inj (Option.some.inj step)
      obtain rfl : i = 0 := by exact_mod_cast Option.some.inj hi
      -- no byte was taken although one was asked for, so the ring is empty
      have hempty : s.pipe.used = 0 := by
        rw [← inv.ring.empty_iff size_lt]
        by_contra hne
        exact done ⟨by exact_mod_cast positive, hne⟩
      refine ⟨(inv.found p n place).resolve_left (by omega), ?_⟩
      have hcontents : s.pipe.contents = [] := by
        rw [← List.length_eq_zero_iff, RingBuffer.contents_length, hempty]
      rw [← inv.fifo, hcontents, List.append_nil]
  | asleep => simp [runRead] at step

/-- A byte is written and read, the write end is closed, and the next read is about to
return 0. -/
theorem pipe_fifo_closed :
    ∃ s acts, Run Step (fresh fun _ => 0) acts s ∧ (∃ t, s.run 1 = some (t, some 0)) ∧
      s.taken = [7] ∧ s.pipe.writeopen = false ∧ s.taken = s.stored := by
  let acts : List PipeAct :=
    [.write 0 [7], .run 0, .run 0, .run 0, .read 1 1, .run 1, .run 1, .run 1, .run 1,
      .close true, .read 1 1, .run 1, .run 1]
  have hdone : (execute (fun s a => (act s a).map Prod.fst) (fresh fun _ => 0) acts).map
      (fun s => (s.taken, s.threads 1, (s.run 1).map Prod.snd)) =
        some ([7], .read (.loop 0) 1, some (some 0)) := by decide
  obtain ⟨s, hs, hstate⟩ := Option.map_eq_some_iff.mp hdone
  obtain ⟨htaken, hrest⟩ := Prod.mk.inj hstate
  obtain ⟨hplace, hreturn⟩ := Prod.mk.inj hrest
  obtain ⟨⟨t, r⟩, hstep, hr⟩ := Option.map_eq_some_iff.mp hreturn
  obtain rfl : r = some 0 := hr
  have hrun : Run Step (fresh fun _ => 0) acts s := by
    refine Run.of_execute (fun a s t hact => ?_) hs
    obtain ⟨⟨u, r⟩, hr, rfl⟩ := Option.map_eq_some_iff.mp hact
    exact ⟨r, hr⟩
  have hclosed := (pipe_fifo hrun).2.2 1 _ 1 t hplace (by decide) hstep
  exact ⟨s, acts, hrun, ⟨t, hstep⟩, htaken, hclosed⟩

end Main

/-! ### Nobody sleeps for nothing -/

section Asleep

variable {t : PipeThread} {todo : List UInt8} {i : Nat} {n : Int}

@[simp] theorem wakeReader_asleep : t.wakeReader ≠ .read .asleep n := by
  unfold PipeThread.wakeReader
  split <;> simp_all

@[simp] theorem wakeReader_eq_write {pc : WritePc} :
    t.wakeReader = .write pc todo i ↔ t = .write pc todo i := by
  unfold PipeThread.wakeReader
  split <;> simp_all

@[simp] theorem wakeWriter_asleep : t.wakeWriter ≠ .write .asleep todo i := by
  unfold PipeThread.wakeWriter
  split <;> simp_all

@[simp] theorem wakeWriter_eq_read {pc : ReadPc} :
    t.wakeWriter = .read pc n ↔ t = .read pc n := by
  unfold PipeThread.wakeWriter
  split <;> simp_all

end Asleep

/-- Why processes sleep: the ring is empty or full, or the holder of the lock will wake them. -/
structure Sleepers (s : PipeSystem) : Prop where
  alive : ∀ p, s.killed p = false
  reader : ∀ p n, s.threads p = .read .asleep n →
    (s.pipe.used = 0 ∧ s.pipe.writeopen = true) ∨ s.pipe.readopen = false ∨
      ∃ q todo i, s.threads q = .write .loop todo i
  writer : ∀ p todo i, s.threads p = .write .asleep todo i →
    (s.pipe.used = PIPESIZE ∧ s.pipe.readopen = true) ∨ ∃ q i n, s.threads q = .read (.loop i) n

section Sleep

variable {s t : PipeSystem} {a : PipeAct}

attribute [local simp] goto acquire release wakeReaders wakeWriters store take close
  Function.update_apply ite_eq_iff PipeThread.wake_eq_loop

theorem Sleepers.step (inv : s.Inv) (sleepers : s.Sleepers) (step : Step a s t)
    (unkilled : ∀ p, a ≠ .kill p) : t.Sleepers := by
  obtain ⟨alive, reader, writer⟩ := sleepers
  obtain ⟨r, hact⟩ := step
  have hlock := inv.locked
  cases a with
  | kill p => exact absurd rfl (unkilled p)
  | write p bytes | read p n =>
    rw [act] at hact
    split at hact <;> cases hact
    refine ⟨alive, ?_, ?_⟩ <;> simp <;> grind
  | close writable =>
    rw [act] at hact
    split at hact <;> cases hact
    cases writable
    all_goals refine ⟨alive, ?_, ?_⟩ <;> simp <;> grind -linarith -ring [PipeThread.inside]
  | run p =>
    -- only one process is inside; it wakes the others before it leaves, or falls asleep itself
    rw [act, run] at hact
    split at hact
    next => cases hact
    next pc todo i place =>
      have hfull := inv.ring.full_iff size_lt
      cases pc <;> simp only [runWrite, hfull] at hact <;> (repeat' split at hact) <;> cases hact
      all_goals refine ⟨alive, ?_, ?_⟩ <;> simp <;> grind -linarith -ring [PipeThread.inside]
    next pc n place =>
      have hempty := inv.ring.empty_iff size_lt
      cases pc <;> simp only [runRead, hempty] at hact <;> (repeat' split at hact) <;> cases hact
      all_goals refine ⟨alive, ?_, ?_⟩ <;> simp <;> grind -linarith -ring [PipeThread.inside]

/-- While the lock is free and nobody was killed, a reader sleeps only if the pipe is empty and can
be written to, and a writer only if it is full and can be read: they never wait for each other. -/
theorem sleepers_wait_for_others {data : Nat → UInt8} {acts : List PipeAct}
    (run : Run Step (fresh data) acts s) (unkilled : ∀ p, .kill p ∉ acts) (free : s.lock = none) :
    (∀ p n, s.threads p = .read .asleep n → s.pipe.readopen = true →
      s.pipe.contents = [] ∧ s.pipe.writeopen = true) ∧
    ∀ p todo i, s.threads p = .write .asleep todo i →
      s.pipe.contents.length = PIPESIZE ∧ s.pipe.readopen = true := by
  obtain ⟨inv, -, reader, writer⟩ : s.Inv ∧ s.Sleepers := by
    refine run.invariant (motive := fun acts s => (∀ p, .kill p ∉ acts) → s.Inv ∧ s.Sleepers)
      (fun _ => ⟨fresh_inv data, fun _ => rfl, by simp [fresh], by simp [fresh]⟩) ?_ unkilled
    intro acts a s t ih step unkilled
    obtain ⟨inv, sleepers⟩ := ih fun p hp => unkilled p (List.mem_append_left _ hp)
    exact ⟨inv.step step, sleepers.step inv step fun p hp => unkilled p (by simp [hp])⟩
  have hlock := inv.locked
  simp only [← List.length_eq_zero_iff, RingBuffer.contents_length]
  constructor <;> grind [PipeThread.inside]

/-- A process reads from a new pipe and falls asleep. -/
theorem sleepers_wait_for_others_read :
    ∃ s, Run Step (fresh fun _ => 0) [.read 1 4, .run 1, .run 1] s ∧
      s.threads 1 = .read .asleep 4 ∧ s.pipe.contents = [] ∧ s.pipe.writeopen = true := by
  have run : Run Step (fresh fun _ => 0) [.read 1 4, .run 1, .run 1] _ :=
    ((Run.start.snoc ⟨none, rfl⟩).snoc ⟨none, rfl⟩).snoc ⟨none, rfl⟩
  exact ⟨_, run, rfl, (sleepers_wait_for_others run (by simp) rfl).1 1 4 rfl rfl⟩

end Sleep

end PipeSystem

end Xv6
