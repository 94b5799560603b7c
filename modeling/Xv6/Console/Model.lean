/-
# Console input

The input side of `console.c`: the ring `input` with its three counters, the line editing and the
history of `console_intr`, and `console_read`. The ring is shared by the keyboard interrupt and by
any number of processes that read. A reader gives up `input.lock` only to sleep, so what it does
between two sleeps is one step. Output to the screen is left out.
-/

import Mathlib

namespace Xv6

/-- Size of the input ring. -/
def INPUT_BUF : Nat := 128

/-- Number of history entries. -/
def HISTMAX : Nat := 10

/-- `C(x)`: the code of a control key. -/
def ctrl (x : Char) : UInt8 := x.toUInt8 - '@'.toUInt8

/-- `'\n'`. -/
def lineFeed : UInt8 := 10

/-- The code of the up arrow. -/
def KEY_UP : UInt8 := 226

/-- The code of the down arrow. -/
def KEY_DN : UInt8 := 227

/-- `input` and the history variables. -/
structure Console where
  buf : Nat → UInt8
  /-- Read index. -/
  r : UInt32
  /-- Write index. -/
  w : UInt32
  /-- Edit index. -/
  e : UInt32
  rhist : Nat → UInt32
  ehist : Nat → UInt32
  hist : UInt32
  histIndex : Int

namespace Console

/-- The zeroed globals after `console_init`. -/
def boot : Console where
  buf _ := 0
  r := 0
  w := 0
  e := 0
  rhist _ := -1
  ehist _ := 0
  hist := 0
  histIndex := 0

/-- The cell that an index stands for. -/
def cell (i : UInt32) : Nat := i.toNat % INPUT_BUF

/-- `input.buf[input.e++ % INPUT_BUF] = c`. -/
def store (s : Console) (c : UInt8) : Console :=
  { s with buf := Function.update s.buf (cell s.e) c, e := s.e + 1 }

/-! ### Keystrokes -/

/-- The loop that deletes the current line, with a bound on its rounds. -/
def eraseLoop : Nat → Console → Console
  | 0, s => s
  | n + 1, s =>
    if s.e ≠ s.w ∧ s.buf (cell (s.e - 1)) ≠ lineFeed then
      eraseLoop n { s with e := s.e - 1 }
    else
      s

/-- Delete the current line. -/
def eraseLine (s : Console) : Console := eraseLoop (s.e - s.w).toNat s

/-- The loop that copies a history entry to the current line, with a bound on its rounds. -/
def copyLoop (h : Nat) : Nat → UInt32 → Console → Console
  | 0, _, s => s
  | n + 1, y, s =>
    if s.rhist h + y < s.ehist h - 1 then
      copyLoop h n (y + 1) (s.store (s.buf (cell (s.rhist h + y))))
    else
      s

/-- Copy a history entry to the current line. -/
def copyEntry (s : Console) (h : Nat) : Console :=
  copyLoop h (s.ehist h - 1 - s.rhist h).toNat 0 s

/-- The entry before `histIndex`. -/
def prevIndex (s : Console) : Int :=
  if s.histIndex - 1 < 0 then (HISTMAX : Int) - 1 else s.histIndex - 1

/-- The entry behind `histIndex`. -/
def nextIndex (s : Console) : Int :=
  if (HISTMAX : Int) ≤ s.histIndex + 1 then 0 else s.histIndex + 1

/-- The up arrow. The test `rhist[histIndex] >= 0` is about an unsigned number. -/
def upArrow (s : Console) : Console :=
  let startHistIndex := s.histIndex
  let s := { s with histIndex := s.prevIndex }
  if 0 ≤ s.rhist s.histIndex.toNat ∧ s.hist ≠ 0 then
    s.eraseLine.copyEntry s.histIndex.toNat
  else
    { s with histIndex := startHistIndex }

/-- The down arrow. -/
def downArrow (s : Console) : Console :=
  let startHistIndex := s.histIndex
  let s := eraseLine { s with histIndex := s.nextIndex }
  if ((s.hist.toNat % HISTMAX : Nat) : Int) ≠ s.histIndex then
    s.copyEntry s.histIndex.toNat
  else
    { s with histIndex := startHistIndex }

/-- Hand the current line to the readers and enter it in the history. -/
def commit (s : Console) : Console :=
  { s with
    w := s.e
    rhist := Function.update s.rhist (s.hist.toNat % HISTMAX) s.r
    ehist := Function.update s.ehist (s.hist.toNat % HISTMAX) s.e
    hist := s.hist + 1
    histIndex := ((s.hist + 1).toNat % HISTMAX : Nat) }

/-- A character is taken if there is room for it. -/
def accepts (s : Console) (c : UInt8) : Prop := c ≠ 0 ∧ s.e - s.r < UInt32.ofNat INPUT_BUF

instance (s : Console) (c : UInt8) : Decidable (s.accepts c) :=
  inferInstanceAs (Decidable (_ ∧ _))

/-- An ordinary character. -/
def typed (s : Console) (c : UInt8) : Console :=
  if s.accepts c then
    let s := s.store c
    if c = lineFeed ∨ c = ctrl 'D' ∨ s.e = s.r + UInt32.ofNat INPUT_BUF then s.commit else s
  else
    s

/-- One round of `console_intr`, for the key `c`. -/
def intr (s : Console) (c : UInt8) : Console :=
  if c = ctrl 'P' then s
  else if c = ctrl 'U' then s.eraseLine
  else if c = ctrl 'H' then
    if s.e ≠ s.w then { s with e := s.e - 1 } else s
  else if c = KEY_UP then s.upArrow
  else if c = KEY_DN then s.downArrow
  else s.typed c

/-! ### Readers -/

/-- How a stretch of `console_read` ends. -/
inductive Ending where
  /-- The process sleeps with `n` bytes to go. -/
  | asleep (n : Nat)
  /-- The call returns. -/
  | returned (v : Int)
  deriving DecidableEq

/-- What `console_read` does until it sleeps or returns: the ring it leaves and the bytes that it
stores for the caller. -/
structure Stretch where
  console : Console
  bytes : List UInt8
  ending : Ending

/-- `target - n`, as the `int` that is returned. -/
def result (target : UInt32) (n : Int32) : Int := (target - n.toUInt32).toInt32.toInt

/-- The loop of `console_read` from a round with `n` bytes to go. -/
def readLoop (killed : Bool) (target : UInt32) : Nat → Console → Stretch
  | 0, s => ⟨s, [], .returned (result target 0)⟩
  | n + 1, s =>
    if s.r = s.w then
      if killed then ⟨s, [], .returned (-1)⟩ else ⟨s, [], .asleep (n + 1)⟩
    else
      let c := s.buf (cell s.r)
      let s := { s with r := s.r + 1 }
      if c = ctrl 'D' then
        -- a ^D behind other bytes is saved for the next call
        let s := if UInt32.ofNat (n + 1) < target then { s with r := s.r - 1 } else s
        ⟨s, [], .returned (result target (Int32.ofNat (n + 1)))⟩
      else if c = lineFeed then
        ⟨s, [c], .returned (result target (Int32.ofNat n))⟩
      else
        let rest := readLoop killed target n s
        ⟨rest.console, c :: rest.bytes, rest.ending⟩

end Console

/-- A process that sleeps in `console_read`. -/
structure Reader where
  /-- The number of its call. -/
  call : Nat
  target : UInt32
  n : Nat
  deriving DecidableEq

namespace Console.Ending

/-- The process if it sleeps. -/
def sleeper (t : Reader) : Ending → Option Reader
  | .asleep n => some { t with n := n }
  | .returned _ => none

/-- The call with its result if it returns. -/
def results (t : Reader) : Ending → List (Nat × Int)
  | .asleep _ => []
  | .returned v => [(t.call, v)]

end Console.Ending

/-- A text that is entered line by line. -/
structure EditedText where
  /-- What has been handed to the readers. -/
  committed : List UInt8
  /-- The line that is being edited. -/
  line : List UInt8
  deriving DecidableEq

namespace EditedText

/-- What has been entered so far. -/
def entered (t : EditedText) : List UInt8 := t.committed ++ t.line

/-- A key edits the line. A character that the console takes goes to its end; a newline, ^D and a
character that fills the ring commit it. -/
def key (t : EditedText) (s : Console) (c : UInt8) : EditedText :=
  if c = ctrl 'P' then t
  else if c = ctrl 'U' then { t with line := [] }
  else if c = ctrl 'H' then { t with line := t.line.dropLast }
  else if s.accepts c then
    if c = lineFeed ∨ c = ctrl 'D' ∨ s.e - s.r = UInt32.ofNat (INPUT_BUF - 1) then
      ⟨t.committed ++ (t.line ++ [c]), []⟩
    else
      { t with line := t.line ++ [c] }
  else t

end EditedText

/-- What happens at the console. -/
inductive ConsoleEvent where
  /-- The keyboard delivers a character. -/
  | key (c : UInt8)
  /-- A process calls `console_read`. -/
  | read (p : Nat) (n : Int32)
  /-- A process that sleeps in `console_read` goes on. -/
  | wake (p : Nat)
  /-- `cp->killed` is set. -/
  | kill (p : Nat)
  deriving DecidableEq

/-- The console with its readers, and the history of what was entered and delivered. -/
structure ConsoleSystem where
  console : Console
  readers : Nat → Option Reader
  killed : Nat → Bool
  /-- The number of calls so far. -/
  calls : Nat
  /-- History: the text entered so far. -/
  text : EditedText
  /-- History: every byte that a call has stored for its caller, with the number of the call. -/
  delivered : List (Nat × UInt8)
  /-- History: the calls that have returned, with their results. -/
  returned : List (Nat × Int)

namespace ConsoleSystem

/-- The system when the kernel starts. -/
def boot : ConsoleSystem where
  console := Console.boot
  readers _ := none
  killed _ := false
  calls := 0
  text := ⟨[], []⟩
  delivered := []
  returned := []

/-- The bytes that a call has stored for its caller. -/
def bytesOf (S : ConsoleSystem) (call : Nat) : List UInt8 :=
  (S.delivered.filter fun d => d.1 = call).map Prod.snd

/-- The stretch of `console_read` that a reader goes through. -/
def stretch (S : ConsoleSystem) (p : Nat) (t : Reader) : Console.Stretch :=
  Console.readLoop (S.killed p) t.target t.n S.console

/-- A process goes on in `console_read` until it sleeps or returns. -/
def advance (S : ConsoleSystem) (p : Nat) (t : Reader) : ConsoleSystem :=
  { S with
    console := (S.stretch p t).console
    readers := Function.update S.readers p ((S.stretch p t).ending.sleeper t)
    delivered := S.delivered ++ (S.stretch p t).bytes.map fun c => (t.call, c)
    returned := S.returned ++ (S.stretch p t).ending.results t }

/-- `console_read(ip, dst, n)`. Without bytes to read the loop is not entered. -/
def consoleRead (S : ConsoleSystem) (p : Nat) (n : Int32) : ConsoleSystem :=
  let call := S.calls
  let S := { S with calls := S.calls + 1 }
  let target := n.toUInt32
  if 0 < n then S.advance p ⟨call, target, n.toInt.toNat⟩
  else { S with returned := S.returned ++ [(call, Console.result target n)] }

/-- The state after an event, if it can happen. -/
def act (S : ConsoleSystem) : ConsoleEvent → Option ConsoleSystem
  | .key c => some { S with console := S.console.intr c, text := S.text.key S.console c }
  | .read p n => if S.readers p = none then some (S.consoleRead p n) else none
  | .wake p => (S.readers p).map fun t => S.advance p t
  | .kill p => some { S with killed := Function.update S.killed p true }

/-- One event. -/
def Step (ev : ConsoleEvent) (S T : ConsoleSystem) : Prop := S.act ev = some T

theorem Step.of_read {S T : ConsoleSystem} {p : Nat} {n : Int32} (step : Step (.read p n) S T) :
    S.readers p = none ∧ T = S.consoleRead p n := by
  unfold Step at step
  rw [act] at step
  split at step
  next h => exact ⟨h, (Option.some.inj step).symm⟩
  next => cases step

end ConsoleSystem

end Xv6
