/-
# The parser of the shell

`parsecmd` of sh.c and the functions below it. The cursor `*ps` is the state of the parser, an
index into the input line; a string of the command tree is a pair of indices `q` and `eq`, and
`nulterminate` finally stores a NUL at each `eq`.

The memory of the tree is not modelled: `malloc` is taken to succeed and the stack to be deep
enough. Every function takes a bound on the depth of its loops and calls, and stops with
`ShStop.fuel` when it is used up.
-/

import Xv6.Math.Hoare

namespace Xv6

open Math

namespace Sh

def MAXARGS : Nat := 10

def O_RDONLY : Nat := 0x000
def O_WRONLY : Nat := 0x001
def O_CREATE : Nat := 0x200

/-! ### Characters -/

def bar : UInt8 := 124
def lpar : UInt8 := 40
def rpar : UInt8 := 41
def semi : UInt8 := 59
def amp : UInt8 := 38
def less : UInt8 := 60
def more : UInt8 := 62

/-- The token `'+'` that `gettoken` returns for `>>`. -/
def append : UInt8 := 43

/-- The token `'a'` that `gettoken` returns for a word. -/
def word : UInt8 := 97

/-- `" \t\r\n\v"` -/
def whitespace : List UInt8 := [32, 9, 13, 10, 11]

/-- `"<|>&;()"` -/
def symbols : List UInt8 := [less, bar, more, amp, semi, lpar, rpar]

def isSpace (c : UInt8) : Bool := whitespace.contains c

def isWordChar (c : UInt8) : Bool := !whitespace.contains c && !symbols.contains c

/-! ### Command trees -/

/-- The structs `execcmd` to `backcmd`, over a type of strings. -/
inductive Cmd (α : Type) where
  | exec (argv : List α)
  | redir (cmd : Cmd α) (file : α) (mode fd : Nat)
  | pipe (left right : Cmd α)
  | list (left right : Cmd α)
  | back (cmd : Cmd α)
deriving DecidableEq

namespace Cmd

variable {α β : Type}

def map (f : α → β) : Cmd α → Cmd β
  | exec argv => exec (argv.map f)
  | redir cmd file mode fd => redir (cmd.map f) (f file) mode fd
  | pipe left right => pipe (left.map f) (right.map f)
  | list left right => list (left.map f) (right.map f)
  | back cmd => back (cmd.map f)

/-- Append an argument to the `execcmd` inside redirections; `parseexec` keeps a pointer to
it. -/
def pushArg (a : α) : Cmd α → Cmd α
  | exec argv => exec (argv ++ [a])
  | redir cmd file mode fd => redir (cmd.pushArg a) file mode fd
  | cmd => cmd

/-- All strings of a tree. -/
def strings : Cmd α → List α
  | exec argv => argv
  | redir cmd file _ _ => file :: cmd.strings
  | pipe left right => left.strings ++ right.strings
  | list left right => left.strings ++ right.strings
  | back cmd => cmd.strings

end Cmd

/-- The pointers `q` and `eq` to the start of a string and behind its end. -/
structure Span where
  q : Nat
  eq : Nat
deriving DecidableEq

/-- Why the parser stops. -/
inductive ShStop where
  | panic (msg : String)
  | fuel
deriving DecidableEq

/-- The parser, with its cursor. -/
abbrev ParseM := EStateM ShStop Nat

section Parser

variable (text : List UInt8)

/-- `text[s]`, with the NUL behind the text. -/
def charAt (s : Nat) : UInt8 := text.getD s 0

/-! ### Tokens -/

def skipLoop (p : UInt8 → Bool) : Nat → Nat → Nat
  | 0, s => s
  | fuel + 1, s => if s < text.length ∧ p (charAt text s) then skipLoop p fuel (s + 1) else s

/-- `while(s < es && p(*s)) s++;` -/
def skip (p : UInt8 → Bool) (s : Nat) : Nat := skipLoop text p (text.length - s) s

/-- The `switch` of `gettoken`: the token at `s` and the end of its text. -/
def scan (s : Nat) : UInt8 × Nat :=
  if charAt text s = 0 then (0, s)
  else if charAt text s ∈ [bar, lpar, rpar, semi, amp, less] then (charAt text s, s + 1)
  else if charAt text s = more then
    if charAt text (s + 1) = more then (append, s + 2) else (more, s + 1)
  else (word, skip text isWordChar s)

def gettoken : ParseM (UInt8 × Span) := do
  let s ← get
  let q := skip text isSpace s
  let (ret, eq) := scan text q
  set (skip text isSpace eq)
  return (ret, ⟨q, eq⟩)

def peek (toks : List UInt8) : ParseM Bool := do
  let s ← get
  let s := skip text isSpace s
  set s
  return charAt text s ≠ 0 ∧ toks.contains (charAt text s)

/-! ### Commands -/

/-- `redircmd` with the mode and the descriptor of the token. -/
def redircmd (cmd : Cmd Span) (tok : UInt8) (file : Span) : Cmd Span :=
  if tok = less then .redir cmd file O_RDONLY 0
  else if tok = more then .redir cmd file (O_WRONLY ||| O_CREATE) 1
  else if tok = append then .redir cmd file (O_WRONLY ||| O_CREATE) 1
  else cmd

def parseredirs : Nat → Cmd Span → ParseM (Cmd Span)
  | 0, _ => throw .fuel
  | fuel + 1, cmd => do
    if ← peek text [less, more] then
      let (tok, _) ← gettoken text
      let (file, span) ← gettoken text
      if file ≠ word then throw (.panic "missing file for redirection")
      else parseredirs fuel (redircmd cmd tok span)
    else return cmd

/-- The `while` loop of `parseexec`. -/
def parseargs : Nat → Nat → Cmd Span → ParseM (Cmd Span)
  | 0, _, _ => throw .fuel
  | fuel + 1, argc, ret => do
    if ← peek text [bar, rpar, amp, semi] then return ret
    else
      let (tok, span) ← gettoken text
      if tok = 0 then return ret
      else if tok ≠ word then throw (.panic "syntax")
      else if argc + 1 ≥ MAXARGS then throw (.panic "too many args")
      else
        let ret ← parseredirs text fuel (ret.pushArg span)
        parseargs fuel (argc + 1) ret

/-- The `while` loop of `parseline`. -/
def parsebacks : Nat → Cmd Span → ParseM (Cmd Span)
  | 0, _ => throw .fuel
  | fuel + 1, cmd => do
    if ← peek text [amp] then
      let _ ← gettoken text
      parsebacks fuel (.back cmd)
    else return cmd

mutual

def parseline : Nat → ParseM (Cmd Span)
  | 0 => throw .fuel
  | fuel + 1 => do
    let cmd ← parsepipe fuel
    let cmd ← parsebacks text fuel cmd
    if ← peek text [semi] then
      let _ ← gettoken text
      let right ← parseline fuel
      return .list cmd right
    else return cmd

def parsepipe : Nat → ParseM (Cmd Span)
  | 0 => throw .fuel
  | fuel + 1 => do
    let cmd ← parseexec fuel
    if ← peek text [bar] then
      let _ ← gettoken text
      let right ← parsepipe fuel
      return .pipe cmd right
    else return cmd

def parseexec : Nat → ParseM (Cmd Span)
  | 0 => throw .fuel
  | fuel + 1 => do
    if ← peek text [lpar] then parseblock fuel
    else
      let ret ← parseredirs text fuel (.exec [])
      parseargs text fuel 0 ret

def parseblock : Nat → ParseM (Cmd Span)
  | 0 => throw .fuel
  | fuel + 1 => do
    if ← peek text [lpar] then
      let _ ← gettoken text
      let cmd ← parseline fuel
      if ← peek text [rpar] then
        let _ ← gettoken text
        parseredirs text fuel cmd
      else throw (.panic "syntax - missing )")
    else throw (.panic "parseblock")

end

/-- Store a NUL behind every string of the tree. -/
def nulterminate : Cmd Span → List UInt8 → List UInt8
  | .exec argv, buf => argv.foldl (fun buf span => buf.set span.eq 0) buf
  | .redir cmd file _ _, buf => (nulterminate cmd buf).set file.eq 0
  | .pipe left right, buf => nulterminate right (nulterminate left buf)
  | .list left right, buf => nulterminate right (nulterminate left buf)
  | .back cmd, buf => nulterminate cmd buf

/-- Enough for every line: the recursion returns to `parseline` after four calls and has
consumed a token by then. -/
def enoughFuel : Nat := 4 * text.length + 4

/-- `parsecmd` returns the tree and the line with its NULs. -/
def parsecmd : ParseM (Cmd Span × List UInt8) := do
  set 0
  let cmd ← parseline text (enoughFuel text)
  let _ ← peek text []
  let s ← get
  if s ≠ text.length then throw (.panic "syntax")
  else return (cmd, nulterminate cmd (text ++ [0]))

end Parser

/-- The C string at `q`. -/
def cString (buf : List UInt8) (q : Nat) : List UInt8 := (buf.drop q).takeWhile (· ≠ 0)

/-- The tree that `runcmd` sees. -/
def Cmd.read (buf : List UInt8) (cmd : Cmd Span) : Cmd (List UInt8) :=
  cmd.map fun span => cString buf span.q

end Sh

end Xv6
