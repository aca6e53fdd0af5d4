import RandomRepo.Lib.Fuel
import Mathlib.Data.List.Basic

/-!
The parser of `sh.c`.

The string is a list of characters other than NUL.  A cursor is a position in it
with the characters from there on: `s < es` says that there are any, and `*s` is the
first of them or NUL.  A word is the pair of pointers `q` and `eq`.  The recursive
descent and its loops are written with fuel, one unit for each call or turn.
`malloc` is taken to succeed.
-/

namespace RandomRepo.Xv6.Sh

/-- A character of a string: anything but NUL. -/
abbrev Chr : Type := { c : UInt8 // c ≠ 0 }

def ascii (c : Char) : UInt8 := c.toNat.toUInt8

/-- Blank, tab, return, newline and vertical tab. -/
def whitespace : List UInt8 := [ascii ' ', 9, 13, 10, 11]

def symbols : List UInt8 :=
  [ascii '<', ascii '|', ascii '>', ascii '&', ascii ';', ascii '(', ascii ')']

structure Cursor where
  pos : Nat
  rest : List Chr

/-- The pointers `q` and `eq`. -/
structure Word where
  q : Nat
  eq : Nat
  deriving DecidableEq, Repr

/-- What `gettoken` returns, except for 0: a symbol, `+` for `>>`, or `a` for a word. -/
inductive Kind
  | bar | lpar | rpar | semi | amp | lt | gt | append | word
  deriving DecidableEq, Repr

inductive Cmd
  | exec (argv : List Word)
  | redir (cmd : Cmd) (file : Word) (mode fd : Nat)
  | pipe (left right : Cmd)
  | list (left right : Cmd)
  | back (cmd : Cmd)
  deriving DecidableEq, Repr

/-- The calls of `panic`. -/
inductive Panic
  | syntaxError | missingFile | missingParen | parseblock | tooManyArgs
  deriving DecidableEq, Repr

def maxargs : Nat := 10

def oRdonly : Nat := 0x000
def oWronly : Nat := 0x001
def oCreate : Nat := 0x200

/-! ## Tokens -/

/-- Step over characters as long as they satisfy `p`. -/
def skipWhile (p : UInt8 → Bool) (pos : Nat) : List Chr → Cursor
  | [] => ⟨pos, []⟩
  | c :: rest => if p c.val then skipWhile p (pos + 1) rest else ⟨pos, c :: rest⟩

def isBlank (c : UInt8) : Bool := whitespace.contains c

/-- The characters that words are made of. -/
def isWordChar (c : UInt8) : Bool := !isBlank c && !symbols.contains c

def Cursor.skipBlanks (c : Cursor) : Cursor := skipWhile isBlank c.pos c.rest

/-- The symbols of one character. -/
def symbolKind (c : UInt8) : Option Kind :=
  if c = ascii '|' then some .bar
  else if c = ascii '(' then some .lpar
  else if c = ascii ')' then some .rpar
  else if c = ascii ';' then some .semi
  else if c = ascii '&' then some .amp
  else if c = ascii '<' then some .lt
  else if c = ascii '>' then some .gt
  else none

/-- The result 0 is `none`. -/
def gettoken (s : Cursor) : Option Kind × Word × Cursor :=
  let s := s.skipBlanks
  match s.rest with
  | [] => (none, ⟨s.pos, s.pos⟩, s)
  | c :: rest =>
    match symbolKind c.val with
    | some .gt =>
      match rest with
      | d :: rest' =>
        if d.val = ascii '>' then
          (some .append, ⟨s.pos, s.pos + 2⟩, Cursor.skipBlanks ⟨s.pos + 2, rest'⟩)
        else (some .gt, ⟨s.pos, s.pos + 1⟩, Cursor.skipBlanks ⟨s.pos + 1, rest⟩)
      | [] => (some .gt, ⟨s.pos, s.pos + 1⟩, Cursor.skipBlanks ⟨s.pos + 1, rest⟩)
    | some k => (some k, ⟨s.pos, s.pos + 1⟩, Cursor.skipBlanks ⟨s.pos + 1, rest⟩)
    | none =>
      let eq := skipWhile isWordChar s.pos s.rest
      (some .word, ⟨s.pos, eq.pos⟩, eq.skipBlanks)

def peek (s : Cursor) (toks : List UInt8) : Bool × Cursor :=
  let s := s.skipBlanks
  match s.rest with
  | [] => (false, s)
  | c :: _ => (toks.contains c.val, s)

/-! ## The recursive descent -/

/-- `cmd` with the redirection that `tok` stands for. -/
def redirect (tok : Option Kind) (cmd : Cmd) (file : Word) : Cmd :=
  match tok with
  | some .lt => .redir cmd file oRdonly 0
  | some .gt => .redir cmd file (oWronly ||| oCreate) 1
  | some .append => .redir cmd file (oWronly ||| oCreate) 1
  | _ => cmd

def parseredirs : Nat → Cmd → Cursor → Option (Except Panic (Cmd × Cursor))
  | 0, _, _ => none
  | fuel + 1, cmd, s =>
    let (more, s) := peek s [ascii '<', ascii '>']
    if more then
      let (tok, _, s) := gettoken s
      let (file, w, s) := gettoken s
      if file ≠ some .word then some (.error .missingFile)
      else parseredirs fuel (redirect tok cmd w) s
    else some (.ok (cmd, s))

/-- Add an argument to the `execcmd` inside the redirections. -/
def Cmd.addArg : Cmd → Word → Cmd
  | .exec argv, w => .exec (argv ++ [w])
  | .redir cmd file mode fd, w => .redir (cmd.addArg w) file mode fd
  | cmd, _ => cmd

/-- The loop of `parseexec`. -/
def argLoop : Nat → Cmd → Nat → Cursor → Option (Except Panic (Cmd × Cursor))
  | 0, _, _, _ => none
  | fuel + 1, ret, argc, s =>
    let (stop, s) := peek s [ascii '|', ascii ')', ascii '&', ascii ';']
    if stop then some (.ok (ret, s))
    else
      match gettoken s with
      | (none, _, s) => some (.ok (ret, s))
      | (some .word, w, s) =>
        if maxargs ≤ argc + 1 then some (.error .tooManyArgs)
        else andThen (parseredirs fuel (ret.addArg w) s) fun r => argLoop fuel r.1 (argc + 1) r.2
      | (some _, _, _) => some (.error .syntaxError)

/-- The loop of `parseline`. -/
def backLoop : Nat → Cmd → Cursor → Option (Except Panic (Cmd × Cursor))
  | 0, _, _ => none
  | fuel + 1, cmd, s =>
    let (more, s) := peek s [ascii '&']
    if more then backLoop fuel (.back cmd) (gettoken s).2.2
    else some (.ok (cmd, s))

mutual

def parseline : Nat → Cursor → Option (Except Panic (Cmd × Cursor))
  | 0, _ => none
  | fuel + 1, s =>
    andThen (parsepipe fuel s) fun r =>
      andThen (backLoop fuel r.1 r.2) fun r =>
        let (more, s) := peek r.2 [ascii ';']
        if more then
          andThen (parseline fuel (gettoken s).2.2) fun r' => some (.ok (.list r.1 r'.1, r'.2))
        else some (.ok (r.1, s))

def parsepipe : Nat → Cursor → Option (Except Panic (Cmd × Cursor))
  | 0, _ => none
  | fuel + 1, s =>
    andThen (parseexec fuel s) fun r =>
      let (more, s) := peek r.2 [ascii '|']
      if more then
        andThen (parsepipe fuel (gettoken s).2.2) fun r' => some (.ok (.pipe r.1 r'.1, r'.2))
      else some (.ok (r.1, s))

def parseexec : Nat → Cursor → Option (Except Panic (Cmd × Cursor))
  | 0, _ => none
  | fuel + 1, s =>
    let (block, s) := peek s [ascii '(']
    if block then parseblock fuel s
    else andThen (parseredirs fuel (.exec []) s) fun r => argLoop fuel r.1 0 r.2

def parseblock : Nat → Cursor → Option (Except Panic (Cmd × Cursor))
  | 0, _ => none
  | fuel + 1, s =>
    let (opens, s) := peek s [ascii '(']
    if !opens then some (.error .parseblock)
    else
      andThen (parseline fuel (gettoken s).2.2) fun r =>
        let (closes, s) := peek r.2 [ascii ')']
        if !closes then some (.error .missingParen)
        else parseredirs fuel r.1 (gettoken s).2.2

end

/-- The string in memory, with its NUL. -/
def buffer (s : List Chr) (i : Nat) : UInt8 := ((s[i]?).map Subtype.val).getD 0

/-- NUL-terminate all the counted strings. -/
def nulterminate : Cmd → (Nat → UInt8) → Nat → UInt8
  | .exec argv, buf => argv.foldl (fun buf w => Function.update buf w.eq 0) buf
  | .redir cmd file _ _, buf => Function.update (nulterminate cmd buf) file.eq 0
  | .pipe left right, buf => nulterminate right (nulterminate left buf)
  | .list left right, buf => nulterminate right (nulterminate left buf)
  | .back cmd, buf => nulterminate cmd buf

/-- The tree and the string as `nulterminate` leaves it. -/
def parsecmd (s : List Chr) (fuel : Nat) : Option (Except Panic (Cmd × (Nat → UInt8))) :=
  andThen (parseline fuel ⟨0, s⟩) fun r =>
    let (_, es) := peek r.2 []
    if es.rest ≠ [] then some (.error .syntaxError)
    else some (.ok (r.1, nulterminate r.1 (buffer s)))

end RandomRepo.Xv6.Sh
