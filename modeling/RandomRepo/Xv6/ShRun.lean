import Mathlib.Data.List.Induction
import RandomRepo.Xv6.Mmu
import RandomRepo.Xv6.ShTerminate

/-!
# Running a command

`runcmd` of `sh.c` calls itself on the parts of a command, in the same process or in children,
with descriptors that redirections and pipes have changed.  `Calls` are these calls.  In every
process the first three descriptors are open, so that an `open` after a `close` of one of
them gets that descriptor.

The parser wraps each redirection around those before it, and `runcmd` opens the outermost first.
So the redirections of a command are carried out from right to left, and the first one of a
descriptor is the one that stays.
-/

namespace RandomRepo.Xv6.Sh

/-- What a descriptor is connected to. -/
inductive Conn (φ : Type)
  | file (f : φ)
  | readEnd (pipe : Nat)
  | writeEnd (pipe : Nat)
  deriving DecidableEq, Repr

/-- The file system: which file a path names, and whether an `open` succeeds, with what it changes. -/
structure Env (φ σ : Type) where
  file : List UInt8 → φ
  opens : σ → List UInt8 → Nat → Option σ

structure Process (φ σ : Type) where
  fds : Nat → Option (Conn φ)
  fs : σ
  pipes : Nat

section Calls

variable {φ σ : Type}

def Process.fdalloc (p : Process φ σ) : Option Nat :=
  (List.range nofile).find? fun fd => (p.fds fd).isNone

def Process.connect (p : Process φ σ) (fd : Nat) (conn : Option (Conn φ)) : Process φ σ :=
  { p with fds := Function.update p.fds fd conn }

def Process.close (p : Process φ σ) (fd : Nat) : Process φ σ := p.connect fd none

def Process.open_ (env : Env φ σ) (p : Process φ σ) (path : List UInt8) (mode : Nat) :
    Option (Process φ σ) := do
  let fs ← env.opens p.fs path mode
  let fd ← p.fdalloc
  return { p with fs := fs }.connect fd (some (.file (env.file path)))

/-- `dup`, of which `runcmd` does not look at the result. -/
def Process.dup (p : Process φ σ) (fd : Nat) : Process φ σ :=
  match p.fds fd, p.fdalloc with
  | some conn, some fd' => p.connect fd' (some conn)
  | _, _ => p

/-- `pipe`, with the descriptors of its two ends. -/
def Process.pipe (p : Process φ σ) : Option (Nat × Nat × Process φ σ) := do
  let r ← p.fdalloc
  let q := p.connect r (some (.readEnd p.pipes))
  let w ← q.fdalloc
  return (r, w, { q.connect w (some (.writeEnd p.pipes)) with pipes := p.pipes + 1 })

/-- The calls that `runcmd` makes to itself, with the text that a word stands for.  The
second part of a list is run when the first has ended and has changed the file system. -/
inductive Calls (env : Env φ σ) (text : Word → List UInt8) :
    Cmd × Process φ σ → Cmd × Process φ σ → Prop
  | redir {cmd : Cmd} {file : Word} {mode fd : Nat} {p q : Process φ σ}
      (opened : (p.close fd).open_ env (text file) mode = some q) :
      Calls env text (.redir cmd file mode fd, p) (cmd, q)
  | listLeft {left right : Cmd} {p : Process φ σ} : Calls env text (.list left right, p) (left, p)
  | listRight {left right : Cmd} {p : Process φ σ} (fs : σ) (pipes : Nat) :
      Calls env text (.list left right, p) (right, { p with fs := fs, pipes := pipes })
  | pipeLeft {left right : Cmd} {p q : Process φ σ} {r w : Nat} (piped : p.pipe = some (r, w, q)) :
      Calls env text (.pipe left right, p) (left, (((q.close 1).dup w).close r).close w)
  | pipeRight {left right : Cmd} {p q : Process φ σ} {r w : Nat} (piped : p.pipe = some (r, w, q)) :
      Calls env text (.pipe left right, p) (right, (((q.close 0).dup r).close r).close w)
  | back {cmd : Cmd} {p : Process φ σ} : Calls env text (.back cmd, p) (cmd, p)

/-- A number of calls, each inside the one before. -/
inductive CallsWithin (env : Env φ σ) (text : Word → List UInt8) :
    Nat → Cmd × Process φ σ → Cmd × Process φ σ → Prop
  | here (c : Cmd × Process φ σ) : CallsWithin env text 0 c c
  | call {n : Nat} {c d e : Cmd × Process φ σ} (first : Calls env text c d)
      (rest : CallsWithin env text n d e) : CallsWithin env text (n + 1) c e

/-- Standard input, output and error are open. -/
def Process.Standard (p : Process φ σ) : Prop := ∀ fd < 3, p.fds fd ≠ none

/-- `"console"` -/
def consolePath : List UInt8 := "console".toList.map ascii

def oRdwr : Nat := 0x002

/-- `main` opens the console until it gets a descriptor that is not one of the standard ones. -/
def Process.console (env : Env φ σ) : Nat → Process φ σ → Option (Process φ σ)
  | 0, _ => none
  | fuel + 1, p =>
    match env.opens p.fs consolePath oRdwr, p.fdalloc with
    | some fs, some fd =>
      let q := { p with fs := fs }.connect fd (some (.file (env.file consolePath)))
      if 3 ≤ fd then some (q.close fd) else q.console env fuel
    | _, _ => some p

end Calls

/-! ## Descriptors -/

section Descriptors

variable {φ σ : Type} {env : Env φ σ} {text : Word → List UInt8} {p q : Process φ σ} {fd : Nat}

theorem Process.connect_self {conn : Option (Conn φ)} : (p.connect fd conn).fds fd = conn :=
  Function.update_self ..

theorem Process.connect_of_ne {other : Nat} {conn : Option (Conn φ)} (ne : other ≠ fd) :
    (p.connect fd conn).fds other = p.fds other :=
  Function.update_of_ne ne ..

theorem Process.close_of_ne {other : Nat} (ne : other ≠ fd) : (p.close fd).fds other = p.fds other :=
  Process.connect_of_ne ne

theorem fdalloc_lowest (inside : fd < nofile) (free : p.fds fd = none)
    (below : ∀ lower < fd, p.fds lower ≠ none) : p.fdalloc = some fd := by
  unfold Process.fdalloc
  rw [List.find?_range_eq_some]
  refine ⟨by rw [free]; rfl, List.mem_range.mpr inside, fun lower less => ?_⟩
  rw [Bool.not_eq_true', Option.isNone_eq_false_iff]
  exact Option.ne_none_iff_isSome.mp (below lower less)

theorem fdalloc_some (alloc : p.fdalloc = some fd) : p.fds fd = none := by
  have free := List.find?_some alloc
  exact Option.isNone_iff_eq_none.mp free

theorem fdalloc_below (alloc : p.fdalloc = some fd) : ∀ lower < fd, p.fds lower ≠ none := by
  intro lower less
  obtain ⟨-, -, below⟩ := List.find?_range_eq_some.mp alloc
  have open_ := below lower less
  rw [Bool.not_eq_true', Option.isNone_eq_false_iff] at open_
  exact Option.ne_none_iff_isSome.mpr open_

theorem fdalloc_none (full : p.fdalloc = none) : ∀ fd < nofile, p.fds fd ≠ none := by
  intro fd inside
  have taken := List.find?_eq_none.mp full fd (List.mem_range.mpr inside)
  rw [Option.isNone_iff_eq_none] at taken
  exact taken

/-- The descriptors below `opened` are open, and the loop has turns left for the others. -/
theorem console_turns (opens : ∀ fs, env.opens fs consolePath oRdwr ≠ none) {opened fuel : Nat}
    (below : ∀ fd < opened, p.fds fd ≠ none) (few : opened ≤ 3) (enough : 4 ≤ opened + fuel) :
    ∃ q, p.console env fuel = some q ∧ q.Standard := by
  induction fuel generalizing p opened with
  | zero => omega
  | succ fuel ih =>
    obtain ⟨fs, changed⟩ := Option.ne_none_iff_exists'.mp (opens p.fs)
    have size : nofile = 16 := rfl
    unfold Process.console
    rw [changed]
    cases alloc : p.fdalloc with
    | none => exact ⟨p, rfl, fun fd low => fdalloc_none alloc fd (by omega)⟩
    | some fd =>
      have lower := fdalloc_below alloc
      by_cases high : 3 ≤ fd
      · refine ⟨_, if_pos high, fun low less => ?_⟩
        rw [Process.close_of_ne (by omega), Process.connect_of_ne (by omega)]
        exact lower low (by omega)
      · -- The lowest free descriptor is not below `opened`.
        have above : opened ≤ fd := by
          by_contra less
          exact below fd (by omega) (fdalloc_some alloc)
        have more : ∀ low < opened + 1, ({ p with fs := fs }.connect fd
            (some (.file (env.file consolePath)))).fds low ≠ none := by
          intro low less
          by_cases here : low = fd
          · rw [here, Process.connect_self]
            exact Option.some_ne_none _
          · rw [Process.connect_of_ne here]
            exact lower low (by omega)
        obtain ⟨q, done, standard⟩ := ih more (by omega) (by omega)
        exact ⟨q, (if_neg high).trans done, standard⟩

/-- The shell starts with the standard descriptors open. -/
theorem console_standard (opens : ∀ fs, env.opens fs consolePath oRdwr ≠ none)
    (p : Process φ σ) : ∃ q, p.console env 4 = some q ∧ q.Standard :=
  console_turns opens (fun fd less => absurd less (Nat.not_lt_zero fd)) (Nat.zero_le 3)
    (Nat.le_refl 4)

theorem Process.Standard.le_of_free (standard : p.Standard) (free : p.fds fd = none) : 3 ≤ fd := by
  by_contra low
  exact standard fd (by omega) free

/-- The descriptor that was closed is the next one to be used. -/
theorem Process.Standard.fdalloc_close (standard : p.Standard) (low : fd < 3) :
    (p.close fd).fdalloc = some fd := by
  have size : nofile = 16 := rfl
  refine fdalloc_lowest (by omega) Process.connect_self fun lower less => ?_
  rw [Process.close_of_ne (by omega)]
  exact standard lower (by omega)

/-- An `open` after a `close`. -/
theorem Process.Standard.reopen (standard : p.Standard) (low : fd < 3) {path : List UInt8} {mode : Nat}
    (opened : (p.close fd).open_ env path mode = some q) :
    q.fds = Function.update p.fds fd (some (.file (env.file path))) := by
  unfold Process.open_ at opened
  rw [standard.fdalloc_close low] at opened
  cases changed : env.opens (p.close fd).fs path mode with
  | none =>
    rw [changed] at opened
    cases opened
  | some fs =>
    rw [changed] at opened
    cases opened
    exact Function.update_idem ..

/-- A `dup` after a `close`. -/
theorem Process.Standard.redup (standard : p.Standard) (low : fd < 3) {other : Nat} {conn : Conn φ}
    (high : 3 ≤ other) (here : p.fds other = some conn) :
    ((p.close fd).dup other).fds = Function.update p.fds fd (some conn) := by
  have same : (p.close fd).fds other = some conn := (Process.close_of_ne (by omega)).trans here
  unfold Process.dup
  rw [same, standard.fdalloc_close low]
  exact Function.update_idem ..

theorem Process.Standard.update (standard : p.Standard) {conn : Conn φ}
    (same : q.fds = Function.update p.fds fd (some conn)) : q.Standard := by
  intro low less
  rw [same]
  by_cases here : low = fd
  · rw [here, Function.update_self]
    exact Option.some_ne_none conn
  · rw [Function.update_of_ne here]
    exact standard low less

theorem Process.Standard.close (standard : p.Standard) (high : 3 ≤ fd) : (p.close fd).Standard := by
  intro low less
  rw [Process.close_of_ne (by omega)]
  exact standard low less

/-- The ends of a pipe have descriptors of their own. -/
theorem Process.Standard.pipe (standard : p.Standard) {r w : Nat} (piped : p.pipe = some (r, w, q)) :
    q.Standard ∧ (3 ≤ r ∧ q.fds r = some (.readEnd p.pipes)) ∧
      (3 ≤ w ∧ q.fds w = some (.writeEnd p.pipes)) := by
  unfold Process.pipe at piped
  cases first : p.fdalloc with
  | none =>
    rw [first] at piped
    cases piped
  | some r' =>
    rw [first] at piped
    have standard' : (p.connect r' (some (.readEnd p.pipes))).Standard := standard.update rfl
    cases second : (p.connect r' (some (.readEnd p.pipes))).fdalloc with
    | none =>
      simp only [bind, Option.bind] at piped
      rw [second] at piped
      cases piped
    | some w' =>
      simp only [bind, Option.bind] at piped
      rw [second] at piped
      cases piped
      have free := fdalloc_some second
      have apart : r ≠ w := by
        rintro rfl
        rw [Process.connect_self] at free
        cases free
      refine ⟨standard'.update rfl, ⟨standard.le_of_free (fdalloc_some first), ?_⟩,
        standard'.le_of_free free, Process.connect_self⟩
      exact (Process.connect_of_ne apart).trans Process.connect_self

/-- The descriptors that a command redirects. -/
def Cmd.Redirects (cmd : Cmd) : Prop :=
  match cmd with
  | .exec _ => True
  | .redir cmd _ _ fd => fd < 3 ∧ cmd.Redirects
  | .pipe left right => left.Redirects ∧ right.Redirects
  | .list left right => left.Redirects ∧ right.Redirects
  | .back cmd => cmd.Redirects

/-- Each call is made with the standard descriptors open. -/
theorem Calls.standard {c d : Cmd × Process φ σ} (calls : Calls env text c d)
    (redirects : c.1.Redirects) (standard : c.2.Standard) : d.1.Redirects ∧ d.2.Standard := by
  cases calls with
  | redir opened => exact ⟨redirects.2, standard.update (standard.reopen redirects.1 opened)⟩
  | listLeft => exact ⟨redirects.1, standard⟩
  | listRight fs pipes => exact ⟨redirects.2, standard⟩
  | pipeLeft piped =>
    obtain ⟨standard', ⟨highR, hereR⟩, highW, hereW⟩ := standard.pipe piped
    exact ⟨redirects.1, ((standard'.update (standard'.redup (by decide) highW hereW)).close highR).close
      highW⟩
  | pipeRight piped =>
    obtain ⟨standard', ⟨highR, hereR⟩, highW, hereW⟩ := standard.pipe piped
    exact ⟨redirects.2, ((standard'.update (standard'.redup (by decide) highR hereR)).close highR).close
      highW⟩
  | back => exact ⟨redirects, standard⟩

theorem CallsWithin.standard {n : Nat} {c d : Cmd × Process φ σ} (calls : CallsWithin env text n c d)
    (redirects : c.1.Redirects) (standard : c.2.Standard) : d.1.Redirects ∧ d.2.Standard := by
  induction calls with
  | here => exact ⟨redirects, standard⟩
  | call first _ ih =>
    obtain ⟨redirects', standard'⟩ := first.standard redirects standard
    exact ih redirects' standard'

/-- Of a command that is parsed, only standard descriptors are redirected. -/
theorem Cmd.redirects_redirected {cmd : Cmd} (redirects : cmd.Redirects) (rs : List (Kind × Word)) :
    (cmd.redirected rs).Redirects := by
  induction rs generalizing cmd with
  | nil => exact redirects
  | cons r rs ih =>
    refine @ih (redirect (some r.1) cmd r.2) ?_
    obtain ⟨k, w⟩ := r
    cases k with
    | lt => exact ⟨by decide, redirects⟩
    | gt => exact ⟨by decide, redirects⟩
    | append => exact ⟨by decide, redirects⟩
    | _ => exact redirects

theorem Cmd.redirects_backs (n : Nat) {cmd : Cmd} (redirects : cmd.Redirects) :
    (cmd.backs n).Redirects := by
  induction n generalizing cmd with
  | zero => exact redirects
  | succ n ih => exact ih redirects

theorem Derives.redirects {n : Nonterminal} {ts : List Token} {cmd : Cmd} (derived : Derives n ts cmd) :
    cmd.Redirects := by
  induction derived with
  | block _ _ ih => exact Cmd.redirects_redirected ih _
  | @simple _ _ ws => exact Cmd.redirects_redirected (show (Cmd.exec ws).Redirects from trivial) _
  | one _ ih => exact ih
  | pipe _ _ ih ih' => exact ⟨ih, ih'⟩
  | last _ _ ih => exact Cmd.redirects_backs _ ih
  | list _ _ _ ih ih' => exact ⟨Cmd.redirects_backs _ ih, ih'⟩

/-- Whatever a command line makes the shell run, it is run with the standard descriptors open. -/
theorem parsecmd_standard {s : List Chr} {fuel n : Nat} {cmd c : Cmd} {buf : Nat → UInt8}
    (parsed : parsecmd s fuel = some (.ok (cmd, buf))) (standard : p.Standard)
    (calls : CallsWithin env text n (cmd, p) (c, q)) : q.Standard :=
  (calls.standard (parsecmd_sound parsed).1.redirects standard).2

/-- **The standard descriptors.**  `main` has opened the console; whatever the commands before have
done to the file system, each command of a line is run with descriptors 0, 1 and 2 open. -/
theorem shell_standard {r : Process φ σ} {s : List Chr} {fuel n : Nat} {cmd c : Cmd}
    {buf : Nat → UInt8} {r' : Process φ σ} (opens : ∀ fs, env.opens fs consolePath oRdwr ≠ none)
    (started : p.console env 4 = some q) (forked : r.fds = q.fds)
    (parsed : parsecmd s fuel = some (.ok (cmd, buf)))
    (calls : CallsWithin env text n (cmd, r) (c, r')) : r'.Standard := by
  obtain ⟨q', same, standard⟩ := console_standard opens p
  cases same.symm.trans started
  refine parsecmd_standard parsed (fun fd low => ?_) calls
  rw [forked]
  exact standard fd low

/-- A file system in which every `open` succeeds. -/
def openEnv : Env Unit Unit := ⟨fun _ => (), fun fs _ _ => some fs⟩

/-- The command in `a&`, in a shell that was started with no descriptor. -/
theorem shell_standard_back : ∃ q, Process.console openEnv 4 ⟨fun _ => none, (), 0⟩ = some q ∧
    q.Standard := by
  have opens : ∀ fs, openEnv.opens fs consolePath oRdwr ≠ none := fun fs => Option.some_ne_none fs
  have parsed : parsecmd [⟨97, by decide⟩, ⟨38, by decide⟩] 12 =
    some (.ok (.back (.exec [⟨0, 1⟩]), _)) := rfl
  obtain ⟨q, started, -⟩ := console_standard opens ⟨fun _ => none, (), 0⟩
  have calls : CallsWithin openEnv (fun _ => []) 1 (.back (.exec [⟨0, 1⟩]), q) (_, q) :=
    .call .back (.here _)
  exact ⟨q, started, shell_standard opens started rfl parsed calls⟩

end Descriptors

/-! ## Redirections as they are written -/

section Written

variable {ts us : List Token} {rs rs' : List (Kind × Word)} {ws : List Word} {cmd : Cmd}
  {depth : Nat}

/-- The redirections of a command in the order in which they are written, inside no parentheses. -/
def written : Nat → List Token → List (Kind × Word)
  | _, [] => []
  | depth, t :: ts =>
    if t.kind = .lpar then written (depth + 1) ts
    else if t.kind = .rpar then written (depth - 1) ts
    else if depth = 0 ∧ t.kind.isRedir then
      (ts.head?.toList.map fun file => (t.kind, file.word)) ++ written depth ts
    else written depth ts

/-- A token that is neither a parenthesis nor a redirection outside of all of them. -/
theorem written_skip {t : Token} (plain : t.kind ≠ .lpar ∧ t.kind ≠ .rpar)
    (other : depth ≠ 0 ∨ t.kind.isRedir = false) : written depth (t :: ts) = written depth ts := by
  rw [written, if_neg plain.1, if_neg plain.2, if_neg]
  rintro ⟨outside, redir⟩
  rcases other with inside | word
  · exact inside outside
  · rw [word] at redir
    cases redir

theorem written_word {w : Word} : written depth (⟨.word, w⟩ :: ts) = written depth ts :=
  written_skip (show Kind.word ≠ .lpar ∧ Kind.word ≠ .rpar by decide) (Or.inr rfl)

theorem written_lpar {w : Word} : written depth (⟨.lpar, w⟩ :: ts) = written (depth + 1) ts := by
  rw [written, if_pos rfl]

theorem written_rpar {w : Word} : written (depth + 1) (⟨.rpar, w⟩ :: ts) = written depth ts := by
  rw [written, if_neg (show Kind.rpar ≠ .lpar by decide), if_pos rfl, Nat.add_sub_cancel]

theorem isRedir_plain {k : Kind} (op : k.isRedir = true) : k ≠ .lpar ∧ k ≠ .rpar := by
  constructor
  · rintro rfl
    cases op
  · rintro rfl
    cases op

theorem Redirs.written (redirs : Redirs ts rs) :
    Sh.written 0 (ts ++ us) = rs ++ Sh.written 0 us := by
  induction redirs with
  | nil => rfl
  | @cons k v w ts rs op rest ih =>
    have plain := isRedir_plain op
    rw [List.cons_append, List.cons_append, Sh.written, if_neg plain.1, if_neg plain.2,
      if_pos ⟨rfl, op⟩, written_word, ih]
    rfl

theorem Args.written (args : Args ts ws rs) : Sh.written 0 ts = rs := by
  induction args with
  | nil => rfl
  | cons redirs rest ih =>
    rw [written_word, redirs.written, ih]

theorem Redirs.inside (redirs : Redirs ts rs) :
    Sh.written (depth + 1) (ts ++ us) = Sh.written (depth + 1) us := by
  induction redirs with
  | nil => rfl
  | cons op rest ih =>
    rw [List.cons_append, List.cons_append, written_skip (isRedir_plain op) (Or.inl (by omega)),
      written_word, ih]

theorem Args.inside (args : Args ts ws rs) :
    Sh.written (depth + 1) (ts ++ us) = Sh.written (depth + 1) us := by
  induction args with
  | nil => rfl
  | cons redirs rest ih =>
    rw [List.cons_append, written_word, List.append_assoc, redirs.inside, ih]

theorem amps_inside {amps : List Token} (only : ∀ t ∈ amps, t.kind = .amp) :
    written (depth + 1) (amps ++ us) = written (depth + 1) us := by
  induction amps with
  | nil => rfl
  | cons t amps ih =>
    obtain ⟨amp, only⟩ := List.forall_mem_cons.mp only
    rw [List.cons_append, written_skip (by rw [amp]; decide) (Or.inl (by omega)), ih only]

/-- The parentheses of a command are closed again, and what is inside is not counted. -/
theorem Derives.inside {n : Nonterminal} (derived : Derives n ts cmd) (depth : Nat) (us : List Token) :
    Sh.written (depth + 1) (ts ++ us) = Sh.written (depth + 1) us := by
  induction derived generalizing depth us with
  | block line redirs ih =>
    rw [List.cons_append, written_lpar, List.append_assoc, ih, List.cons_append, written_rpar,
      redirs.inside]
  | simple redirs args few => rw [List.append_assoc, redirs.inside, args.inside]
  | one exec ih => exact ih depth us
  | pipe exec rest ih ih' =>
    rw [List.append_assoc, ih, List.cons_append, written_skip
      (show Kind.bar ≠ .lpar ∧ Kind.bar ≠ .rpar by decide) (Or.inr rfl), ih']
  | last pipe only ih => rw [List.append_assoc, ih, amps_inside only]
  | list pipe only rest ih ih' =>
    rw [List.append_assoc, ih, List.append_assoc, amps_inside only, List.cons_append, written_skip
      (show Kind.semi ≠ .lpar ∧ Kind.semi ≠ .rpar by decide) (Or.inr rfl), ih']

theorem Redirs.isRedir (redirs : Redirs ts rs) : ∀ r ∈ rs, r.1.isRedir = true := by
  induction redirs with
  | nil => exact fun r member => absurd member List.not_mem_nil
  | cons op _ ih => exact List.forall_mem_cons.mpr ⟨op, ih⟩

theorem Args.isRedir (args : Args ts ws rs) : ∀ r ∈ rs, r.1.isRedir = true := by
  induction args with
  | nil => exact fun r member => absurd member List.not_mem_nil
  | cons redirs _ ih => exact List.forall_mem_append.mpr ⟨redirs.isRedir, ih⟩

/-- The tree of a command: the last redirection that is written is the outermost. -/
theorem Derives.redirected (derived : Derives .exec ts cmd) : ∃ inner : Cmd,
    cmd = inner.redirected (Sh.written 0 ts) ∧ ∀ r ∈ Sh.written 0 ts, r.1.isRedir = true := by
  cases derived with
  | @block v w ts us cmd rs line redirs =>
    have all : Sh.written 0 (⟨.lpar, v⟩ :: (ts ++ ⟨.rpar, w⟩ :: us)) = rs := by
      have last := @Redirs.written us [] rs redirs
      rw [List.append_nil] at last
      rw [written_lpar, line.inside, written_rpar, last]
      exact List.append_nil rs
    rw [all]
    exact ⟨cmd, rfl, redirs.isRedir⟩
  | simple redirs args few =>
    rw [redirs.written, args.written]
    exact ⟨_, rfl, List.forall_mem_append.mpr ⟨redirs.isRedir, args.isRedir⟩⟩

end Written

/-! ## The order of redirections -/

section Order

variable {φ σ : Type} {env : Env φ σ} {text : Word → List UInt8} {p q : Process φ σ}
  {inner c : Cmd} {rs : List (Kind × Word)}

/-- The descriptor of a redirection. -/
def Kind.fd : Kind → Nat
  | .lt => 0
  | _ => 1

theorem redirect_isRedir {r : Kind × Word} (op : r.1.isRedir = true) (cmd : Cmd) :
    ∃ mode, redirect (some r.1) cmd r.2 = .redir cmd r.2 mode r.1.fd := by
  obtain ⟨k, w⟩ := r
  cases k with
  | lt => exact ⟨_, rfl⟩
  | gt => exact ⟨_, rfl⟩
  | append => exact ⟨_, rfl⟩
  | _ => cases op

/-- The redirections of a descriptor. -/
def onFd (fd : Nat) (rs : List (Kind × Word)) : List (Kind × Word) := rs.filter fun r => r.1.fd = fd

/-- What a redirection connects its descriptor to. -/
def target (env : Env φ σ) (text : Word → List UInt8) (r : Kind × Word) : Conn φ :=
  .file (env.file (text r.2))

theorem kind_fd_lt (k : Kind) : k.fd < 3 := by
  cases k with
  | lt => decide
  | _ => decide

theorem onFd_concat {fd : Nat} {r : Kind × Word} :
    onFd fd (rs ++ [r]) = onFd fd rs ++ if r.1.fd = fd then [r] else [] := by
  unfold onFd
  rw [List.filter_append]
  congr 1
  by_cases here : r.1.fd = fd
  · rw [if_pos here, List.filter_cons_of_pos (by simpa using here), List.filter_nil]
  · rw [if_neg here, List.filter_cons_of_neg (by simpa using here), List.filter_nil]

/-- After its redirections a command has the first one of each descriptor. -/
theorem redirected_run (ops : ∀ r ∈ rs, r.1.isRedir = true) (standard : p.Standard)
    (calls : CallsWithin env text rs.length (inner.redirected rs, p) (c, q)) :
    c = inner ∧ ∀ fd, q.fds fd =
      ((onFd fd rs).head?.map (target env text)).or (p.fds fd) := by
  induction rs using List.reverseRecOn generalizing p with
  | nil =>
    cases calls
    exact ⟨rfl, fun fd => rfl⟩
  | append_singleton rs r ih =>
    obtain ⟨ops, op⟩ := List.forall_mem_append.mp ops
    obtain ⟨mode, shape⟩ := redirect_isRedir (op r List.mem_cons_self) (inner.redirected rs)
    have tree : inner.redirected (rs ++ [r]) = .redir (inner.redirected rs) r.2 mode r.1.fd := by
      rw [Cmd.redirected_append]
      exact shape
    rw [tree, List.length_append, List.length_singleton] at calls
    cases calls with
    | call first rest =>
      cases first with
      | redir opened =>
        have fds := standard.reopen (kind_fd_lt r.1) opened
        obtain ⟨same, after⟩ := ih ops (standard.update fds) rest
        refine ⟨same, fun fd => ?_⟩
        rw [after, fds, onFd_concat]
        cases onFd fd rs with
        | nil =>
          by_cases here : r.1.fd = fd
          · rw [if_pos here, ← here, Function.update_self]
            rfl
          · rw [if_neg here, Function.update_of_ne (Ne.symm here)]
            rfl
        | cons first others => rfl

/-- Each descriptor is connected to the last of its redirections. -/
def LastWins (env : Env φ σ) (text : Word → List UInt8) (rs : List (Kind × Word))
    (q : Process φ σ) : Prop :=
  ∀ fd, fd = 0 ∨ fd = 1 → ∀ last ∈ (onFd fd rs).getLast?, q.fds fd = some (target env text last)

/-- The first and the last redirection of a descriptor name the same file. -/
def EndsAgree (env : Env φ σ) (text : Word → List UInt8) (rs : List (Kind × Word)) : Prop :=
  ∀ fd, fd = 0 ∨ fd = 1 → ∀ first ∈ (onFd fd rs).head?, ∀ last ∈ (onFd fd rs).getLast?,
    env.file (text first.2) = env.file (text last.2)

theorem lastWins_iff (ops : ∀ r ∈ rs, r.1.isRedir = true) (standard : p.Standard)
    (calls : CallsWithin env text rs.length (inner.redirected rs, p) (c, q)) :
    LastWins env text rs q ↔ EndsAgree env text rs := by
  obtain ⟨-, fds⟩ := redirected_run ops standard calls
  have stays : ∀ fd, ∀ first ∈ (onFd fd rs).head?, q.fds fd = some (target env text first) := by
    intro fd first found
    rw [fds, Option.mem_def.mp found]
    rfl
  constructor
  · intro wins fd low first found last found'
    have same := (stays fd first found).symm.trans (wins fd low last found')
    injection same with same
    injection same
  · intro agree fd low last found
    cases ends : onFd fd rs with
    | nil =>
      rw [ends] at found
      cases found
    | cons first others =>
      have here : first ∈ (onFd fd rs).head? := by
        rw [ends]
        rfl
      rw [stays fd first here, target, target, agree fd low first here last found]

/-- If no `open` fails, the command itself is reached. -/
theorem redirected_reached (opens : ∀ fs path mode, env.opens fs path mode ≠ none)
    (ops : ∀ r ∈ rs, r.1.isRedir = true) (standard : p.Standard) :
    ∃ q, CallsWithin env text rs.length (inner.redirected rs, p) (inner, q) := by
  induction rs using List.reverseRecOn generalizing p with
  | nil => exact ⟨p, .here _⟩
  | append_singleton rs r ih =>
    obtain ⟨ops, op⟩ := List.forall_mem_append.mp ops
    obtain ⟨mode, shape⟩ := redirect_isRedir (op r List.mem_cons_self) (inner.redirected rs)
    obtain ⟨fs, changed⟩ := Option.ne_none_iff_exists'.mp (opens p.fs (text r.2) mode)
    have opened : (p.close r.1.fd).open_ env (text r.2) mode = some
        ({ p.close r.1.fd with fs := fs }.connect r.1.fd (some (target env text r))) := by
      unfold Process.open_
      rw [show env.opens (p.close r.1.fd).fs (text r.2) mode = some fs from changed,
        standard.fdalloc_close (kind_fd_lt r.1)]
      rfl
    obtain ⟨q, rest⟩ := ih ops (standard.update (standard.reopen (kind_fd_lt r.1) opened))
    refine ⟨q, ?_⟩
    rw [Cmd.redirected_append, List.length_append]
    refine .call ?_ rest
    rw [show (inner.redirected rs).redirected [r] = _ from shape]
    exact .redir opened

/-- In whatever way a command is parsed and run, each of its descriptors ends up with the last
redirection that is written for it exactly if the first one names the same file. -/
theorem redirections_iff {fuel : Nat} {s s' : Cursor} {cmd : Cmd}
    (parsed : parseexec fuel s = some (.ok (cmd, s'))) :
    ∃ ts inner, s.tokens = ts ++ s'.tokens ∧ cmd = Cmd.redirected inner (written 0 ts) ∧
      ∀ (env : Env φ σ) (text : Word → List UInt8) (p q : Process φ σ) (c : Cmd), p.Standard →
        CallsWithin env text (written 0 ts).length (cmd, p) (c, q) →
          c = inner ∧ (LastWins env text (written 0 ts) q ↔ EndsAgree env text (written 0 ts)) := by
  obtain ⟨-, ts, derived, split⟩ := (sound fuel).exec s cmd s' parsed
  obtain ⟨inner, tree, ops⟩ := derived.redirected
  refine ⟨ts, inner, split, tree, fun env text p q c standard calls => ?_⟩
  rw [tree] at calls
  exact ⟨(redirected_run ops standard calls).1, lastWins_iff ops standard calls⟩

/-- Files that are told apart by their paths, all of which can be opened. -/
def byPath : Env (List UInt8) Unit := ⟨id, fun _ _ _ => some ()⟩

/-- A process that has the console as its standard descriptors. -/
def onConsole : Process (List UInt8) Unit :=
  ⟨fun fd => if fd < 3 then some (.file consolePath) else none, (), 0⟩

theorem onConsole_standard : onConsole.Standard := by
  intro fd low
  rw [show onConsole.fds fd = some (.file consolePath) from if_pos low]
  exact Option.some_ne_none _

/-- A command line of characters other than NUL. -/
def ofString (s : String) : List Chr :=
  s.toList.filterMap fun c => if solid : ascii c ≠ 0 then some ⟨ascii c, solid⟩ else none

def sameLine : List Chr := ofString "a<i>x>x"

def sameCmd : Cmd :=
  .redir (.redir (.redir (.exec [⟨0, 1⟩]) ⟨2, 3⟩ 0 0) ⟨4, 5⟩ 0x201 1) ⟨6, 7⟩ 0x201 1

/-- The input comes from `i`, and the output goes to `x`. -/
theorem redirections_iff_same :
    parseexec 10 ⟨0, sameLine⟩ = some (.ok (sameCmd, ⟨7, []⟩)) ∧ onConsole.Standard ∧
      ∃ q, CallsWithin byPath (·.text sameLine) 3 (sameCmd, onConsole) (.exec [⟨0, 1⟩], q) ∧
        LastWins byPath (·.text sameLine) (written 0 (tokens 0 sameLine)) q := by
  have parsed : parseexec 10 ⟨0, sameLine⟩ = some (.ok (sameCmd, ⟨7, []⟩)) := rfl
  have order : written 0 (tokens 0 sameLine) = [(.lt, ⟨2, 3⟩), (.gt, ⟨4, 5⟩), (.gt, ⟨6, 7⟩)] := by
    decide +kernel
  have standard := onConsole_standard
  obtain ⟨q, calls⟩ := @redirected_reached _ _ byPath (·.text sameLine) onConsole
    (.exec [⟨0, 1⟩]) [(.lt, ⟨2, 3⟩), (.gt, ⟨4, 5⟩), (.gt, ⟨6, 7⟩)]
    (fun _ _ _ => Option.some_ne_none _) (by decide) standard
  obtain ⟨ts, inner, split, tree, run⟩ := redirections_iff parsed
  have rest : Cursor.tokens ⟨7, []⟩ = [] := by decide +kernel
  have whole : tokens 0 sameLine = ts := by
    rw [rest, List.append_nil] at split
    exact split
  subst whole
  rw [order] at run ⊢
  refine ⟨parsed, standard, q, calls,
    (run byPath (·.text sameLine) onConsole q _ standard calls).2.mpr ?_⟩
  rintro fd (rfl | rfl) first found last found'
  · cases found
    cases found'
    rfl
  · cases found
    cases found'
    decide +kernel

def twiceLine : List Chr := ofString "a>x>y"

def twiceCmd : Cmd := .redir (.redir (.exec [⟨0, 1⟩]) ⟨2, 3⟩ 0x201 1) ⟨4, 5⟩ 0x201 1

/-- The output goes to `x`. -/
theorem first_redirection_stays :
    parseexec 10 ⟨0, twiceLine⟩ = some (.ok (twiceCmd, ⟨5, []⟩)) ∧ onConsole.Standard ∧
      ∃ q, CallsWithin byPath (·.text twiceLine) 2 (twiceCmd, onConsole) (.exec [⟨0, 1⟩], q) ∧
        q.fds 1 = some (.file [ascii 'x']) ∧
        ¬ LastWins byPath (·.text twiceLine) (written 0 (tokens 0 twiceLine)) q := by
  have order : written 0 (tokens 0 twiceLine) = [(.gt, ⟨2, 3⟩), (.gt, ⟨4, 5⟩)] := by decide +kernel
  have ops : ∀ r ∈ [(Kind.gt, (⟨2, 3⟩ : Word)), (.gt, ⟨4, 5⟩)], r.1.isRedir = true := by decide
  have standard := onConsole_standard
  obtain ⟨q, calls⟩ := @redirected_reached _ _ byPath (·.text twiceLine) onConsole
    (.exec [⟨0, 1⟩]) _ (fun _ _ _ => Option.some_ne_none _) ops standard
  have fds := (redirected_run ops standard calls).2 1
  refine ⟨rfl, standard, q, calls, fds.trans (by decide +kernel), fun wins => ?_⟩
  rw [order] at wins
  have last := wins 1 (Or.inr rfl) (.gt, ⟨4, 5⟩) rfl
  have apart : ¬ some (target byPath (·.text twiceLine) (.gt, ⟨2, 3⟩)) =
      some (target byPath (·.text twiceLine) (.gt, ⟨4, 5⟩)) := by decide +kernel
  exact apart (fds.symm.trans last)

end Order

end RandomRepo.Xv6.Sh
