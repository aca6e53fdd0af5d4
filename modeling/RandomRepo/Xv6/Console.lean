import RandomRepo.Lib.RingQueue
import RandomRepo.Lib.Run

/-!
# The line buffer of the console

`consoleintr` puts what is typed into a ring, with three indices: what is before `w` is committed and
may be read, what is between `w` and `e` may still be edited.  `consoleread` takes committed bytes.
The indices are 32-bit words that wrap around.

`cons.lock` is held from the first to the last key of an interrupt, and by a reader until it
sleeps or returns, so these are the steps.  Any number of processes read.  A process that sleeps
may look again at any time, whether it has been woken or not.

History variables: `committed` are the bytes that have ever been committed, `taken` those that
readers have removed from the ring, with the reader, and `returned` the calls that have returned.
-/

namespace RandomRepo.Xv6

/-- `INPUT_BUF`. -/
def inputBuf : Nat := 128

def newline : UInt8 := 10

def carriageReturn : UInt8 := 13

def del : UInt8 := 0x7f

/-- `C(x)`. -/
def ctrl (c : Char) : UInt8 := .ofNat (c.toNat - '@'.toNat)

/-- Why a call has returned. -/
inductive ReadEnd
  | full
  | line
  /-- At `^D`, which is gone. -/
  | eof
  /-- At `^D` after some bytes; it is kept. -/
  | held
  | killed
  deriving DecidableEq, Repr

/-- The end of file that a call removes. -/
def ReadEnd.eaten : ReadEnd → List UInt8
  | .eof => [ctrl 'D']
  | _ => []

/-- What a call of a size may return, `next` being the first byte that is left. -/
def ReadEnd.Lawful (target : Nat) (got : List UInt8) (next : Option UInt8) : ReadEnd → Prop
  | .full => got.length = target
  | .line => got.getLast? = some newline
  | .eof => got = []
  | .held => got ≠ [] ∧ next = some (ctrl 'D')
  | .killed => next = none

/-- A call of `consoleread`: bytes that are still wanted, the size of the call, and the bytes stored
in `dst`. -/
structure Reader where
  n : Nat
  target : Nat
  got : List UInt8
  deriving DecidableEq, Repr

structure Returned where
  reader : Nat
  target : Nat
  got : List UInt8
  how : ReadEnd
  /-- The first committed byte that is left. -/
  next : Option UInt8
  deriving DecidableEq, Repr

structure Console where
  buf : Nat → UInt8
  r : UInt32
  w : UInt32
  e : UInt32
  reader : Nat → Option Reader
  committed : List UInt8
  taken : List (Nat × UInt8)
  returned : List Returned

namespace Console

def init (r : UInt32) : Console := ⟨fun _ => 0, r, r, r, fun _ => none, [], [], []⟩

/-- The committed bytes that have not been read. -/
def pending (s : Console) : List UInt8 :=
  ringContents s.buf inputBuf s.r.toNat (s.w - s.r).toNat

/-- The bytes that may still be edited. -/
def editing (s : Console) : List UInt8 :=
  ringContents s.buf inputBuf s.w.toNat (s.e - s.w).toNat

/-! ## Keys -/

/-- The loop of `^U`, which ends at `w` at the latest. -/
def killLine : Nat → Console → Console
  | 0, s => s
  | k + 1, s =>
    if s.e ≠ s.w ∧ s.buf ((s.e - 1).toNat % inputBuf) ≠ newline then
      killLine k { s with e := s.e - 1 }
    else s

/-- `input.w = input.e`. -/
def commit (s : Console) : Console :=
  { s with w := s.e, committed := s.committed ++ s.editing }

/-- One turn of the loop of `consoleintr`. -/
def key (s : Console) (c : UInt8) : Console :=
  if c = ctrl 'P' then s
  else if c = ctrl 'U' then s.killLine (s.e - s.w).toNat
  else if c = ctrl 'H' ∨ c = del then
    if s.e ≠ s.w then { s with e := s.e - 1 } else s
  else if c ≠ 0 ∧ (s.e - s.r).toNat < inputBuf then
    let c := if c = carriageReturn then newline else c
    let s := { s with buf := Function.update s.buf (s.e.toNat % inputBuf) c, e := s.e + 1 }
    if c = newline ∨ c = ctrl 'D' ∨ s.e = s.r + .ofNat inputBuf then s.commit else s
  else s

def consoleintr (s : Console) (cs : List UInt8) : Console := cs.foldl key s

/-! ## Readers -/

/-- What becomes of a call. -/
inductive Outcome
  | sleeps (rd : Reader)
  | returns (got : List UInt8) (how : ReadEnd)

/-- The loop of `consoleread` of process `i`, until it sleeps or returns. -/
def readLoop (i : Nat) (killed : Bool) (target : Nat) :
    Nat → List UInt8 → Console → Outcome × Console
  | 0, got, s => (.returns got .full, s)
  | n + 1, got, s =>
    if s.r = s.w then
      if killed then (.returns got .killed, s) else (.sleeps ⟨n + 1, target, got⟩, s)
    else
      let c := s.buf (s.r.toNat % inputBuf)
      let s := { s with r := s.r + 1 }
      if c = ctrl 'D' then
        if n + 1 < target then (.returns got .held, { s with r := s.r - 1 })
        else (.returns got .eof, { s with taken := s.taken ++ [(i, c)] })
      else
        let s := { s with taken := s.taken ++ [(i, c)] }
        if c = newline then (.returns (got ++ [c]) .line, s)
        else readLoop i killed target n (got ++ [c]) s

def finish (i target : Nat) : Outcome → Console → Console
  | .sleeps rd, s => { s with reader := Function.update s.reader i (some rd) }
  | .returns got how, s =>
    { s with
      reader := Function.update s.reader i none
      returned := s.returned ++ [⟨i, target, got, how, s.pending.head?⟩] }

/-- Process `i` goes on with its call. -/
def readerRun (i : Nat) (killed : Bool) (rd : Reader) (s : Console) : Console :=
  let p := s.readLoop i killed rd.target rd.n rd.got
  p.2.finish i rd.target p.1

inductive Act
  | keys (cs : List UInt8)
  | call (i : Nat) (n : Int)
  | run (i : Nat) (killed : Bool)

inductive Step (s : Console) : Act → Console → Prop
  | keys (cs : List UInt8) : Step s (.keys cs) (s.consoleintr cs)
  | call {i : Nat} (n : Int) (idle : s.reader i = none) :
      Step s (.call i n)
        { s with reader := Function.update s.reader i (some ⟨n.toNat, n.toNat, []⟩) }
  | run {i : Nat} {rd : Reader} (killed : Bool) (reading : s.reader i = some rd) :
      Step s (.run i killed) (s.readerRun i killed rd)

variable {s s' : Console} {i : Nat}

/-! ## The indices -/

/-- The indices are in order, and less than a round apart. -/
structure Ordered (s : Console) : Prop where
  write : (s.w - s.r).toNat ≤ (s.e - s.r).toNat
  edit : (s.e - s.r).toNat ≤ inputBuf

theorem toNat_sub (a b : UInt32) :
    (a - b).toNat = (4294967296 - b.toNat + a.toNat) % 4294967296 := UInt32.toNat_sub a b

theorem toNat_succ (a : UInt32) : (a + 1).toNat = (a.toNat + 1) % 4294967296 := by
  rw [UInt32.toNat_add]
  rfl

theorem Ordered.editing (ordered : s.Ordered) :
    (s.e - s.r).toNat = (s.w - s.r).toNat + (s.e - s.w).toNat := by
  have order := ordered.write
  have r := s.r.toNat_lt
  have w := s.w.toNat_lt
  have e := s.e.toNat_lt
  simp only [toNat_sub] at order ⊢
  omega

/-- The cells of the indices. -/
theorem cell_w (s : Console) :
    s.w.toNat % inputBuf = (s.r.toNat + (s.w - s.r).toNat) % inputBuf := by
  have r := s.r.toNat_lt
  have w := s.w.toNat_lt
  rw [toNat_sub, inputBuf]
  omega

theorem cell_e (s : Console) :
    s.e.toNat % inputBuf = (s.r.toNat + (s.e - s.r).toNat) % inputBuf := by
  have r := s.r.toNat_lt
  have e := s.e.toNat_lt
  rw [toNat_sub, inputBuf]
  omega

/-! ## Keys -/

/-- What a key does: bytes that have not been committed come and go, or they are all committed. -/
structure Edits (s t : Console) : Prop where
  ordered : t.Ordered
  r : t.r = s.r
  reader : t.reader = s.reader
  taken : t.taken = s.taken
  returned : t.returned = s.returned
  commits : ∃ new, t.committed = s.committed ++ new ∧ t.pending = s.pending ++ new

theorem Edits.refl (ordered : s.Ordered) : Edits s s :=
  ⟨ordered, rfl, rfl, rfl, rfl, [], (List.append_nil _).symm, (List.append_nil _).symm⟩

theorem Edits.trans {t u : Console} (one : Edits s t) (two : Edits t u) : Edits s u := by
  obtain ⟨new, committed, pending⟩ := one.commits
  obtain ⟨new', committed', pending'⟩ := two.commits
  refine ⟨two.ordered, two.r.trans one.r, two.reader.trans one.reader, two.taken.trans one.taken,
    two.returned.trans one.returned, new ++ new', ?_, ?_⟩
  · rw [committed', committed, List.append_assoc]
  · rw [pending', pending, List.append_assoc]

/-- The last byte that is not committed is removed. -/
theorem edits_erase (ordered : s.Ordered) (some_ : s.e ≠ s.w) :
    Edits s { s with e := s.e - 1 } := by
  obtain ⟨write, edit⟩ := ordered
  have r := s.r.toNat_lt
  have w := s.w.toNat_lt
  have e := s.e.toNat_lt
  have one : (1 : UInt32).toNat = 1 := rfl
  rw [ne_eq, ← UInt32.toNat_inj] at some_
  refine ⟨⟨?_, ?_⟩, rfl, rfl, rfl, rfl, [], (List.append_nil _).symm, (List.append_nil _).symm⟩
  · simp only [toNat_sub] at write edit ⊢
    omega
  · simp only [toNat_sub, inputBuf] at write edit ⊢
    omega

theorem edits_killLine (k : Nat) (ordered : s.Ordered) : Edits s (s.killLine k) := by
  induction k generalizing s with
  | zero => exact .refl ordered
  | succ k ih =>
    rw [killLine]
    split_ifs with more
    · have erase := edits_erase ordered more.1
      exact erase.trans (ih erase.ordered)
    · exact .refl ordered

/-- A byte is added behind the others. -/
theorem edits_store (ordered : s.Ordered) (room : (s.e - s.r).toNat < inputBuf) (c : UInt8) :
    Edits s { s with buf := Function.update s.buf (s.e.toNat % inputBuf) c, e := s.e + 1 } := by
  obtain ⟨write, edit⟩ := ordered
  have r := s.r.toNat_lt
  have w := s.w.toNat_lt
  have e := s.e.toNat_lt
  have more : (s.e + 1 - s.r).toNat = (s.e - s.r).toNat + 1 := by
    simp only [toNat_sub, toNat_succ, inputBuf] at room ⊢
    omega
  refine ⟨⟨?_, ?_⟩, rfl, rfl, rfl, rfl, [], (List.append_nil _).symm, ?_⟩
  · show (s.w - s.r).toNat ≤ (s.e + 1 - s.r).toNat
    omega
  · show (s.e + 1 - s.r).toNat ≤ _
    omega
  · rw [List.append_nil, pending, pending, cell_e]
    exact ringContents_store write room c

theorem edits_commit (ordered : s.Ordered) : Edits s s.commit := by
  refine ⟨⟨Nat.le_refl _, ordered.edit⟩, rfl, rfl, rfl, rfl, s.editing, rfl, ?_⟩
  show ringContents s.buf inputBuf s.r.toNat (s.e - s.r).toNat = _
  rw [ordered.editing, ringContents_append, pending, editing]
  rw [ringContents_mod s.cell_w]

theorem edits_key (ordered : s.Ordered) (c : UInt8) : Edits s (s.key c) := by
  unfold key
  split
  · exact .refl ordered
  split
  · exact edits_killLine _ ordered
  split
  · split
    · rename_i some_
      exact edits_erase ordered some_
    · exact .refl ordered
  split
  · rename_i typed
    have store := edits_store ordered typed.2
    dsimp only
    generalize (if c = carriageReturn then newline else c) = c
    split
    · exact (store c).trans (edits_commit (store c).ordered)
    · exact store c
  · exact .refl ordered

theorem edits_consoleintr (cs : List UInt8) (ordered : s.Ordered) :
    Edits s (s.consoleintr cs) := by
  induction cs generalizing s with
  | nil => exact .refl ordered
  | cons c cs ih =>
    have first := edits_key ordered c
    exact first.trans (ih first.ordered)

/-! ## Reading -/

/-- A committed byte is taken. -/
theorem Ordered.pop (ordered : s.Ordered) (some_ : s.r ≠ s.w) :
    ({ s with r := s.r + 1 } : Console).Ordered ∧
      s.pending = s.buf (s.r.toNat % inputBuf) :: ({ s with r := s.r + 1 } : Console).pending := by
  obtain ⟨write, edit⟩ := ordered
  have r := s.r.toNat_lt
  have w := s.w.toNat_lt
  have e := s.e.toNat_lt
  rw [ne_eq, ← UInt32.toNat_inj] at some_
  have less : (s.w - s.r).toNat = (s.w - (s.r + 1)).toNat + 1 := by
    simp only [toNat_sub, toNat_succ]
    omega
  refine ⟨⟨?_, ?_⟩, ?_⟩
  · simp only [toNat_sub, toNat_succ, inputBuf] at write edit ⊢
    omega
  · simp only [toNat_sub, toNat_succ, inputBuf] at write edit ⊢
    omega
  · rw [pending, less, ringContents_pop, pending]
    refine congrArg _ (ringContents_mod ?_)
    show (s.r.toNat + 1) % inputBuf = (s.r + 1).toNat % inputBuf
    rw [toNat_succ, inputBuf]
    omega

theorem pending_nil : s.pending = [] ↔ s.r = s.w := by
  have r := s.r.toNat_lt
  have w := s.w.toNat_lt
  rw [← List.length_eq_zero_iff, pending, ringContents_length, toNat_sub, ← UInt32.toNat_inj]
  omega

def Outcome.got : Outcome → List UInt8
  | .sleeps rd => rd.got
  | .returns got _ => got

/-- The end of file that a call removes. -/
def Outcome.eaten : Outcome → List UInt8
  | .sleeps _ => []
  | .returns _ how => how.eaten

def Outcome.Lawful (target : Nat) (next : Option UInt8) : Outcome → Prop
  | .sleeps rd => rd.target = target ∧ rd.n + rd.got.length = target
  | .returns got how => got.length ≤ target ∧ how.Lawful target got next

/-- What the loop does to the ring and to the history. -/
structure Reads (i target : Nat) (got : List UInt8) (s : Console) (o : Outcome) (t : Console) :
    Prop where
  ordered : t.Ordered
  committed : t.committed = s.committed
  reader : t.reader = s.reader
  returned : t.returned = s.returned
  bytes : ∃ new, o.got = got ++ new ∧ s.pending = new ++ o.eaten ++ t.pending ∧
    t.taken = s.taken ++ (new ++ o.eaten).map (Prod.mk i)
  data : ctrl 'D' ∉ o.got
  lawful : o.Lawful target t.pending.head?

/-- A call that stops where it is. -/
theorem reads_stop {target : Nat} {got : List UInt8} {o : Outcome} (ordered : s.Ordered)
    (data : ctrl 'D' ∉ got) (same : o.got = got) (nothing : o.eaten = [])
    (lawful : o.Lawful target s.pending.head?) : Reads i target got s o s := by
  refine ⟨ordered, rfl, rfl, rfl, ⟨[], ?_, ?_, ?_⟩, same ▸ data, lawful⟩
  · rw [same, List.append_nil]
  · rw [nothing]
    rfl
  · rw [nothing]
    exact (List.append_nil _).symm

theorem reads_readLoop (killed : Bool) {target n : Nat} {got : List UInt8} (ordered : s.Ordered)
    (size : n + got.length = target) (data : ctrl 'D' ∉ got) :
    Reads i target got s (s.readLoop i killed target n got).1 (s.readLoop i killed target n got).2 := by
  induction n generalizing s got with
  | zero =>
    refine reads_stop ordered data rfl rfl ⟨by omega, ?_⟩
    show got.length = target
    omega
  | succ n ih =>
    rw [readLoop]
    by_cases empty : s.r = s.w
    · rw [if_pos empty]
      cases killed with
      | true =>
        refine reads_stop ordered data rfl rfl ⟨by omega, ?_⟩
        show s.pending.head? = none
        rw [pending_nil.mpr empty]
        rfl
      | false => exact reads_stop ordered data rfl rfl ⟨rfl, size⟩
    · rw [if_neg empty]
      obtain ⟨ordered', pop⟩ := ordered.pop empty
      dsimp only
      generalize s.buf (s.r.toNat % inputBuf) = c at pop ⊢
      by_cases eof : c = ctrl 'D'
      · rw [if_pos eof]
        by_cases some_ : n + 1 < target
        · rw [if_pos some_]
          have back : s.r + 1 - 1 = s.r := by
            rw [← UInt32.toNat_inj, toNat_sub, toNat_succ]
            have r := s.r.toNat_lt
            have one : (1 : UInt32).toNat = 1 := rfl
            omega
          rw [back]
          refine reads_stop ordered data rfl rfl ⟨by omega, ?_, ?_⟩
          · intro nothing
            rw [nothing, List.length_nil] at size
            omega
          · rw [pop, eof]
            rfl
        · rw [if_neg some_]
          have none_ : got = [] := List.length_eq_zero_iff.mp (by omega)
          refine ⟨⟨ordered'.write, ordered'.edit⟩, rfl, rfl, rfl, ⟨[], ?_, ?_, ?_⟩, data, ?_, ?_⟩
          · exact (List.append_nil _).symm
          · rw [pop, eof]
            rfl
          · rw [eof]
            rfl
          · show got.length ≤ target
            omega
          · exact none_
      · rw [if_neg eof]
        have data' : ctrl 'D' ∉ got ++ [c] := by
          rw [List.mem_append, List.mem_singleton]
          rintro (old | new)
          · exact data old
          · exact eof new.symm
        by_cases line : c = newline
        · rw [if_pos line]
          refine ⟨⟨ordered'.write, ordered'.edit⟩, rfl, rfl, rfl, ⟨[c], rfl, pop, rfl⟩, data', ?_, ?_⟩
          · show (got ++ [c]).length ≤ target
            rw [List.length_append, List.length_singleton]
            omega
          · show (got ++ [c]).getLast? = some newline
            rw [List.getLast?_append, line]
            rfl
        · rw [if_neg line]
          have rest := ih (s := { s with r := s.r + 1, taken := s.taken ++ [(i, c)] })
            ⟨ordered'.write, ordered'.edit⟩
            (by rw [List.length_append, List.length_singleton]; omega) data'
          obtain ⟨new, more, pending, taken⟩ := rest.bytes
          refine ⟨rest.ordered, rest.committed, rest.reader, rest.returned,
            ⟨c :: new, ?_, ?_, ?_⟩, rest.data, rest.lawful⟩
          · rw [more, List.append_assoc]
            rfl
          · rw [pop]
            exact congrArg _ pending
          · rw [taken, List.append_assoc]
            rfl

/-! ## Runs -/

/-- The bytes that process `i` has removed from the ring. -/
def takenBy (s : Console) (i : Nat) : List UInt8 := (s.taken.filter (·.1 = i)).map Prod.snd

/-- The bytes its completed calls have returned, and the ends of file they have removed. -/
def returnedTo (s : Console) (i : Nat) : List UInt8 :=
  (s.returned.filter (·.reader = i)).flatMap fun c => c.got ++ c.how.eaten

/-- The bytes of the call that is going on. -/
def underway (s : Console) (i : Nat) : List UInt8 := (s.reader i).elim [] Reader.got

structure Inv (s : Console) : Prop where
  ordered : s.Ordered
  stream : s.committed = s.taken.map Prod.snd ++ s.pending
  sizes : ∀ i rd, s.reader i = some rd → rd.n + rd.got.length = rd.target ∧ ctrl 'D' ∉ rd.got
  calls : ∀ i, s.takenBy i = s.returnedTo i ++ s.underway i
  lawful : ∀ c ∈ s.returned, ctrl 'D' ∉ c.got ∧ c.got.length ≤ c.target ∧
    c.how.Lawful c.target c.got c.next

theorem Inv.keys (inv : s.Inv) (cs : List UInt8) : (s.consoleintr cs).Inv := by
  have edits := edits_consoleintr cs inv.ordered
  obtain ⟨new, committed, pending⟩ := edits.commits
  refine ⟨edits.ordered, ?_, ?_, fun i => ?_, ?_⟩
  · rw [committed, edits.taken, pending, ← List.append_assoc, ← inv.stream]
  · rw [edits.reader]
    exact inv.sizes
  · rw [takenBy, returnedTo, underway, edits.taken, edits.returned, edits.reader]
    exact inv.calls i
  · rw [edits.returned]
    exact inv.lawful

theorem Inv.call (inv : s.Inv) (n : Int) (idle : s.reader i = none) :
    ({ s with reader := Function.update s.reader i (some ⟨n.toNat, n.toNat, []⟩) } :
      Console).Inv := by
  refine ⟨⟨inv.ordered.write, inv.ordered.edit⟩, inv.stream, fun j rd reading => ?_, fun j => ?_,
    inv.lawful⟩
  · by_cases here : j = i
    · subst here
      dsimp only at reading
      rw [Function.update_self] at reading
      cases reading
      exact ⟨rfl, List.not_mem_nil⟩
    · dsimp only at reading
      rw [Function.update_of_ne here] at reading
      exact inv.sizes j rd reading
  · refine (inv.calls j).trans (congrArg _ ?_)
    unfold underway
    dsimp only
    by_cases here : j = i
    · subst here
      rw [idle, Function.update_self]
      rfl
    · rw [Function.update_of_ne here]

/-- What is removed from the ring belongs to one process. -/
theorem takenBy_append {t : Console} {bytes : List UInt8}
    (taken : t.taken = s.taken ++ bytes.map (Prod.mk i)) (j : Nat) :
    t.takenBy j = s.takenBy j ++ if j = i then bytes else [] := by
  unfold takenBy
  rw [taken, List.filter_append, List.map_append]
  congr 1
  split_ifs with here
  · subst here
    simp [List.filter_map, Function.comp_def]
  · simp [List.filter_map, Function.comp_def, Ne.symm here]

theorem Inv.run {rd : Reader} (inv : s.Inv) (killed : Bool) (reading : s.reader i = some rd) :
    (s.readerRun i killed rd).Inv := by
  obtain ⟨size, data⟩ := inv.sizes i rd reading
  have reads := reads_readLoop (i := i) killed inv.ordered size data
  unfold readerRun
  generalize s.readLoop i killed rd.target rd.n rd.got = p at reads
  obtain ⟨o, t⟩ := p
  dsimp only at reads ⊢
  obtain ⟨new, got, pending, taken⟩ := reads.bytes
  have stream : t.committed = t.taken.map Prod.snd ++ t.pending := by
    rw [reads.committed, inv.stream, pending, taken]
    simp [Function.comp_def]
  have mine : s.underway i = rd.got := by
    rw [underway, reading]
    rfl
  have before := inv.calls
  have lawful := inv.lawful
  have sizes := inv.sizes
  rw [← reads.reader] at sizes
  rw [← reads.returned] at lawful
  cases o with
  | sleeps rd' =>
    refine ⟨⟨reads.ordered.write, reads.ordered.edit⟩, stream, fun j rd₁ reading₁ => ?_,
      fun j => ?_, lawful⟩
    · by_cases here : j = i
      · subst here
        simp only [finish, Function.update_self, Option.some.injEq] at reading₁
        subst reading₁
        obtain ⟨target, size⟩ := reads.lawful
        exact ⟨target ▸ size, reads.data⟩
      · simp only [finish, Function.update_of_ne here] at reading₁
        exact sizes j rd₁ reading₁
    · refine (takenBy_append taken j).trans ?_
      rw [before, returnedTo, returnedTo, ← reads.returned]
      unfold underway
      simp only [finish]
      by_cases here : j = i
      · subst here
        rw [if_pos rfl, Function.update_self, reading, List.append_assoc]
        refine congrArg _ (Eq.trans ?_ got.symm)
        simp [Outcome.eaten]
      · rw [if_neg here, Function.update_of_ne here, List.append_nil, reads.reader]
  | returns bytes how =>
    refine ⟨⟨reads.ordered.write, reads.ordered.edit⟩, stream, fun j rd₁ reading₁ => ?_,
      fun j => ?_, fun c member => ?_⟩
    · by_cases here : j = i
      · subst here
        simp only [finish, Function.update_self] at reading₁
        cases reading₁
      · simp only [finish, Function.update_of_ne here] at reading₁
        exact sizes j rd₁ reading₁
    · refine (takenBy_append taken j).trans ?_
      rw [before, returnedTo, returnedTo]
      unfold underway
      simp only [finish]
      rw [List.filter_append, List.flatMap_append, reads.returned, List.append_assoc,
        List.append_assoc]
      refine congrArg _ ?_
      by_cases here : j = i
      · subst here
        rw [if_pos rfl, Function.update_self, reading]
        change bytes = rd.got ++ new at got
        simp [got, Outcome.eaten]
      · rw [if_neg here, Function.update_of_ne here, List.append_nil, reads.reader]
        simp [Ne.symm here]
    · simp only [finish, List.mem_append, List.mem_singleton] at member
      rcases member with old | rfl
      · exact lawful c old
      · exact ⟨reads.data, reads.lawful.1, reads.lawful.2⟩

theorem Inv.step {a : Act} (inv : s.Inv) (step : Step s a s') : s'.Inv := by
  cases step with
  | keys cs => exact inv.keys cs
  | call n idle => exact inv.call n idle
  | run killed reading => exact inv.run killed reading

/-- What was committed or taken stays so, and keys take nothing away that has been committed. -/
theorem Inv.grows {a : Act} (inv : s.Inv) (step : Step s a s') :
    s.committed <+: s'.committed ∧ s.taken <+: s'.taken ∧
      ∀ cs, a = .keys cs → s'.taken = s.taken ∧ s.pending <+: s'.pending := by
  cases step with
  | keys cs =>
    have edits := edits_consoleintr cs inv.ordered
    obtain ⟨new, committed, pending⟩ := edits.commits
    exact ⟨⟨new, committed.symm⟩, edits.taken ▸ List.prefix_rfl,
      fun _ _ => ⟨edits.taken, new, pending.symm⟩⟩
  | call n idle => exact ⟨List.prefix_rfl, List.prefix_rfl, nofun⟩
  | @run i rd killed reading =>
    obtain ⟨size, data⟩ := inv.sizes i rd reading
    have reads := reads_readLoop (i := i) killed inv.ordered size data
    unfold readerRun
    generalize s.readLoop i killed rd.target rd.n rd.got = p at reads
    obtain ⟨o, t⟩ := p
    dsimp only at reads ⊢
    obtain ⟨new, -, -, taken⟩ := reads.bytes
    have committed : (t.finish i rd.target o).committed = t.committed := by cases o <;> rfl
    have kept : (t.finish i rd.target o).taken = t.taken := by cases o <;> rfl
    rw [committed, kept, reads.committed, taken]
    exact ⟨List.prefix_rfl, List.prefix_append _ _, nofun⟩

/-- **The line buffer.**  For every interleaving of keys and readers, from indices anywhere in their
range: the indices stay in order; the bytes taken by the readers, followed by the bytes waiting to be
read, are the bytes committed, in their order; each process has taken what its calls have
returned, with the `^D` of those that ended at one, and what its current call has so far; a call
returns no `^D` and no more than it asks for, and ends because it is full, at a newline, at a
`^D` with nothing, or before a `^D` that is left for the next call.  No step takes back a committed
byte; keys leave the committed bytes that wait where they are. -/
theorem line_buffer {start : UInt32} (run : Run Step anyStep (init start) s) :
    (s.w - s.r).toNat ≤ (s.e - s.r).toNat ∧ (s.e - s.r).toNat ≤ inputBuf ∧
      s.committed = s.taken.map Prod.snd ++ s.pending ∧
      (∀ i, s.takenBy i = s.returnedTo i ++ s.underway i) ∧
      (∀ c ∈ s.returned, ctrl 'D' ∉ c.got ∧ c.got.length ≤ c.target ∧
        c.how.Lawful c.target c.got c.next) ∧
      ∀ a s', Step s a s' → s.committed <+: s'.committed ∧ s.taken <+: s'.taken ∧
        ∀ cs, a = .keys cs → s'.taken = s.taken ∧ s.pending <+: s'.pending := by
  have inv : s.Inv := by
    refine run.invariant Inv ?_ fun s a s' inv _ step => inv.step step
    have zero : (start - start).toNat = 0 := by
      rw [toNat_sub]
      have := start.toNat_lt
      omega
    refine ⟨⟨Nat.le_refl _, ?_⟩, ?_, nofun, fun i => rfl, nofun⟩
    · exact (Nat.le_of_eq zero).trans (Nat.zero_le _)
    · show [] = [] ++ ringContents _ _ _ (start - start).toNat
      rw [zero]
      rfl
  exact ⟨inv.ordered.write, inv.ordered.edit, inv.stream, inv.calls, inv.lawful,
    fun a s' step => inv.grows step⟩

/-- The step as a function. -/
def act (s : Console) : Act → Option Console
  | .keys cs => some (s.consoleintr cs)
  | .call i n =>
    if s.reader i = none then
      some { s with reader := Function.update s.reader i (some ⟨n.toNat, n.toNat, []⟩) }
    else none
  | .run i killed => (s.reader i).map fun rd => s.readerRun i killed rd

theorem act_step (s : Console) (a : Act) (s' : Console) (h : s.act a = some s') :
    anyStep s a ∧ Step s a s' := by
  refine ⟨trivial, ?_⟩
  cases a with
  | keys cs =>
    cases h
    exact .keys cs
  | call i n =>
    simp only [act] at h
    split_ifs at h with idle
    cases h
    exact .call n idle
  | run i killed =>
    obtain ⟨rd, reading, rfl⟩ := Option.map_eq_some_iff.mp h
    exact .run killed reading

/-- The letters a, b, c with a correction, end of file and a line, across the wrap of the indices: the
first call returns before the end of file, and the second one removes it. -/
theorem line_buffer_wrap : ∃ s, Run Step anyStep (init 4294967295) s ∧
    s.returned.map Returned.got = [[97, 98], []] ∧ s.pending = [99, newline] ∧
    s.committed = s.taken.map Prod.snd ++ s.pending := by
  have found : (follow act [.keys [97, 120, ctrl 'H', 98, ctrl 'D', 99, newline], .call 0 10,
      .run 0 false, .call 0 10, .run 0 false] (init 4294967295)).any (fun s =>
        s.returned.map Returned.got = [[97, 98], []] ∧ s.pending = [99, newline]) = true := by
    decide +kernel
  obtain ⟨s, run, shape⟩ := Run.follow_any Step anyStep act_step found
  have shape := of_decide_eq_true shape
  exact ⟨s, run, shape.1, shape.2, (line_buffer run).2.2.1⟩

end Console

end RandomRepo.Xv6
