import RandomRepo.Xv6.ShTokens

/-!
# The parser accepts its grammar

`Derives` is the grammar of command lines, with the tree of each derivation.  The
recursive descent ends on every string.  It gives a tree exactly if the tokens of
the string are derivable, and then the tree of the derivation; the words of the tree
are C strings after `nulterminate`.
-/

namespace RandomRepo.Xv6.Sh

/-! ## The grammar -/

def Kind.isRedir : Kind → Bool
  | .lt | .gt | .append => true
  | _ => false

/-- The tokens behind a command. -/
def Kind.isEnd : Kind → Bool
  | .bar | .rpar | .amp | .semi => true
  | _ => false

/-- `{redir}` with `redir ::= ('<' | '>' | '>>') word`. -/
inductive Redirs : List Token → List (Kind × Word) → Prop
  | nil : Redirs [] []
  | cons {k : Kind} {v w : Word} {ts : List Token} {rs : List (Kind × Word)} (op : k.isRedir = true)
      (rest : Redirs ts rs) : Redirs (⟨k, v⟩ :: ⟨.word, w⟩ :: ts) ((k, w) :: rs)

/-- The redirections around a command, the last one outermost. -/
def Cmd.redirected (cmd : Cmd) (rs : List (Kind × Word)) : Cmd :=
  rs.foldl (fun cmd r => redirect (some r.1) cmd r.2) cmd

/-- `{word {redir}}` -/
inductive Args : List Token → List Word → List (Kind × Word) → Prop
  | nil : Args [] [] []
  | cons {w : Word} {ts us : List Token} {ws : List Word} {rs rs' : List (Kind × Word)}
      (redirs : Redirs ts rs) (rest : Args us ws rs') :
      Args (⟨.word, w⟩ :: (ts ++ us)) (w :: ws) (rs ++ rs')

def Cmd.backs : Nat → Cmd → Cmd
  | 0, cmd => cmd
  | n + 1, cmd => Cmd.backs n (.back cmd)

inductive Nonterminal
  | line | pipe | exec

/-- The grammar, with the trees. -/
inductive Derives : Nonterminal → List Token → Cmd → Prop
  | block {v w : Word} {ts us : List Token} {cmd : Cmd} {rs : List (Kind × Word)}
      (line : Derives .line ts cmd) (redirs : Redirs us rs) :
      Derives .exec (⟨.lpar, v⟩ :: (ts ++ ⟨.rpar, w⟩ :: us)) (cmd.redirected rs)
  | simple {ts us : List Token} {ws : List Word} {rs rs' : List (Kind × Word)}
      (redirs : Redirs ts rs) (args : Args us ws rs') (few : ws.length ≤ maxargs - 1) :
      Derives .exec (ts ++ us) ((Cmd.exec ws).redirected (rs ++ rs'))
  | one {ts : List Token} {cmd : Cmd} (exec : Derives .exec ts cmd) : Derives .pipe ts cmd
  | pipe {v : Word} {ts us : List Token} {left right : Cmd} (exec : Derives .exec ts left)
      (rest : Derives .pipe us right) : Derives .pipe (ts ++ ⟨.bar, v⟩ :: us) (.pipe left right)
  | last {ts amps : List Token} {cmd : Cmd} (pipe : Derives .pipe ts cmd)
      (only : ∀ t ∈ amps, t.kind = .amp) : Derives .line (ts ++ amps) (cmd.backs amps.length)
  | list {v : Word} {ts amps us : List Token} {cmd right : Cmd} (pipe : Derives .pipe ts cmd)
      (only : ∀ t ∈ amps, t.kind = .amp) (rest : Derives .line us right) :
      Derives .line (ts ++ (amps ++ ⟨.semi, v⟩ :: us)) (.list (cmd.backs amps.length) right)

/-! ## One turn -/

variable {s s' : Cursor} {cmd cmd' : Cmd} {fuel argc : Nat} {k : Kind} {ts rest : List Token}
  {rs : List (Kind × Word)} {ws : List Word}

/-- The text of the next token. -/
def Cursor.word (s : Cursor) : Word := (gettoken s).2.1

theorem gettoken_eq (s : Cursor) : gettoken s = (s.next, s.word, s.after) := by
  cases found : s.next with
  | none =>
    obtain ⟨-, -, kind, -⟩ := gettoken_end found
    exact Prod.ext kind rfl
  | some k =>
    obtain ⟨w, -, token, -⟩ := gettoken_next found
    exact Prod.ext (by rw [token]) rfl

theorem tokens_cons (found : s.next = some k) : s.tokens = ⟨k, s.word⟩ :: s.after.tokens := by
  obtain ⟨w, split, token, -⟩ := gettoken_next found
  rw [Cursor.word, token]
  exact split

theorem after_length (found : s.next = some k) : s.after.rest.length < s.rest.length := by
  obtain ⟨-, -, -, shorter⟩ := gettoken_next found
  exact shorter

theorem tokens_end (none_ : s.next = none) : s.tokens = [] := (gettoken_end none_).1

theorem after_end (none_ : s.next = none) : s.after = s.skipBlanks := (gettoken_end none_).2.2.2

theorem next_of_tokens {t : Token} (split : s.tokens = t :: ts) :
    s.next = some t.kind ∧ s.word = t.word ∧ s.after.tokens = ts := by
  have found : s.next = some t.kind := by
    rw [Cursor.next, split]
    rfl
  have same := tokens_cons found
  rw [split] at same
  cases t
  cases same
  exact ⟨found, rfl, rfl⟩

/-- `peek` for symbols that `p` tells apart. -/
theorem peek_eq {toks : List UInt8} {p : Kind → Bool} (only : toks.all symbols.contains = true)
    (agree : ∀ k, (decide (k ≠ .word) && toks.contains k.char) = p k) :
    peek s toks = (s.next.any p, s.skipBlanks) := by
  have member : ∀ c ∈ toks, c ∈ symbols := fun c found =>
    List.contains_iff_mem.mp (List.all_eq_true.mp only c found)
  refine Prod.ext ?_ (peek_snd s toks)
  rw [peek_fst member]
  cases s.next with
  | none => rfl
  | some k => exact agree k

theorem parseredirs_turn : parseredirs (fuel + 1) cmd s =
    if s.next.any Kind.isRedir then
      if s.after.next ≠ some .word then some (.error .missingFile)
      else parseredirs fuel (redirect s.next cmd s.after.word) s.after.after
    else some (.ok (cmd, s.skipBlanks)) := by
  have peeks : peek s [ascii '<', ascii '>'] = (s.next.any Kind.isRedir, s.skipBlanks) :=
    peek_eq (by decide) fun k => by cases k <;> rfl
  rw [parseredirs, peeks]
  dsimp only
  rw [gettoken_skipBlanks, gettoken_eq s]
  dsimp only
  rw [gettoken_eq s.after]

theorem backLoop_turn : backLoop (fuel + 1) cmd s =
    if s.next.any (· == .amp) then backLoop fuel (.back cmd) s.after
    else some (.ok (cmd, s.skipBlanks)) := by
  have peeks : peek s [ascii '&'] = (s.next.any (· == .amp), s.skipBlanks) :=
    peek_eq (by decide) fun k => by cases k <;> rfl
  rw [backLoop, peeks]
  dsimp only
  rw [gettoken_skipBlanks]
  rfl

theorem argLoop_turn : argLoop (fuel + 1) cmd argc s =
    match s.next with
    | none => some (.ok (cmd, s.skipBlanks))
    | some .word =>
      if maxargs ≤ argc + 1 then some (.error .tooManyArgs)
      else andThen (parseredirs fuel (cmd.addArg s.word) s.after) fun r =>
        argLoop fuel r.1 (argc + 1) r.2
    | some k => if k.isEnd then some (.ok (cmd, s.skipBlanks)) else some (.error .syntaxError) := by
  have peeks : peek s [ascii '|', ascii ')', ascii '&', ascii ';'] =
      (s.next.any Kind.isEnd, s.skipBlanks) :=
    peek_eq (by decide) fun k => by cases k <;> rfl
  rw [argLoop, peeks]
  dsimp only
  rw [gettoken_skipBlanks, gettoken_eq]
  cases found : s.next with
  | none =>
    rw [after_end found]
    rfl
  | some k => cases k <;> rfl

theorem parseline_turn : parseline (fuel + 1) s =
    andThen (parsepipe fuel s) fun r => andThen (backLoop fuel r.1 r.2) fun r =>
      if r.2.next.any (· == .semi) then
        andThen (parseline fuel r.2.after) fun r' => some (.ok (.list r.1 r'.1, r'.2))
      else some (.ok (r.1, r.2.skipBlanks)) := by
  have peeks : ∀ s, peek s [ascii ';'] = (s.next.any (· == .semi), s.skipBlanks) :=
    fun s => peek_eq (by decide) fun k => by cases k <;> rfl
  rw [parseline]
  simp only [peeks, gettoken_skipBlanks]
  rfl

theorem parsepipe_turn : parsepipe (fuel + 1) s =
    andThen (parseexec fuel s) fun r =>
      if r.2.next.any (· == .bar) then
        andThen (parsepipe fuel r.2.after) fun r' => some (.ok (.pipe r.1 r'.1, r'.2))
      else some (.ok (r.1, r.2.skipBlanks)) := by
  have peeks : ∀ s, peek s [ascii '|'] = (s.next.any (· == .bar), s.skipBlanks) :=
    fun s => peek_eq (by decide) fun k => by cases k <;> rfl
  rw [parsepipe]
  simp only [peeks, gettoken_skipBlanks]
  rfl

theorem parseexec_turn : parseexec (fuel + 1) s =
    if s.next.any (· == .lpar) then parseblock fuel s.skipBlanks
    else andThen (parseredirs fuel (.exec []) s.skipBlanks) fun r => argLoop fuel r.1 0 r.2 := by
  have peeks : peek s [ascii '('] = (s.next.any (· == .lpar), s.skipBlanks) :=
    peek_eq (by decide) fun k => by cases k <;> rfl
  rw [parseexec, peeks]

theorem parseblock_turn : parseblock (fuel + 1) s =
    if s.next.any (· == .lpar) then
      andThen (parseline fuel s.after) fun r =>
        if r.2.next.any (· == .rpar) then parseredirs fuel r.1 r.2.after
        else some (.error .missingParen)
    else some (.error .parseblock) := by
  have opens : peek s [ascii '('] = (s.next.any (· == .lpar), s.skipBlanks) :=
    peek_eq (by decide) fun k => by cases k <;> rfl
  have closes : ∀ s, peek s [ascii ')'] = (s.next.any (· == .rpar), s.skipBlanks) :=
    fun s => peek_eq (by decide) fun k => by cases k <;> rfl
  rw [parseblock, opens]
  simp only [closes, gettoken_skipBlanks]
  cases s.next.any (· == .lpar) with
  | false => rfl
  | true =>
    simp only [Bool.not_true, Bool.false_eq_true, if_false, if_true]
    congr 1
    funext r
    cases r.2.next.any (· == .rpar) <;> rfl

/-! ## What is accepted is derivable -/

theorem any_eq_true {p : Kind → Bool} {o : Option Kind} (holds : o.any p = true) :
    ∃ k, o = some k ∧ p k = true := by
  cases o with
  | none => cases holds
  | some k => exact ⟨k, rfl, holds⟩

theorem any_beq {o : Option Kind} (holds : o.any (· == k) = true) : o = some k := by
  obtain ⟨k', rfl, same⟩ := any_eq_true holds
  rw [beq_iff_eq.mp same]

theorem Cmd.redirected_append (cmd : Cmd) (rs rs' : List (Kind × Word)) :
    cmd.redirected (rs ++ rs') = (cmd.redirected rs).redirected rs' :=
  List.foldl_append

/-- Arguments go to the command inside the redirections. -/
theorem Cmd.addArg_redirected (cmd : Cmd) (rs : List (Kind × Word)) (w : Word) :
    (cmd.redirected rs).addArg w = (cmd.addArg w).redirected rs := by
  induction rs generalizing cmd with
  | nil => rfl
  | cons r rs ih =>
    have inner : (redirect (some r.1) cmd r.2).addArg w = redirect (some r.1) (cmd.addArg w) r.2 := by
      cases r.1 <;> rfl
    show ((redirect (some r.1) cmd r.2).redirected rs).addArg w = _
    rw [ih, inner]
    rfl

theorem parseredirs_sound (h : parseredirs fuel cmd s = some (.ok (cmd', s'))) :
    s'.rest.length ≤ s.rest.length ∧ ∃ ts rs, Redirs ts rs ∧ s.tokens = ts ++ s'.tokens ∧
      cmd' = cmd.redirected rs := by
  induction fuel generalizing cmd s with
  | zero => cases h
  | succ fuel ih =>
    rw [parseredirs_turn] at h
    split_ifs at h with more missing
    · cases h
    · obtain ⟨k, found, op⟩ := any_eq_true more
      have file : s.after.next = some .word := not_not.mp missing
      obtain ⟨shorter, ts, rs, redirs, split, rfl⟩ := ih h
      have less := after_length found
      have less' := after_length file
      refine ⟨by omega, ⟨k, s.word⟩ :: ⟨.word, s.after.word⟩ :: ts, (k, s.after.word) :: rs,
        .cons op redirs, ?_, ?_⟩
      · rw [tokens_cons found, tokens_cons file, split]
        rfl
      · rw [found]
        rfl
    · cases h
      exact ⟨s.skipBlanks_length, [], [], .nil, (s.tokens_skipBlanks).symm, rfl⟩

theorem backLoop_sound (h : backLoop fuel cmd s = some (.ok (cmd', s'))) :
    s'.rest.length ≤ s.rest.length ∧ ∃ amps : List Token, (∀ t ∈ amps, t.kind = .amp) ∧
      s.tokens = amps ++ s'.tokens ∧ cmd' = cmd.backs amps.length := by
  induction fuel generalizing cmd s with
  | zero => cases h
  | succ fuel ih =>
    rw [backLoop_turn] at h
    split_ifs at h with more
    · have found := any_beq more
      obtain ⟨shorter, amps, only, split, rfl⟩ := ih h
      have less := after_length found
      refine ⟨by omega, ⟨.amp, s.word⟩ :: amps, ?_, ?_, rfl⟩
      · intro t member
        rcases List.mem_cons.mp member with rfl | later
        · rfl
        · exact only t later
      · rw [tokens_cons found, split]
        rfl
    · cases h
      refine ⟨s.skipBlanks_length, [], ?_, (s.tokens_skipBlanks).symm, rfl⟩
      exact fun t none_ => absurd none_ List.not_mem_nil

theorem argLoop_sound (h : argLoop fuel ((Cmd.exec ws).redirected rs) argc s = some (.ok (cmd', s'))) :
    s'.rest.length ≤ s.rest.length ∧ ∃ ts ws' rs', Args ts ws' rs' ∧ s.tokens = ts ++ s'.tokens ∧
      cmd' = (Cmd.exec (ws ++ ws')).redirected (rs ++ rs') ∧
      (ws' = [] ∨ argc + ws'.length ≤ maxargs - 1) := by
  induction fuel generalizing ws rs argc s with
  | zero => cases h
  | succ fuel ih =>
    have stops : (Cmd.exec ws).redirected rs = cmd' → s.skipBlanks = s' →
        s'.rest.length ≤ s.rest.length ∧ ∃ ts ws' rs', Args ts ws' rs' ∧
          s.tokens = ts ++ s'.tokens ∧ cmd' = (Cmd.exec (ws ++ ws')).redirected (rs ++ rs') ∧
          (ws' = [] ∨ argc + ws'.length ≤ maxargs - 1) := by
      rintro rfl rfl
      refine ⟨s.skipBlanks_length, [], [], [], .nil, (s.tokens_skipBlanks).symm, ?_, .inl rfl⟩
      rw [List.append_nil, List.append_nil]
    rw [argLoop_turn] at h
    cases found : s.next with
    | none =>
      rw [found] at h
      cases h
      exact stops rfl rfl
    | some k =>
      rw [found] at h
      by_cases word : k = .word
      · subst word
        dsimp only at h
        split_ifs at h with many
        · cases h
        obtain ⟨⟨ret, s₁⟩, redirs, loop⟩ := andThen_ok_iff.mp h
        rw [Cmd.addArg_redirected] at redirs
        obtain ⟨shorter, ts, rs₁, derived, split, rfl⟩ := parseredirs_sound redirs
        dsimp only at loop
        rw [← Cmd.redirected_append] at loop
        obtain ⟨shorter', us, ws', rs', args, split', rfl, few⟩ := ih loop
        have less := after_length found
        refine ⟨by omega, ⟨.word, s.word⟩ :: (ts ++ us), s.word :: ws', rs₁ ++ rs',
          .cons derived args, ?_, ?_, .inr ?_⟩
        · rw [tokens_cons found, split, split', List.cons_append, List.append_assoc]
        · rw [List.append_assoc, List.append_assoc]
          rfl
        · rw [List.length_cons]
          rcases few with rfl | few
          · simp only [List.length_nil]
            omega
          · omega
      · have ended : (if k.isEnd then some (.ok ((Cmd.exec ws).redirected rs, s.skipBlanks))
            else some (.error Panic.syntaxError)) =
              (some (.ok (cmd', s')) : Option (Except Panic (Cmd × Cursor))) := by
          cases k <;> first | exact h | exact absurd rfl word
        split_ifs at ended
        · cases ended
          exact stops rfl rfl
        · cases ended

/-- A piece of the command line that has been read as a tree. -/
def Parsed (n : Nonterminal) (s : Cursor) (cmd : Cmd) (s' : Cursor) : Prop :=
  s'.rest.length ≤ s.rest.length ∧ ∃ ts, Derives n ts cmd ∧ s.tokens = ts ++ s'.tokens

/-- What the four functions of the descent give with `fuel`. -/
structure Sound (fuel : Nat) : Prop where
  line : ∀ s cmd s', parseline fuel s = some (.ok (cmd, s')) → Parsed .line s cmd s'
  pipe : ∀ s cmd s', parsepipe fuel s = some (.ok (cmd, s')) → Parsed .pipe s cmd s'
  exec : ∀ s cmd s', parseexec fuel s = some (.ok (cmd, s')) → Parsed .exec s cmd s'
  block : ∀ s cmd s', parseblock fuel s = some (.ok (cmd, s')) → Parsed .exec s cmd s'

theorem Sound.succ_line (sound : Sound fuel) (h : parseline (fuel + 1) s = some (.ok (cmd, s'))) :
    Parsed .line s cmd s' := by
  rw [parseline_turn] at h
  obtain ⟨⟨first, s₁⟩, pipe, h⟩ := andThen_ok_iff.mp h
  obtain ⟨⟨second, s₂⟩, amp, h⟩ := andThen_ok_iff.mp h
  obtain ⟨shorter₁, ts, derived, split⟩ := sound.pipe _ _ _ pipe
  obtain ⟨shorter₂, amps, only, split', rfl⟩ := backLoop_sound amp
  dsimp only at h shorter₂ split'
  split_ifs at h with more
  · have found := any_beq more
    obtain ⟨⟨right, s₃⟩, line, h⟩ := andThen_ok_iff.mp h
    dsimp only at h
    cases h
    obtain ⟨shorter₃, us, derived', split''⟩ := sound.line _ _ _ line
    have less := after_length found
    refine ⟨by omega, _, .list (v := s₂.word) derived only derived', ?_⟩
    rw [split, split', tokens_cons found, split'']
    simp only [List.append_assoc, List.cons_append]
  · cases h
    have less := s₂.skipBlanks_length
    refine ⟨by omega, _, .last derived only, ?_⟩
    rw [split, split', Cursor.tokens_skipBlanks, List.append_assoc]

theorem Sound.succ_pipe (sound : Sound fuel) (h : parsepipe (fuel + 1) s = some (.ok (cmd, s'))) :
    Parsed .pipe s cmd s' := by
  rw [parsepipe_turn] at h
  obtain ⟨⟨left, s₁⟩, exec, h⟩ := andThen_ok_iff.mp h
  obtain ⟨shorter₁, ts, derived, split⟩ := sound.exec _ _ _ exec
  dsimp only at h
  split_ifs at h with more
  · have found := any_beq more
    obtain ⟨⟨right, s₂⟩, pipe, h⟩ := andThen_ok_iff.mp h
    dsimp only at h
    cases h
    obtain ⟨shorter₂, us, derived', split'⟩ := sound.pipe _ _ _ pipe
    have less := after_length found
    refine ⟨by omega, _, .pipe (v := s₁.word) derived derived', ?_⟩
    rw [split, tokens_cons found, split']
    simp only [List.append_assoc, List.cons_append]
  · cases h
    have less := s₁.skipBlanks_length
    refine ⟨by omega, ts, .one derived, ?_⟩
    rw [split, Cursor.tokens_skipBlanks]

theorem Sound.succ_exec (sound : Sound fuel) (h : parseexec (fuel + 1) s = some (.ok (cmd, s'))) :
    Parsed .exec s cmd s' := by
  have blanks := s.skipBlanks_length
  rw [parseexec_turn] at h
  split_ifs at h with opens
  · obtain ⟨shorter, ts, derived, split⟩ := sound.block _ _ _ h
    rw [Cursor.tokens_skipBlanks] at split
    exact ⟨by omega, ts, derived, split⟩
  · obtain ⟨⟨ret, s₁⟩, redirs, loop⟩ := andThen_ok_iff.mp h
    obtain ⟨shorter, ts, rs, derived, split, rfl⟩ := parseredirs_sound redirs
    dsimp only at loop
    obtain ⟨shorter', us, ws, rs', args, split', rfl, few⟩ := argLoop_sound loop
    rw [Cursor.tokens_skipBlanks] at split
    refine ⟨by omega, ts ++ us, .simple derived args ?_, ?_⟩
    · rcases few with rfl | few
      · exact Nat.zero_le _
      · rwa [Nat.zero_add] at few
    · rw [split, split', List.append_assoc]

theorem Sound.succ_block (sound : Sound fuel) (h : parseblock (fuel + 1) s = some (.ok (cmd, s'))) :
    Parsed .exec s cmd s' := by
  rw [parseblock_turn] at h
  by_cases opens : s.next.any (· == .lpar) = true
  swap
  · rw [if_neg opens] at h
    cases h
  rw [if_pos opens] at h
  have lpar := any_beq opens
  obtain ⟨⟨inner, s₁⟩, line, h⟩ := andThen_ok_iff.mp h
  obtain ⟨shorter, ts, derived, split⟩ := sound.line _ _ _ line
  dsimp only at h
  by_cases closes : s₁.next.any (· == .rpar) = true
  swap
  · rw [if_neg closes] at h
    cases h
  rw [if_pos closes] at h
  have rpar := any_beq closes
  obtain ⟨shorter', us, rs, redirs, split', rfl⟩ := parseredirs_sound h
  have less := after_length lpar
  have less' := after_length rpar
  refine ⟨by omega, _, .block (v := s.word) (w := s₁.word) derived redirs, ?_⟩
  rw [tokens_cons lpar, split, tokens_cons rpar, split']
  simp only [List.append_assoc, List.cons_append]

theorem sound (fuel : Nat) : Sound fuel := by
  induction fuel with
  | zero =>
    refine ⟨fun s cmd s' h => ?_, fun s cmd s' h => ?_, fun s cmd s' h => ?_, fun s cmd s' h => ?_⟩
    · rw [parseline] at h
      cases h
    · rw [parsepipe] at h
      cases h
    · rw [parseexec] at h
      cases h
    · rw [parseblock] at h
      cases h
  | succ fuel ih =>
    exact ⟨fun _ _ _ => ih.succ_line, fun _ _ _ => ih.succ_pipe, fun _ _ _ => ih.succ_exec,
      fun _ _ _ => ih.succ_block⟩

/-! ## What is derivable is accepted -/

/-- The token behind the piece, if there is one, satisfies `p`. -/
def Ahead (p : Kind → Bool) (rest : List Token) : Prop := ∀ t ∈ rest.head?, p t.kind = true

theorem Ahead.mono {p q : Kind → Bool} (ahead : Ahead p rest) (weaker : ∀ k, p k = true → q k = true) :
    Ahead q rest :=
  fun t first => weaker _ (ahead t first)

/-- A cursor in front of such tokens. -/
theorem Ahead.any {p q : Kind → Bool} (ahead : Ahead p s.tokens)
    (apart : ∀ k, p k = true → q k = false) : ¬ s.next.any q = true := by
  intro holds
  obtain ⟨k, found, wrong⟩ := any_eq_true holds
  have right := ahead ⟨k, s.word⟩ (by rw [tokens_cons found]; rfl)
  rw [apart k right] at wrong
  cases wrong

theorem any_of_tokens {p : Kind → Bool} {t : Token} (split : s.tokens = t :: ts)
    (holds : p t.kind = true) : s.next.any p = true := by
  rw [(next_of_tokens split).1]
  exact holds

theorem parseredirs_complete (cmd : Cmd) (redirs : Redirs ts rs) (split : s.tokens = ts ++ rest)
    (ahead : Ahead (fun k => !k.isRedir) rest) :
    ∃ s', Settles (fun fuel => parseredirs fuel cmd s) (.ok (cmd.redirected rs, s')) ∧
      s'.tokens = rest := by
  induction redirs generalizing s cmd with
  | nil =>
    have stops : ¬ s.next.any Kind.isRedir = true := by
      refine Ahead.any (p := fun k => !k.isRedir) ?_ fun k => by cases k <;> decide
      rw [split]
      exact ahead
    refine ⟨s.skipBlanks, (Settles.pure _).turn fun fuel => ?_, ?_⟩
    · rw [parseredirs_turn, if_neg stops]
      rfl
    · rw [Cursor.tokens_skipBlanks, split]
      rfl
  | @cons k v w ts rs op more ih =>
    obtain ⟨kind, -, tail⟩ := next_of_tokens split
    obtain ⟨file, word, tail'⟩ := next_of_tokens tail
    have first : s.next.any Kind.isRedir = true := any_of_tokens split op
    obtain ⟨s', settles, final⟩ := ih (redirect (some k) cmd w) tail'
    refine ⟨s', settles.turn fun fuel => ?_, final⟩
    rw [parseredirs_turn, if_pos first, if_neg (fun missing => missing file), kind, word]

theorem backLoop_complete {amps : List Token} (cmd : Cmd) (only : ∀ t ∈ amps, t.kind = .amp)
    (split : s.tokens = amps ++ rest) (ahead : Ahead (fun k => k != .amp) rest) :
    ∃ s', Settles (fun fuel => backLoop fuel cmd s) (.ok (cmd.backs amps.length, s')) ∧
      s'.tokens = rest := by
  induction amps generalizing s cmd with
  | nil =>
    have stops : ¬ s.next.any (· == .amp) = true := by
      refine Ahead.any (p := fun k => k != .amp) ?_ fun k => by cases k <;> decide
      rw [split]
      exact ahead
    refine ⟨s.skipBlanks, (Settles.pure _).turn fun fuel => ?_, ?_⟩
    · rw [backLoop_turn, if_neg stops]
      rfl
    · rw [Cursor.tokens_skipBlanks, split]
      rfl
  | cons t amps ih =>
    have amp : t.kind = .amp := only t List.mem_cons_self
    obtain ⟨-, -, tail⟩ := next_of_tokens split
    have first : s.next.any (· == .amp) = true := any_of_tokens split (by rw [amp]; decide)
    obtain ⟨s', settles, final⟩ := ih (.back cmd)
      (fun t later => only t (List.mem_cons_of_mem _ later)) tail
    refine ⟨s', settles.turn fun fuel => ?_, final⟩
    rw [backLoop_turn, if_pos first]

/-- Arguments start with a word. -/
theorem Args.ahead {p : Kind → Bool} (args : Args ts ws rs) (ahead : Ahead p rest)
    (word : p .word = true) : Ahead p (ts ++ rest) := by
  cases args with
  | nil => exact ahead
  | cons redirs more =>
    intro t first
    cases first
    exact word

theorem Redirs.ahead {p : Kind → Bool} (redirs : Redirs ts rs) (ahead : Ahead p rest)
    (redir : ∀ k, k.isRedir = true → p k = true) : Ahead p (ts ++ rest) := by
  cases redirs with
  | nil => exact ahead
  | cons op more =>
    intro t first
    cases first
    exact redir _ op

theorem argLoop_complete (argc : Nat) (ws' : List Word) (rs' : List (Kind × Word))
    (args : Args ts ws rs) (split : s.tokens = ts ++ rest) (ahead : Ahead Kind.isEnd rest)
    (few : argc + ws.length ≤ maxargs - 1) :
    ∃ s', Settles (fun fuel => argLoop fuel ((Cmd.exec ws').redirected rs') argc s)
        (.ok ((Cmd.exec (ws' ++ ws)).redirected (rs' ++ rs), s')) ∧ s'.tokens = rest := by
  induction args generalizing s argc ws' rs' with
  | nil =>
    have ends : ∀ k, s.next = some k → k.isEnd = true := by
      intro k found
      have first : (⟨k, s.word⟩ : Token) ∈ rest.head? := by
        rw [show rest = s.tokens from split.symm, tokens_cons found]
        rfl
      exact ahead _ first
    refine ⟨s.skipBlanks, (Settles.pure _).turn fun fuel => ?_, ?_⟩
    · rw [argLoop_turn, List.append_nil, List.append_nil]
      cases found : s.next with
      | none => rfl
      | some k =>
        have isEnd := ends k found
        cases k <;> first | rfl | exact absurd isEnd Bool.false_ne_true
    · rw [Cursor.tokens_skipBlanks, split]
      rfl
  | @cons w ts us ws rs₁ rs₂ redirs more ih =>
    rw [List.length_cons] at few
    rw [List.cons_append, List.append_assoc] at split
    obtain ⟨kind, word, tail⟩ := next_of_tokens split
    have room : ¬ maxargs ≤ argc + 1 := by
      simp only [maxargs] at few ⊢
      omega
    have behind : Ahead (fun k => !k.isRedir) (us ++ rest) :=
      more.ahead (ahead.mono fun k => by cases k <;> decide) rfl
    obtain ⟨s₁, first, tail₁⟩ := parseredirs_complete
      ((Cmd.exec (ws' ++ [w])).redirected rs') redirs tail behind
    rw [← Cmd.redirected_append] at first
    obtain ⟨s', second, final⟩ := ih (argc + 1) (ws' ++ [w]) (rs' ++ rs₁)
      tail₁ (by omega)
    rw [List.append_assoc, List.append_assoc] at second
    refine ⟨s', (first.andThen_ok (h := fun r fuel => argLoop fuel r.1 (argc + 1) r.2)
      second).turn fun fuel => ?_, final⟩
    rw [argLoop_turn, kind]
    dsimp only
    rw [if_neg room, Cmd.addArg_redirected, word]
    rfl

/-- The function of the descent for a nonterminal. -/
def parse : Nonterminal → Nat → Cursor → Option (Except Panic (Cmd × Cursor))
  | .line => parseline
  | .pipe => parsepipe
  | .exec => parseexec

/-- The tokens that may stand behind a nonterminal. -/
def Nonterminal.follow : Nonterminal → Kind → Bool
  | .line, k => k == .rpar
  | .pipe, k => k == .rpar || k == .amp || k == .semi
  | .exec, k => k.isEnd

/-- A `&` may stand behind a pipe. -/
theorem Ahead.amps {p : Kind → Bool} {amps : List Token} (ahead : Ahead p rest)
    (only : ∀ t ∈ amps, t.kind = .amp)
    (weaker : ∀ k, p k = true → Nonterminal.follow .pipe k = true) :
    Ahead (Nonterminal.follow .pipe) (amps ++ rest) := by
  cases amps with
  | nil => exact ahead.mono weaker
  | cons amp amps =>
    intro t first
    cases first
    rw [only amp List.mem_cons_self]
    rfl

/-- What `parsepipe` does behind the first command. -/
def pipeTail (r : Cmd × Cursor) (fuel : Nat) : Option (Except Panic (Cmd × Cursor)) :=
  if r.2.next.any (· == .bar) then
    andThen (parsepipe fuel r.2.after) fun r' => some (.ok (.pipe r.1 r'.1, r'.2))
  else some (.ok (r.1, r.2.skipBlanks))

theorem pipeTail_more {r : Cmd × Cursor} (bar : r.2.next.any (· == .bar) = true) :
    pipeTail r = fun fuel =>
      andThen (parsepipe fuel r.2.after) fun r' => some (.ok (.pipe r.1 r'.1, r'.2)) :=
  funext fun _ => if_pos bar

theorem pipeTail_done {r : Cmd × Cursor} (noBar : ¬ r.2.next.any (· == .bar) = true) :
    pipeTail r = fun _ => some (.ok (r.1, r.2.skipBlanks)) :=
  funext fun _ => if_neg noBar

/-- What `parseline` does behind the pipe and its `&`. -/
def lineTail (r : Cmd × Cursor) (fuel : Nat) : Option (Except Panic (Cmd × Cursor)) :=
  if r.2.next.any (· == .semi) then
    andThen (parseline fuel r.2.after) fun r' => some (.ok (.list r.1 r'.1, r'.2))
  else some (.ok (r.1, r.2.skipBlanks))

theorem lineTail_more {r : Cmd × Cursor} (semi : r.2.next.any (· == .semi) = true) :
    lineTail r = fun fuel =>
      andThen (parseline fuel r.2.after) fun r' => some (.ok (.list r.1 r'.1, r'.2)) :=
  funext fun _ => if_pos semi

theorem lineTail_done {r : Cmd × Cursor} (noSemi : ¬ r.2.next.any (· == .semi) = true) :
    lineTail r = fun _ => some (.ok (r.1, r.2.skipBlanks)) :=
  funext fun _ => if_neg noSemi

/-- What `parseline` does behind the pipe. -/
def lineRest (r : Cmd × Cursor) (fuel : Nat) : Option (Except Panic (Cmd × Cursor)) :=
  andThen (backLoop fuel r.1 r.2) fun r => lineTail r fuel

theorem parse_complete {n : Nonterminal} (derived : Derives n ts cmd)
    (split : s.tokens = ts ++ rest) (ahead : Ahead n.follow rest) :
    ∃ s', Settles (fun fuel => parse n fuel s) (.ok (cmd, s')) ∧ s'.tokens = rest := by
  induction derived generalizing s rest with
  | @block v w ts us cmd rs line redirs ih =>
    rw [List.cons_append, List.append_assoc, List.cons_append] at split
    obtain ⟨-, -, tail⟩ := next_of_tokens split
    have opens : s.next.any (· == .lpar) = true := any_of_tokens split rfl
    have opens' : s.skipBlanks.next.any (· == .lpar) = true := by
      rw [Cursor.next_skipBlanks]
      exact opens
    obtain ⟨s₁, inner, tail₁⟩ := ih tail (fun t first => by cases first; rfl)
    obtain ⟨-, -, tail₂⟩ := next_of_tokens tail₁
    have closes : s₁.next.any (· == .rpar) = true := any_of_tokens tail₁ rfl
    obtain ⟨s', outer, final⟩ := parseredirs_complete cmd redirs tail₂
      (ahead.mono fun k => by cases k <;> decide)
    have second : Settles (fun fuel => if s₁.next.any (· == .rpar) then
        parseredirs fuel cmd s₁.after else some (.error .missingParen))
        (.ok (cmd.redirected rs, s')) := by
      rw [closes]
      exact outer
    refine ⟨s', Settles.turn ((inner.andThen_ok (h := fun r fuel =>
      if r.2.next.any (· == .rpar) then parseredirs fuel r.1 r.2.after
      else some (.error .missingParen)) second).turn
        (f := fun fuel => parseblock fuel s.skipBlanks) fun fuel => ?_) fun fuel => ?_, final⟩
    · rw [parseblock_turn, if_pos opens', Cursor.after_skipBlanks]
      rfl
    · show parseexec (fuel + 1) s = _
      rw [parseexec_turn, if_pos opens]
  | @simple ts us ws rs rs' redirs args few =>
    rw [List.append_assoc] at split
    have noParen : ¬ s.next.any (· == .lpar) = true := by
      refine Ahead.any (p := fun k => k != .lpar) ?_ fun k => by cases k <;> decide
      rw [split]
      refine redirs.ahead (args.ahead (ahead.mono fun k => ?_) rfl) fun k => ?_
      · cases k <;> decide
      · cases k <;> decide
    have behind : Ahead (fun k => !k.isRedir) (us ++ rest) :=
      args.ahead (ahead.mono fun k => by cases k <;> decide) rfl
    have split' : s.skipBlanks.tokens = ts ++ (us ++ rest) := by
      rw [Cursor.tokens_skipBlanks]
      exact split
    obtain ⟨s₁, first, tail₁⟩ := parseredirs_complete (.exec []) redirs split' behind
    obtain ⟨s', second, final⟩ := argLoop_complete 0 [] rs args tail₁
      ahead (by omega)
    refine ⟨s', (first.andThen_ok (h := fun r fuel => argLoop fuel r.1 0 r.2) second).turn
      fun fuel => ?_, final⟩
    show parseexec (fuel + 1) s = _
    rw [parseexec_turn, if_neg noParen]
  | @one ts cmd exec ih =>
    obtain ⟨s₁, first, tail₁⟩ := ih split (ahead.mono fun k => by cases k <;> decide)
    have noBar : ¬ s₁.next.any (· == .bar) = true := by
      refine Ahead.any (p := Nonterminal.follow .pipe) ?_ fun k => by cases k <;> decide
      rw [tail₁]
      exact ahead
    have second : Settles (pipeTail (cmd, s₁)) (.ok (cmd, s₁.skipBlanks)) := by
      rw [pipeTail_done noBar]
      exact Settles.pure _
    refine ⟨s₁.skipBlanks, (first.andThen_ok second).turn fun fuel => parsepipe_turn, ?_⟩
    rw [Cursor.tokens_skipBlanks, tail₁]
  | @pipe v ts us left right exec more ih ih' =>
    rw [List.append_assoc] at split
    obtain ⟨s₁, first, tail₁⟩ := ih split (fun t first => by cases first; rfl)
    obtain ⟨-, -, tail₂⟩ := next_of_tokens tail₁
    obtain ⟨s₂, inner, tail₃⟩ := ih' tail₂ ahead
    have second : Settles (pipeTail (left, s₁)) (.ok (.pipe left right, s₂)) := by
      rw [pipeTail_more (any_of_tokens tail₁ rfl)]
      exact inner.andThen_ok (Settles.pure _)
    exact ⟨s₂, (first.andThen_ok second).turn fun fuel => parsepipe_turn, tail₃⟩
  | @last ts amps cmd pipe only ih =>
    rw [List.append_assoc] at split
    obtain ⟨s₁, first, tail₁⟩ := ih split (ahead.amps only fun k => by cases k <;> decide)
    obtain ⟨s₂, second, tail₂⟩ := backLoop_complete cmd only tail₁
      (ahead.mono fun k => by cases k <;> decide)
    have noSemi : ¬ s₂.next.any (· == .semi) = true := by
      refine Ahead.any (p := Nonterminal.follow .line) ?_ fun k => by cases k <;> decide
      rw [tail₂]
      exact ahead
    have third : Settles (lineTail (cmd.backs amps.length, s₂))
        (.ok (cmd.backs amps.length, s₂.skipBlanks)) := by
      rw [lineTail_done noSemi]
      exact Settles.pure _
    refine ⟨s₂.skipBlanks, (first.andThen_ok (h := lineRest) (second.andThen_ok third)).turn
      fun fuel => parseline_turn, ?_⟩
    rw [Cursor.tokens_skipBlanks, tail₂]
  | @list v ts amps us cmd right pipe only more ih ih' =>
    rw [List.append_assoc, List.append_assoc] at split
    have behind : Ahead (fun k => k != .amp) (⟨.semi, v⟩ :: us ++ rest) :=
      fun t first => by cases first; rfl
    have behind' : Ahead (fun k => k == .semi) (⟨.semi, v⟩ :: us ++ rest) :=
      fun t first => by cases first; rfl
    obtain ⟨s₁, first, tail₁⟩ := ih split (behind'.amps only fun k => by cases k <;> decide)
    obtain ⟨s₂, second, tail₂⟩ := backLoop_complete cmd only tail₁ behind
    obtain ⟨-, -, tail₃⟩ := next_of_tokens tail₂
    obtain ⟨s₃, inner, tail₄⟩ := ih' tail₃ ahead
    have third : Settles (lineTail (cmd.backs amps.length, s₂))
        (.ok (.list (cmd.backs amps.length) right, s₃)) := by
      rw [lineTail_more (any_of_tokens tail₂ rfl)]
      exact inner.andThen_ok (Settles.pure _)
    exact ⟨s₃, (first.andThen_ok (h := lineRest) (second.andThen_ok third)).turn
      fun fuel => parseline_turn, tail₄⟩

/-! ## The descent ends -/

theorem parseredirs_ends (cmd : Cmd) (s : Cursor) : Ends fun fuel => parseredirs fuel cmd s := by
  induction size : s.rest.length using Nat.strongRecOn generalizing cmd s with
  | _ size' ih =>
    subst size
    by_cases more : s.next.any Kind.isRedir = true
    · obtain ⟨k, found, -⟩ := any_eq_true more
      by_cases file : s.after.next = some .word
      · have less := after_length found
        have less' := after_length file
        refine (ih _ (by omega) (redirect s.next cmd s.after.word) s.after.after rfl).turn
          fun fuel => ?_
        rw [parseredirs_turn, if_pos more, if_neg (not_not.mpr file)]
      · refine Settles.ends ((Settles.pure (.error .missingFile)).turn fun fuel => ?_)
        rw [parseredirs_turn, if_pos more, if_pos file]
    · refine Settles.ends ((Settles.pure (.ok (cmd, s.skipBlanks))).turn fun fuel => ?_)
      rw [parseredirs_turn, if_neg more]

theorem backLoop_ends (cmd : Cmd) (s : Cursor) : Ends fun fuel => backLoop fuel cmd s := by
  induction size : s.rest.length using Nat.strongRecOn generalizing cmd s with
  | _ size' ih =>
    subst size
    by_cases more : s.next.any (· == .amp) = true
    · refine (ih _ (after_length (any_beq more)) (.back cmd) s.after rfl).turn fun fuel => ?_
      rw [backLoop_turn, if_pos more]
    · refine Settles.ends ((Settles.pure (.ok (cmd, s.skipBlanks))).turn fun fuel => ?_)
      rw [backLoop_turn, if_neg more]

theorem argLoop_ends (cmd : Cmd) (argc : Nat) (s : Cursor) :
    Ends fun fuel => argLoop fuel cmd argc s := by
  induction size : s.rest.length using Nat.strongRecOn generalizing cmd argc s with
  | _ size' ih =>
    subst size
    cases found : s.next with
    | none =>
      refine Settles.ends ((Settles.pure (.ok (cmd, s.skipBlanks))).turn fun fuel => ?_)
      rw [argLoop_turn, found]
    | some k =>
      by_cases word : k = .word
      · subst word
        by_cases many : maxargs ≤ argc + 1
        · refine Settles.ends ((Settles.pure (.error .tooManyArgs)).turn fun fuel => ?_)
          rw [argLoop_turn, found]
          exact if_pos many
        · have loops : Ends fun fuel => andThen (parseredirs fuel (cmd.addArg s.word) s.after)
              fun r => argLoop fuel r.1 (argc + 1) r.2 := by
            refine (parseredirs_ends (cmd.addArg s.word) s.after).andThen
              (h := fun r fuel => argLoop fuel r.1 (argc + 1) r.2) fun r fuel redirs => ?_
            have shorter := (parseredirs_sound redirs).1
            exact ih _ (Nat.lt_of_le_of_lt shorter (after_length found)) _ _ _ rfl
          refine loops.turn fun fuel => ?_
          rw [argLoop_turn, found]
          exact if_neg many
      · refine Settles.ends ((Settles.pure (if k.isEnd then .ok (cmd, s.skipBlanks)
          else .error .syntaxError)).turn fun fuel => ?_)
        rw [argLoop_turn, found]
        cases k <;> first | rfl | exact absurd rfl word

/-- The call of `parseline` inside a block is for a shorter rest. -/
theorem parseblock_ends (shorter : ∀ s', s'.rest.length < s.rest.length →
    Ends fun fuel => parseline fuel s') : Ends fun fuel => parseblock fuel s := by
  by_cases opens : s.next.any (· == .lpar) = true
  · have inner : Ends fun fuel => andThen (parseline fuel s.after) fun r =>
        if r.2.next.any (· == .rpar) then parseredirs fuel r.1 r.2.after
        else some (.error .missingParen) := by
      refine (shorter s.after (after_length (any_beq opens))).andThen (h := fun r fuel =>
        if r.2.next.any (· == .rpar) then parseredirs fuel r.1 r.2.after
        else some (.error .missingParen)) fun r fuel line => ?_
      by_cases closes : r.2.next.any (· == .rpar) = true
      · simp only [closes, if_true]
        exact parseredirs_ends r.1 r.2.after
      · simp only [closes]
        exact (Settles.pure _).ends
    refine inner.turn fun fuel => ?_
    rw [parseblock_turn, if_pos opens]
  · refine Settles.ends ((Settles.pure (.error .parseblock)).turn fun fuel => ?_)
    rw [parseblock_turn, if_neg opens]

theorem parseexec_ends (shorter : ∀ s', s'.rest.length < s.rest.length →
    Ends fun fuel => parseline fuel s') : Ends fun fuel => parseexec fuel s := by
  by_cases opens : s.next.any (· == .lpar) = true
  · refine (parseblock_ends (s := s.skipBlanks) fun s' less => shorter s' ?_).turn fun fuel => ?_
    · exact Nat.lt_of_lt_of_le less s.skipBlanks_length
    · rw [parseexec_turn, if_pos opens]
  · refine ((parseredirs_ends (.exec []) s.skipBlanks).andThen
      (h := fun r fuel => argLoop fuel r.1 0 r.2) fun r fuel redirs =>
        argLoop_ends r.1 0 r.2).turn fun fuel => ?_
    rw [parseexec_turn, if_neg opens]

theorem parsepipe_ends (shorter : ∀ s', s'.rest.length < s.rest.length →
    Ends fun fuel => parseline fuel s') : Ends fun fuel => parsepipe fuel s := by
  induction size : s.rest.length using Nat.strongRecOn generalizing s with
  | _ size' ih =>
    subst size
    refine ((parseexec_ends shorter).andThen (h := pipeTail) fun r fuel exec => ?_).turn
      fun fuel => parsepipe_turn
    have less : r.2.rest.length ≤ s.rest.length := ((sound fuel).exec _ _ _ exec).1
    by_cases bar : r.2.next.any (· == .bar) = true
    · have less' := after_length (any_beq bar)
      have rest : Ends fun fuel => parsepipe fuel r.2.after :=
        ih _ (by omega) (fun s' less'' => shorter s' (by omega)) rfl
      rw [pipeTail_more bar]
      exact rest.andThen fun r' fuel pipe => (Settles.pure _).ends
    · rw [pipeTail_done bar]
      exact (Settles.pure _).ends

theorem parseline_ends (s : Cursor) : Ends fun fuel => parseline fuel s := by
  induction size : s.rest.length using Nat.strongRecOn generalizing s with
  | _ size' ih =>
    subst size
    have shorter : ∀ s', s'.rest.length < s.rest.length → Ends fun fuel => parseline fuel s' :=
      fun s' less => ih _ less s' rfl
    refine ((parsepipe_ends shorter).andThen (h := lineRest) fun r fuel pipe => ?_).turn
      fun fuel => parseline_turn
    have less : r.2.rest.length ≤ s.rest.length := ((sound fuel).pipe _ _ _ pipe).1
    refine (backLoop_ends r.1 r.2).andThen (h := lineTail) fun r' fuel back => ?_
    have less' : r'.2.rest.length ≤ r.2.rest.length := (backLoop_sound back).1
    by_cases semi : r'.2.next.any (· == .semi) = true
    · have less'' := after_length (any_beq semi)
      have rest : Ends fun fuel => parseline fuel r'.2.after := shorter _ (by omega)
      rw [lineTail_more semi]
      exact rest.andThen fun r'' fuel line => (Settles.pure _).ends
    · rw [lineTail_done semi]
      exact (Settles.pure _).ends

/-! ## Command lines -/

/-- What `parsecmd` does with the result of `parseline`. -/
def finish (s : List Chr) (r : Cmd × Cursor) (_fuel : Nat) :
    Option (Except Panic (Cmd × (Nat → UInt8))) :=
  if r.2.next = none then some (.ok (r.1, nulterminate r.1 (buffer s)))
  else some (.error .syntaxError)

theorem parsecmd_eq (s : List Chr) :
    parsecmd s = fun fuel => andThen (parseline fuel ⟨0, s⟩) fun r => finish s r fuel := by
  funext fuel
  rw [parsecmd]
  congr 1
  funext r
  cases found : r.2.next with
  | none =>
    have finished := (gettoken_end found).2.1
    simp [finish, found, finished]
  | some k =>
    have going : r.2.skipBlanks.rest ≠ [] := by
      intro finished
      have empty : r.2.tokens = [] := by
        rw [← Cursor.tokens_skipBlanks, Cursor.tokens, finished, tokens]
      rw [tokens_cons found] at empty
      cases empty
    simp [finish, found, going]

theorem parsecmd_ends (s : List Chr) : Ends (parsecmd s) := by
  rw [parsecmd_eq]
  refine (parseline_ends ⟨0, s⟩).andThen fun r fuel line => ?_
  by_cases last : r.2.next = none
  · exact ⟨.ok (r.1, nulterminate r.1 (buffer s)), 0, fun _ _ => if_pos last⟩
  · exact ⟨.error .syntaxError, 0, fun _ _ => if_neg last⟩

/-- What is returned is the tree of a derivation and the string with its terminators. -/
theorem parsecmd_sound {s : List Chr} {buf : Nat → UInt8}
    (found : parsecmd s fuel = some (.ok (cmd, buf))) :
    Derives .line (tokens 0 s) cmd ∧ buf = nulterminate cmd (buffer s) := by
  rw [parsecmd_eq] at found
  obtain ⟨⟨cmd', s'⟩, line, found⟩ := andThen_ok_iff.mp found
  obtain ⟨-, ts, derived, split⟩ := (sound fuel).line _ _ _ line
  unfold finish at found
  dsimp only at found
  split_ifs at found with last
  · cases found
    rw [tokens_end last, List.append_nil] at split
    refine ⟨?_, rfl⟩
    rw [← split] at derived
    exact derived
  · cases found

theorem parsecmd_complete {s : List Chr} (derived : Derives .line (tokens 0 s) cmd) :
    Settles (parsecmd s) (.ok (cmd, nulterminate cmd (buffer s))) := by
  have start : Cursor.tokens ⟨0, s⟩ = tokens 0 s ++ [] := (List.append_nil _).symm
  obtain ⟨s', settles, empty⟩ := parse_complete derived start fun t first => by cases first
  have last : s'.next = none := by
    rw [Cursor.next, empty]
    rfl
  rw [parsecmd_eq]
  exact settles.andThen_ok ⟨0, fun _ _ => if_pos last⟩

/-- The parser ends on every string, and the trees that it returns are the trees of the
derivations of the tokens. -/
theorem parsecmd_grammar (s : List Chr) : (∃ r, Settles (parsecmd s) r) ∧
    ∀ cmd, (∃ buf, Settles (parsecmd s) (.ok (cmd, buf))) ↔ Derives .line (tokens 0 s) cmd := by
  refine ⟨parsecmd_ends s, fun cmd => ⟨?_, fun derived => ⟨_, parsecmd_complete derived⟩⟩⟩
  rintro ⟨buf, fuel, enough⟩
  exact (parsecmd_sound (enough fuel (Nat.le_refl fuel))).1

end RandomRepo.Xv6.Sh
