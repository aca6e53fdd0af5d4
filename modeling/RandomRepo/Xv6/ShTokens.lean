import RandomRepo.Xv6.Sh

/-!
# The tokens of a command line

`tokens` says what the tokens of a string are, without a cursor: symbols, with `>>`
as one, and longest runs of other characters.  `gettoken` gives them one by one, and
`peek` looks at the first character of the next one.
-/

namespace RandomRepo.Xv6.Sh

structure Token where
  kind : Kind
  word : Word
  deriving DecidableEq, Repr

/-- The tokens of a string that starts at position `pos`. -/
def tokens (pos : Nat) (s : List Chr) : List Token :=
  match s with
  | [] => []
  | c :: rest =>
    if isBlank c.val then tokens (pos + 1) rest
    else if c.val = ascii '>' ∧ (rest.head?).map Subtype.val = some (ascii '>') then
      ⟨.append, pos, pos + 2⟩ :: tokens (pos + 2) rest.tail
    else
      match symbolKind c.val with
      | some k => ⟨k, pos, pos + 1⟩ :: tokens (pos + 1) rest
      | none =>
        let len := (rest.takeWhile fun c => isWordChar c.val).length
        ⟨.word, pos, pos + 1 + len⟩ :: tokens (pos + 1 + len) (rest.drop len)
  termination_by s.length
  decreasing_by
    all_goals simp only [List.length_cons, List.length_tail, List.length_drop]
    all_goals omega

def Cursor.tokens (s : Cursor) : List Token := Sh.tokens s.pos s.rest

/-- The kind of the next token. -/
def Cursor.next (s : Cursor) : Option Kind := s.tokens.head?.map Token.kind

/-- Behind the next token. -/
def Cursor.after (s : Cursor) : Cursor := (gettoken s).2.2

/-- The first character of a symbol. -/
def Kind.char : Kind → UInt8
  | .bar => ascii '|'
  | .lpar => ascii '('
  | .rpar => ascii ')'
  | .semi => ascii ';'
  | .amp => ascii '&'
  | .lt => ascii '<'
  | .gt => ascii '>'
  | .append => ascii '>'
  | .word => 0

variable {s : Cursor} {c : Chr} {rest : List Chr} {pos : Nat} {k : Kind} {toks : List UInt8}

/-! ## Skipping -/

theorem skipWhile_eq (p : UInt8 → Bool) (pos : Nat) (s : List Chr) : skipWhile p pos s =
    ⟨pos + (s.takeWhile fun c => p c.val).length, s.drop (s.takeWhile fun c => p c.val).length⟩ := by
  induction s generalizing pos with
  | nil => rfl
  | cons c rest ih =>
    rw [skipWhile]
    cases holds : p c.val with
    | false => simp [holds]
    | true =>
      rw [if_pos rfl, ih]
      simp only [List.takeWhile_cons, holds, if_true, List.length_cons, List.drop_succ_cons]
      congr 1
      omega

theorem skipWhile_length (p : UInt8 → Bool) (pos : Nat) (s : List Chr) :
    (skipWhile p pos s).rest.length ≤ s.length := by
  rw [skipWhile_eq]
  simp only [List.length_drop]
  omega

theorem Cursor.skipBlanks_length (s : Cursor) : s.skipBlanks.rest.length ≤ s.rest.length :=
  skipWhile_length _ _ _

/-- Where skipping stops there is no blank. -/
theorem skipWhile_head {p : UInt8 → Bool} {s : List Chr}
    (stops : (skipWhile p pos s).rest = c :: rest) : p c.val = false := by
  induction s generalizing pos with
  | nil => cases stops
  | cons d s ih =>
    rw [skipWhile] at stops
    cases holds : p d.val with
    | false =>
      rw [holds, if_neg Bool.false_ne_true] at stops
      cases stops
      exact holds
    | true =>
      rw [holds, if_pos rfl] at stops
      exact ih stops

theorem tokens_skipWhile (pos : Nat) (s : List Chr) :
    (skipWhile isBlank pos s).tokens = tokens pos s := by
  induction s generalizing pos with
  | nil => rfl
  | cons c rest ih =>
    rw [skipWhile]
    cases blank : isBlank c.val with
    | false => rfl
    | true =>
      rw [if_pos rfl, ih, tokens, if_pos blank]

@[simp] theorem Cursor.tokens_skipBlanks (s : Cursor) : s.skipBlanks.tokens = s.tokens :=
  tokens_skipWhile _ _

@[simp] theorem Cursor.next_skipBlanks (s : Cursor) : s.skipBlanks.next = s.next := by
  rw [Cursor.next, Cursor.tokens_skipBlanks, Cursor.next]

theorem skipWhile_idem (p : UInt8 → Bool) (pos : Nat) (s : List Chr) :
    skipWhile p (skipWhile p pos s).pos (skipWhile p pos s).rest = skipWhile p pos s := by
  induction s generalizing pos with
  | nil => rfl
  | cons c rest ih =>
    rw [skipWhile]
    cases holds : p c.val with
    | false =>
      rw [if_neg Bool.false_ne_true, skipWhile, holds, if_neg Bool.false_ne_true]
    | true =>
      rw [if_pos rfl]
      exact ih (pos + 1)

@[simp] theorem Cursor.skipBlanks_idem (s : Cursor) : s.skipBlanks.skipBlanks = s.skipBlanks :=
  skipWhile_idem _ _ _

/-- `gettoken` skips blanks itself. -/
@[simp] theorem gettoken_skipBlanks (s : Cursor) : gettoken s.skipBlanks = gettoken s := by
  rw [gettoken, gettoken, Cursor.skipBlanks_idem]

@[simp] theorem Cursor.after_skipBlanks (s : Cursor) : s.skipBlanks.after = s.after := by
  rw [Cursor.after, gettoken_skipBlanks, Cursor.after]

/-! ## Symbols -/

theorem symbolKind_char (found : symbolKind c.val = some k) :
    c.val = k.char ∧ k ≠ .word ∧ k ≠ .append := by
  unfold symbolKind at found
  split_ifs at found with h h h h h h h
  all_goals
    cases found
    exact ⟨h, by decide, by decide⟩

theorem symbolKind_none (none_ : symbolKind c.val = none) : symbols.contains c.val = false := by
  unfold symbolKind at none_
  split_ifs at none_ with h₁ h₂ h₃ h₄ h₅ h₆ h₇
  simp [symbols, h₁, h₂, h₃, h₄, h₅, h₆, h₇]

/-- A character that starts a word. -/
theorem isWordChar_of_none (none_ : symbolKind c.val = none) (solid : isBlank c.val = false) :
    isWordChar c.val = true := by
  rw [isWordChar, solid, symbolKind_none none_]
  rfl

/-! ## `gettoken` -/

/-- What `gettoken` does at a character that is not blank. -/
theorem gettoken_solid (pos : Nat) (rest : List Chr) (solid : isBlank c.val = false) :
    ∃ t s', tokens pos (c :: rest) = t :: s'.tokens ∧
      gettoken ⟨pos, c :: rest⟩ = (some t.kind, t.word, s') ∧ s'.rest.length ≤ rest.length ∧
      (t.kind = .word ∧ symbolKind c.val = none ∨ t.kind ≠ .word ∧ t.kind.char = c.val) := by
  have here : Cursor.skipBlanks ⟨pos, c :: rest⟩ = ⟨pos, c :: rest⟩ := by
    rw [Cursor.skipBlanks, skipWhile, solid, if_neg Bool.false_ne_true]
  rw [gettoken, here, tokens, solid, if_neg Bool.false_ne_true]
  dsimp only
  cases found : symbolKind c.val with
  | none =>
    have word : isWordChar c.val = true := isWordChar_of_none found solid
    have notGt : ¬ (c.val = ascii '>' ∧ (rest.head?).map Subtype.val = some (ascii '>')) := by
      rintro ⟨gt, -⟩
      rw [gt] at found
      exact absurd found (by decide)
    rw [if_neg notGt]
    refine ⟨⟨.word, pos, (skipWhile isWordChar pos (c :: rest)).pos⟩, _, ?_, rfl, ?_,
      .inl ⟨rfl, rfl⟩⟩
    · rw [Cursor.tokens_skipBlanks, skipWhile_eq]
      simp only [List.takeWhile_cons, word, if_true, List.length_cons, List.drop_succ_cons,
        Cursor.tokens]
      rw [Nat.add_assoc, Nat.add_comm 1]
    · refine Nat.le_trans (Cursor.skipBlanks_length _) ?_
      rw [skipWhile, word, if_pos rfl]
      exact skipWhile_length _ _ _
  | some k =>
    obtain ⟨char, notWord, notAppend⟩ := symbolKind_char found
    dsimp only
    by_cases gt : k = .gt
    · subst gt
      dsimp only
      cases rest with
      | nil =>
        rw [if_neg (fun both => by cases both.2)]
        exact ⟨⟨.gt, pos, pos + 1⟩, _, by rw [Cursor.tokens_skipBlanks]; rfl, rfl,
          Cursor.skipBlanks_length _, .inr ⟨notWord, char.symm⟩⟩
      | cons d rest' =>
        dsimp only
        by_cases double : d.val = ascii '>'
        · rw [if_pos ⟨char, congrArg some double⟩, if_pos double]
          exact ⟨⟨.append, pos, pos + 2⟩, _, by rw [Cursor.tokens_skipBlanks]; rfl, rfl,
            Nat.le_trans (Cursor.skipBlanks_length _) (Nat.le_succ _),
            .inr ⟨Kind.noConfusion, char.symm⟩⟩
        · rw [if_neg (fun both => double (Option.some.inj both.2)), if_neg double]
          exact ⟨⟨.gt, pos, pos + 1⟩, _, by rw [Cursor.tokens_skipBlanks]; rfl, rfl,
            Cursor.skipBlanks_length _, .inr ⟨notWord, char.symm⟩⟩
    · have notGt : ¬ (c.val = ascii '>' ∧ (rest.head?).map Subtype.val = some (ascii '>')) := by
        rintro ⟨isGt, -⟩
        rw [char] at isGt
        cases k <;> first | exact gt rfl | exact absurd isGt (by decide) | exact notAppend rfl
      rw [if_neg notGt]
      refine ⟨⟨k, pos, pos + 1⟩, Cursor.skipBlanks ⟨pos + 1, rest⟩, ?_, ?_,
        Cursor.skipBlanks_length _, .inr ⟨notWord, char.symm⟩⟩
      · rw [Cursor.tokens_skipBlanks]
        rfl
      · cases k <;> first | rfl | exact absurd rfl gt

/-- At the end of the string. -/
theorem gettoken_end (none_ : s.next = none) :
    s.tokens = [] ∧ s.skipBlanks.rest = [] ∧ (gettoken s).1 = none ∧
      (gettoken s).2.2 = s.skipBlanks := by
  have empty : s.tokens = [] := by
    rw [Cursor.next] at none_
    exact List.head?_eq_none_iff.mp (Option.map_eq_none_iff.mp none_)
  have finished : s.skipBlanks.rest = [] := by
    cases stops : s.skipBlanks.rest with
    | nil => rfl
    | cons c rest =>
      have solid : isBlank c.val = false := skipWhile_head stops
      obtain ⟨t, s', split, -⟩ := gettoken_solid s.skipBlanks.pos rest solid
      have same : s.tokens = tokens s.skipBlanks.pos (c :: rest) := by
        rw [← Cursor.tokens_skipBlanks, Cursor.tokens, stops]
      rw [empty, split] at same
      cases same
  refine ⟨empty, finished, ?_, ?_⟩
  · rw [gettoken]
    dsimp only
    rw [finished]
  · rw [gettoken]
    dsimp only
    rw [finished]

/-- The next token. -/
theorem gettoken_next (found : s.next = some k) : ∃ w, s.tokens = ⟨k, w⟩ :: s.after.tokens ∧
    gettoken s = (some k, w, s.after) ∧ s.after.rest.length < s.rest.length := by
  cases stops : s.skipBlanks.rest with
  | nil =>
    have empty : s.tokens = [] := by
      rw [← Cursor.tokens_skipBlanks, Cursor.tokens, stops, tokens]
    rw [Cursor.next, empty] at found
    cases found
  | cons c rest =>
    have solid : isBlank c.val = false := skipWhile_head stops
    obtain ⟨t, s', split, token, shorter, -⟩ :=
      gettoken_solid s.skipBlanks.pos rest solid
    have here : s.skipBlanks = ⟨s.skipBlanks.pos, c :: rest⟩ := by rw [← stops]
    have same : s.tokens = t :: s'.tokens := by
      rw [← split, ← Cursor.tokens_skipBlanks, here]
      rfl
    rw [← here, gettoken_skipBlanks] at token
    have kind : t.kind = k := by
      rw [Cursor.next, same] at found
      exact Option.some.inj found
    have after : s.after = s' := by rw [Cursor.after, token]
    subst kind
    refine ⟨t.word, by rw [after]; exact same, by rw [after]; exact token, ?_⟩
    have length := s.skipBlanks_length
    rw [stops, List.length_cons] at length
    rw [after]
    omega

/-! ## `peek` -/

@[simp] theorem peek_snd (s : Cursor) (toks : List UInt8) : (peek s toks).2 = s.skipBlanks := by
  unfold peek
  dsimp only
  cases s.skipBlanks.rest <;> rfl

/-- `peek` tells by its first character whether the next token is one of some symbols. -/
theorem peek_fst (only : ∀ c ∈ toks, c ∈ symbols) : (peek s toks).1 =
    (s.next.map fun k => decide (k ≠ .word) && toks.contains k.char).getD false := by
  unfold peek
  dsimp only
  cases stops : s.skipBlanks.rest with
  | nil =>
    have empty : s.tokens = [] := by
      rw [← Cursor.tokens_skipBlanks, Cursor.tokens, stops, tokens]
    rw [Cursor.next, empty]
    rfl
  | cons c rest =>
    have solid : isBlank c.val = false := skipWhile_head stops
    obtain ⟨t, s', split, -, -, first⟩ :=
      gettoken_solid s.skipBlanks.pos rest solid
    have next : s.next = some t.kind := by
      rw [← Cursor.next_skipBlanks, Cursor.next, Cursor.tokens, stops, split]
      rfl
    rw [next, Option.map_some, Option.getD_some]
    dsimp only
    rcases first with ⟨word, none_⟩ | ⟨notWord, char⟩
    · have outside : toks.contains c.val = false := by
        have := symbolKind_none none_
        rw [Bool.eq_false_iff] at this ⊢
        intro inside
        exact this (List.contains_iff_mem.mpr (only _ (List.contains_iff_mem.mp inside)))
      rw [outside, word]
      rfl
    · rw [char, decide_eq_true notWord, Bool.true_and]

end RandomRepo.Xv6.Sh
